import HardwareMap.Proofs.Region.Reads

/-!
# What a reader accepts

`Reads` says what a reader makes of given bytes.  `Accepts` is about the other direction: whatever a
reader answers, it has passed over bytes of a certain form, and that form may depend on the answer.
A form that determines the bytes leaves one way to store each answer.
-/

namespace HardwareMap

variable {α β : Type}

/-- Wherever the reader answers, it passes over bytes of the given form for its answer. -/
def Accepts (m : Reader α) (form : α → Bytes → Prop) : Prop :=
  ∀ (bytes : Bytes) (cursor : Nat) (a : α) (stop : Nat), m bytes cursor = .ok a stop →
    ∃ data rest, bytes.drop cursor = data ++ rest ∧ stop = cursor + data.length ∧ form a data

namespace Accepts

variable {form : α → Bytes → Prop} {goal : β → Bytes → Prop}

theorem mono {goal : α → Bytes → Prop} {m : Reader α} (hm : Accepts m form)
    (h : ∀ a x, form a x → goal a x) : Accepts m goal := by
  intro bytes cursor a stop hok
  obtain ⟨data, rest, hdrop, hstop, hform⟩ := hm bytes cursor a stop hok
  exact ⟨data, rest, hdrop, hstop, h a data hform⟩

theorem pure {a : α} (h : form a []) : Accepts (Pure.pure a) form := by
  rintro bytes cursor _ _ ⟨⟩
  exact ⟨[], bytes.drop cursor, rfl, rfl, h⟩

theorem fail (offset : Nat) (fault : Malformed) : Accepts (Reader.fail offset fault) form := by
  rintro bytes cursor _ _ ⟨⟩

/-- What a sequence passes over is what the first step passes over and then the second one. -/
theorem bind {m : Reader α} {f : α → Reader β} (hm : Accepts m form)
    (hf : ∀ a x, form a x → Accepts (f a) fun b y => goal b (x ++ y)) :
    Accepts (m >>= f) goal := by
  intro bytes cursor b stop hok
  obtain ⟨a, middle, hfirst, hlast⟩ := Reader.bind_eq_ok.1 hok
  obtain ⟨x, tail, hx, rfl, hform⟩ := hm bytes cursor a middle hfirst
  obtain ⟨y, rest, hy, rfl, hgoal⟩ := hf a x hform bytes (cursor + x.length) b stop hlast
  refine ⟨x ++ y, rest, ?_, by rw [List.length_append, Nat.add_assoc], hgoal⟩
  rw [← List.drop_drop, hx, List.drop_left] at hy
  rw [hx, hy, List.append_assoc]

theorem position {f : Nat → Reader β} (hf : ∀ start, Accepts (f start) goal) :
    Accepts (Reader.position >>= f) goal := by
  intro bytes cursor b stop hok
  obtain ⟨_, _, ⟨⟩, hlast⟩ := Reader.bind_eq_ok.1 hok
  exact hf cursor bytes cursor b stop hlast

end Accepts

namespace Reader

/-- Every string of its width is the stored form of one word. -/
theorem accepts_word [Word α] : Accepts (word α) fun a x => x = Word.toBytes a := by
  intro bytes cursor a stop hok
  obtain ⟨-, hle, rfl, rfl⟩ := word_eq_ok.1 hok
  have hlen := Bytes.length_slice hle
  refine ⟨bytes.slice cursor (Word.width α), bytes.drop (cursor + Word.width α), ?_, ?_, ?_⟩
  · rw [Bytes.slice, ← List.drop_drop, List.take_append_drop]
  · rw [hlen]
  · exact (Word.toBytes_ofBytes hlen).symm

theorem accepts_text : Accepts text fun t x => Utf8.hasNul t = false ∧ x = Utf8.stored t := by
  intro bytes cursor t stop hok
  obtain ⟨body, rest, hdrop, hfree, hdecode, -, rfl⟩ := text_eq_ok.1 hok
  have hbody : Utf8.encode t = body := Utf8.encode_of_decode? hdecode
  subst hbody
  refine ⟨Utf8.stored t, rest, ?_, ?_, ?_, rfl⟩
  · rw [hdrop, Utf8.stored, List.append_assoc]
    rfl
  · rw [Utf8.stored, List.length_append]
    rfl
  · exact Utf8.hasNul_eq_false_iff.2 hfree

end Reader

end HardwareMap
