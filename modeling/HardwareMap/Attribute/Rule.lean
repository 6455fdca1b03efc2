import HardwareMap.Attribute.Value
import HardwareMap.Text.Utf8

/-!
# Rules that store attribute values

A rule turns values into payload bytes and payloads into values, and refuses whatever does not fit.
An encoder is told how many values it was given before, so a rule may change its answer from one
call to the next; the rules of this library do not.
-/

namespace HardwareMap

/-- How the values of an attribute are stored. -/
structure Rule where
  /-- The payload of a value, given the number of earlier calls; none if the value does not fit. -/
  encode : (calls : Nat) → Value → Option Bytes
  /-- The value of a payload; none if no value has this payload. -/
  decode : Bytes → Option Value

namespace Rule

/-- A rule whose answers depend on the value alone. -/
def ofPure (encode : Value → Option Bytes) (decode : Bytes → Option Value) : Rule :=
  ⟨fun _ value => encode value, decode⟩

/-- Stores the values of one machine type as a word. -/
def word {α : Type} [Word α] (get? : Value → Option α) (ofWord : α → Value) : Rule :=
  ofPure (fun value => (get? value).map Word.toBytes) fun payload =>
    if payload.length = Word.width α then some (ofWord (Word.ofBytes payload)) else none

def u64 : Rule := word Value.u64? .u64

def i64 : Rule := word Value.i64? .i64

def i32 : Rule := word Value.i32? .i32

def f64 : Rule := word Value.f64? .f64

def f32 : Rule := word Value.f32? .f32

/-- A text with a zero byte after it; none if the text holds a zero byte itself. -/
def terminate (text : String) : Option Bytes :=
  if Utf8.hasNul text then none else some (Utf8.encode text ++ [0])

/-- The text before a final zero byte, which has to be the only one. -/
def unterminate (bytes : Bytes) : Option String :=
  if bytes.getLast? = some 0 && !bytes.dropLast.contains 0 then Utf8.decode? bytes.dropLast
  else none

def string : Rule :=
  ofPure (fun value => value.text?.bind terminate) fun payload =>
    (unterminate payload).map .text

def sampleWidth : Nat := 16

def samplesToBytes (samples : List (Int64 × Binary64)) : Bytes :=
  samples.flatMap fun (stamp, sample) => Word.toBytes stamp ++ Word.toBytes sample

def samplesOfBytes :
    (count : Nat) → (bytes : Bytes) → bytes.length = sampleWidth * count → List (Int64 × Binary64)
  | 0, _, _ => []
  | count + 1, bytes, h =>
    have hlen : bytes.length = sampleWidth * count + sampleWidth := h
    let cut := bytes.cutAt sampleWidth (hlen ▸ Nat.le_add_left ..)
    let fields := cut.1.cutAt 8 (by rw [Bytes.length_fst_cutAt]; decide)
    (Word.ofBytes fields.1, Word.ofBytes fields.2) ::
      samplesOfBytes count cut.2 (by rw [Bytes.length_snd_cutAt, hlen, Nat.add_sub_cancel])

def pairList : Rule :=
  ofPure (fun value => value.pairs?.map samplesToBytes) fun payload =>
    if h : payload.length % sampleWidth = 0 then
      some (.pairs (samplesOfBytes (payload.length / sampleWidth) payload
        (Nat.mul_div_cancel' (Nat.dvd_of_mod_eq_zero h)).symm))
    else none

/-- A number followed by its label as terminated text. -/
def tagged : Rule :=
  ofPure
    (fun
      | .tagged number label => (terminate label).map (Word.toBytes number ++ ·)
      | _ => none)
    fun payload =>
      if h : payload.length < 9 then none
      else
        let fields := payload.cutAt 8 (by omega)
        (unterminate fields.2).map (.tagged (Word.ofBytes fields.1))

def bytes : Rule := ofPure Value.bytes? fun payload => some (.bytes payload)

def description (_ : Rule) : String := "AttributeRule \x7b .. \x7d"

end Rule

end HardwareMap
