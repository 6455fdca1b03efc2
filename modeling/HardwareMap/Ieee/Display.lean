import HardwareMap.Ieee.Shortest

/-!
# The text of a floating point number

A number is written with the fewest digits that read back.  From `0.0001` up to below `10 ^ 16`
it is written positionally, always with a fraction; outside of that with an exponent.
-/

namespace HardwareMap.Ieee

/-- Digits with a point after the first `point` of them, filled up with zeros on either side. -/
def positional (digits : List Char) (point : Int) : String :=
  let zeros (n : Int) : List Char := List.replicate n.toNat '0'
  let count := digits.length
  if point ≤ 0 then String.ofList ('0' :: '.' :: (zeros (-point) ++ digits))
  else if point < count then
    String.ofList (digits.take point.toNat ++ '.' :: digits.drop point.toNat)
  else String.ofList (digits ++ zeros (point - count) ++ ['.', '0'])

/-- One digit, a fraction if there are more, and the exponent. -/
def exponential (digits : List Char) (point : Int) : String :=
  let fraction := match digits.drop 1 with
    | [] => []
    | rest => '.' :: rest
  String.ofList (digits.take 1 ++ fraction) ++ s!"e{point - 1}"

def Decimal.text (d : Decimal) : String :=
  let digits := Nat.toDigits 10 d.digits
  let point := d.exponent + digits.length
  if -4 < point && point ≤ 16 then positional digits point else exponential digits point

/-- The text of the number that a bit string stands for. -/
def Format.text (f : Format) (bits : Nat) : String :=
  let sign := if f.isNegative bits then "-" else ""
  match f.magnitude bits with
  | .nan => "NaN"
  | .infinite => sign ++ "inf"
  | .finite 0 _ => sign ++ "0.0"
  | .finite m q => sign ++ (f.shortest m q).text

end HardwareMap.Ieee

namespace HardwareMap

def Binary64.text (a : Binary64) : String := Ieee.Format.double.text a.bits.toNat

def Binary32.text (a : Binary32) : String := Ieee.Format.single.text a.bits.toNat

end HardwareMap
