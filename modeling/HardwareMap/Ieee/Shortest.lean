import HardwareMap.Ieee.Binary

/-!
# The fewest decimal digits that read back

A finite number is the centre of an interval of reals that round to it.  `shortest` finds the
coarsest grid of multiples of a power of ten that has a point in this interval, and of the grid
points there the nearest to the number.  All comparisons are exact, between natural numbers.
-/

namespace HardwareMap.Ieee

/-- A decimal number `digits * 10 ^ exponent`. -/
structure Decimal where
  digits : Nat
  exponent : Int
deriving DecidableEq

/-- The reals that round to one number, in units of `2 ^ unit`. -/
structure Interval where
  unit : Int
  /-- The number itself. -/
  centre : Nat
  low : Nat
  high : Nat
  /-- Whether the ends round to the number too. -/
  closed : Bool

/-- The interval of a positive number `m * 2 ^ q`.  The units are quarters of the last place, since
just above a power of two the gap below is half the gap above; ties round to even fractions. -/
def Format.interval (f : Format) (m : Nat) (q : Int) : Interval where
  unit := q - 2
  centre := 4 * m
  low := if m = 1 <<< f.fractionBits && f.minExponent < q then 4 * m - 1 else 4 * m - 2
  high := 4 * m + 2
  closed := m % 2 == 0

/-- `base ^ e` for a natural `e`, and 1 for a negative one. -/
def upPower (base : Nat) (e : Int) : Nat := Nat.pow base e.toNat

/-- The common scale on which decimals with exponent `k` and the interval are natural numbers: the
factor of a decimal's digits and the factor of an interval's units. -/
def Interval.scales (i : Interval) (k : Int) : Nat × Nat :=
  (upPower 10 k * upPower 2 (-i.unit), upPower 10 (-k) * upPower 2 i.unit)

/-- The grid point of exponent `k` that rounds to the number and is nearest to it; the upper one of
two that are equally near. -/
def Interval.gridPoint (i : Interval) (k : Int) : Option Decimal :=
  let (decimal, binary) := i.scales k
  let centre := i.centre * binary
  let inside (c : Nat) : Bool :=
    if i.closed then i.low * binary ≤ c * decimal && c * decimal ≤ i.high * binary
    else i.low * binary < c * decimal && c * decimal < i.high * binary
  let c := centre / decimal
  let below := c * decimal
  let above := (c + 1) * decimal
  match inside c, inside (c + 1) with
  | true, true => some ⟨if centre - below < above - centre then c else c + 1, k⟩
  | true, false => some ⟨c, k⟩
  | false, true => some ⟨c + 1, k⟩
  | false, false => none

/-- Tries the grids of exponent `k`, `k - 1`, … in turn, as many as `steps`. -/
def Interval.coarsest (i : Interval) : (steps : Nat) → (k : Int) → Option Decimal
  | 0, _ => none
  | steps + 1, k => (i.gridPoint k).orElse fun _ => i.coarsest steps (k - 1)

/-- The shortest decimal that rounds to a positive `m * 2 ^ q`.  No finite number of either format
reaches `10 ^ 309`, and a grid of exponent -345 is finer than every gap. -/
def Format.shortest (f : Format) (m : Nat) (q : Int) : Decimal :=
  ((f.interval m q).coarsest 655 309).getD ⟨0, 0⟩

end HardwareMap.Ieee
