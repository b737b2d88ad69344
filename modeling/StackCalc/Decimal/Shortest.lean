/-
  StackCalc.Decimal.Shortest

  The shortest decimal that reads back as a given float.

  A finite float is a whole multiple of a power of ten, and so are the ends of
  the interval of reals that round to it.  The search goes through the grids of
  multiples of 10 ^ j from coarse to fine, and the first grid with a point in
  the interval gives the answer.  All comparisons are between natural numbers.
-/
import StackCalc.Binary
import StackCalc.Decimal

namespace StackCalc

/-- The numbers that round to one float, in units of `10 ^ exponent`. -/
structure RoundingInterval where
  low : Nat
  value : Nat
  high : Nat
  /-- The two ends themselves round to the float. -/
  closed : Bool
  exponent : Int
  deriving DecidableEq, Repr

/-- `n * 2 ^ e` in units of `10 ^ (min e 0)`, which is always a whole number:
    `2 ^ -1 = 5 * 10 ^ -1`. -/
def tenths (n : Nat) (e : Int) : Nat :=
  if 0 ≤ e then n * Nat.pow 2 e.toNat else n * Nat.pow 5 (-e).toNat

/-- The exact decimal of a fraction's magnitude. -/
def Binary.toDecimal (b : Binary) : Decimal :=
  ⟨tenths b.significand b.exponent, min b.exponent 0⟩

namespace RoundingInterval

/-- The interval of a finite float reaches half way to its neighbours.  Below a
    power of two the floats are twice as dense, so the lower half is shorter.
    An even significand wins at the ends. -/
def ofBinary (b : Binary) : RoundingInterval :=
  let e := b.exponent - 2
  let lower := if b.significand == Nat.pow 2 52 && b.exponent > -1074 then 1 else 2
  { low := tenths (4 * b.significand - lower) e
    value := tenths (4 * b.significand) e
    high := tenths (4 * b.significand + 2) e
    closed := b.significand % 2 == 0
    exponent := min e 0 }

/-- A number of units lies in the interval. -/
def admits (i : RoundingInterval) (x : Nat) : Bool :=
  if i.closed then decide (i.low ≤ x) && decide (x ≤ i.high)
  else decide (i.low < x) && decide (x < i.high)

/-- The multiple of `10 ^ j` units that is in the interval and nearest to the
    value; of two equally near ones the greater. -/
def onGrid? (i : RoundingInterval) (j : Nat) : Option Decimal :=
  let step := Nat.pow 10 j
  let below := i.value / step
  let above := below + 1
  let point (n : Nat) : Decimal := ⟨n, i.exponent + j⟩
  match i.admits (below * step), i.admits (above * step) with
  | true, true => some (point (if 2 * (i.value - below * step) < step then below else above))
  | true, false => some (point below)
  | false, true => some (point above)
  | false, false => none

/-- The answer of the coarsest grid, from `10 ^ j` down, that meets the
    interval.  The value itself is on the finest. -/
def search (i : RoundingInterval) : Nat → Decimal
  | 0 => ⟨i.value, i.exponent⟩
  | j + 1 => (i.onGrid? (j + 1)).getD (i.search j)

/-- The shortest decimal in the interval.  No grid coarser than the first power
    of ten above the interval can meet it. -/
def shortest (i : RoundingInterval) : Decimal :=
  i.search (digitCount i.high)

/-- Whatever a grid answers lies in the interval. -/
theorem admits_of_onGrid? {i : RoundingInterval} {j : Nat} {d : Decimal}
    (h : i.onGrid? j = some d) : i.admits (d.coefficient * Nat.pow 10 j) = true := by
  simp only [onGrid?] at h
  split at h
  · next hb ha =>
    cases h
    show i.admits ((if _ then _ else _) * Nat.pow 10 j) = true
    split
    · exact hb
    · exact ha
  · next hb _ => cases h; exact hb
  · next _ ha => cases h; exact ha
  · cases h

end RoundingInterval

end StackCalc
