/-
  StackCalc.Decimal

  Decimal numbers with a whole coefficient, and the float nearest to one.
-/

namespace StackCalc

/-- The number `coefficient * 10 ^ exponent`. -/
structure Decimal where
  coefficient : Nat
  exponent : Int
  deriving DecidableEq, Repr

/-- How many decimal digits a number is written with; zero takes one. -/
def digitCount (n : Nat) : Nat := n.repr.length

namespace Decimal

/-- A decimal is below `10 ^ magnitude`, and at or above a tenth of it unless it
    is zero. -/
def magnitude (d : Decimal) : Int := digitCount d.coefficient + d.exponent

/-- The nearest float, an exact half going to the even significand.  From
    `10 ^ 310` on everything rounds to infinity, and below `10 ^ -330` to zero,
    so exponents beyond need no arithmetic. -/
def toFloat (d : Decimal) : Float :=
  if d.coefficient == 0 || d.magnitude < -330 then 0.0
  else if d.magnitude > 310 then 1.0 / 0.0
  else Float.ofScientific d.coefficient (d.exponent < 0) d.exponent.natAbs

end Decimal

end StackCalc
