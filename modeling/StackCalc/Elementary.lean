/-
  StackCalc.Elementary

  Elementary functions that are composed from others so that they keep their
  accuracy near zero, and functions with a convention of their own.

  `expm1` and `log1p` stand for the functions of a mathematics library, which
  computes them in another way.  The last places of a value may differ from the
  library's; nothing that is proved depends on them.
-/
import StackCalc.Binary

namespace StackCalc.Elementary

/-- The exponential less one.  Near zero `exp x` is rounded to a neighbour of
    one, and the quotient of `exp x - 1` by the logarithm of that neighbour
    takes the rounding error out again.  It stands for the library's function, up to
    the last places. -/
def expm1 (x : Float) : Float :=
  let u := x.exp
  if u == 1.0 then x
  else if u.isInf then u
  else
    let v := u - 1.0
    if v == -1.0 then v else v * (x / u.log)

/-- The logarithm of one more than the argument, with the error of the sum taken
    out in the same way; for the library's function, up to the last places. -/
def log1p (x : Float) : Float :=
  let u := 1.0 + x
  if u == 1.0 || x.isInf && x > 0.0 then x
  else u.log * (x / (u - 1.0))

/-- The logarithm of `value` to a base. -/
def logBase (base value : Float) : Float := value.log / base.log

/-- One or minus one by the sign; zero at both zeros and at NaN. -/
def signum (x : Float) : Float :=
  if x > 0.0 then 1.0 else if x < 0.0 then -1.0 else 0.0

/-- The hyperbolic cosecant, which is zero at zero by convention. -/
def csch (x : Float) : Float := if x == 0.0 then 0.0 else 1.0 / x.sinh

/-- Half the circumference of the unit circle. -/
def pi : Float := 3.14159265358979323846

/-- Degrees to radians. -/
def toRadians (x : Float) : Float := x * (pi / 180.0)

/-- Radians to degrees. -/
def toDegrees (x : Float) : Float := x * 57.2957795130823208767981548141051703

end StackCalc.Elementary
