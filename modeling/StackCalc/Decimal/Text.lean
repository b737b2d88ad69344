/-
  StackCalc.Decimal.Text

  How numbers are written: exactly, by the fewest digits that read back and
  never with an exponent, or rounded to twelve significant digits with one.
-/
import StackCalc.Decimal.Shortest

namespace StackCalc

/-- Digits with the last `places` of them behind a point, and with at least one
    digit before it. -/
def pointed (digits : String) (places : Nat) : String :=
  let padded := List.replicate (places + 1 - digits.length) '0' ++ digits.toList
  let whole := padded.take (padded.length - places)
  let fraction := padded.drop (padded.length - places)
  String.ofList (if fraction.isEmpty then whole else whole ++ '.' :: fraction)

/-- The quotient rounded to the nearest whole number, an exact half to the even
    one. -/
def roundHalfEven (n d : Nat) : Nat :=
  let q := n / d
  let twice := 2 * (n % d)
  if twice < d || (twice == d && q % 2 == 0) then q else q + 1

namespace Decimal

/-- All digits, without an exponent. -/
def positional (d : Decimal) : String :=
  if 0 ≤ d.exponent then
    (if d.coefficient == 0 then "0" else (d.coefficient * Nat.pow 10 d.exponent.toNat).repr)
  else pointed d.coefficient.repr (-d.exponent).toNat

/-- The nearest decimal whose coefficient has exactly `n` digits; zero keeps a
    zero coefficient. -/
def withDigits (d : Decimal) (n : Nat) : Decimal :=
  let size := digitCount d.coefficient
  if size ≤ n then ⟨d.coefficient * Nat.pow 10 (n - size), d.exponent - (n - size : Nat)⟩
  else
    let rounded := roundHalfEven d.coefficient (Nat.pow 10 (size - n))
    let exponent := d.exponent + (size - n : Nat)
    if rounded == Nat.pow 10 n then ⟨Nat.pow 10 (n - 1), exponent + 1⟩ else ⟨rounded, exponent⟩

/-- Rounded to `places + 1` digits, with one digit before the point and a
    decimal exponent. -/
def scientific (d : Decimal) (places : Nat) : String :=
  if d.coefficient == 0 then
    pointed (String.ofList (List.replicate (places + 1) '0')) places ++ "e0"
  else
    let r := d.withDigits (places + 1)
    pointed r.coefficient.repr places ++ "e" ++ toString (r.exponent + places)

end Decimal

/-- The text of a float from a text for the magnitudes of finite ones. -/
def signedText (magnitude : Binary → String) (x : Float) : String :=
  match Binary.ofFloat? x with
  | some b => (if b.negative then "-" else "") ++ magnitude b
  | none => if x.isNaN then "NaN" else if x < 0.0 then "-inf" else "inf"

/-- The fewest digits that read back as the same float, without an exponent. -/
def exactText : Float → String :=
  signedText fun b =>
    if b.significand == 0 then "0" else (RoundingInterval.ofBinary b).shortest.positional

/-- Twelve significant digits of the exact value, with an exponent. -/
def roundedText : Float → String :=
  signedText fun b => b.toDecimal.scientific 11

end StackCalc
