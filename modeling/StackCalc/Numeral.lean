/-
  StackCalc.Numeral

  Number literals: digits with at most one point among them, and an optional
  exponent.  The longest literal at the head of a text is taken before it is
  asked whether it forms a number.
-/
import StackCalc.Decimal

namespace StackCalc

/-- The number that a row of digits stands for. -/
def digitsValue (digits : List Char) : Nat :=
  digits.foldl (fun n c => 10 * n + (c.toNat - '0'.toNat)) 0

/-- A number literal in its two parts. -/
structure Numeral where
  /-- Digits and points. -/
  mantissa : List Char
  /-- Empty, or the letter, an optional sign and digits. -/
  exponent : List Char
  deriving DecidableEq, Repr

namespace Numeral

/-- A character of a mantissa, which is also what a literal starts with. -/
def isMantissaChar (c : Char) : Bool := c.isDigit || c == '.'

/-- The letter that opens an exponent. -/
def isExponentMark (c : Char) : Bool := c == 'e' || c == 'E'

/-- The sign of an exponent, if there is one, and what follows it. -/
def spanSign : List Char → List Char × List Char
  | [] => ([], [])
  | c :: cs => if c == '+' || c == '-' then ([c], cs) else ([], c :: cs)

/-- The exponent at the head of a text and what follows it.  Without a digit
    after the letter and the sign there is no exponent. -/
def spanExponent : List Char → List Char × List Char
  | [] => ([], [])
  | c :: cs =>
    let (sign, tail) := spanSign cs
    let digits := tail.takeWhile Char.isDigit
    if isExponentMark c && !digits.isEmpty then
      (c :: sign ++ digits, tail.dropWhile Char.isDigit)
    else ([], c :: cs)

/-- The literal at the head of a text and what follows it. -/
def span (cs : List Char) : Numeral × List Char :=
  let (exponent, rest) := spanExponent (cs.dropWhile isMantissaChar)
  (⟨cs.takeWhile isMantissaChar, exponent⟩, rest)

/-- The literal as it was written. -/
def text (n : Numeral) : List Char := n.mantissa ++ n.exponent

/-- A literal is a number when its mantissa has a digit and at most one point. -/
def isNumber (n : Numeral) : Bool :=
  n.mantissa.any Char.isDigit && decide (n.mantissa.count '.' ≤ 1)

/-- The power of ten that an exponent part stands for. -/
def exponentValue (exponent : List Char) : Int :=
  match exponent.drop 1 with
  | '-' :: digits => -(digitsValue digits : Int)
  | '+' :: digits => digitsValue digits
  | digits => digitsValue digits

/-- The decimal that a literal stands for. -/
def toDecimal (n : Numeral) : Decimal :=
  let places := (n.mantissa.dropWhile (· != '.')).length - 1
  ⟨digitsValue (n.mantissa.filter Char.isDigit), exponentValue n.exponent - places⟩

/-- The float nearest to a literal that is a number. -/
def value? (n : Numeral) : Option Float :=
  if n.isNumber then some n.toDecimal.toFloat else none

/-! ## Nothing is lost -/

theorem spanSign_append (cs : List Char) : (spanSign cs).1 ++ (spanSign cs).2 = cs := by
  cases cs with
  | nil => rfl
  | cons c cs => simp only [spanSign]; split <;> rfl

theorem spanExponent_append (cs : List Char) :
    (spanExponent cs).1 ++ (spanExponent cs).2 = cs := by
  cases cs with
  | nil => rfl
  | cons c cs =>
    simp only [spanExponent]
    split
    · simp [List.takeWhile_append_dropWhile, spanSign_append]
    · rfl

theorem span_append (cs : List Char) : (span cs).1.text ++ (span cs).2 = cs := by
  simp [span, text, List.append_assoc, spanExponent_append, List.takeWhile_append_dropWhile]

end Numeral

/-- The float that a whole text denotes: a literal that may have a sign before
    it, or one of the names of the values that have no digits. -/
def readNumber? (text : String) : Option Float :=
  if text == "NaN" then some (0.0 / 0.0)
  else if text == "inf" then some (1.0 / 0.0)
  else if text == "-inf" then some (-1.0 / 0.0)
  else
    let (negative, digits) := match text.toList with
      | '-' :: cs => (true, cs)
      | cs => (false, cs)
    match Numeral.span digits with
    | (n, []) => n.value?.map fun x => if negative then -x else x
    | _ => none

end StackCalc
