/-
  StackCalc.Binary

  Finite floats as exact binary fractions, and the remainder of a division,
  which is exact on them.
-/

namespace StackCalc

/-- The number `significand * 2 ^ exponent`, with its sign apart so that there
    is a negative zero. -/
structure Binary where
  negative : Bool
  significand : Nat
  exponent : Int
  deriving DecidableEq, Repr

namespace Binary

/-- The fraction that a finite float stands for; infinities and NaN have none. -/
def ofFloat? (x : Float) : Option Binary :=
  let bits := x.toBits.toNat
  let negative := bits / Nat.pow 2 63 == 1
  let biased : Nat := bits / Nat.pow 2 52 % Nat.pow 2 11
  let fraction : Nat := bits % Nat.pow 2 52
  if biased == 2047 then none
  else if biased == 0 then some ⟨negative, fraction, -1074⟩
  else some ⟨negative, Nat.pow 2 52 + fraction, (biased : Int) - 1075⟩

/-- The float nearest to the fraction; the fraction itself where it has at most
    53 significant bits. -/
def toFloat (b : Binary) : Float :=
  let magnitude := (Float.ofNat b.significand).scaleB b.exponent
  if b.negative then -magnitude else magnitude

/-- The fraction's magnitude in units of `2 ^ exponent`, for an exponent that is
    not above its own. -/
def units (b : Binary) (exponent : Int) : Nat :=
  b.significand * Nat.pow 2 (b.exponent - exponent).toNat

/-- What is left of `a` after taking away `b` a whole number of times toward
    zero.  The result has the sign of `a` and at most the bits of `a` or `b`. -/
def remainder (a b : Binary) : Binary :=
  let exponent := min a.exponent b.exponent
  ⟨a.negative, a.units exponent % b.units exponent, exponent⟩

theorem negative_remainder (a b : Binary) : (a.remainder b).negative = a.negative := rfl

/-- The remainder is smaller than a divisor that is not zero. -/
theorem remainder_lt {a b : Binary} (h : b.significand ≠ 0) :
    (a.remainder b).significand < b.units (a.remainder b).exponent :=
  Nat.mod_lt _ (Nat.mul_pos (Nat.pos_of_ne_zero h) (Nat.pow_pos (by decide)))

end Binary

/-- The float that is not a number. -/
def notANumber : Float := 0.0 / 0.0

/-- The exact remainder of a division that is rounded toward zero, with the
    dividend's sign.  A finite dividend is its own remainder by an infinity;
    an infinite dividend and a zero divisor leave no number. -/
def remainder (x y : Float) : Float :=
  match Binary.ofFloat? x, Binary.ofFloat? y with
  | some a, some b => if b.significand == 0 then notANumber else (a.remainder b).toFloat
  | some _, none => if y.isNaN then notANumber else x
  | none, _ => notANumber

end StackCalc
