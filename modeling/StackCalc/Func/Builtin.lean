/-
  StackCalc.Func.Builtin

  The functions that every text may call, and whose names no variable can take.
-/
import StackCalc.Elementary
import StackCalc.Func

namespace StackCalc.Func

/-- A function of one argument that always has a value. -/
def ofUnary (name : String) (f : Float → Float) : Func :=
  ⟨name, .unary fun x => .ok (f x)⟩

/-- A function of two arguments that always has a value. -/
def ofBinary (name : String) (f : Float → Float → Float) : Func :=
  ⟨name, .binary fun x y => .ok (f x y)⟩

/-- The reciprocal of another function, without a value where that is zero. -/
def ofReciprocal (name longName : String) (f : Float → Float) : Func :=
  ⟨name, .unary fun x =>
    let y := f x
    if y == 0.0 then .error (.domain ("division by zero in " ++ longName)) else .ok (1.0 / y)⟩

/-- All builtin functions.  The values of `cbrt`, `expm1` and `log1p` are those of a
    mathematics library up to the last places, in which they may differ from these. -/
def builtins : List Func :=
  [ ofUnary "sin" Float.sin
  , ofUnary "cos" Float.cos
  , ofUnary "tan" Float.tan
  , ofReciprocal "cot" "cotangent" Float.tan
  , ofReciprocal "csc" "cosecant" Float.sin
  , ofReciprocal "sec" "secant" Float.cos
  , ofUnary "sinh" Float.sinh
  , ofUnary "cosh" Float.cosh
  , ofUnary "tanh" Float.tanh
  , ofUnary "csch" Elementary.csch
  , ofUnary "sech" fun x => 1.0 / x.cosh
  , ofUnary "coth" fun x => x.cosh / x.sinh
  , ofUnary "asin" Float.asin
  , ofUnary "acos" Float.acos
  , ofUnary "atan" Float.atan
  , ofUnary "sqrt" Float.sqrt
  , ofUnary "cbrt" Float.cbrt
  , ofUnary "abs" Float.abs
  , ofUnary "ceil" Float.ceil
  , ofUnary "floor" Float.floor
  , ofBinary "pow" Float.pow
  , ofUnary "exp" Float.exp
  , ofUnary "expm1" Elementary.expm1
  , ofUnary "log" Float.log
  , ofUnary "log10" Float.log10
  , ofUnary "log2" (Elementary.logBase 2.0)
  , ofUnary "log1p" Elementary.log1p
  , ofBinary "logb" Elementary.logBase
  , ofUnary "signum" Elementary.signum
  , ofUnary "toradian" Elementary.toRadians
  , ofUnary "todegree" Elementary.toDegrees ]

/-- The builtin function of this name. -/
def builtin? (name : String) : Option Func :=
  builtins.find? (·.name == name)

/-- The name belongs to a builtin function. -/
def isBuiltin (name : String) : Bool := (builtin? name).isSome

/-- The names of all builtin functions. -/
def builtinNames : List String := builtins.map Func.name

theorem isBuiltin_iff {name : String} : isBuiltin name = true ↔ name ∈ builtinNames := by
  simp [isBuiltin, builtin?, builtinNames, List.find?_isSome]

end StackCalc.Func
