/-
  StackCalc.Catalogue

  Operations by name, from which operators and functions can be defined in data
  rather than in code.
-/
import StackCalc.Func
import StackCalc.Operator

namespace StackCalc.Catalogue

/-- A truth value as a number. -/
def indicator (b : Bool) : Float := if b then 1.0 else 0.0

/-- The product of the numbers `i`, `i + 1`, … up to `x`, and of `acc`, over at
    most `steps` of them. -/
def productUpTo (x : Float) : Nat → Float → Float → Float
  | 0, _, acc => acc
  | steps + 1, i, acc => if i <= x then productUpTo x steps (i + 1.0) (acc * i) else acc

/-- The product of the whole numbers from one to `x`, at most 171 of them, after
    which the product is infinite; one where there are none. -/
def factorial (x : Float) : Float := productUpTo x 171 1.0 1.0

/-- Two digits written side by side. -/
def concat (a b : Float) : Float := a * 10.0 + b

def average (a b : Float) : Float := (a + b) / 2.0

/-- The operations for operators. -/
def operatorOperations : List (String × Operator.Operation) :=
  [ ("id", .unary id)
  , ("neg", .unary fun x => -x)
  , ("double", .unary fun x => x * 2.0)
  , ("inc", .unary fun x => x + 1.0)
  , ("sq", .unary fun x => x * x)
  , ("not", .unary fun x => indicator (x == 0.0))
  , ("fact", .unary factorial)
  , ("add", .binary fun a b => a + b)
  , ("sub", .binary fun a b => a - b)
  , ("mul", .binary fun a b => a * b)
  , ("div", .binary fun a b => a / b)
  , ("avg", .binary average)
  , ("ge", .binary fun a b => indicator (a >= b))
  , ("first", .binary fun a _ => a)
  , ("second", .binary fun _ b => b)
  , ("concat", .binary concat) ]

/-- The operations for functions. -/
def functionOperations : List (String × Func.Operation) :=
  [ ("answer", .nullary (.ok 42.0))
  , ("zero", .nullary (.ok 0.0))
  , ("fail0", .nullary (.error (.domain "nullary failure")))
  , ("id", .unary .ok)
  , ("neg", .unary fun x => .ok (-x))
  , ("double", .unary fun x => .ok (x * 2.0))
  , ("inc", .unary fun x => .ok (x + 1.0))
  , ("nonneg", .unary fun x =>
      if x < 0.0 then .error (.domain "negative argument") else .ok x)
  , ("unbound1", .unary fun _ => .error (.unboundVariable "inner"))
  , ("sub", .binary fun a b => .ok (a - b))
  , ("avg", .binary fun a b => .ok (average a b))
  , ("concat", .binary fun a b => .ok (concat a b))
  , ("checked_div", .binary fun a b =>
      if b == 0.0 then .error (.domain "division by zero") else .ok (a / b))
  , ("internal2", .binary fun _ _ => .error (.internal "custom invariant")) ]

/-- The operation for operators of this name. -/
def operator? (name : String) : Option Operator.Operation := operatorOperations.lookup name

/-- The operation for functions of this name. -/
def function? (name : String) : Option Func.Operation := functionOperations.lookup name

end StackCalc.Catalogue
