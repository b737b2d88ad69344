/-
  StackCalc.Func

  Functions: a name, and what they compute from no argument, one or two.  Unlike
  an operator a function may have no value at some arguments.
-/
import StackCalc.Error

namespace StackCalc

/-- What a function computes. -/
inductive Func.Operation where
  | nullary (f : Except Error Float)
  | unary (f : Float → Except Error Float)
  | binary (f : Float → Float → Except Error Float)

/-- How many arguments an operation takes. -/
def Func.Operation.arity : Func.Operation → Nat
  | nullary _ => 0
  | unary _ => 1
  | binary _ => 2

/-- A function, called by its name and a parenthesised argument list. -/
structure Func where
  name : String
  operation : Func.Operation

namespace Func

/-- None, one or two. -/
def arity (f : Func) : Nat := f.operation.arity

/-- The value at as many of the two arguments as the function takes. -/
def call (f : Func) (a b : Float) : Except Error Float :=
  match f.operation with
  | .nullary g => g
  | .unary g => g a
  | .binary g => g a b

/-- Functions are told apart by name and arity. -/
instance : BEq Func where
  beq f g := f.name == g.name && f.arity == g.arity

theorem arity_le_two (f : Func) : f.arity ≤ 2 := by
  unfold arity; cases f.operation <;> simp [Operation.arity]

end Func

end StackCalc
