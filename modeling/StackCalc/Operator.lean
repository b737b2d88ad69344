/-
  StackCalc.Operator

  Operators: a symbol, a precedence, an associativity, and what they compute
  from one operand or from two.
-/

namespace StackCalc

/-- To which side operators of one precedence group. -/
inductive Associativity where
  | left
  | right
  deriving DecidableEq, Repr

/-- What an operator computes. -/
inductive Operator.Operation where
  | unary (f : Float → Float)
  | binary (f : Float → Float → Float)

/-- How many operands an operation takes. -/
def Operator.Operation.arity : Operator.Operation → Nat
  | unary _ => 1
  | binary _ => 2

/-- An operator of the infix language. -/
structure Operator where
  symbol : String
  precedence : Int
  associativity : Associativity
  operation : Operator.Operation

namespace Operator

/-- One or two. -/
def arity (o : Operator) : Nat := o.operation.arity

/-- Equal precedences group to the left. -/
def isLeft (o : Operator) : Bool := o.associativity == .left

/-- A unary operator is written after its operand when it is left associative,
    and before it otherwise. -/
def isSuffix (o : Operator) : Bool := o.arity == 1 && o.isLeft

/-- The value at one operand, for an operator that takes one. -/
def applyUnary (o : Operator) (x : Float) : Option Float :=
  match o.operation with
  | .unary f => some (f x)
  | .binary _ => none

/-- The value at two operands, for an operator that takes two. -/
def applyBinary (o : Operator) (left right : Float) : Option Float :=
  match o.operation with
  | .unary _ => none
  | .binary f => some (f left right)

/-- Operators are told apart by all but what they compute. -/
instance : BEq Operator where
  beq o p :=
    o.symbol == p.symbol && o.arity == p.arity && o.precedence == p.precedence
      && o.associativity == p.associativity

/-- With `o` to the left of `p` and one operand between them, the operand
    belongs to `o`: `o` is stronger, or as strong where `p` groups to the left. -/
def bindsBefore (o p : Operator) : Bool :=
  decide (p.precedence < o.precedence) || (o.precedence == p.precedence && p.isLeft)

/-- A waiting operator has all its operands once `next` is read.  A unary `next`
    takes none away from a binary operator. -/
def completedBy (waiting next : Operator) : Bool :=
  !(next.arity == 1 && waiting.arity == 2) && waiting.bindsBefore next

theorem arity_pos (o : Operator) : 0 < o.arity := by
  unfold arity; cases o.operation <;> simp [Operation.arity]

theorem arity_le_two (o : Operator) : o.arity ≤ 2 := by
  unfold arity; cases o.operation <;> simp [Operation.arity]

end Operator

end StackCalc
