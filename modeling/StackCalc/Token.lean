/-
  StackCalc.Token

  The tokens of the infix language.
-/
import StackCalc.Func
import StackCalc.Operator

namespace StackCalc

/-- A token of the infix language. -/
inductive Token where
  | num (value : Float)
  | var (name : String)
  | op (o : Operator)
  | fn (f : Func)
  | lparen
  | rparen
  | comma

namespace Token

/-- Tokens are compared as their parts are; in particular a number that is not
    a number differs from itself, and the two zeros are equal. -/
instance : BEq Token where
  beq
    | num v, num w => v == w
    | var m, var n => m == n
    | op o, op p => o == p
    | fn f, fn g => f == g
    | lparen, lparen => true
    | rparen, rparen => true
    | comma, comma => true
    | _, _ => false

/-- An operand may end with this token. -/
def endsOperand : Token → Bool
  | num _ | var _ | rparen => true
  | _ => false

/-- An operand starts with this token. -/
def startsOperand : Token → Bool
  | num _ | var _ | fn _ | lparen => true
  | _ => false

end Token

end StackCalc
