/-
  StackCalc.Error

  Why a text, a program or an evaluation is refused, as causes, and the wording
  of each cause.
-/

namespace StackCalc

/-- Why a text or a token stream is not an expression. -/
inductive ParseFault where
  /-- No lexeme starts with this character. -/
  | unexpectedCharacter (c : Char)
  /-- Digits and points that do not form a number. -/
  | invalidNumber (literal : String)
  /-- A run of symbol characters of which no first part is an operator. -/
  | unknownOperator (run : String)
  /-- A function was registered under something that is not a name. -/
  | invalidFunctionName (name : String)
  /-- An operator was registered under something that is not a symbol. -/
  | invalidOperatorSymbol (symbol : String)
  /-- A function that is not followed by its argument list. -/
  | missingCallParen (name : String)
  /-- A separator with nothing before or nothing after it. -/
  | missingArgument
  /-- A separator outside of an argument list. -/
  | misplacedSeparator
  /-- An argument list of the wrong length. -/
  | wrongArgumentCount (name : String) (expected given : Nat)
  /-- An argument list that belongs to no function. -/
  | argumentsWithoutFunction
  /-- A group with nothing in it. -/
  | emptyParenthesis
  /-- A parenthesis without its partner. -/
  | mismatchedParenthesis
  /-- Nothing to compute. -/
  | emptyExpression
  deriving DecidableEq, Repr

/-- The wording of a fault in a text or a token stream. -/
def ParseFault.message : ParseFault → String
  | unexpectedCharacter c => "unexpected character in input: " ++ c.toString
  | invalidNumber literal => "invalid number " ++ literal
  | unknownOperator run => "unknown operator " ++ run
  | invalidFunctionName name => "invalid function name '" ++ name ++ "'"
  | invalidOperatorSymbol symbol => "invalid operator symbol '" ++ symbol ++ "'"
  | missingCallParen name => "missing '(' after function '" ++ name ++ "'"
  | missingArgument => "missing function argument"
  | misplacedSeparator => "misplaced argument separator or mismatched parenthesis"
  | wrongArgumentCount name expected given =>
    "function '" ++ name ++ "' expects " ++ expected.repr ++ " argument(s), got " ++ given.repr
  | argumentsWithoutFunction => "argument list without a function"
  | emptyParenthesis => "empty parenthesis"
  | mismatchedParenthesis => "mismatched parenthesis"
  | emptyExpression => "empty expression"

/-- Why a program does not leave exactly one value. -/
inductive BalanceFault where
  /-- A function with fewer values before it than it takes. -/
  | notEnoughArguments (name : String)
  /-- Some instruction takes more values than there are. -/
  | tooManyOperators
  /-- More than one value is left. -/
  | tooManyOperands
  /-- There is no instruction. -/
  | emptyProgram
  deriving DecidableEq, Repr

/-- The wording of a fault in the balance of a program. -/
def BalanceFault.message : BalanceFault → String
  | notEnoughArguments name => "not enough arguments for '" ++ name ++ "'"
  | tooManyOperators => "too many operators"
  | tooManyOperands => "too many operands"
  | emptyProgram => "empty program"

/-- Why a request on an expression fails. -/
inductive Error where
  /-- The text or the token stream is not an expression. -/
  | parse (fault : ParseFault)
  /-- The program does not leave exactly one value. -/
  | validation (faults : List BalanceFault)
  /-- A variable without a value was needed. -/
  | unboundVariable (name : String)
  /-- An operator or function found too few values on the stack. -/
  | operandUnderflow (label : String)
  /-- Several values were left at the end. -/
  | surplusOperands (count : Nat)
  /-- A function has no value at its arguments. -/
  | domain (reason : String)
  /-- A variable cannot take the name of a builtin function. -/
  | namingConflict (name : String)
  /-- A state that no balanced program reaches. -/
  | internal (reason : String)
  deriving DecidableEq, Repr

/-- The wording of an error, which starts with its kind. -/
def Error.message : Error → String
  | parse fault => "ParseError: " ++ fault.message
  | validation faults => "ValidationError: " ++ "; ".intercalate (faults.map BalanceFault.message)
  | unboundVariable name =>
    "UnboundVariable: no value has been set for the variable '" ++ name ++ "'"
  | operandUnderflow label =>
    "OperandUnderflow: not enough operands available for '" ++ label ++ "'"
  | surplusOperands count =>
    "SurplusOperands: " ++ count.repr ++ " values left on the stack after evaluation"
  | domain reason => "DomainError: " ++ reason
  | namingConflict name =>
    "NamingConflict: the variable name '" ++ name
      ++ "' is invalid, a function with the same name exists"
  | internal reason => "InternalError: " ++ reason

end StackCalc
