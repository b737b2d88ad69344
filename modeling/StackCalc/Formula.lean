/-
  StackCalc.Formula

  Formulas: texts with the functions and operators that they may use.
-/
import StackCalc.Expression
import StackCalc.Scanner

namespace StackCalc

/-- A text, the vocabulary it is written in, and whether operands that stand
    side by side are multiplied. -/
structure Formula where
  text : String
  vocabulary : Vocabulary := {}
  implicitProduct : Bool := true

namespace Vocabulary

/-- Refuses words that could not be read: the first name, and then the first
    symbol, that is not well formed. -/
def check (v : Vocabulary) : Except ParseFault Unit :=
  match v.functions.names.find? (!Identifier.isValid ·) with
  | some name => .error (.invalidFunctionName name)
  | none =>
    match v.operators.names.find? (!Symbol.isValid ·) with
    | some symbol => .error (.invalidOperatorSymbol symbol)
    | none => .ok ()

end Vocabulary

namespace Formula

/-- A scanner at the start of the text. -/
def scanner (f : Formula) : Scanner :=
  .ofText f.vocabulary f.implicitProduct f.text

/-- The tokens of the text. -/
def tokens (f : Formula) : Except ParseFault (List Token) := f.scanner.tokenize.1

/-- The postfix program of the text. -/
def program (f : Formula) : Except ParseFault Program := do
  let ts ← f.tokens
  Program.ofTokens ts

/-- The expression of the text, if its vocabulary is well formed.  The balance of
    its program is left to validation. -/
def build (f : Formula) : Except Error Expression :=
  match f.vocabulary.check with
  | .error fault => .error (.parse fault)
  | .ok () =>
    match f.program with
    | .error fault => .error (.parse fault)
    | .ok p => .ok (.ofProgram p)

/-- The expression of the text, if its program is balanced.  The vocabulary is
    taken as it is. -/
def compile (f : Formula) : Except Error Expression :=
  match f.tokens with
  | .error fault => .error (.parse fault)
  | .ok ts => Expression.compile ts

end Formula

namespace Expression

/-- The expression of a text over the builtin functions and operators. -/
def parse (text : String) : Except Error Expression :=
  Formula.build { text }

end Expression

/-- The value of a text, with values for its variables. -/
def eval (text : String) (vars : List (String × Float)) : Except Error Float :=
  match Expression.parse text with
  | .error e => .error e
  | .ok e =>
    match e.setVariables vars with
    | (.error err, _) => .error err
    | (.ok (), e) => e.evaluate.1

end StackCalc
