/-
  StackCalc.Vocabulary

  The functions and operators that a text may use: those that are registered
  for it, and the builtin ones behind them.
-/
import StackCalc.Func.Builtin
import StackCalc.Operator.Builtin
import StackCalc.Table

namespace StackCalc

/-- Functions and operators that are registered on top of the builtin ones, each
    under the word that it is written with. -/
structure Vocabulary where
  functions : Table Func := ∅
  operators : Table Operator := ∅
  deriving Inhabited

namespace Vocabulary

/-- Registers a function under its own name. -/
def addFunction (v : Vocabulary) (f : Func) : Vocabulary :=
  { v with functions := v.functions.insert f.name f }

/-- Registers an operator under its own symbol. -/
def addOperator (v : Vocabulary) (o : Operator) : Vocabulary :=
  { v with operators := v.operators.insert o.symbol o }

/-- The function that a name calls; a registered one hides a builtin one. -/
def function? (v : Vocabulary) (name : String) : Option Func :=
  v.functions.find? name <|> Func.builtin? name

/-- The operator that a symbol stands for.  A registered one comes first, then,
    in `signPosition`, a sign, then a builtin binary one. -/
def operator? (v : Vocabulary) (signPosition : Bool) (symbol : String) : Option Operator :=
  v.operators.find? symbol
    <|> (if signPosition then Operator.sign? symbol else none)
    <|> Operator.binary? symbol

/-- The operator that stands between two operands that are written side by
    side. -/
def product (v : Vocabulary) : Operator :=
  (v.operators.find? "*").getD Operator.multiply

end Vocabulary

end StackCalc
