/-
  StackCalc.Report

  How computed values are shown.  Most operations are exact to the last bit and
  are shown so; the elementary functions are not, and whatever involves one of
  them is rounded.
-/
import StackCalc.Program

namespace StackCalc

/-- How a value is shown. -/
inductive Precision where
  /-- By the digits that tell it from all other floats. -/
  | exact
  /-- By twelve significant digits. -/
  | rounded
  deriving DecidableEq, Repr

/-- A value as text. -/
def Precision.text : Precision → Float → String
  | exact => exactText
  | rounded => roundedText

namespace Precision

/-- The functions whose last bits are not determined, by name. -/
def inexactFunctions : List String :=
  [ "sin", "cos", "tan", "cot", "csc", "sec"
  , "sinh", "cosh", "tanh", "csch", "sech", "coth"
  , "asin", "acos", "atan", "cbrt", "pow"
  , "exp", "expm1", "log", "log10", "log2", "log1p", "logb" ]

/-- The operators whose last bits are not determined, by symbol. -/
def inexactOperators : List String := ["^"]

/-- The precision of a function of this name. -/
def ofFunctionName (name : String) : Precision :=
  if inexactFunctions.contains name then rounded else exact

/-- The precision of an operator with this symbol. -/
def ofOperatorSymbol (symbol : String) : Precision :=
  if inexactOperators.contains symbol then rounded else exact

/-- The precision of one instruction. -/
def ofInstr : Instr → Precision
  | .num _ | .var _ => exact
  | .op o => ofOperatorSymbol o.symbol
  | .fn f => ofFunctionName f.name

/-- A program is as precise as the least precise of its instructions. -/
def ofProgram (p : Program) : Precision :=
  if p.any (ofInstr · == rounded) then rounded else exact

end Precision

end StackCalc
