/-
  StackCalc.Operator.Builtin

  The operators that every text may use: arithmetic between two operands, and
  the two signs before one.
-/
import StackCalc.Binary
import StackCalc.Operator

namespace StackCalc

namespace Precedence

/-- Sums and differences. -/
def addition : Int := 500

/-- Products, quotients and remainders. -/
def multiplication : Int := 1000

/-- Signs before an operand. -/
def sign : Int := 5000

/-- Powers, which bind before signs: `-2 ^ 2` is `-4`. -/
def power : Int := 10000

end Precedence

namespace Operator

/-- A left-associative operator between two operands. -/
def leftBinary (symbol : String) (precedence : Int) (f : Float → Float → Float) : Operator :=
  ⟨symbol, precedence, .left, .binary f⟩

def add : Operator := leftBinary "+" Precedence.addition (· + ·)
def subtract : Operator := leftBinary "-" Precedence.addition (· - ·)
def multiply : Operator := leftBinary "*" Precedence.multiplication (· * ·)
def divide : Operator := leftBinary "/" Precedence.multiplication (· / ·)
def modulo : Operator := leftBinary "%" Precedence.multiplication remainder

/-- Powers group to the right. -/
def power : Operator := ⟨"^", Precedence.power, .right, .binary Float.pow⟩

/-- The minus sign before an operand. -/
def negate : Operator := ⟨"-", Precedence.sign, .right, .unary (- ·)⟩

/-- The plus sign before an operand. -/
def affirm : Operator := ⟨"+", Precedence.sign, .right, .unary id⟩

/-- The builtin operators that stand between two operands. -/
def binaries : List Operator := [add, subtract, multiply, divide, modulo, power]

/-- The builtin operators that stand before one operand. -/
def signs : List Operator := [negate, affirm]

/-- The builtin operator between two operands that has this symbol. -/
def binary? (symbol : String) : Option Operator :=
  binaries.find? (·.symbol == symbol)

/-- The builtin operator before one operand that has this symbol. -/
def sign? (symbol : String) : Option Operator :=
  signs.find? (·.symbol == symbol)

end Operator

end StackCalc
