/-
  StackCalc.Program

  Postfix programs: instructions that take their operands from a stack.
-/
import StackCalc.Decimal.Text
import StackCalc.Token

namespace StackCalc

/-- An instruction: it takes as many values as its arity, and leaves one. -/
inductive Instr where
  | num (value : Float)
  | var (name : String)
  | op (o : Operator)
  | fn (f : Func)

namespace Instr

/-- How many values the instruction takes. -/
def arity : Instr → Nat
  | num _ | var _ => 0
  | op o => o.arity
  | fn f => f.arity

/-- How the instruction is written. -/
def text : Instr → String
  | num value => exactText value
  | var name => name
  | op o => o.symbol
  | fn f => f.name

/-- The infix token that the instruction comes from. -/
def token : Instr → Token
  | num value => .num value
  | var name => .var name
  | op o => .op o
  | fn f => .fn f

end Instr

/-- The instruction of a token; parentheses and separators have none. -/
def Token.instr? : Token → Option Instr
  | num value => some (.num value)
  | var name => some (.var name)
  | op o => some (.op o)
  | fn f => some (.fn f)
  | lparen | rparen | comma => none

@[simp] theorem Instr.instr?_token (i : Instr) : i.token.instr? = some i := by
  cases i <;> rfl

/-- A postfix program. -/
abbrev Program := List Instr

namespace Program

/-- The instructions' texts with a space between them. -/
def text (p : Program) : String :=
  " ".intercalate (p.map Instr.text)

/-- The names of the variables that the program reads, each once, in order of
    first occurrence. -/
def varNames (p : Program) : List String :=
  (p.filterMap fun | .var name => some name | _ => none).eraseDups

theorem mem_varNames_iff {p : Program} {name : String} : name ∈ p.varNames ↔ .var name ∈ p := by
  rw [varNames, List.mem_eraseDups, List.mem_filterMap]
  constructor
  · rintro ⟨i, hi, hname⟩
    cases i with
    | var => cases hname; exact hi
    | num | op | fn => cases hname
  · intro h
    exact ⟨.var name, h, rfl⟩

end Program

end StackCalc
