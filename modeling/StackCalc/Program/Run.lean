/-
  StackCalc.Program.Run

  Running a postfix program on a stack, with values for its variables.  A run
  that fails leaves the stack as it is at that point.
-/
import StackCalc.Program
import StackCalc.Stack
import StackCalc.Table

namespace StackCalc

/-- Values of variables by name. -/
abbrev Bindings := Table Float

namespace Stack

/-- Puts the result of a function on top, if it has one. -/
def deliver (s : Stack) : Except Error Float → Except Error Unit × Stack
  | .ok v => (.ok (), s.push v)
  | .error e => (.error e, s)

/-- Replaces the operands of an operator by its value.  The right operand is on
    top. -/
def operate (s : Stack) : Operator.Operation → Stack
  | .unary f =>
    let (x, s) := s.pop
    s.push (f x)
  | .binary f =>
    let (right, s) := s.pop
    let (left, s) := s.pop
    s.push (f left right)

/-- Replaces the arguments of a function by its value, if it has one.  The last
    argument is on top. -/
def call (s : Stack) : Func.Operation → Except Error Unit × Stack
  | .nullary f => s.deliver f
  | .unary f =>
    let (x, s) := s.pop
    s.deliver (f x)
  | .binary f =>
    let (second, s) := s.pop
    let (first, s) := s.pop
    s.deliver (f first second)

end Stack

/-- One instruction. -/
def Instr.run (bindings : Bindings) (i : Instr) (s : Stack) : Except Error Unit × Stack :=
  match i with
  | .num v => (.ok (), s.push v)
  | .var name =>
    match bindings.find? name with
    | some v => (.ok (), s.push v)
    | none => (.error (.unboundVariable name), s)
  | .op o =>
    if s.size < o.arity then (.error (.operandUnderflow o.symbol), s)
    else (.ok (), s.operate o.operation)
  | .fn f =>
    if s.size < f.arity then (.error (.operandUnderflow f.name), s)
    else s.call f.operation

namespace Program

/-- Instructions one after the other, up to the first that fails. -/
def run (bindings : Bindings) : Program → Stack → Except Error Unit × Stack
  | [], s => (.ok (), s)
  | i :: rest, s =>
    match i.run bindings s with
    | (.ok (), s) => run bindings rest s
    | (.error e, s) => (.error e, s)

/-- The answer that a finished run leaves: the only value on the stack. -/
def answer (s : Stack) : Except Error Float × Stack :=
  match s.size with
  | 1 => let (v, s) := s.pop; (.ok v, s)
  | 0 => (.error (.internal "evaluation finished with an empty stack"), s)
  | n => (.error (.surplusOperands n), s)

/-- Runs the program on a cleared stack and takes its answer. -/
def evaluate (p : Program) (bindings : Bindings) (s : Stack) : Except Error Float × Stack :=
  match p.run bindings s.clear with
  | (.ok (), s) => answer s
  | (.error e, s) => (.error e, s)

end Program

end StackCalc
