/-
  StackCalc.Expression

  Expressions: a program together with the values of its variables, ready to be
  evaluated many times.
-/
import StackCalc.Func.Builtin
import StackCalc.Program.Balance
import StackCalc.Program.OfTokens
import StackCalc.Program.Run

namespace StackCalc

/-- A program with values for its variables. -/
structure Expression where
  program : Program
  bindings : Bindings := ∅
  /-- How many values the stack has to hold. -/
  stackSize : Nat
  /-- The stack as the last evaluation left it. -/
  stack : Stack := .empty

/-- What is wrong with an expression before it is evaluated. -/
inductive Warning where
  /-- A variable of the program has no value. -/
  | unset (name : String)
  /-- The program does not leave exactly one value. -/
  | unbalanced (fault : BalanceFault)
  deriving DecidableEq, Repr

/-- The wording of a warning. -/
def Warning.message : Warning → String
  | unset name => "the variable '" ++ name ++ "' has not been set"
  | unbalanced fault => fault.message

namespace Expression

/-- An expression without values, for a program and a stack of some size. -/
def withStackSize (program : Program) (stackSize : Nat) : Expression :=
  { program, stackSize }

/-- The expression of a program, whatever its balance. -/
def ofProgram (p : Program) : Expression := withStackSize p p.stackSize

@[simp] theorem program_ofProgram (p : Program) : (ofProgram p).program = p := rfl

/-- The expression of an infix token stream, if its program is balanced, with the
    stack size that the analysis gives. -/
def compile (ts : List Token) : Except Error Expression :=
  match Program.ofTokens ts with
  | .error f => .error (.parse f)
  | .ok p =>
    match p.analyze with
    | .ok (stackSize, p) => .ok (withStackSize p stackSize)
    | .error faults => .error (.validation faults)

/-- What is compiled is the expression of a balanced program: the analysis gives the
    size that the program needs. -/
theorem compile_eq_ok_iff {ts : List Token} {e : Expression} :
    compile ts = .ok e ↔ ∃ p, Program.ofTokens ts = .ok p ∧ p.balance = [] ∧ e = ofProgram p := by
  constructor
  · intro h
    rw [compile] at h
    split at h
    · cases h
    · next p hp =>
      split at h
      · next hanalyze =>
        obtain ⟨hbalance, rfl, rfl⟩ := Program.analyze_eq_ok_iff.mp hanalyze
        cases h
        exact ⟨_, hp, hbalance, rfl⟩
      · cases h
  · rintro ⟨p, hp, hbalance, rfl⟩
    have hanalyze := Program.analyze_eq_ok_iff.mpr ⟨hbalance, rfl, rfl⟩
    simp only [compile, hp, hanalyze, ofProgram]

/-- Gives a variable a value, in place of any that it has.  Names of builtin
    functions are refused. -/
def setVariable (e : Expression) (name : String) (value : Float) : Except Error Expression :=
  if Func.isBuiltin name then .error (.namingConflict name)
  else .ok { e with bindings := e.bindings.insert name value }

/-- Gives variables values in order, up to the first name that is refused.  What
    was set before it stays set. -/
def setVariables (e : Expression) : List (String × Float) → Except Error Unit × Expression
  | [] => (.ok (), e)
  | (name, value) :: rest =>
    match e.setVariable name value with
    | .ok e => setVariables e rest
    | .error err => (.error err, e)

/-- Takes all values away. -/
def clearVariables (e : Expression) : Expression := { e with bindings := ∅ }

/-- The name has a value. -/
def hasVariable (e : Expression) (name : String) : Bool := e.bindings.contains name

/-- A copy with the same program and values, and a stack of its own. -/
def duplicate (e : Expression) : Expression := { e with stack := .empty }

/-- A warning for each place where the program reads a variable that has no
    value. -/
def unsetWarnings (e : Expression) : List Warning :=
  e.program.filterMap fun
    | .var name => if e.hasVariable name then none else some (.unset name)
    | _ => none

/-- What is wrong with the expression: its unset variables, if they are asked
    for, and then the faults of its program. -/
def validate (e : Expression) (checkVariables : Bool) : List Warning :=
  (if checkVariables then e.unsetWarnings else []) ++ e.program.balance.map .unbalanced

/-- The value of the expression.  Only the stack of the expression is changed. -/
def evaluate (e : Expression) : Except Error Float × Expression :=
  let (result, stack) := e.program.evaluate e.bindings e.stack
  (result, { e with stack })

end Expression

end StackCalc
