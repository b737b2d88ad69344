/-
  StackCalc.Proofs.History

  The value of an expression does not depend on its history.

  A run reads its stack, which is cleared first, and the values of the variables
  that its program names (`Program.evaluate_congr`).  Two expressions that agree in
  program and values agree after every action as well (`Agrees.run`), so neither
  the stack that an evaluation leaves behind nor the way to the values can be seen
  in any later one.
-/
import StackCalc.Proofs.Sessions

namespace StackCalc

/-! ## What a run reads -/

section Run

variable {bindings bindings' : Bindings}

theorem Instr.run_congr {i : Instr}
    (h : ∀ name, i = .var name → bindings.find? name = bindings'.find? name) (s : Stack) :
    i.run bindings s = i.run bindings' s := by
  cases i with
  | num | op | fn => rfl
  | var name => rw [run, run, h name rfl]

namespace Program

variable {p : Program}

theorem run_congr (h : ∀ name, .var name ∈ p → bindings.find? name = bindings'.find? name)
    (s : Stack) : run bindings p s = run bindings' p s := by
  induction p generalizing s with
  | nil => rfl
  | cons i rest ih =>
    have hfirst : i.run bindings s = i.run bindings' s :=
      Instr.run_congr (fun name hi => h name (hi ▸ List.mem_cons_self ..)) s
    have hrest (t : Stack) : run bindings rest t = run bindings' rest t :=
      ih (fun name hname => h name (List.mem_cons_of_mem _ hname)) t
    simp only [run, hfirst, hrest]

/-- An evaluation depends on the values of the variables that the program reads,
    and not on the stack that it finds. -/
theorem evaluate_congr (h : ∀ name, .var name ∈ p → bindings.find? name = bindings'.find? name)
    (s t : Stack) : p.evaluate bindings s = p.evaluate bindings' t := by
  rw [evaluate, evaluate, Stack.clear_eq_empty, Stack.clear_eq_empty, run_congr h]

end Program

end Run

/-! ## Expressions that agree -/

namespace Expression

/-- The same program, and the same values of all variables. -/
structure Agrees (x y : Expression) : Prop where
  program : x.program = y.program
  values : ∀ name, x.bindings.find? name = y.bindings.find? name

namespace Agrees

variable {x y : Expression}

theorem evaluate_eq (h : x.Agrees y) : x.evaluate.1 = y.evaluate.1 := by
  have heval : x.program.evaluate x.bindings x.stack = x.program.evaluate y.bindings y.stack :=
    Program.evaluate_congr (fun name _ => h.values name) x.stack y.stack
  show (x.program.evaluate x.bindings x.stack).1 = (y.program.evaluate y.bindings y.stack).1
  rw [heval, h.program]

theorem evaluate (h : x.Agrees y) : x.evaluate.2.Agrees y.evaluate.2 := ⟨h.program, h.values⟩

/-- A name that is refused by one is refused by the other. -/
theorem setVariable (h : x.Agrees y) (name : String) (value : Float) :
    (∃ x' y', x.setVariable name value = .ok x' ∧ y.setVariable name value = .ok y'
        ∧ x'.Agrees y')
      ∨ ∃ err, x.setVariable name value = .error err ∧ y.setVariable name value = .error err := by
  rw [Expression.setVariable, Expression.setVariable]
  split
  · exact Or.inr ⟨_, rfl, rfl⟩
  · exact Or.inl ⟨_, _, rfl, rfl, h.program, Table.find?_insert_congr h.values name value⟩

theorem setVariables (h : x.Agrees y) (vars : List (String × Float)) :
    (x.setVariables vars).1 = (y.setVariables vars).1
      ∧ (x.setVariables vars).2.Agrees (y.setVariables vars).2 := by
  induction vars generalizing x y with
  | nil => exact ⟨rfl, h⟩
  | cons var rest ih =>
    obtain ⟨name, value⟩ := var
    rw [Expression.setVariables, Expression.setVariables]
    rcases h.setVariable name value with ⟨x', y', hx, hy, h'⟩ | ⟨err, hx, hy⟩
    · rw [hx, hy]
      exact ih h'
    · rw [hx, hy]
      exact ⟨rfl, h⟩

/-- Whatever is done to both, they go on to agree. -/
theorem run (h : x.Agrees y) (action : Action) : (action.run x).2.Agrees (action.run y).2 := by
  cases action with
  | set name value =>
    rw [Action.run, Action.run]
    rcases h.setVariable name value with ⟨x', y', hx, hy, h'⟩ | ⟨err, hx, hy⟩
    · rw [hx, hy]
      exact h'
    · rw [hx, hy]
      exact h
  | setMany vars =>
    rw [Action.run_setMany_snd, Action.run_setMany_snd]
    exact (h.setVariables vars).2
  | clear => exact ⟨h.program, fun _ => rfl⟩
  | has | varNames | program | validate => exact h
  | evaluate =>
    rw [Action.run_evaluate_snd, Action.run_evaluate_snd]
    exact h.evaluate

theorem answer_eq (h : x.Agrees y) : (Action.evaluate.run x).1 = (Action.evaluate.run y).1 := by
  rw [Action.run_evaluate_fst, Action.run_evaluate_fst, h.evaluate_eq, h.program]

end Agrees

/-- The expression after a row of actions. -/
def after (x : Expression) (actions : List Action) : Expression :=
  actions.foldl (fun x action => (action.run x).2) x

/-- An expression of the same program and values that was never evaluated. -/
def afresh (x : Expression) : Expression := { ofProgram x.program with bindings := x.bindings }

theorem Agrees.after {x y : Expression} (h : x.Agrees y) (actions : List Action) :
    (x.after actions).Agrees (y.after actions) := by
  induction actions generalizing x y with
  | nil => exact h
  | cons action rest ih => exact ih (h.run action)

theorem evaluate_agrees (x : Expression) : x.evaluate.2.Agrees x := ⟨rfl, fun _ => rfl⟩

theorem agrees_afresh (x : Expression) : x.Agrees x.afresh := ⟨rfl, fun _ => rfl⟩

end Expression

namespace Session

/-- Two expressions that agree in program and values are evaluated to the same
    answer, whatever the commands that led to them.  An evaluation, whatever its
    answer, changes no other expression, and of its own neither program nor values
    nor stack size.  So it is repeated with the same answer, and whatever is done
    next, an evaluation then is that of an expression that had never been
    evaluated before. -/
theorem evaluate_independent_of_history {cs cs' : List Command} {i j : Nat} {x y : Expression}
    (hx : (empty.run cs).2.slots[i]? = some x) (hy : (empty.run cs').2.slots[j]? = some y)
    (h : x.Agrees y) :
    x.evaluate.1 = y.evaluate.1
      ∧ ((empty.run cs).2.step (.act i .evaluate)).1 = ((empty.run cs').2.step (.act j .evaluate)).1
      ∧ ∃ z, ((empty.run cs).2.step (.act i .evaluate)).2
            = ⟨(empty.run cs).2.slots.setIfInBounds i z⟩
        ∧ z.program = x.program ∧ z.bindings = x.bindings ∧ z.stackSize = x.stackSize
        ∧ z.evaluate.1 = x.evaluate.1
        ∧ ∀ actions, (z.after actions).evaluate.1 = (x.afresh.after actions).evaluate.1 := by
  refine ⟨h.evaluate_eq, ?_, x.evaluate.2, ?_, rfl, rfl, rfl, ?_, fun actions => ?_⟩
  · rw [step_act hx, step_act hy]
    exact h.answer_eq
  · rw [step_act hx, Action.run_evaluate_snd]
  · exact x.evaluate_agrees.evaluate_eq
  · -- neither what the evaluation left nor what came before it is seen
    have hleft := (x.evaluate_agrees.after actions).evaluate_eq
    have hfresh := (x.agrees_afresh.after actions).evaluate_eq
    exact hleft.trans hfresh

/-- The evaluation stops at a variable, with a value left on the stack. -/
def interrupted : List Command :=
  [ .create (.program [.num 2, .var "x", .op .subtract]), .act 0 .evaluate
  , .act 0 (.setMany [("x", 3), ("sin", 1)]) ]

/-- The same program and values in a copy that was given other values before. -/
def roundabout : List Command :=
  [ .create (.compileTokens [.num 2, .op .subtract, .var "x"]), .act 0 (.set "y" 7), .duplicate 0
  , .act 1 .clear, .act 1 (.set "x" 3) ]

/-- A difference with a value for its variable. -/
def difference : Expression :=
  { program := [.num 2, .var "x", .op .subtract], bindings := Table.ofList [("x", 3)]
    stackSize := 2 }

theorem evaluate_independent_of_history_roundabout :
    ∃ x y, (empty.run interrupted).2.slots[0]? = some x
      ∧ (empty.run roundabout).2.slots[1]? = some y
      ∧ x.stack.size = 1 ∧ y.stack.size = 0 ∧ x.Agrees y ∧ x.evaluate.1 = y.evaluate.1 := by
  have hx : (empty.run interrupted).2.slots[0]? = some { difference with stack := ⟨#[2]⟩ } := by
    rfl
  have hy : (empty.run roundabout).2.slots[1]? = some difference := by
    rfl
  have hagrees : Expression.Agrees { difference with stack := ⟨#[2]⟩ } difference :=
    ⟨rfl, fun _ => rfl⟩
  exact ⟨_, _, hx, hy, rfl, rfl, hagrees, (evaluate_independent_of_history hx hy hagrees).1⟩

end Session

end StackCalc
