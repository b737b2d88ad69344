/-
  StackCalc.Proofs.Sessions

  What one step of a session does.

  A step fills the next slot, lets one expression act, or changes nothing
  (`Steps`).  An action leaves the program and the stack size of its expression as
  they are, and only a name that is not reserved gets a value by it.
-/
import StackCalc.Session

namespace StackCalc

/-! ## One action -/

namespace Expression

/-- The second expression is the first one with other values, of which none is
    new under a reserved name, and maybe another stack. -/
structure Becomes (x y : Expression) : Prop where
  program : y.program = x.program
  stackSize : y.stackSize = x.stackSize
  unreserved : ∀ name ∈ y.bindings.names, name ∈ x.bindings.names ∨ Func.isBuiltin name = false

theorem Becomes.refl (x : Expression) : x.Becomes x :=
  ⟨rfl, rfl, fun _ hname => Or.inl hname⟩

theorem Becomes.trans {x y z : Expression} (h : x.Becomes y) (h' : y.Becomes z) : x.Becomes z := by
  refine ⟨h'.program.trans h.program, h'.stackSize.trans h.stackSize, fun name hname => ?_⟩
  rcases h'.unreserved name hname with hy | hfree
  · exact h.unreserved name hy
  · exact Or.inr hfree

theorem becomes_setVariable {x y : Expression} {name : String} {value : Float}
    (h : x.setVariable name value = .ok y) : x.Becomes y := by
  rw [setVariable] at h
  split at h
  · cases h
  · next hfree =>
    cases h
    refine ⟨rfl, rfl, fun key hkey => ?_⟩
    rcases Table.mem_names_insert.mp hkey with rfl | hkey
    · exact Or.inr (by simpa using hfree)
    · exact Or.inl hkey

theorem becomes_setVariables (x : Expression) (vars : List (String × Float)) :
    x.Becomes (x.setVariables vars).2 := by
  induction vars generalizing x with
  | nil => exact .refl x
  | cons var rest ih =>
    obtain ⟨name, value⟩ := var
    rw [setVariables]
    split
    · next y hset => exact (becomes_setVariable hset).trans (ih y)
    · exact .refl x

theorem becomes_clearVariables (x : Expression) : x.Becomes x.clearVariables :=
  ⟨rfl, rfl, fun _ hname => absurd hname List.not_mem_nil⟩

theorem becomes_evaluate (x : Expression) : x.Becomes x.evaluate.2 :=
  ⟨rfl, rfl, fun _ hname => Or.inl hname⟩

end Expression

namespace Action

theorem run_setMany_snd (x : Expression) (vars : List (String × Float)) :
    ((setMany vars).run x).2 = (x.setVariables vars).2 := by
  rw [run]
  split
  · next h => rw [h]
  · next h => rw [h]

theorem run_evaluate_snd (x : Expression) : (evaluate.run x).2 = x.evaluate.2 := by
  rw [run]
  split
  · next h => rw [h]
  · next h => rw [h]

/-- The answer to an evaluation is its value, or the error that ended it. -/
theorem run_evaluate_fst (x : Expression) :
    (evaluate.run x).1 = match x.evaluate.1 with
      | .ok v => .value v (.ofProgram x.program)
      | .error err => .refused err := by
  rw [run]
  split
  · next v y h =>
    have hprogram : y.program = x.program := (congrArg (fun r => r.2.program) h).symm
    rw [h, hprogram]
  · next err y h => rw [h]

theorem run_ne_created (action : Action) (x e : Expression) (slot : Nat) :
    (action.run x).1 ≠ .created slot e := by
  cases action with
  | set | setMany | evaluate =>
    rw [run]
    split <;> exact Answer.noConfusion
  | clear | has | varNames | program | validate => exact Answer.noConfusion

end Action

/-- What an action makes of its expression. -/
theorem Expression.becomes_run (x : Expression) (action : Action) : x.Becomes (action.run x).2 := by
  cases action with
  | set name value =>
    rw [Action.run]
    split
    · next hset => exact becomes_setVariable hset
    · exact .refl x
  | setMany vars =>
    rw [Action.run_setMany_snd]
    exact x.becomes_setVariables vars
  | clear => exact x.becomes_clearVariables
  | has | varNames | program | validate => exact .refl x
  | evaluate =>
    rw [Action.run_evaluate_snd]
    exact x.becomes_evaluate

/-! ## One step -/

namespace Session

/-- The answer to a command, and the session behind it. -/
inductive Steps (s : Session) : Command → Answer → Session → Prop where
  | created {origin : Origin} {e : Expression} (h : origin.expression = .ok e) :
      Steps s (.create origin) (.created s.slots.size e) ⟨s.slots.push e⟩
  | refused {origin : Origin} {err : Error} (h : origin.expression = .error err) :
      Steps s (.create origin) (.refused err) s
  | copied {slot : Nat} {x : Expression} (h : s.slots[slot]? = some x) :
      Steps s (.duplicate slot) (.created s.slots.size x.duplicate) ⟨s.slots.push x.duplicate⟩
  | uncopied {slot : Nat} (h : s.slots[slot]? = none) :
      Steps s (.duplicate slot) (.noSlot slot) s
  | acted {slot : Nat} {action : Action} {x : Expression} (h : s.slots[slot]? = some x) :
      Steps s (.act slot action) (action.run x).1 ⟨s.slots.setIfInBounds slot (action.run x).2⟩
  | idle {slot : Nat} {action : Action} (h : s.slots[slot]? = none) :
      Steps s (.act slot action) (.noSlot slot) s

theorem steps_step (s : Session) (c : Command) : Steps s c (s.step c).1 (s.step c).2 := by
  cases c with
  | create origin =>
    rw [step]
    split
    · next h => exact .created h
    · next h => exact .refused h
  | duplicate slot =>
    rw [step]
    split
    · next h => exact .copied h
    · next h => exact .uncopied h
  | act slot action =>
    rw [step]
    split
    · next h => exact .acted h
    · next h => exact .idle h

theorem step_act {s : Session} {slot : Nat} {x : Expression} (h : s.slots[slot]? = some x)
    (action : Action) : s.step (.act slot action)
      = ((action.run x).1, ⟨s.slots.setIfInBounds slot (action.run x).2⟩) := by
  rw [step, h]

theorem step_duplicate {s : Session} {slot : Nat} {x : Expression}
    (h : s.slots[slot]? = some x) : s.step (.duplicate slot)
      = (.created s.slots.size x.duplicate, ⟨s.slots.push x.duplicate⟩) := by
  rw [step, h]
  rfl

theorem step_act_of_none {s : Session} {slot : Nat} (h : s.slots[slot]? = none)
    (action : Action) : s.step (.act slot action) = (.noSlot slot, s) := by
  rw [step, h]

theorem step_duplicate_of_none {s : Session} {slot : Nat} (h : s.slots[slot]? = none) :
    s.step (.duplicate slot) = (.noSlot slot, s) := by
  rw [step, h]

theorem run_cons (s : Session) (c : Command) (cs : List Command) :
    s.run (c :: cs) = ((s.step c).1 :: ((s.step c).2.run cs).1, ((s.step c).2.run cs).2) := rfl

end Session

end StackCalc
