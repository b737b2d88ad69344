/-
  StackCalc.Proofs.Coherence

  What holds of every expression in every session.

  An expression is created with the stack size of its program and without values
  (`Origin.coherent`), and no action, refused or not, changes the program, the
  stack size, or gives a value to a reserved name.  One step of a session keeps
  this of all slots, together with the answers that say what each slot was filled
  with (`Sound.step`), so every session does.
-/
import StackCalc.Proofs.Agreement
import StackCalc.Proofs.Capacity
import StackCalc.Proofs.Sessions

namespace StackCalc

/-! ## Expressions -/

/-- No reserved name has a value, and the stack is as large as the program needs. -/
structure Expression.Coherent (x : Expression) : Prop where
  unreserved : ∀ name ∈ x.bindings.names, Func.isBuiltin name = false
  stackSize_eq : x.stackSize = x.program.stackSize

namespace Expression

theorem Coherent.of_becomes {x y : Expression} (hx : x.Coherent) (h : x.Becomes y) :
    y.Coherent := by
  refine ⟨fun name hname => ?_, ?_⟩
  · rcases h.unreserved name hname with hold | hfree
    · exact hx.unreserved name hold
    · exact hfree
  · rw [h.stackSize, h.program, hx.stackSize_eq]

theorem coherent_ofProgram (p : Program) : (ofProgram p).Coherent :=
  ⟨fun _ hname => absurd hname List.not_mem_nil, rfl⟩

/-- What is compiled has the size that the analysis of its program gives. -/
theorem coherent_of_compile {ts : List Token} {x : Expression} (h : compile ts = .ok x) :
    x.Coherent := by
  obtain ⟨p, -, -, rfl⟩ := compile_eq_ok_iff.mp h
  exact coherent_ofProgram p

/-- What is built has no values and was never evaluated. -/
theorem exists_ofProgram_of_build {f : Formula} {x : Expression} (h : f.build = .ok x) :
    ∃ p, x = ofProgram p := by
  rw [Formula.build] at h
  split at h
  · cases h
  · split at h
    · cases h
    · cases h
      exact ⟨_, rfl⟩

theorem coherent_of_build {f : Formula} {x : Expression} (h : f.build = .ok x) : x.Coherent := by
  obtain ⟨p, rfl⟩ := exists_ofProgram_of_build h
  exact coherent_ofProgram p

end Expression

theorem Origin.coherent {origin : Origin} {x : Expression} (h : origin.expression = .ok x) :
    x.Coherent := by
  cases origin with
  | parse text =>
    have hbuild : Formula.build { text } = .ok x := h
    exact Expression.coherent_of_build hbuild
  | build f => exact Expression.coherent_of_build h
  | compileText f =>
    have hcompile : f.compile = .ok x := h
    rw [Formula.compile] at hcompile
    split at hcompile
    · cases hcompile
    · exact Expression.coherent_of_compile hcompile
  | compileTokens => exact Expression.coherent_of_compile h
  | program p =>
    cases h
    exact Expression.coherent_ofProgram p

theorem Expression.Coherent.duplicate {x : Expression} (h : x.Coherent) : x.duplicate.Coherent :=
  ⟨h.unreserved, h.stackSize_eq⟩

/-- A variable with a reserved name has no value, so nothing that reads it has one. -/
theorem Expression.Coherent.evaluate_ne_ok {x : Expression} (h : x.Coherent) {name : String}
    (hreads : .var name ∈ x.program) (hreserved : Func.isBuiltin name = true) (v : Float) :
    x.evaluate.1 ≠ .ok v := by
  intro hv
  have hends := x.ends_evaluate
  rw [hv] at hends
  cases hends with
  | value _ _ _ hset =>
    have hfree := h.unreserved name (Table.find?_ne_none_iff.mp (hset name hreads))
    rw [hreserved] at hfree
    cases hfree

/-! ## Sessions -/

namespace Session

/-- Every expression is coherent.  The slots that are filled are those that the
    answers say have been created, and each has the program that it was created
    with. -/
structure Sound (answers : List Answer) (s : Session) : Prop where
  coherent : ∀ (i : Nat) (x : Expression), s.slots[i]? = some x → x.Coherent
  filled : ∀ (i : Nat) (x : Expression), s.slots[i]? = some x → ∃ e, .created i e ∈ answers
  kept : ∀ i e, .created i e ∈ answers → ∃ x, s.slots[i]? = some x ∧ x.program = e.program

namespace Sound

variable {answers : List Answer} {s s' : Session}

/-- An answer that fills no slot leaves all as it is. -/
theorem answer (h : Sound answers s) {a : Answer} (ha : ∀ i e, a ≠ .created i e) :
    Sound (answers ++ [a]) s := by
  refine ⟨h.coherent, fun i x hx => ?_, fun i e he => ?_⟩
  · obtain ⟨e, he⟩ := h.filled i x hx
    exact ⟨e, List.mem_append_left _ he⟩
  · rcases List.mem_append.mp he with he | he
    · exact h.kept i e he
    · exact absurd (List.mem_singleton.mp he).symm (ha i e)

theorem add (h : Sound answers s) {e : Expression} (he : e.Coherent) :
    Sound (answers ++ [.created s.slots.size e]) ⟨s.slots.push e⟩ := by
  have hslots (i : Nat) (x : Expression) (hx : (s.slots.push e)[i]? = some x) :
      i = s.slots.size ∧ x = e ∨ s.slots[i]? = some x := by
    rw [Array.getElem?_push] at hx
    split at hx
    · next hi => exact Or.inl ⟨hi, (Option.some.inj hx).symm⟩
    · exact Or.inr hx
  refine ⟨fun i x hx => ?_, fun i x hx => ?_, fun i e' he' => ?_⟩
  · rcases hslots i x hx with ⟨-, rfl⟩ | hx
    · exact he
    · exact h.coherent i x hx
  · rcases hslots i x hx with ⟨rfl, rfl⟩ | hx
    · exact ⟨x, List.mem_append_right _ (List.mem_singleton_self _)⟩
    · obtain ⟨e', he'⟩ := h.filled i x hx
      exact ⟨e', List.mem_append_left _ he'⟩
  · show ∃ x, (s.slots.push e)[i]? = some x ∧ x.program = e'.program
    rw [Array.getElem?_push]
    rcases List.mem_append.mp he' with he' | he'
    · obtain ⟨x, hx, hprogram⟩ := h.kept i e' he'
      obtain ⟨hlt, -⟩ := Array.getElem?_eq_some_iff.mp hx
      rw [if_neg (by omega)]
      exact ⟨x, hx, hprogram⟩
    · cases List.mem_singleton.mp he'
      rw [if_pos rfl]
      exact ⟨e, rfl, rfl⟩

theorem set (h : Sound answers s) {slot : Nat} {x y : Expression} (hx : s.slots[slot]? = some x)
    (hy : x.Becomes y) : Sound answers ⟨s.slots.setIfInBounds slot y⟩ := by
  obtain ⟨hlt, -⟩ := Array.getElem?_eq_some_iff.mp hx
  have hslots (i : Nat) : (s.slots.setIfInBounds slot y)[i]?
      = if slot = i then some y else s.slots[i]? := by
    rw [Array.getElem?_setIfInBounds, if_pos hlt]
  refine ⟨fun i z hz => ?_, fun i z hz => ?_, fun i e he => ?_⟩
  · rw [hslots] at hz
    split at hz
    · cases hz
      exact (h.coherent slot x hx).of_becomes hy
    · exact h.coherent i z hz
  · rw [hslots] at hz
    split at hz
    · next hi => exact hi ▸ h.filled slot x hx
    · exact h.filled i z hz
  · obtain ⟨z, hz, hprogram⟩ := h.kept i e he
    show ∃ w, (s.slots.setIfInBounds slot y)[i]? = some w ∧ w.program = e.program
    rw [hslots]
    split
    · next hi =>
      -- the slot that was acted on has still its program
      rw [← hi, hx] at hz
      cases hz
      exact ⟨y, rfl, hy.program.trans hprogram⟩
    · exact ⟨z, hz, hprogram⟩

theorem step (h : Sound answers s) {c : Command} {a : Answer} (hsteps : Steps s c a s') :
    Sound (answers ++ [a]) s' := by
  cases hsteps with
  | created horigin => exact h.add (Origin.coherent horigin)
  | copied hx => exact h.add (h.coherent _ _ hx).duplicate
  | @acted slot action x hx =>
    have hanswer (i : Nat) (e : Expression) := action.run_ne_created x e i
    exact (h.answer hanswer).set hx (x.becomes_run action)
  | refused | uncopied | idle => exact h.answer fun _ _ => Answer.noConfusion

theorem run (h : Sound answers s) (cs : List Command) :
    Sound (answers ++ (s.run cs).1) (s.run cs).2 := by
  induction cs generalizing answers s with
  | nil =>
    show Sound (answers ++ []) s
    rwa [List.append_nil]
  | cons c cs ih =>
    have hrest := ih (h.step (s.steps_step c))
    rwa [List.append_assoc, List.singleton_append] at hrest

end Sound

theorem sound_empty : Sound [] empty := by
  have hnone (i : Nat) : empty.slots[i]? = none := rfl
  refine ⟨fun i x hx => ?_, fun i x hx => ?_, fun i e he => absurd he List.not_mem_nil⟩
  · rw [hnone] at hx
    cases hx
  · rw [hnone] at hx
    cases hx

/-- In every session, whatever was done and whatever was refused, no reserved name
    has a value in any expression, its stack size is that of its program, and its
    program is the one that it was created with.  So a program that reads a variable
    with a reserved name never has a value. -/
theorem coherent_of_run {cs : List Command} {i : Nat} {x : Expression}
    (hx : (empty.run cs).2.slots[i]? = some x) :
    (∀ name ∈ x.bindings.names, Func.isBuiltin name = false)
      ∧ x.stackSize = x.program.stackSize
      ∧ (∃ e, .created i e ∈ (empty.run cs).1)
      ∧ (∀ e, .created i e ∈ (empty.run cs).1 → x.program = e.program)
      ∧ ∀ name, .var name ∈ x.program → Func.isBuiltin name = true → ∀ v, x.evaluate.1 ≠ .ok v := by
  have hsound : Sound (empty.run cs).1 (empty.run cs).2 := sound_empty.run cs
  have hcoherent := hsound.coherent i x hx
  refine ⟨hcoherent.unreserved, hcoherent.stackSize_eq, hsound.filled i x hx, fun e he => ?_, ?_⟩
  · obtain ⟨y, hy, hprogram⟩ := hsound.kept i e he
    rw [hx] at hy
    cases hy
    exact hprogram
  · intro name hreads hreserved v
    exact hcoherent.evaluate_ne_ok hreads hreserved v

/-- A variable that is called like a function, and attempts to give it a value. -/
def stubborn : List Command :=
  [ .create (.program [.var "sin", .num 1, .op .add]), .act 0 (.set "sin" 2)
  , .act 0 (.setMany [("x", 1), ("sin", 2), ("y", 3)]), .act 0 .evaluate, .duplicate 0
  , .act 1 (.set "z" 4) ]

theorem coherent_of_run_stubborn :
    ∃ x, (empty.run stubborn).2.slots[1]? = some x ∧ x.bindings.names = ["x", "z"]
      ∧ x.stackSize = 2 ∧ .var "sin" ∈ x.program ∧ Func.isBuiltin "sin" = true
      ∧ ∀ v, x.evaluate.1 ≠ .ok v := by
  have hx : (empty.run stubborn).2.slots[1]? = some
      { program := [.var "sin", .num 1, .op .add], bindings := Table.ofList [("x", 1), ("z", 4)]
        stackSize := 2 } := by
    rfl
  obtain ⟨-, hsize, -, -, hvalue⟩ := coherent_of_run hx
  have hreads : .var "sin" ∈ [Instr.var "sin", .num 1, .op .add] := List.mem_cons_self ..
  exact ⟨_, hx, rfl, hsize, hreads, rfl, hvalue "sin" hreads rfl⟩

end Session

end StackCalc
