/-
  StackCalc.Proofs.Execution

  How a run of any program ends.

  One instruction leaves one value in place of those that it takes, or it fails: a
  variable has no value, a function returns an error, or there are too few values.
  A run that fails is a run of the instructions before one that fails, so the ends
  of a run follow from those of one instruction and from the count of the program.
  An error of the program's own is therefore one that the run has come to
  (`Program.Raises`): a function returns it at the arguments that it finds there.
-/
import StackCalc.Expression
import StackCalc.Proofs.Balance

namespace StackCalc

/-! ## One instruction -/

namespace Stack

theorem deliver_spec {s s' : Stack} {result : Except Error Float} {r : Except Error Unit}
    (h : s.deliver result = (r, s')) :
    r = .ok () ∧ s'.size = s.size + 1 ∨ ∃ err, r = .error err ∧ result = .error err := by
  cases result with
  | ok v =>
    cases h
    exact Or.inl ⟨rfl, size_push s v⟩
  | error err =>
    cases h
    exact Or.inr ⟨err, rfl, rfl⟩

theorem size_operate {s : Stack} {operation : Operator.Operation}
    (henough : operation.arity ≤ s.size) :
    (s.operate operation).size + operation.arity = s.size + 1 := by
  cases operation with
  | unary f =>
    have hpop := s.size_pop
    simp only [operate, size_push, Operator.Operation.arity] at henough ⊢
    omega
  | binary f =>
    have hright := s.size_pop
    have hleft := s.pop.2.size_pop
    simp only [operate, size_push, Operator.Operation.arity] at henough ⊢
    omega

/-- A call leaves one value in place of the arguments, or fails as the function
    does at some arguments. -/
theorem call_spec {s s' : Stack} {f : Func} {r : Except Error Unit} (henough : f.arity ≤ s.size)
    (h : s.call f.operation = (r, s')) :
    r = .ok () ∧ s'.size + f.arity = s.size + 1
      ∨ ∃ err a b, r = .error err ∧ f.call a b = .error err := by
  obtain ⟨name, operation⟩ := f
  cases operation with
  | nullary g =>
    rcases deliver_spec h with ⟨hr, hsize⟩ | ⟨err, hr, herr⟩
    · exact Or.inl ⟨hr, hsize⟩
    · exact Or.inr ⟨err, 0, 0, hr, herr⟩
  | unary g =>
    have hpop := s.size_pop
    have henough' : 1 ≤ s.size := henough
    rcases deliver_spec h with ⟨hr, hsize⟩ | ⟨err, hr, herr⟩
    · have hsize' : s'.size = s.pop.2.size + 1 := hsize
      refine Or.inl ⟨hr, ?_⟩
      show s'.size + 1 = s.size + 1
      omega
    · exact Or.inr ⟨err, s.pop.1, 0, hr, herr⟩
  | binary g =>
    have hsecond := s.size_pop
    have hfirst := s.pop.2.size_pop
    have henough' : 2 ≤ s.size := henough
    rcases deliver_spec h with ⟨hr, hsize⟩ | ⟨err, hr, herr⟩
    · have hsize' : s'.size = s.pop.2.pop.2.size + 1 := hsize
      refine Or.inl ⟨hr, ?_⟩
      show s'.size + 2 = s.size + 1
      omega
    · exact Or.inr ⟨err, s.pop.2.pop.1, s.pop.1, hr, herr⟩

end Stack

namespace Instr

/-- The ends of one instruction on a stack. -/
inductive Ends (bindings : Bindings) (i : Instr) (s : Stack) :
    Except Error Unit × Stack → Prop where
  | done {s' : Stack} (henough : i.arity ≤ s.size) (hsize : s'.size + i.arity = s.size + 1)
      (hset : ∀ name, i = .var name → bindings.find? name ≠ none) : Ends bindings i s (.ok (), s')
  | unset {name : String} (hi : i = .var name) (hunset : bindings.find? name = none) :
      Ends bindings i s (.error (.unboundVariable name), s)
  | returned {f : Func} {err : Error} {s' : Stack} (hi : i = .fn f) (henough : f.arity ≤ s.size)
      (herr : (s.call f.operation).1 = .error err) : Ends bindings i s (.error err, s')
  | lacking (hlacking : s.size < i.arity) :
      Ends bindings i s (.error (.operandUnderflow i.text), s)

theorem ends_run (bindings : Bindings) (i : Instr) (s : Stack) :
    Ends bindings i s (i.run bindings s) := by
  cases i with
  | num value =>
    refine .done (Nat.zero_le _) (s.size_push value) ?_
    intro name heq
    cases heq
  | var name =>
    rw [run]
    cases hfind : bindings.find? name with
    | none => exact .unset rfl hfind
    | some value =>
      refine .done (Nat.zero_le _) (s.size_push value) ?_
      rintro _ ⟨⟩
      rw [hfind]
      exact Option.some_ne_none value
  | op o =>
    rw [run]
    split
    · next hlt => exact .lacking hlt
    · next hge =>
      have henough : o.arity ≤ s.size := Nat.not_lt.mp hge
      refine .done henough (Stack.size_operate henough) ?_
      intro name heq
      cases heq
  | fn f =>
    rw [run]
    split
    · next hlt => exact .lacking hlt
    · next hge =>
      have henough : f.arity ≤ s.size := Nat.not_lt.mp hge
      cases hcall : s.call f.operation with
      | mk r s' =>
        rcases Stack.call_spec henough hcall with ⟨rfl, hsize⟩ | ⟨err, _, _, rfl, -⟩
        · refine .done henough hsize ?_
          intro name heq
          cases heq
        · exact .returned rfl henough (congrArg Prod.fst hcall)

end Instr

/-! ## A whole run -/

namespace Program

/-- Every variable of the program has a value. -/
def IsSet (bindings : Bindings) (p : Program) : Prop :=
  ∀ name, .var name ∈ p → bindings.find? name ≠ none

theorem run_cons {bindings : Bindings} {i : Instr} {rest : Program} {s s' : Stack}
    (h : i.run bindings s = (.ok (), s')) :
    run bindings (i :: rest) s = run bindings rest s' := by
  rw [run, h]

/-- A run to the end finds all values that it takes and all variables that it
    reads. -/
theorem run_eq_ok {bindings : Bindings} {p : Program} {s s' : Stack}
    (h : p.run bindings s = (.ok (), s')) :
    lackingFrom s.size p = none ∧ (s'.size : Int) = s.size + gain p ∧ p.IsSet bindings := by
  induction p generalizing s with
  | nil =>
    cases h
    refine ⟨rfl, ?_, fun _ hmem => absurd hmem List.not_mem_nil⟩
    rw [gain_nil, Int.add_zero]
  | cons i rest ih =>
    have hends := i.ends_run bindings s
    cases hrun : i.run bindings s with
    | mk r s₁ =>
      rw [hrun] at hends
      cases hends with
      | unset | returned | lacking =>
        rw [run, hrun] at h
        cases h
      | done henough hsize hset =>
        rw [run_cons hrun] at h
        obtain ⟨hlacking, hsize', hset'⟩ := ih h
        -- the count follows the size of the stack
        have hcount : (s.size : Int) + i.gain = s₁.size := by
          rw [Instr.gain]
          omega
        refine ⟨?_, ?_, ?_⟩
        · rw [lackingFrom_cons_of_le rest (by omega), hcount]
          exact hlacking
        · rw [gain_cons]
          omega
        · intro name hmem
          rcases List.mem_cons.mp hmem with heq | hmem
          · exact hset name heq.symm
          · exact hset' name hmem

/-- A run that fails has come to some instruction, and fails there. -/
theorem run_eq_error {bindings : Bindings} {p : Program} {s s' : Stack} {err : Error}
    (h : p.run bindings s = (.error err, s')) :
    ∃ before i after t, p = before ++ i :: after ∧ run bindings before s = (.ok (), t)
      ∧ i.run bindings t = (.error err, s') := by
  induction p generalizing s with
  | nil => cases h
  | cons i rest ih =>
    cases hrun : i.run bindings s with
    | mk r s₁ =>
      cases r with
      | error e =>
        rw [run, hrun] at h
        cases h
        exact ⟨[], i, rest, s, rfl, rfl, hrun⟩
      | ok u =>
        -- this one is done, so it is among those before the one that fails
        rw [run_cons hrun] at h
        obtain ⟨before, j, after, t, rfl, hbefore, hj⟩ := ih h
        refine ⟨i :: before, j, after, t, rfl, ?_, hj⟩
        rw [run_cons hrun]
        exact hbefore

/-- The error is one that a function of the program returns when the run has come to
    it. -/
def Returns (bindings : Bindings) (p : Program) (err : Error) : Prop :=
  ∃ before f after s, p = before ++ .fn f :: after ∧ run bindings before .empty = (.ok (), s)
    ∧ f.arity ≤ s.size ∧ (s.call f.operation).1 = .error err

/-- The errors of the program's own: the run has come to a variable without a value, or
    to a function that returns the error. -/
inductive Raises (bindings : Bindings) (p : Program) : Error → Prop where
  | unset {before after : Program} {name : String} {s : Stack}
      (hp : p = before ++ .var name :: after) (hrun : run bindings before .empty = (.ok (), s))
      (hunset : bindings.find? name = none) : Raises bindings p (.unboundVariable name)
  | returned {err : Error} (h : p.Returns bindings err) : Raises bindings p err

/-- The ends of an evaluation. -/
inductive Ends (bindings : Bindings) (p : Program) : Except Error Float → Prop where
  | value (v : Float) (hlacking : lackingFrom 0 p = none) (hgain : gain p = 1)
      (hset : p.IsSet bindings) : Ends bindings p (.ok v)
  | surplus (n : Nat) (hlacking : lackingFrom 0 p = none) (hgain : gain p = n) (hn : 2 ≤ n)
      (hset : p.IsSet bindings) : Ends bindings p (.error (.surplusOperands n))
  | empty (reason : String) (h : p = []) : Ends bindings p (.error (.internal reason))
  | raised {err : Error} (hraises : p.Raises bindings err) : Ends bindings p (.error err)
  | lacking {i : Instr} (h : FirstLacking p i) :
      Ends bindings p (.error (.operandUnderflow i.text))

theorem ends_answer {bindings : Bindings} {p : Program} {s : Stack}
    (hlacking : lackingFrom 0 p = none) (hsize : (s.size : Int) = gain p)
    (hset : p.IsSet bindings) : Ends bindings p (answer s).1 := by
  rw [answer]
  split
  · next hone =>
    rw [hone] at hsize
    exact .value _ hlacking hsize.symm hset
  · next hzero =>
    refine .empty _ (Classical.byContradiction fun hne => ?_)
    have hle := one_le_of_lackingFrom hlacking hne
    omega
  · next n hone hzero =>
    have htwo : 2 ≤ s.size := by
      have h1 : s.size ≠ 1 := hone
      have h0 : s.size ≠ 0 := hzero
      omega
    exact .surplus s.size hlacking hsize.symm htwo hset

theorem ends_evaluate (bindings : Bindings) (p : Program) (s : Stack) :
    Ends bindings p (p.evaluate bindings s).1 := by
  rw [evaluate, Stack.clear_eq_empty]
  cases hrun : p.run bindings .empty with
  | mk r s' =>
    cases r with
    | ok u =>
      obtain ⟨hlacking, hsize, hset⟩ := run_eq_ok hrun
      exact ends_answer hlacking (by simpa using hsize) hset
    | error err =>
      obtain ⟨before, i, after, t, hp, hbefore, hi⟩ := run_eq_error hrun
      have hends := i.ends_run bindings t
      rw [hi] at hends
      cases hends with
      | unset hvar hunset =>
        rw [hvar] at hp
        exact .raised (.unset hp hbefore hunset)
      | returned hfn henough herr =>
        rw [hfn] at hp
        exact .raised (.returned ⟨before, _, after, t, hp, hbefore, henough, herr⟩)
      | lacking hlt =>
        -- up to the instruction that fails nothing lacks values
        obtain ⟨hlacking, hsize, -⟩ := run_eq_ok hbefore
        have hbefore' : lackingFrom 0 before = none := hlacking
        have hcount : (0 : Int) + gain before = s'.size := by
          rw [hsize, Stack.size_empty, Int.natCast_zero]
        refine .lacking (firstLacking_iff.mpr ?_)
        rw [hp, lackingFrom_append, hbefore', Option.none_or, hcount]
        exact lackingFrom_cons_of_lt after (by omega)

end Program

end StackCalc
