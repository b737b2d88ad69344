/-
  StackCalc.Proofs.Agreement

  Validation and evaluation agree, on balanced programs and on all others.

  Where no function fails, the end of an evaluation can be told from what
  validation says, and the other way round: the two stop at the same instruction,
  and for the same reason.
-/
import StackCalc.Operator.Builtin
import StackCalc.Proofs.Execution

namespace StackCalc

namespace Program

/-- No function of the program fails. -/
def IsTotal (p : Program) : Prop := ∀ f, .fn f ∈ p → ∀ a b, ∃ v, f.call a b = .ok v

/-- What the check of the balance says. -/
def complaints (p : Program) : List String := p.balance.map BalanceFault.message

theorem complaints_of_op {p : Program} {o : Operator} (h : FirstLacking p (.op o)) :
    p.complaints = ["too many operators"] := by
  rw [complaints, balance_of_firstLacking h]
  rfl

theorem complaints_of_fn {p : Program} {f : Func} (h : FirstLacking p (.fn f)) :
    p.complaints = ["not enough arguments for '" ++ f.name ++ "'", "too many operators"] := by
  rw [complaints, balance_of_firstLacking h]
  rfl

/-- Only an operator or a function can lack values. -/
theorem FirstLacking.cases {p : Program} {i : Instr} (h : FirstLacking p i) :
    (∃ o, i = .op o) ∨ ∃ f, i = .fn f := by
  obtain ⟨before, after, -, hlt, hle⟩ := h
  have hgain : 0 ≤ gain before := by
    rcases List.eq_nil_or_concat before with rfl | ⟨b, j, rfl⟩
    · exact Int.le_refl 0
    · -- the last instruction before it has left a value
      have hj := hle b j [] (List.concat_eq_append ..)
      rw [List.concat_eq_append, gain_append, gain_cons, gain_nil, Instr.gain]
      omega
  have hpos : i.arity ≠ 0 := by omega
  cases i with
  | num | var => exact absurd rfl hpos
  | op o => exact Or.inl ⟨o, rfl⟩
  | fn f => exact Or.inr ⟨f, rfl⟩

theorem FirstLacking.unique {p : Program} {i j : Instr} (hi : FirstLacking p i)
    (hj : FirstLacking p j) : i = j := by
  have hsome := firstLacking_iff.mp hi
  rw [firstLacking_iff.mp hj] at hsome
  exact (Option.some.inj hsome).symm

theorem complaints_of_lackingFrom {p : Program} (h : lackingFrom 0 p = none) (hne : p ≠ []) :
    p.complaints = if 1 < gain p then ["too many operands"] else [] := by
  rw [complaints, balance_of_lackingFrom h hne]
  split <;> rfl

theorem complaints_eq_empty_iff {p : Program} : p.complaints = ["empty program"] ↔ p = [] := by
  constructor
  · intro h
    -- of a program with instructions something else is said, or nothing
    refine Classical.byContradiction fun hne => ?_
    cases hlacking : lackingFrom 0 p with
    | none =>
      rw [complaints_of_lackingFrom hlacking hne] at h
      split at h
      · exact absurd h (by decide)
      · cases h
    | some i =>
      have hfirst := firstLacking_iff.mpr hlacking
      rcases hfirst.cases with ⟨o, rfl⟩ | ⟨f, rfl⟩
      · rw [complaints_of_op hfirst] at h
        exact absurd h (by decide)
      · rw [complaints_of_fn hfirst] at h
        exact absurd (congrArg List.length h) (by simp)
  · rintro rfl
    rfl

theorem not_returns {bindings : Bindings} {p : Program} {err : Error} (htotal : p.IsTotal) :
    ¬ p.Returns bindings err := by
  rintro ⟨before, f, after, s, rfl, -, henough, herr⟩
  have hcall : s.call f.operation = (.error err, (s.call f.operation).2) := Prod.ext herr rfl
  rcases Stack.call_spec henough hcall with ⟨hok, -⟩ | ⟨_, a, b, -, hfails⟩
  · cases hok
  · obtain ⟨v, hv⟩ := htotal f (by simp) a b
    rw [hv] at hfails
    cases hfails

theorem not_raises {bindings : Bindings} {p : Program} {err : Error} (htotal : p.IsTotal)
    (hset : p.IsSet bindings) : ¬ p.Raises bindings err := by
  intro hraises
  cases hraises with
  | @unset _ _ name _ hp _ hunset => exact hset name (by rw [hp]; simp) hunset
  | returned h => exact not_returns htotal h

end Program

namespace Expression

open Program (FirstLacking gain lackingFrom)

variable {x : Expression}

theorem ends_evaluate (x : Expression) : Program.Ends x.bindings x.program x.evaluate.1 :=
  Program.ends_evaluate x.bindings x.program x.stack

/-- The warning about an instruction that reads a variable without a value. -/
def unsetWarning? (x : Expression) : Instr → Option Warning
  | .var name => if x.hasVariable name then none else some (.unset name)
  | _ => none

theorem unsetWarnings_eq (x : Expression) :
    x.unsetWarnings = x.program.filterMap x.unsetWarning? := rfl

theorem unsetWarning?_var (x : Expression) (name : String) :
    x.unsetWarning? (.var name) = none ↔ x.bindings.find? name ≠ none := by
  rw [unsetWarning?, hasVariable, Table.contains]
  cases x.bindings.find? name <;> simp

theorem filterMap_unsetWarning? {p : Program} :
    p.filterMap x.unsetWarning? = [] ↔ p.IsSet x.bindings := by
  rw [List.filterMap_eq_nil_iff]
  constructor
  · intro h name hmem
    exact (unsetWarning?_var x name).mp (h _ hmem)
  · intro h i hmem
    cases i with
    | var name => exact (unsetWarning?_var x name).mpr (h name hmem)
    | num | op | fn => rfl

/-- The first warning is about the first variable without a value. -/
theorem head?_validate {before after : Program} {name : String}
    (hp : x.program = before ++ .var name :: after) (hbefore : before.IsSet x.bindings)
    (hunset : x.bindings.find? name = none) : (x.validate true).head? = some (.unset name) := by
  have hwarning : x.unsetWarning? (.var name) = some (.unset name) := by
    rw [unsetWarning?, hasVariable, Table.contains, hunset]
    rfl
  rw [validate, if_pos rfl, unsetWarnings_eq, hp, List.filterMap_append,
    filterMap_unsetWarning?.mpr hbefore, List.filterMap_cons_some hwarning]
  rfl

theorem validate_eq_nil_iff : x.validate true = [] ↔
    x.program.IsSet x.bindings ∧ lackingFrom 0 x.program = none ∧ gain x.program = 1 := by
  rw [validate, if_pos rfl, unsetWarnings_eq, List.append_eq_nil_iff, filterMap_unsetWarning?,
    List.map_eq_nil_iff, Program.balance_eq_nil_iff]

/-! ## The ends of an evaluation in which no function fails -/

theorem head?_of_unboundVariable (htotal : x.program.IsTotal) {name : String}
    (h : x.evaluate.1 = .error (.unboundVariable name)) :
    (x.validate true).head? = some (.unset name) := by
  have hends := ends_evaluate x
  rw [h] at hends
  cases hends with
  | raised hraises =>
    cases hraises with
    | unset hp hrun hunset => exact head?_validate hp (Program.run_eq_ok hrun).2.2 hunset
    | returned hreturns => exact absurd hreturns (Program.not_returns htotal)

/-- With values for all variables, an evaluation fails only by the count. -/
inductive Counted (x : Expression) : Except Error Float → Prop where
  | value (v : Float) (hlacking : lackingFrom 0 x.program = none) (hgain : gain x.program = 1) :
      Counted x (.ok v)
  | surplus (n : Nat) (hlacking : lackingFrom 0 x.program = none) (hgain : gain x.program = n)
      (hn : 2 ≤ n) : Counted x (.error (.surplusOperands n))
  | empty (reason : String) (hempty : x.program = []) : Counted x (.error (.internal reason))
  | lacking {i : Instr} (hfirst : FirstLacking x.program i) :
      Counted x (.error (.operandUnderflow i.text))

theorem counted_evaluate (htotal : x.program.IsTotal) (hset : x.program.IsSet x.bindings) :
    Counted x x.evaluate.1 := by
  have hends := ends_evaluate x
  generalize x.evaluate.1 = r at hends ⊢
  cases hends with
  | value v hlacking hgain => exact .value v hlacking hgain
  | surplus n hlacking hgain hn => exact .surplus n hlacking hgain hn
  | empty reason hempty => exact .empty reason hempty
  | raised hraises => exact absurd hraises (Program.not_raises htotal hset)
  | lacking hfirst => exact .lacking hfirst

theorem evaluate_eq_ok_iff (htotal : x.program.IsTotal) :
    (∃ v, x.evaluate.1 = .ok v) ↔ x.validate true = [] := by
  rw [validate_eq_nil_iff]
  constructor
  · rintro ⟨v, hv⟩
    have hends := ends_evaluate x
    rw [hv] at hends
    cases hends with
    | value _ hlacking hgain hset => exact ⟨hset, hlacking, hgain⟩
  · rintro ⟨hset, hlacking, hgain⟩
    have hcounted := counted_evaluate htotal hset
    generalize x.evaluate.1 = r at hcounted ⊢
    cases hcounted with
    | value v => exact ⟨v, rfl⟩
    | surplus n _ hgain' hn => omega
    | empty reason hempty =>
      rw [hempty] at hgain
      cases hgain
    | lacking hfirst =>
      rw [Program.firstLacking_iff, hlacking] at hfirst
      cases hfirst

theorem Counted.operandUnderflow_iff {r : Except Error Float} (h : Counted x r) (label : String) :
    r = .error (.operandUnderflow label) ↔ ∃ i, FirstLacking x.program i ∧ i.text = label := by
  constructor
  · rintro rfl
    cases h with
    | lacking hfirst => exact ⟨_, hfirst, rfl⟩
  · rintro ⟨i, hi, rfl⟩
    cases h with
    | value _ hlacking | surplus _ hlacking =>
      rw [Program.firstLacking_iff, hlacking] at hi
      cases hi
    | empty _ hempty =>
      rw [Program.firstLacking_iff, hempty] at hi
      cases hi
    | lacking hfirst => rw [hfirst.unique hi]

/-- What the check says where an instruction lacks values. -/
theorem exists_firstLacking_iff {label : String} :
    (∃ i, FirstLacking x.program i ∧ i.text = label)
      ↔ (x.program.complaints = ["too many operators"]
          ∧ ∃ o, FirstLacking x.program (.op o) ∧ o.symbol = label)
        ∨ x.program.complaints
            = ["not enough arguments for '" ++ label ++ "'", "too many operators"]
          ∧ ∃ f, FirstLacking x.program (.fn f) ∧ f.name = label := by
  constructor
  · rintro ⟨i, hi, rfl⟩
    rcases hi.cases with ⟨o, rfl⟩ | ⟨f, rfl⟩
    · exact Or.inl ⟨Program.complaints_of_op hi, o, hi, rfl⟩
    · exact Or.inr ⟨Program.complaints_of_fn hi, f, hi, rfl⟩
  · rintro (⟨-, o, ho, rfl⟩ | ⟨-, f, hf, rfl⟩)
    · exact ⟨.op o, ho, rfl⟩
    · exact ⟨.fn f, hf, rfl⟩

theorem Counted.surplusOperands_iff {r : Except Error Float} (h : Counted x r) :
    (∃ n, r = .error (.surplusOperands n)) ↔ x.program.complaints = ["too many operands"] := by
  have hne {n : Nat} (hgain : gain x.program = n) (hn : 1 ≤ n) : x.program ≠ [] := by
    intro hempty
    rw [hempty, Program.gain_nil] at hgain
    omega
  constructor
  · rintro ⟨n, rfl⟩
    cases h with
    | surplus _ hlacking hgain hn =>
      have hlt : 1 < gain x.program := by omega
      rw [Program.complaints_of_lackingFrom hlacking (hne hgain (by omega)), if_pos hlt]
  · intro hcomplaints
    cases h with
    | surplus n => exact ⟨n, rfl⟩
    | value _ hlacking hgain =>
      have hnot : ¬ 1 < gain x.program := by omega
      rw [Program.complaints_of_lackingFrom hlacking (hne hgain (Nat.le_refl 1)), if_neg hnot]
        at hcomplaints
      cases hcomplaints
    | empty _ hempty =>
      rw [Program.complaints_eq_empty_iff.mpr hempty] at hcomplaints
      exact absurd hcomplaints (by decide)
    | lacking hfirst =>
      rcases hfirst.cases with ⟨o, rfl⟩ | ⟨f, rfl⟩
      · rw [Program.complaints_of_op hfirst] at hcomplaints
        exact absurd hcomplaints (by decide)
      · rw [Program.complaints_of_fn hfirst] at hcomplaints
        exact absurd (congrArg List.length hcomplaints) (by simp)

theorem Counted.gain_of_surplus {n : Nat} (h : Counted x (.error (.surplusOperands n))) :
    2 ≤ n ∧ gain x.program = n := by
  cases h with
  | surplus _ _ hgain hn => exact ⟨hn, hgain⟩

theorem Counted.internal_iff {r : Except Error Float} (h : Counted x r) :
    (∃ reason, r = .error (.internal reason)) ↔ x.program = [] := by
  constructor
  · rintro ⟨reason, rfl⟩
    cases h with
    | empty _ hempty => exact hempty
  · intro hempty
    cases h with
    | empty reason => exact ⟨reason, rfl⟩
    | value _ _ hgain =>
      rw [hempty] at hgain
      cases hgain
    | surplus n _ hgain hn =>
      rw [hempty, Program.gain_nil] at hgain
      omega
    | lacking hfirst =>
      rw [Program.firstLacking_iff, hempty] at hfirst
      cases hfirst

/-- Validation and evaluation agree on every program in which no function fails.
    The evaluation has a value just when there are no warnings, and a missing
    variable ends it only if the first warning is about that variable.  Where all
    variables have values, the check of the balance tells how the evaluation
    fails, with the same name: at the first instruction that lacks values, or at
    the end, with as many values as the program leaves or with none. -/
theorem evaluate_agrees_with_validate (htotal : x.program.IsTotal) :
    ((∃ v, x.evaluate.1 = .ok v) ↔ x.validate true = [])
      ∧ (∀ name, x.evaluate.1 = .error (.unboundVariable name) →
          (x.validate true).head? = some (.unset name))
      ∧ (x.program.IsSet x.bindings →
          (∀ label, x.evaluate.1 = .error (.operandUnderflow label)
            ↔ (x.program.complaints = ["too many operators"]
                ∧ ∃ o, FirstLacking x.program (.op o) ∧ o.symbol = label)
              ∨ x.program.complaints
                  = ["not enough arguments for '" ++ label ++ "'", "too many operators"]
                ∧ ∃ f, FirstLacking x.program (.fn f) ∧ f.name = label)
          ∧ ((∃ n, x.evaluate.1 = .error (.surplusOperands n))
              ↔ x.program.complaints = ["too many operands"])
          ∧ (∀ n : Nat, x.evaluate.1 = .error (.surplusOperands n) →
              2 ≤ n ∧ gain x.program = n)
          ∧ ((∃ reason, x.evaluate.1 = .error (.internal reason)) ↔ x.program = [])
          ∧ (x.program = [] ↔ x.program.complaints = ["empty program"])) := by
  refine ⟨evaluate_eq_ok_iff htotal, fun name => head?_of_unboundVariable htotal, fun hset => ?_⟩
  have hcounted := counted_evaluate htotal hset
  refine ⟨fun label => ?_, hcounted.surplusOperands_iff, fun n hn => ?_, hcounted.internal_iff,
    Program.complaints_eq_empty_iff.symm⟩
  · exact (hcounted.operandUnderflow_iff label).trans exists_firstLacking_iff
  · exact (hn ▸ hcounted).gain_of_surplus

/-- A function of two arguments. -/
def squares : Func := ⟨"squares", .binary fun a b => .ok (a * a + b * b)⟩

/-- A function of two arguments that finds only one. -/
def lonely : Expression :=
  { ofProgram [.var "x", .fn squares, .op .negate] with bindings := Table.ofList [("x", 3)] }

theorem evaluate_agrees_with_validate_lonely :
    lonely.program.IsTotal ∧ lonely.program.IsSet lonely.bindings
      ∧ lonely.evaluate.1 = .error (.operandUnderflow "squares") := by
  have htotal : lonely.program.IsTotal := by
    intro f hf a b
    simp only [lonely, program_ofProgram, List.mem_cons, Instr.fn.injEq, List.not_mem_nil,
      or_false, reduceCtorEq, false_or] at hf
    subst hf
    exact ⟨_, rfl⟩
  have hset : lonely.program.IsSet lonely.bindings := by
    intro name hname
    simp only [lonely, program_ofProgram, List.mem_cons, Instr.var.injEq, List.not_mem_nil,
      or_false, reduceCtorEq] at hname
    subst hname
    exact Option.some_ne_none 3
  have hfirst : FirstLacking lonely.program (.fn squares) := Program.firstLacking_iff.mpr rfl
  refine ⟨htotal, hset, ?_⟩
  have hagrees := ((evaluate_agrees_with_validate htotal).2.2 hset).1 "squares"
  exact hagrees.mpr (Or.inr ⟨rfl, _, hfirst, rfl⟩)

end Expression

end StackCalc
