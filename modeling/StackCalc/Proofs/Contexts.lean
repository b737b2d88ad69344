/-
  StackCalc.Proofs.Contexts

  The value of a text in a context.

  A context gives each name one value, in no particular order (`IsContext`).  The
  values that an evaluation finds are those of the context, whatever the order in
  which they were set (`IsContext.find?_eq`), and a reserved name is refused
  wherever it stands (`verdict_of_mem`).  An error of the text comes before that of
  a name, and that of a name before any of the evaluation.
-/
import StackCalc.Proofs.Acceptance
import StackCalc.Proofs.Bindings
import StackCalc.Proofs.Coherence

namespace StackCalc

/-- Each name has one value, and at most one of the names is reserved. -/
structure IsContext (vars : List (String × Float)) : Prop where
  distinct : (vars.map Prod.fst).Nodup
  alone : ∀ var ∈ vars, ∀ other ∈ vars, Func.isBuiltin var.1 = true →
    Func.isBuiltin other.1 = true → var.1 = other.1

theorem IsContext.perm {vars vars' : List (String × Float)} (h : IsContext vars)
    (hperm : vars.Perm vars') : IsContext vars' where
  distinct := (hperm.map Prod.fst).nodup h.distinct
  alone := fun var hvar other hother =>
    h.alone var (hperm.mem_iff.mpr hvar) other (hperm.mem_iff.mpr hother)

/-! ## Values -/

namespace IsContext

variable {vars vars' : List (String × Float)}

/-- A name has the value that the context gives it. -/
theorem find?_insertMany (h : IsContext vars) (name : String) :
    (Table.insertMany ∅ vars).find? name = Table.find? ⟨vars⟩ name :=
  (Table.find?_insertMany h.distinct ∅ name).trans (Option.or_none ..)

/-- The order of a context cannot be seen in the values that are found. -/
theorem find?_eq (h : IsContext vars) (hperm : vars.Perm vars') (name : String) :
    Table.find? ⟨vars⟩ name = Table.find? ⟨vars'⟩ name := by
  refine Option.ext fun value => ?_
  have hvars : Table.find? ⟨vars⟩ name = some value ↔ (name, value) ∈ vars :=
    Table.lookup_eq_some_iff h.distinct
  have hvars' : Table.find? ⟨vars'⟩ name = some value ↔ (name, value) ∈ vars' :=
    Table.lookup_eq_some_iff (h.perm hperm).distinct
  rw [hvars, hvars', hperm.mem_iff]

/-- The reserved name of a context is refused, wherever it stands. -/
theorem verdict_of_mem (h : IsContext vars) {var : String × Float} (hvar : var ∈ vars)
    (hreserved : Func.isBuiltin var.1 = true) : verdict vars = .error (.namingConflict var.1) := by
  rcases verdict_cases vars with ⟨-, hfree⟩ | ⟨other, hother, hreserved', herror⟩
  · rw [hfree var hvar] at hreserved
    cases hreserved
  · rw [herror, h.alone var hvar other hother hreserved hreserved']

end IsContext

/-! ## Evaluation in a context -/

section Eval

variable {text : String} {vars vars' : List (String × Float)} {x : Expression}

theorem eval_of_parse_eq_error {err : Error} (h : Expression.parse text = .error err)
    (vars : List (String × Float)) : eval text vars = .error err := by
  rw [eval, h]

theorem eval_of_parse_eq_ok (h : Expression.parse text = .ok x) (vars : List (String × Float)) :
    eval text vars = match verdict vars with
      | .ok () => (x.program.evaluate (Table.insertMany ∅ (accepted vars)) .empty).1
      | .error err => .error err := by
  obtain ⟨p, rfl⟩ := Expression.exists_ofProgram_of_build h
  rw [eval, h]
  show (match (Expression.ofProgram p).setVariables vars with | _ => _) = _
  rw [Expression.setVariables_eq]
  cases verdict vars <;> rfl

theorem eval_of_reserved (hvars : IsContext vars) (h : Expression.parse text = .ok x)
    {var : String × Float} (hvar : var ∈ vars) (hreserved : Func.isBuiltin var.1 = true) :
    eval text vars = .error (.namingConflict var.1) := by
  rw [eval_of_parse_eq_ok h, hvars.verdict_of_mem hvar hreserved]

theorem eval_of_free (hvars : IsContext vars) (h : Expression.parse text = .ok x)
    (hfree : ∀ var ∈ vars, Func.isBuiltin var.1 = false) :
    eval text vars = (x.program.evaluate ⟨vars⟩ .empty).1 := by
  rw [eval_of_parse_eq_ok h, verdict_eq_ok_iff.mpr hfree, accepted_of_free hfree]
  show (x.program.evaluate _ _).1 = _
  rw [Program.evaluate_congr (fun name _ => hvars.find?_insertMany name) .empty .empty]

/-- The value of a text in a context does not depend on the order of the context.
    It is the error of the text, if that is refused; or else that of the reserved
    name, if the context has one, whether the text uses it or not; or else what the
    program of the text evaluates to with the values that the context gives. -/
theorem eval_of_perm (hvars : IsContext vars) (hperm : vars.Perm vars') :
    eval text vars = eval text vars'
      ∧ (∀ err, Expression.parse text = .error err → eval text vars = .error err)
      ∧ ∀ x, Expression.parse text = .ok x →
          (∀ var ∈ vars, Func.isBuiltin var.1 = true →
            eval text vars = .error (.namingConflict var.1))
          ∧ ((∀ var ∈ vars, Func.isBuiltin var.1 = false) →
            eval text vars = (x.program.evaluate ⟨vars⟩ .empty).1) := by
  have hvars' := hvars.perm hperm
  refine ⟨?_, fun err h => eval_of_parse_eq_error h vars, fun x h =>
    ⟨fun var hvar hreserved => eval_of_reserved hvars h hvar hreserved, eval_of_free hvars h⟩⟩
  -- a text that is refused is refused before the context is looked at
  cases h : Expression.parse text with
  | error err => rw [eval_of_parse_eq_error h, eval_of_parse_eq_error h]
  | ok x =>
    by_cases hreserved : ∃ var ∈ vars, Func.isBuiltin var.1 = true
    · obtain ⟨var, hvar, hreserved⟩ := hreserved
      rw [eval_of_reserved hvars h hvar hreserved,
        eval_of_reserved hvars' h (hperm.mem_iff.mp hvar) hreserved]
    · have hfree : ∀ var ∈ vars, Func.isBuiltin var.1 = false := by simpa using hreserved
      have hfree' : ∀ var ∈ vars', Func.isBuiltin var.1 = false :=
        fun var hvar => hfree var (hperm.mem_iff.mpr hvar)
      rw [eval_of_free hvars h hfree, eval_of_free hvars' h hfree',
        Program.evaluate_congr (fun name _ => hvars.find?_eq hperm name) .empty .empty]

end Eval

/-- A reserved name that the text does not use, and no value for one that it uses. -/
def clashing : List (String × Float) := [("x", 3), ("sin", 1), ("z", 2)]

theorem isContext_clashing : IsContext clashing := by
  have hsin : ∀ var ∈ clashing, Func.isBuiltin var.1 = true → var.1 = "sin" := by
    intro var hvar hreserved
    simp only [clashing, List.mem_cons, List.not_mem_nil, or_false] at hvar
    rcases hvar with rfl | rfl | rfl
    · cases hreserved
    · rfl
    · cases hreserved
  refine ⟨?_, fun var hvar other hother h h' =>
    (hsin var hvar h).trans (hsin other hother h').symm⟩
  show ["x", "sin", "z"].Nodup
  decide

theorem eval_of_perm_clashing :
    IsContext clashing ∧ clashing.Perm clashing.reverse
      ∧ eval "x + y" clashing = eval "x + y" clashing.reverse
      ∧ eval "x + y" clashing = .error (.namingConflict "sin") := by
  have hperm : clashing.Perm clashing.reverse := (List.reverse_perm clashing).symm
  have htokens : Formula.tokens { text := "x + y" } = .ok [.var "x", .op .add, .var "y"] :=
    (Formula.tokens_eq_ok_iff rfl).mpr
      ⟨[⟨['x'], .var "x"⟩, ⟨['+'], .op .add⟩, ⟨['y'], .var "y"⟩],
        .lexeme rfl (.lexeme rfl (.lexeme rfl (.finished rfl))), rfl⟩
  have hparse : Expression.parse "x + y" = .ok (.ofProgram [.var "x", .var "y", .op .add]) :=
    (Formula.build_eq_ok_iff rfl htokens).mpr ⟨_, rfl, rfl⟩
  obtain ⟨hsame, -, hanswer⟩ := @eval_of_perm "x + y" _ _ isContext_clashing hperm
  exact ⟨isContext_clashing, hperm, hsame,
    (hanswer _ hparse).1 ("sin", 1) (List.mem_cons_of_mem _ (List.mem_cons_self ..)) rfl⟩

end StackCalc
