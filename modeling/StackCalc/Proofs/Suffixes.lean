/-
  StackCalc.Proofs.Suffixes

  What a suffix is applied to.

  An operator behind its operand is emitted when an operator behind it that it
  pops before is read, or when the part it stands in ends.  Until then it waits
  like a sign: if it does not pop before the operator between two operands that
  comes next, the right operand of that one is emitted before the suffix
  (`Phrase.suffix_emission`), and the suffix is applied to the result of both.
-/
import StackCalc.Operator.Builtin
import StackCalc.Proofs.Settling

namespace StackCalc

open Token (labelled firstLeaf)

namespace Phrase

/-- Whatever the precedences of its operators, a phrase is converted, and each
    suffix of it comes in one of two places.  If what stands directly behind the
    suffix completes it, it comes before every number, variable and call without
    arguments behind it; otherwise the first one of these comes before it. -/
theorem suffix_emission {e : Phrase} (he : e.IsPlaced) :
    ∃ (p : Program) (placed : List (Instr × Nat)),
      Program.ofTokens e.tokens = .ok p ∧ p.Places e.tokens placed
        ∧ ∀ before o i after, e.tokens.zipIdx = before ++ (.op o, i) :: after → o.isSuffix = true →
          (o.Settles (after.map Prod.fst) →
              ∀ x ∈ labelled after, x.1.arity = 0 → [(.op o, i), x].Sublist placed)
            ∧ (¬ o.Settles (after.map Prod.fst) →
              ∃ x, firstLeaf after = some x ∧ [x, (.op o, i)].Sublist placed) := by
  obtain ⟨p, placed, hp, hplaces, hemits, halternates⟩ := exists_emits he
  refine ⟨p, placed, hp, hplaces, ?_⟩
  intro before o i after hrow ho
  have harity := (Operator.isSuffix_iff.mp ho).1
  rw [hrow] at hemits halternates
  refine ⟨fun hsettles x hx hleaf => ?_, fun hnot => ?_⟩
  · exact hemits.leaves_behind_op harity hsettles hx hleaf
  · exact hemits.leaf_before_op halternates harity hnot

/-- A suffix as strong as powers, which group to the right. -/
def double : Operator := ⟨"!", Precedence.power, .left, .unary fun x => x + x⟩

/-- The phrase `x! ^ y`. -/
def doubledPower : Phrase := .binary .power (.suffix (.var "x") double) (.var "y")

theorem isPlaced_doubledPower : doubledPower.IsPlaced := ⟨rfl, ⟨rfl, rfl, trivial⟩, trivial⟩

/-- In `x! ^ y` the operand `y` comes before the suffix. -/
theorem suffix_emission_doubledPower :
    ∃ placed, Program.Places [.var "x", .var "y", .op .power, .op double]
        [.var "x", .op double, .op .power, .var "y"] placed
      ∧ [(.var "y", 3), (.op double, 1)].Sublist placed := by
  obtain ⟨p, placed, hp, hplaces, hsuffix⟩ := suffix_emission isPlaced_doubledPower
  cases hp
  refine ⟨placed, hplaces, ?_⟩
  have hnot : ¬ double.Settles [.op .power, .var "y"] := by
    simp [Operator.Settles, Operator.Pops, double, Operator.power, Operator.arity,
      Operator.Operation.arity]
  obtain ⟨x, hx, hbefore⟩ :=
    (hsuffix [(.var "x", 0)] double 1 [(.op .power, 2), (.var "y", 3)] rfl rfl).2 hnot
  cases hx
  exact hbefore

/-- So a suffix does not always come before the operands behind it. -/
theorem not_operands_behind_suffix :
    ¬ ∀ e : Phrase, e.IsPlaced → ∀ p, Program.ofTokens e.tokens = .ok p →
      ∃ placed, p.Places e.tokens placed
        ∧ ∀ before o i after, e.tokens.zipIdx = before ++ (.op o, i) :: after → o.isSuffix = true →
          ∀ x ∈ labelled after, x.1.isOperand = true → [(.op o, i), x].Sublist placed := by
  intro h
  obtain ⟨placed, hplaces, hbehind⟩ :=
    h doubledPower isPlaced_doubledPower [.var "x", .var "y", .op .power, .op double] rfl
  have hpair := hbehind [(.var "x", 0)] double 1 [(.op .power, 2), (.var "y", 3)] rfl rfl
    (.var "y", 3) (by simp [labelled, Token.labelled?, Token.instr?]) rfl
  -- the arities show in which order the program has them
  have harities := (hpair.map Prod.fst).map Instr.arity
  rw [hplaces.instrs] at harities
  exact absurd harities (by decide)

end Phrase

end StackCalc
