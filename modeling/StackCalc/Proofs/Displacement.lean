/-
  StackCalc.Proofs.Displacement

  Which of the accepted rows of tokens are sentences.

  A row is accepted for the number of its operands, wherever they stand: `2 3 +`
  is computed like `2 + 3`.  Such a row is a sentence just where its operators and
  operands are spaced (`compile_sentence_iff`): in a sentence no operand stands
  directly behind another one (`Sentence.isChain`), and in an accepted row that is
  all that can be wrong.
-/
import StackCalc.Proofs.Acceptance

namespace StackCalc

open Token (Spaced)

namespace Token

/-- Only behind the end of an operand something has to be kept. -/
theorem spaced_of_not_endsOperand {t : Token} (h : t.endsOperand = false) (u : Token) :
    Spaced t u := by
  intro hends
  rw [h] at hends
  cases hends

theorem spaced_binary {o : Operator} (harity : o.arity = 2) (t : Token) : Spaced t (.op o) := by
  intro _
  refine ⟨rfl, ?_⟩
  rintro p ⟨⟩
  exact harity

theorem spaced_rparen (t : Token) : Spaced t .rparen := fun _ => ⟨rfl, nofun⟩

theorem spaced_comma (t : Token) : Spaced t .comma := fun _ => ⟨rfl, nofun⟩

theorem isChain_cons_of_not_endsOperand {t : Token} {ts : List Token} (h : t.endsOperand = false)
    (hts : ts.IsChain Spaced) : (t :: ts).IsChain Spaced :=
  List.isChain_cons.mpr ⟨fun u _ => spaced_of_not_endsOperand h u, hts⟩

/-- Two rows with a token between them that may stand behind everything. -/
theorem isChain_append_cons {t : Token} {ts us : List Token} (ht : ∀ u, Spaced u t)
    (hts : ts.IsChain Spaced) (hus : (t :: us).IsChain Spaced) :
    (ts ++ t :: us).IsChain Spaced := by
  refine List.isChain_append.mpr ⟨hts, hus, fun u _ v hv => ?_⟩
  cases hv
  exact ht u

theorem isChain_intercalate {args : List (List Token)} (h : ∀ a ∈ args, a.IsChain Spaced) :
    ([comma].intercalate args).IsChain Spaced := by
  refine intercalate_induction .nil (fun ts us hts hus => ?_) h
  exact isChain_append_cons spaced_comma hts (isChain_cons_of_not_endsOperand rfl hus)

end Token

open Token

/-- In a sentence every operand is followed by an operator between two, or ends its
    part of it. -/
theorem Sentence.isChain {ts : List Token} (h : Sentence ts) : ts.IsChain Spaced := by
  induction h with
  | num value => exact .singleton _
  | var name => exact .singleton _
  | binary harity _ _ ihl ihr =>
    apply isChain_append_cons (spaced_binary harity) ihl
    exact isChain_cons_of_not_endsOperand rfl ihr
  | unary _ _ ih => exact isChain_cons_of_not_endsOperand rfl ih
  | group _ ih =>
    apply isChain_append_cons spaced_rparen _ (.singleton _)
    exact isChain_cons_of_not_endsOperand rfl ih
  | call _ _ ih =>
    apply isChain_append_cons spaced_rparen _ (.singleton _)
    apply isChain_cons_of_not_endsOperand rfl
    exact isChain_cons_of_not_endsOperand rfl (isChain_intercalate ih)

namespace Expression

/-- In every row that is accepted parentheses nest and argument lists are complete.
    It is a sentence just where neither an operand nor a unary operator starts
    directly behind the end of an operand. -/
theorem compile_sentence_iff {ts : List Token} {x : Expression} (h : compile ts = .ok x) :
    Nested ts ∧ (Sentence ts ↔ ts.IsChain Spaced) := by
  obtain ⟨p, hp, hbalance, -⟩ := compile_eq_ok_iff.mp h
  refine ⟨(Program.nested_of_ofTokens hp).1, Sentence.isChain, fun hspaced => ?_⟩
  exact Program.sentence_of_balance hspaced hp hbalance

theorem compile_sentence_iff_product :
    compile [.var "x", .op .multiply, .op .negate, .num 3]
        = .ok (.ofProgram [.var "x", .num 3, .op .negate, .op .multiply])
      ∧ Sentence [.var "x", .op .multiply, .op .negate, .num 3] := by
  have haccepted : compile [.var "x", .op .multiply, .op .negate, .num 3]
      = .ok (.ofProgram [.var "x", .num 3, .op .negate, .op .multiply]) := rfl
  refine ⟨haccepted, (compile_sentence_iff haccepted).2.mpr ?_⟩
  apply List.IsChain.cons_cons (spaced_binary rfl _)
  apply isChain_cons_of_not_endsOperand rfl
  exact isChain_cons_of_not_endsOperand rfl (.singleton _)

/-- But `2 3 +` is accepted as well, and is no sentence. -/
theorem compile_not_sentence :
    compile [.num 2, .num 3, .op .add] = .ok (.ofProgram [.num 2, .num 3, .op .add])
      ∧ ¬ Sentence [.num 2, .num 3, .op .add] := by
  refine ⟨rfl, fun h => ?_⟩
  have hstarts := (h.isChain.rel rfl).1
  cases hstarts

end Expression

end StackCalc
