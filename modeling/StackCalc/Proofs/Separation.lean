/-
  StackCalc.Proofs.Separation

  Where a scan keeps operands apart.

  A product is put behind numbers, variables and closing parentheses, so these are
  never directly followed by an operand.  It is not put behind an operator, also
  where that stands behind its operand and completes one: such an operator can be
  directly followed by an operand, and it is if the text says so, or if the product
  is itself one (`tokenize_separated`).
-/
import StackCalc.Proofs.Scanning

namespace StackCalc

namespace Token

/-- An operand is complete with this token: it ends one, or it is an operator that
    is written behind one. -/
def completesOperand : Token → Bool
  | op o => o.isSuffix
  | t => t.endsOperand

/-- No operand starts directly behind a complete one. -/
def Separated (t u : Token) : Prop := t.completesOperand = true → u.startsOperand = false

/-- Where an operand starts, no operator that is written behind one stands before
    it, and none is put there for a product. -/
def Separable (product : Operator) (t u : Token) : Prop :=
  u.startsOperand = true →
    (∀ o, t = .op o → o.isSuffix = false) ∧ (t.endsOperand = true → product.isSuffix = false)

/-- A token that does not end an operand completes one just where it is an operator
    behind one. -/
theorem completesOperand_eq_false_iff {t : Token} (h : t.endsOperand = false) :
    t.completesOperand = false ↔ ∀ o, t = .op o → o.isSuffix = false := by
  cases t with
  | op o => simp [completesOperand]
  | num | var | fn | lparen | rparen | comma => simp [completesOperand, h]

/-- Two operands that meet are kept apart by a product that is not written behind
    its operand. -/
theorem separable_iff_of_meets {product : Operator} {t u : Token} (ht : t.endsOperand = true)
    (hu : u.startsOperand = true) :
    Separable product t u ↔ Separated t (.op product) ∧ Separated (.op product) u := by
  constructor
  · intro h
    have hproduct := (h hu).2 ht
    refine ⟨fun _ => rfl, fun hsuffix => ?_⟩
    rw [completesOperand, hproduct] at hsuffix
    cases hsuffix
  · rintro ⟨-, hseparated⟩ -
    refine ⟨?_, fun _ => ?_⟩
    · rintro o rfl
      cases ht
    · apply Bool.eq_false_iff.mpr
      intro hsuffix
      have hnot := hseparated hsuffix
      rw [hu] at hnot
      cases hnot

theorem separable_iff_of_not_meets {product : Operator} {t u : Token}
    (h : ¬ (u.startsOperand && t.endsOperand) = true) :
    Separable product t u ↔ Separated t u := by
  cases hu : u.startsOperand with
  | false => simp [Separable, Separated, hu]
  | true =>
    have ht : t.endsOperand = false := by simpa [hu] using h
    simp [Separable, Separated, hu, ht, ← completesOperand_eq_false_iff ht]

end Token

open Token (Separated Separable)

theorem Vocabulary.product_not_suffix {v : Vocabulary}
    (hv : ∀ symbol o, v.operators.find? symbol = some o → o.isSuffix = false) :
    v.product.isSuffix = false := by
  rw [product]
  cases hfind : v.operators.find? "*" with
  | none => rfl
  | some o => exact hv "*" o hfind

namespace Scanner

/-- The tokens of a scan are separated just where those that are read are
    separable. -/
theorem isChain_completed_iff {v : Vocabulary} {previous : Option Token} {ls : List Lexeme} :
    (previous.toList ++ completed v previous ls).IsChain Separated
      ↔ (previous.toList ++ ls.map Lexeme.token).IsChain (Separable v.product) := by
  -- the token before a lexeme decides about the product in front of it
  induction ls generalizing previous with
  | nil =>
    cases previous with
    | none => exact iff_of_true .nil .nil
    | some t => exact iff_of_true (.singleton t) (.singleton t)
  | cons l ls ih =>
    have htail := @ih (some l.token)
    rw [completed_cons, List.map_cons]
    cases previous with
    | none => simpa using htail
    | some t =>
      simp only [Option.toList_some, List.singleton_append, List.isChain_cons_cons] at htail ⊢
      split
      · next hmeets =>
        obtain ⟨hu, ht⟩ := Bool.and_eq_true_iff.mp hmeets
        rw [List.isChain_cons_cons, List.isChain_cons_cons, htail, ← and_assoc,
          Token.separable_iff_of_meets ht hu]
      · next hnot =>
        rw [List.isChain_cons_cons, htail, Token.separable_iff_of_not_meets hnot]

/-- What ends an operand is never directly in front of one. -/
theorem isChain_completed {v : Vocabulary} {previous : Option Token} {ls : List Lexeme} :
    (previous.toList ++ completed v previous ls).IsChain
      fun t u => t.endsOperand = true → u.startsOperand = false := by
  induction ls generalizing previous with
  | nil =>
    cases previous with
    | none => exact .nil
    | some t => exact .singleton t
  | cons l ls ih =>
    have htail := @ih (some l.token)
    rw [completed_cons]
    cases previous with
    | none => simpa using htail
    | some t =>
      split
      · -- the product starts no operand, and ends none
        exact .cons_cons (fun _ => rfl) (.cons_cons (fun hends => nomatch hends) htail)
      · next hnot =>
        apply List.IsChain.cons_cons _ htail
        intro hends
        simpa [hends] using hnot

/-- Only what is registered can be an operator that is written behind its operand. -/
theorem Scan.not_suffix {v : Vocabulary} {previous : Option Token} {cs : List Char}
    {ls : List Lexeme} (h : Scan v previous cs ls)
    (hv : ∀ symbol o, v.operators.find? symbol = some o → o.isSuffix = false) :
    ∀ o, .op o ∈ ls.map Lexeme.token → o.isSuffix = false := by
  induction h with
  | finished => simp
  | @lexeme previous cs rest l ls hread _ ih =>
    intro o ho
    rw [List.map_cons, List.mem_cons] at ho
    rcases ho with hl | ho
    · obtain ⟨symbol, hsymbol⟩ := Vocabulary.operator?_of_read hread hl.symm
      rcases Vocabulary.operator?_cases hsymbol with hfind | ⟨-, hsign⟩ | hbinary
      · exact hv symbol o hfind
      · obtain ⟨-, hassoc, -⟩ := Operator.of_mem_signs hsign
        simp [Operator.isSuffix, Operator.isLeft, hassoc]
      · simp [Operator.isSuffix, Operator.arity_of_mem_binaries hbinary]
    · exact ih o ho

/-- Behind a number, a variable or a closing parenthesis a scan with products never
    gives an operand.  It gives none behind an operator that is written behind its
    operand either, just where the scan without products reads no such operator in
    front of an operand, and no two operands that meet while the product is such an
    operator; in particular where none is registered. -/
theorem tokenize_separated {v : Vocabulary} {text : String} {ts : List Token}
    (h : (ofText v true text).tokenize.1 = .ok ts) :
    ts.IsChain (fun t u => t.endsOperand = true → u.startsOperand = false)
      ∧ ∃ us, (ofText v false text).tokenize.1 = .ok us
        ∧ (ts.IsChain Separated ↔ us.IsChain (Separable v.product))
        ∧ ((∀ symbol o, v.operators.find? symbol = some o → o.isSuffix = false) →
            ts.IsChain Separated) := by
  obtain ⟨ls, hscan, rfl⟩ := tokenize_eq_ok_iff.mp h
  have hseparated : (completed v none ls).IsChain Separated
      ↔ (ls.map Lexeme.token).IsChain (Separable v.product) := @isChain_completed_iff v none ls
  refine ⟨@isChain_completed v none ls, ls.map Lexeme.token,
    tokenize_eq_ok_iff.mpr ⟨ls, hscan, rfl⟩, hseparated, fun hv => hseparated.mpr ?_⟩
  have hread := hscan.not_suffix hv
  have hproduct := Vocabulary.product_not_suffix hv
  apply List.Pairwise.isChain
  apply List.pairwise_of_forall_mem_list
  intro t ht u _ _
  refine ⟨?_, fun _ => hproduct⟩
  rintro o rfl
  exact hread o ht

/-- An operator that is written behind its operand, stronger than all builtin ones. -/
def exclamation : Operator := ⟨"!", 20000, .left, .unary fun x => x * (x - 1)⟩

def exclaiming : Vocabulary := ({} : Vocabulary).addOperator exclamation

/-- In `2x!` only the product is missing, and it keeps the operands apart. -/
theorem tokenize_separated_scaled :
    ∃ ts, (ofText exclaiming true "2x!").tokenize.1 = .ok ts ∧ ts.IsChain Separated := by
  have hscan : Scan exclaiming none "2x!".toList
      [ ⟨['2'], .num (Numeral.toDecimal ⟨['2'], []⟩).toFloat⟩, ⟨['x'], .var "x"⟩
      , ⟨['!'], .op exclamation⟩ ] :=
    .lexeme rfl (.lexeme rfl (.lexeme rfl (.finished rfl)))
  have htokens : (ofText exclaiming true "2x!").tokenize.1 = .ok _ :=
    tokenize_eq_ok_iff.mpr ⟨_, hscan, rfl⟩
  have hread : (ofText exclaiming false "2x!").tokenize.1 = .ok _ :=
    tokenize_eq_ok_iff.mpr ⟨_, hscan, rfl⟩
  obtain ⟨-, us, hus, hseparated, -⟩ := tokenize_separated htokens
  obtain rfl := Except.ok.inj (hus.symm.trans hread)
  have hproduct : exclaiming.product.isSuffix = false := rfl
  refine ⟨_, htokens, hseparated.mpr ?_⟩
  refine .cons_cons (fun _ => ⟨nofun, fun _ => hproduct⟩) (.cons_cons ?_ (.singleton _))
  exact fun hstarts => nomatch hstarts

/-- But in `3!x` a variable directly follows an operator that is written behind its
    operand. -/
theorem not_separated_behind_suffix :
    ∃ ts, (ofText exclaiming true "3!x").tokenize.1 = .ok ts
      ∧ ts = [.num (Numeral.toDecimal ⟨['3'], []⟩).toFloat, .op exclamation, .var "x"]
      ∧ ¬ ts.IsChain Separated := by
  have hscan : Scan exclaiming none "3!x".toList
      [ ⟨['3'], .num (Numeral.toDecimal ⟨['3'], []⟩).toFloat⟩, ⟨['!'], .op exclamation⟩
      , ⟨['x'], .var "x"⟩ ] :=
    .lexeme rfl (.lexeme rfl (.lexeme rfl (.finished rfl)))
  refine ⟨_, tokenize_eq_ok_iff.mpr ⟨_, hscan, rfl⟩, rfl, ?_⟩
  intro hchain
  have hmeets : Token.startsOperand (.var "x") = false := hchain.tail.rel rfl
  cases hmeets

end Scanner

end StackCalc
