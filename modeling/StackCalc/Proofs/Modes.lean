/-
  StackCalc.Proofs.Modes

  Scanning with products that are not written, and without.

  The two scanners read the same lexemes and come to the same places, request by
  request (`after_implicitProduct`).  The one that puts products in puts one before
  each token that starts an operand where the token accepted before it, in this
  request or an earlier one, ends an operand; and else nothing (`agree_tokenize`).
-/
import StackCalc.Proofs.Requests

namespace StackCalc

open Piece (lastToken)
open Token (WithProducts)

namespace Scanner

/-! ## The place behind some requests -/

theorem getElem?_tokenizeTimes {n k : Nat} (hk : k < n) (s : Scanner) :
    (tokenizeTimes n s)[k]? = some (after k s).tokenize.1 := by
  induction n generalizing k s with
  | zero => omega
  | succ n ih =>
    rw [tokenizeTimes]
    cases k with
    | zero => rfl
    | succ k =>
      rw [List.getElem?_cons_succ, after]
      exact ih (by omega) s.tokenize.2

/-- One request cuts some pieces off, and keeps the last token of them. -/
theorem exists_cut_tokenize (s : Scanner) :
    ∃ pieces rest, Cut s.vocabulary s.previous s.rest pieces rest
      ∧ s.tokenize.2 = { s with previous := lastToken s.previous pieces, rest } := by
  rcases s.tokenize_cases with ⟨ls, hcut, heq⟩ | ⟨ls, m, rest, hcut, hm, heq⟩
    | ⟨ls, f, rest, hcut, -, heq⟩
  · exact ⟨_, _, hcut, by rw [heq]⟩
  · refine ⟨_, rest, hcut.append (.refused blank_nil hm (.refl _ _)), ?_⟩
    rw [heq, Piece.lastToken_append, Piece.lastToken_refused, Piece.lastToken_nil]
  · exact ⟨_, _, hcut, by rw [heq]⟩

theorem exists_cut_after (k : Nat) (s : Scanner) :
    ∃ pieces rest, Cut s.vocabulary s.previous s.rest pieces rest
      ∧ after k s = { s with previous := lastToken s.previous pieces, rest } := by
  induction k generalizing s with
  | zero => exact ⟨[], s.rest, .refl _ _, rfl⟩
  | succ k ih =>
    obtain ⟨pieces, mid, hcut, hfirst⟩ := s.exists_cut_tokenize
    obtain ⟨more, rest, hmore, hlater⟩ := ih s.tokenize.2
    rw [hfirst] at hmore hlater
    refine ⟨pieces ++ more, rest, hcut.append hmore, ?_⟩
    rw [after, hfirst, hlater, Piece.lastToken_append]

/-! ## The two modes -/

/-- What is read does not depend on whether products are put in. -/
theorem after_implicitProduct (implicit : Bool) (k : Nat) (s : Scanner) :
    after k { s with implicitProduct := implicit }
      = { after k s with implicitProduct := implicit } := by
  induction k generalizing s with
  | zero => rfl
  | succ k ih =>
    have hfirst : (tokenize { s with implicitProduct := implicit }).2
        = { s.tokenize.2 with implicitProduct := implicit } := by
      rw [tokenize_snd, tokenize_snd, lexemes_eq_written, lexemes_eq_written s]
    rw [after, after, hfirst, ih]

/-- The answer to a request without products, and the answer with them. -/
inductive Agree (product : Token) (previous : Option Token) :
    Except ParseFault (List Token) → Except ParseFault (List Token) → Prop where
  | fault (f : ParseFault) : Agree product previous (.error f) (.error f)
  | tokens {ts us : List Token} (h : WithProducts product previous ts us) :
      Agree product previous (.ok ts) (.ok us)

theorem agree_tokenize (s : Scanner) :
    Agree (.op s.vocabulary.product) s.previous
      (tokenize { s with implicitProduct := false }).1
      (tokenize { s with implicitProduct := true }).1 := by
  -- what is given with products is what is read, completed in a second pass
  rw [tokenize_fst, tokenize_fst, lexemes_eq_written { s with implicitProduct := true }]
  show Agree _ _ _ (((lexemes { s with implicitProduct := false }).1.map _).map _)
  generalize (lexemes { s with implicitProduct := false }).1 = answer
  cases answer with
  | error f => exact .fault f
  | ok ls => exact .tokens (withProducts_iff.mpr rfl)

/-- Two scanners are asked for the tokens of a text again and again, one that puts
    products in and one that does not.  Before each request they have cut the text
    into the same pieces.  They then answer with the same fault, or with the same
    tokens apart from the product, which the first one puts directly before each
    number, variable, function and opening parenthesis behind a number, a variable or a
    closing parenthesis, also where an earlier request has read that.  The product is
    the operator that is registered as `*`, or else the builtin one. -/
theorem modes_agree (v : Vocabulary) (text : String) {n k : Nat} (hk : k < n) :
    ∃ plain full pieces rest,
      (tokenizeTimes n (ofText v false text))[k]? = some plain
        ∧ (tokenizeTimes n (ofText v true text))[k]? = some full
        ∧ Cut v none text.toList pieces rest
        ∧ after k (ofText v false text) = ⟨v, false, lastToken none pieces, rest⟩
        ∧ after k (ofText v true text) = ⟨v, true, lastToken none pieces, rest⟩
        ∧ Agree (.op ((v.operators.find? "*").getD .multiply)) (lastToken none pieces)
            plain full := by
  obtain ⟨pieces, rest, hcut, hfalse⟩ := exists_cut_after k (ofText v false text)
  have htrue : after k (ofText v true text)
      = { after k (ofText v false text) with implicitProduct := true } :=
    after_implicitProduct true k (ofText v false text)
  have hagree := (after k (ofText v false text)).agree_tokenize
  rw [hfalse] at htrue hagree
  refine ⟨_, _, pieces, rest, getElem?_tokenizeTimes hk _, getElem?_tokenizeTimes hk _, hcut,
    hfalse, htrue, ?_⟩
  rw [hfalse, htrue]
  exact hagree

/-- The variable that ends an operand is read by a request that fails. -/
theorem modes_agree_acrossRequests :
    1 < 2 ∧ (tokenizeTimes 2 (ofText {} false "x 1..2 y"))[1]? = some (.ok [.var "y"])
      ∧ (tokenizeTimes 2 (ofText {} true "x 1..2 y"))[1]?
        = some (.ok [.op .multiply, .var "y"]) := by
  have hx : Vocabulary.read {} none "x 1..2 y".toList
      = .lexeme ⟨['x'], .var "x"⟩ " 1..2 y".toList := rfl
  have hfault : Vocabulary.read {} (some (.var "x")) " 1..2 y".toList
      = .fault (.invalidNumber "1..2") " y".toList := rfl
  have hy : Vocabulary.read {} (some (.var "x")) " y".toList
      = .lexeme ⟨['y'], .var "y"⟩ [] := rfl
  have hend : Vocabulary.read {} (some (.var "y")) [] = .finished := rfl
  have hbehind : after 1 (ofText {} false "x 1..2 y")
      = ⟨{}, false, some (.var "x"), " y".toList⟩ := by
    rw [after, after, tokenize_snd, ofText, lexemes_of_lexeme hx, lexemes_of_fault hfault]
  have hplain : (tokenizeTimes 2 (ofText {} false "x 1..2 y"))[1]? = some (.ok [.var "y"]) := by
    rw [getElem?_tokenizeTimes (by decide), hbehind, tokenize_fst, lexemes_of_lexeme hy,
      lexemes_of_finished hend]
    rfl
  obtain ⟨plain, full, pieces, rest, hplain', hfull, -, hplace, -, hagree⟩ :=
    modes_agree {} "x 1..2 y" (n := 2) (k := 1) (by decide)
  -- the variable was accepted by the first request, which gave no tokens
  have hlast : lastToken none pieces = some (.var "x") :=
    congrArg previous (hplace.symm.trans hbehind)
  obtain rfl : .ok [.var "y"] = plain := Option.some.inj (hplain.symm.trans hplain')
  rw [hlast] at hagree
  cases hagree with
  | tokens h =>
    cases h with
    | keep hnot => exact absurd ⟨⟨_, rfl, rfl⟩, rfl⟩ hnot
    | insert _ hrest =>
      cases hrest
      exact ⟨by decide, hplain, hfull⟩

end Scanner

end StackCalc
