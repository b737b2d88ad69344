/-
  StackCalc.Proofs.Scanning

  Which tokens a scan can give, one behind the other.

  A sign is read only where an operator takes an operand on its right only, and
  the product is put wherever two operands would meet.  So, with registered
  operators that all stand between two operands, the tokens of a text are spaced
  as the operators and operands of a sentence are.
-/
import StackCalc.Formula
import StackCalc.Proofs.Grammar

namespace StackCalc

namespace Operator

theorem of_mem_signs {o : Operator} (h : o ∈ signs) :
    o.arity = 1 ∧ o.associativity = .right ∧ o.precedence = Precedence.sign := by
  simp only [signs, List.mem_cons, List.not_mem_nil, or_false] at h
  rcases h with rfl | rfl
  · exact ⟨rfl, rfl, rfl⟩
  · exact ⟨rfl, rfl, rfl⟩

theorem arity_of_mem_binaries {o : Operator} (h : o ∈ binaries) : o.arity = 2 := by
  simp only [binaries, List.mem_cons, List.not_mem_nil, or_false] at h
  rcases h with rfl | rfl | rfl | rfl | rfl | rfl <;> rfl

end Operator

namespace Vocabulary

/-- Every registered operator stands between two operands. -/
def IsBinary (v : Vocabulary) : Prop :=
  ∀ symbol o, v.operators.find? symbol = some o → o.arity = 2

theorem isBinary_builtin : IsBinary {} := by
  intro symbol o h
  cases h

theorem IsBinary.addFunction {v : Vocabulary} (hv : v.IsBinary) (f : Func) :
    (v.addFunction f).IsBinary := hv

theorem IsBinary.addOperator {v : Vocabulary} (hv : v.IsBinary) {o : Operator}
    (ho : o.arity = 2) : (v.addOperator o).IsBinary := by
  intro symbol p h
  rw [Vocabulary.addOperator, Table.find?_insert] at h
  split at h
  · cases h
    exact ho
  · exact hv symbol p h

theorem operator?_cases {v : Vocabulary} {sign : Bool} {symbol : String} {o : Operator}
    (h : v.operator? sign symbol = some o) :
    v.operators.find? symbol = some o ∨ sign = true ∧ o ∈ Operator.signs
      ∨ o ∈ Operator.binaries := by
  simp only [operator?, Option.orElse_eq_orElse, Option.orElse_eq_or, Option.or_eq_some_iff] at h
  rcases h with h | ⟨-, h | ⟨-, h⟩⟩
  · exact Or.inl h
  · cases sign with
    | false => cases h
    | true =>
      rw [if_pos rfl, Operator.sign?] at h
      exact Or.inr (Or.inl ⟨rfl, List.mem_of_find?_eq_some h⟩)
  · exact Or.inr (Or.inr (List.mem_of_find?_eq_some h))

theorem arity_product {v : Vocabulary} (hv : v.IsBinary) : v.product.arity = 2 := by
  rw [product]
  cases hfind : v.operators.find? "*" with
  | none => rfl
  | some o => exact hv "*" o hfind

/-! ## One lexeme -/

theorem operator?_of_longestOperator? {v : Vocabulary} {sign : Bool} {run : List Char} {n m : Nat}
    {o : Operator} (h : v.longestOperator? sign run n = some (m, o)) :
    ∃ symbol, v.operator? sign symbol = some o := by
  induction n with
  | zero => cases h
  | succ n ih =>
    rw [longestOperator?] at h
    split at h
    · next o' ho =>
      cases h
      exact ⟨_, ho⟩
    · exact ih h

/-- An operator is one that its symbol stands for at its place. -/
theorem operator?_of_read {v : Vocabulary} {previous : Option Token} {cs rest : List Char}
    {l : Lexeme} {o : Operator} (h : v.read previous cs = .lexeme l rest)
    (hl : l.token = .op o) : ∃ symbol, v.operator? (signPosition previous) symbol = some o := by
  rw [read] at h
  generalize cs.dropWhile isBlank = text at h
  cases text with
  | nil => cases h
  | cons c cs =>
    rw [readHere] at h
    split at h
    -- a number and a name are no operators
    · unfold readNumeral at h
      generalize Numeral.span (c :: cs) = span at h
      obtain ⟨n, tail⟩ := span
      simp only at h
      split at h
      · cases h
        cases hl
      · cases h
    split at h
    · rw [readWord] at h
      cases h
      split at hl <;> cases hl
    split at h
    · rw [readSymbol] at h
      split at h
      · next n o' ho =>
        cases h
        cases hl
        exact operator?_of_longestOperator? ho
      · cases h
    split at h
    · cases h; cases hl
    split at h
    · cases h; cases hl
    split at h
    · cases h; cases hl
    · cases h

/-- Behind the end of an operand no sign is read. -/
theorem arity_of_read {v : Vocabulary} (hv : v.IsBinary) {previous : Option Token}
    {cs rest : List Char} {l : Lexeme} {o : Operator} (h : v.read previous cs = .lexeme l rest)
    (hl : l.token = .op o) : o.arity = 2 ∨ signPosition previous = true ∧ o ∈ Operator.signs := by
  obtain ⟨symbol, hsymbol⟩ := operator?_of_read h hl
  rcases operator?_cases hsymbol with hfind | hsign | hbinary
  · exact Or.inl (hv symbol o hfind)
  · exact Or.inr hsign
  · exact Or.inl (Operator.arity_of_mem_binaries hbinary)

end Vocabulary

theorem signPosition_of_endsOperand {t : Token} (h : t.endsOperand = true) :
    signPosition (some t) = false := by
  cases t with
  | num | var | rparen => rfl
  | op | fn | lparen | comma => cases h

/-! ## All lexemes -/

namespace Scanner

/-- The lexemes of a text that is scanned to its end, each behind the token of
    the one before it. -/
inductive Scan (v : Vocabulary) : Option Token → List Char → List Lexeme → Prop where
  | finished {previous : Option Token} {cs : List Char} (h : v.read previous cs = .finished) :
      Scan v previous cs []
  | lexeme {previous : Option Token} {cs rest : List Char} {l : Lexeme} {ls : List Lexeme}
      (h : v.read previous cs = .lexeme l rest) (hrest : Scan v (some l.token) rest ls) :
      Scan v previous cs (l :: ls)

/-- A scanner that gives lexemes has come to the end of its text. -/
theorem exists_scan_of_lexemes {s : Scanner} {ls : List Lexeme} (h : s.lexemes.1 = .ok ls) :
    ∃ read, Scan s.vocabulary s.previous s.rest read
      ∧ ls = written s.vocabulary s.implicitProduct s.previous read := by
  induction s using lexemes.induct generalizing ls with
  | case1 s hread =>
    rw [lexemes_of_finished hread] at h
    cases h
    exact ⟨[], .finished hread, (written_nil ..).symm⟩
  | case2 s f rest hread =>
    rw [lexemes_of_fault hread] at h
    cases h
  | case3 s l rest hread _ _ _ ih =>
    rw [lexemes_of_lexeme hread] at h
    cases hmore : (lexemes { s with previous := some l.token, rest }).1 with
    | error f =>
      rw [hmore] at h
      cases h
    | ok more =>
      -- what is given for the rest is given behind what is given for this lexeme
      obtain ⟨read, hscan, rfl⟩ := ih hmore
      rw [hmore] at h
      cases h
      exact ⟨l :: read, .lexeme hread hscan, (written_cons s l read).symm⟩

/-- What the loop gives for the lexemes of a text, in either mode. -/
theorem Scan.lexemes_eq {v : Vocabulary} {previous : Option Token} {cs : List Char}
    {ls : List Lexeme} (h : Scan v previous cs ls) (implicit : Bool) :
    (lexemes ⟨v, implicit, previous, cs⟩).1 = .ok (written v implicit previous ls) := by
  induction h with
  | finished h => rw [lexemes_of_finished h, written_nil]
  | @lexeme previous cs rest l ls h _ ih =>
    rw [lexemes_of_lexeme h, ih, written_cons ⟨v, implicit, previous, cs⟩ l ls]
    rfl

theorem Scan.unique {v : Vocabulary} {previous : Option Token} {cs : List Char}
    {ls ls' : List Lexeme} (h : Scan v previous cs ls) (h' : Scan v previous cs ls') : ls = ls' :=
  Except.ok.inj ((h.lexemes_eq false).symm.trans (h'.lexemes_eq false))

/-- The tokens of a scan with the products that are not written. -/
def completed (v : Vocabulary) (previous : Option Token) (ls : List Lexeme) : List Token :=
  (insertProducts (productLexeme v) previous ls).map Lexeme.token

theorem completed_cons (v : Vocabulary) (previous : Option Token) (l : Lexeme)
    (ls : List Lexeme) :
    completed v previous (l :: ls)
      = if l.token.startsOperand && previous.any Token.endsOperand
        then .op v.product :: l.token :: completed v (some l.token) ls
        else l.token :: completed v (some l.token) ls := by
  rw [completed, insertProducts]
  split <;> rfl

/-- Of the lexemes of a scan with its products only the products were not read. -/
theorem mem_insertProducts {product l : Lexeme} {previous : Option Token} {ls : List Lexeme}
    (h : l ∈ insertProducts product previous ls) : l = product ∨ l ∈ ls := by
  induction ls generalizing previous with
  | nil => exact Or.inr h
  | cons m ls ih =>
    have htail (hl : l ∈ m :: insertProducts product (some m.token) ls) :
        l = product ∨ l ∈ m :: ls := by
      rcases List.mem_cons.mp hl with rfl | hl
      · exact Or.inr (List.mem_cons_self ..)
      · exact (ih hl).imp_right (List.mem_cons_of_mem m)
    rw [insertProducts] at h
    split at h
    · rcases List.mem_cons.mp h with rfl | h
      · exact Or.inl rfl
      · exact htail h
    · exact htail h

theorem mem_written {v : Vocabulary} {implicit : Bool} {previous : Option Token}
    {ls : List Lexeme} {l : Lexeme} (h : l ∈ written v implicit previous ls) :
    l = productLexeme v ∨ l ∈ ls := by
  rw [written] at h
  split at h
  · exact mem_insertProducts h
  · exact Or.inr h

/-- The tokens of a scan are spaced, also from the one before it. -/
theorem Scan.isChain {v : Vocabulary} (hv : v.IsBinary) {previous : Option Token}
    {cs : List Char} {ls : List Lexeme} (h : Scan v previous cs ls) :
    (previous.toList ++ completed v previous ls).IsChain Token.Spaced := by
  induction h with
  | @finished previous cs h =>
    cases previous with
    | none => exact .nil
    | some t => exact .singleton t
  | @lexeme previous cs rest l ls hread hrest ih =>
    have htail : (l.token :: completed v (some l.token) ls).IsChain Token.Spaced := ih
    rw [completed_cons]
    cases previous with
    | none =>
      have hnot : ¬ (l.token.startsOperand && Option.any Token.endsOperand none) = true := by simp
      rw [if_neg hnot]
      exact htail
    | some t =>
      split
      · next hboth =>
        -- the product keeps the two operands apart
        have hbefore : Token.Spaced t (.op v.product) := by
          intro _
          refine ⟨rfl, ?_⟩
          rintro o ⟨⟩
          exact Vocabulary.arity_product hv
        have hbehind : Token.Spaced (.op v.product) l.token := by
          intro hends
          cases hends
        exact .cons_cons hbefore (.cons_cons hbehind htail)
      · next hnot =>
        -- no operand meets another, and behind an operand no sign is read
        have hspaced : Token.Spaced t l.token := by
          intro hends
          refine ⟨?_, fun o ho => ?_⟩
          · simpa [hends] using hnot
          · rcases Vocabulary.arity_of_read hv hread ho with harity | ⟨hsign, -⟩
            · exact harity
            · rw [signPosition_of_endsOperand hends] at hsign
              cases hsign
        exact .cons_cons hspaced htail

/-- Every operator of a scan stands between two operands or is a sign. -/
theorem Scan.operators {v : Vocabulary} (hv : v.IsBinary) {previous : Option Token}
    {cs : List Char} {ls : List Lexeme} (h : Scan v previous cs ls) :
    ∀ o, .op o ∈ completed v previous ls → o.arity = 2 ∨ o ∈ Operator.signs := by
  induction h with
  | finished =>
    intro o ho
    cases ho
  | @lexeme previous cs rest l ls hread hrest ih =>
    intro o ho
    have hcases : .op o = l.token ∨ o = v.product ∨ .op o ∈ completed v (some l.token) ls := by
      rw [completed_cons] at ho
      split at ho
      · simp only [List.mem_cons, Token.op.injEq] at ho
        rcases ho with ho | ho | ho
        · exact Or.inr (Or.inl ho)
        · exact Or.inl ho
        · exact Or.inr (Or.inr ho)
      · rcases List.mem_cons.mp ho with ho | ho
        · exact Or.inl ho
        · exact Or.inr (Or.inr ho)
    rcases hcases with hl | rfl | hrest
    · rcases Vocabulary.arity_of_read hv hread hl.symm with harity | ⟨-, hsign⟩
      · exact Or.inl harity
      · exact Or.inr hsign
    · exact Or.inl (Vocabulary.arity_product hv)
    · exact ih o hrest

theorem tokenize_fst (s : Scanner) : s.tokenize.1 = s.lexemes.1.map (·.map Lexeme.token) := rfl

theorem tokenize_snd (s : Scanner) : s.tokenize.2 = s.lexemes.2 := rfl

/-- The tokens of a text are those of its lexemes and the products among them. -/
theorem tokenize_eq_ok_iff {v : Vocabulary} {implicit : Bool} {text : String}
    {ts : List Token} : (ofText v implicit text).tokenize.1 = .ok ts
      ↔ ∃ ls, Scan v none text.toList ls ∧ ts = (written v implicit none ls).map Lexeme.token := by
  rw [tokenize_fst]
  constructor
  · intro h
    cases hlexemes : (ofText v implicit text).lexemes.1 with
    | error fault =>
      rw [hlexemes] at h
      cases h
    | ok ls =>
      obtain ⟨read, hscan, rfl⟩ := exists_scan_of_lexemes hlexemes
      rw [hlexemes] at h
      cases h
      exact ⟨read, hscan, rfl⟩
  · rintro ⟨ls, hscan, rfl⟩
    rw [ofText, hscan.lexemes_eq implicit]
    rfl

end Scanner

/-- The tokens of a formula are those of a scan of its text. -/
theorem Formula.tokens_eq_ok_iff {f : Formula} {ts : List Token}
    (hproduct : f.implicitProduct = true) :
    f.tokens = .ok ts ↔ ∃ ls, Scanner.Scan f.vocabulary none f.text.toList ls
      ∧ ts = Scanner.completed f.vocabulary none ls := by
  rw [Formula.tokens, Formula.scanner, hproduct, Scanner.tokenize_eq_ok_iff]
  exact Iff.rfl

end StackCalc
