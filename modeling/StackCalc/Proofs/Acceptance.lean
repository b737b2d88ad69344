/-
  StackCalc.Proofs.Acceptance

  What gets through: a text gives a balanced program just when its tokens are a
  sentence of the infix grammar.

  Neither the reader nor the check of the balance asks whether operators and
  operands alternate.  It follows from four things together: how the scanner
  tells signs from operators between operands, the products that it puts in, the
  nesting that the reader asks for, and the count of the check.
-/
import StackCalc.Proofs.Chain
import StackCalc.Proofs.Nesting
import StackCalc.Proofs.Scanning

namespace StackCalc

/-! ## From a sentence to a balanced program -/

namespace Phrase

/-- The program of a phrase leaves the value of the phrase. -/
theorem leaves_program {levels : Levels} {e : Phrase} (h : e.Fits levels) :
    Program.Leaves e.program 1 := by
  induction e with
  | num value => exact Program.leaves_nil.instr (i := .num value) rfl
  | var name => exact Program.leaves_nil.instr (i := .var name) rfl
  | group e ih => exact ih h
  | call f args ih =>
    have hargs : ∀ p ∈ List.ofFn fun i => (args i).program, Program.Leaves p 1 := by
      intro p hp
      obtain ⟨i, rfl⟩ := List.mem_ofFn.mp hp
      exact ih i (h i)
    have hall := Program.leaves_flatten hargs
    rw [List.length_ofFn] at hall
    exact hall.instr rfl
  | binary o l r ihl ihr =>
    obtain ⟨harity, -, hl, hr⟩ := h
    exact ((ihl hl).append (ihr hr)).instr harity
  | sign o e ih =>
    obtain ⟨harity, -, -, he⟩ := h
    exact (ih he).instr harity
  | suffix e o ih =>
    obtain ⟨harity, -, -, -, he⟩ := h
    exact (ih he).instr harity

end Phrase

namespace Program

/-- A sentence whose unary operators are signs is converted, and its program is
    balanced. -/
theorem balance_of_sentence {levels : Phrase.Levels} {ts : List Token} (h : Sentence ts)
    (hadmits : levels.Admits ts) : ∃ p, ofTokens ts = .ok p ∧ p.balance = [] := by
  obtain ⟨e, hfits, rfl⟩ := h.exists_phrase hadmits
  obtain ⟨hmeant, hgrouped⟩ := Phrase.isMeant_regroup hfits
  have hconverted := Phrase.ofTokens_tokens hmeant hgrouped
  rw [Phrase.tokens_regroup] at hconverted
  have hbalance := (Phrase.leaves_program hmeant).balance (Phrase.program_ne_nil e.regroup)
  exact ⟨e.regroup.program, hconverted, hbalance⟩

/-! ## From a balanced program to a sentence -/

/-- A row whose operators and operands are spaced is a sentence, if it is
    converted into a balanced program. -/
theorem sentence_of_balance {ts : List Token} {p : Program} (hspaced : ts.IsChain Token.Spaced)
    (h : ofTokens ts = .ok p) (hbalance : p.balance = []) : Sentence ts := by
  obtain ⟨hnested, -⟩ := nested_of_ofTokens h
  have hgain : Token.gain ts = 1 := by
    rw [Token.gain, ← gain_of_perm (perm_of_ofTokens h)]
    exact (balance_eq_nil_iff.mp hbalance).2
  exact hnested.sentence hspaced hgain

end Program

/-! ## Texts -/

/-- Above all operators of a row there is room for a level of suffixes. -/
theorem exists_levels {ts : List Token}
    (h : ∀ o, .op o ∈ ts → o.arity = 2 ∨ o ∈ Operator.signs) :
    ∃ levels : Phrase.Levels, levels.Admits ts := by
  -- a row has finitely many operators, so some level is above them all
  have hbound : ∃ top : Int, Precedence.sign < top ∧ ∀ o, .op o ∈ ts → o.precedence < top := by
    clear h
    induction ts with
    | nil => exact ⟨Precedence.sign + 1, by omega, fun o ho => absurd ho List.not_mem_nil⟩
    | cons t ts ih =>
      obtain ⟨top, hsign, htop⟩ := ih
      cases t with
      | op o =>
        refine ⟨max top (o.precedence + 1), by omega, fun p hp => ?_⟩
        rcases List.mem_cons.mp hp with heq | hp
        · cases heq
          omega
        · have hlt := htop p hp
          omega
      | num | var | fn | lparen | rparen | comma =>
        refine ⟨top, hsign, fun p hp => ?_⟩
        rcases List.mem_cons.mp hp with heq | hp
        · cases heq
        · exact htop p hp
  obtain ⟨top, hsign, htop⟩ := hbound
  refine ⟨⟨Precedence.sign, top, hsign⟩, fun o ho => ⟨fun harity => ?_, fun _ => htop o ho⟩⟩
  rcases h o ho with hbinary | hmem
  · omega
  · exact (Operator.of_mem_signs hmem).2

namespace Formula

/-- What a build comes down to when the words are well formed. -/
theorem build_eq_ok_iff {f : Formula} (hwords : f.vocabulary.check = .ok ()) {ts : List Token}
    (htokens : f.tokens = .ok ts) {x : Expression} :
    f.build = .ok x ↔ ∃ p, Program.ofTokens ts = .ok p ∧ x = .ofProgram p := by
  have hprogram : f.program = Program.ofTokens ts := by
    rw [program, htokens]
    rfl
  rw [build, hwords, hprogram]
  cases hconverted : Program.ofTokens ts with
  | error fault => simp
  | ok p => simp [eq_comm]

theorem build_of_tokens_eq_error {f : Formula} (hwords : f.vocabulary.check = .ok ())
    {fault : ParseFault} (htokens : f.tokens = .error fault) :
    f.build = .error (.parse fault) := by
  have hprogram : f.program = .error fault := by
    rw [program, htokens]
    rfl
  rw [build, hwords, hprogram]

/-- A text is accepted with a balanced program just when its tokens are a
    sentence, whatever operators between operands and functions are registered;
    and a text that cannot be scanned is refused for that. -/
theorem accepts_iff_sentence {f : Formula} (hwords : f.vocabulary.check = .ok ())
    (hbinary : f.vocabulary.IsBinary) (hproduct : f.implicitProduct = true) :
    (∀ ts, f.tokens = .ok ts →
        ((∃ x, f.build = .ok x ∧ x.validate false = []) ↔ Sentence ts))
      ∧ ∀ fault, f.tokens = .error fault → f.build = .error (.parse fault) := by
  refine ⟨fun ts htokens => ?_, fun fault => build_of_tokens_eq_error hwords⟩
  obtain ⟨ls, hscan, hts⟩ := (tokens_eq_ok_iff hproduct).mp htokens
  have hspaced : ts.IsChain Token.Spaced := hts ▸ hscan.isChain hbinary
  constructor
  · rintro ⟨x, hbuild, hvalid⟩
    obtain ⟨p, hconverted, rfl⟩ := (build_eq_ok_iff hwords htokens).mp hbuild
    have hbalance : p.balance = [] := List.map_eq_nil_iff.mp hvalid
    exact Program.sentence_of_balance hspaced hconverted hbalance
  · intro hsentence
    have hoperators : ∀ o, .op o ∈ ts → o.arity = 2 ∨ o ∈ Operator.signs :=
      hts ▸ hscan.operators hbinary
    -- the sentence is how a phrase is written, and the reader finds its grouping
    obtain ⟨levels, hadmits⟩ := exists_levels hoperators
    obtain ⟨p, hconverted, hbalance⟩ := Program.balance_of_sentence hsentence hadmits
    refine ⟨.ofProgram p, (build_eq_ok_iff hwords htokens).mpr ⟨p, hconverted, rfl⟩, ?_⟩
    show p.balance.map Warning.unbalanced = []
    rw [hbalance, List.map_nil]

/-- An operator between sums and products that groups to the right. -/
def mean : Operator := ⟨"~", 700, .right, .binary fun x y => (x + y) / 2⟩

def norm : Func := ⟨"norm", .binary fun x y => .ok (x * x + y * y)⟩

/-- A formula with a registered function and operator, a sign, and a product that
    is not written. -/
def scaledNorm : Formula where
  text := "norm(-x, y ~ z) w"
  vocabulary := (Vocabulary.addFunction {} norm).addOperator mean

theorem accepts_iff_sentence_scaledNorm :
    scaledNorm.vocabulary.check = .ok () ∧ scaledNorm.vocabulary.IsBinary
      ∧ scaledNorm.implicitProduct = true
      ∧ ∃ x, scaledNorm.build = .ok x ∧ x.validate false = [] := by
  have hwords : scaledNorm.vocabulary.check = .ok () := rfl
  have hbinary : scaledNorm.vocabulary.IsBinary :=
    (Vocabulary.isBinary_builtin.addFunction norm).addOperator rfl
  have htokens : scaledNorm.tokens = .ok [.fn norm, .lparen, .op .negate, .var "x", .comma,
      .var "y", .op mean, .var "z", .rparen, .op .multiply, .var "w"] := by
    refine (tokens_eq_ok_iff rfl).mpr
      ⟨[⟨['n', 'o', 'r', 'm'], .fn norm⟩, ⟨['('], .lparen⟩, ⟨['-'], .op .negate⟩,
        ⟨['x'], .var "x"⟩, ⟨[','], .comma⟩, ⟨['y'], .var "y"⟩, ⟨['~'], .op mean⟩,
        ⟨['z'], .var "z"⟩, ⟨[')'], .rparen⟩, ⟨['w'], .var "w"⟩], ?_, rfl⟩
    exact .lexeme rfl <| .lexeme rfl <| .lexeme rfl <| .lexeme rfl <| .lexeme rfl <|
      .lexeme rfl <| .lexeme rfl <| .lexeme rfl <| .lexeme rfl <| .lexeme rfl <| .finished rfl
  have hnorm : Sentence [.fn norm, .lparen, .op .negate, .var "x", .comma, .var "y", .op mean,
      .var "z", .rparen] := by
    refine @Sentence.call norm [[.op .negate, .var "x"], [.var "y", .op mean, .var "z"]] rfl ?_
    intro a ha
    simp only [List.mem_cons, List.not_mem_nil, or_false] at ha
    rcases ha with rfl | rfl
    · exact .unary rfl (.var "x")
    · exact .binary rfl (.var "y") (.var "z")
  have hsentence := Sentence.binary (o := .multiply) rfl hnorm (.var "w")
  exact ⟨hwords, hbinary, rfl,
    ((accepts_iff_sentence hwords hbinary rfl).1 _ htokens).mpr hsentence⟩

end Formula

end StackCalc
