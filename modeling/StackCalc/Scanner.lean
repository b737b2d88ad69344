/-
  StackCalc.Scanner

  Scanning a text into tokens.  A scanner keeps its place: after a fault, or at
  the end, it can be asked again.
-/
import StackCalc.Lexeme

namespace StackCalc

/-- A text that is being scanned. -/
structure Scanner where
  /-- The words and symbols that are known. -/
  vocabulary : Vocabulary := {}
  /-- Operands that are written side by side are multiplied. -/
  implicitProduct : Bool := true
  /-- The last token that was accepted. -/
  previous : Option Token := none
  /-- The text that is still to be read. -/
  rest : List Char

namespace Scanner

/-- A scanner at the start of a text. -/
def ofText (vocabulary : Vocabulary) (implicitProduct : Bool) (text : String) : Scanner :=
  { vocabulary, implicitProduct, rest := text.toList }

/-- The lexeme that is put between two operands. -/
def productLexeme (v : Vocabulary) : Lexeme := ⟨['*'], .op v.product⟩

/-- What a scanner gives for the lexeme that it has read: the lexeme, and in front of
    it the product, if it starts an operand behind the end of another. -/
def output (s : Scanner) (l : Lexeme) : List Lexeme :=
  if s.implicitProduct && (l.token.startsOperand && s.previous.any Token.endsOperand) then
    [productLexeme s.vocabulary, l]
  else [l]

/-- The lexemes up to the end of the text or the first fault, with the products
    that are not written; and the scanner behind them. -/
def lexemes (s : Scanner) : Except ParseFault (List Lexeme) × Scanner :=
  match _h : s.vocabulary.read s.previous s.rest with
  | .finished => (.ok [], { s with rest := [] })
  | .fault f rest => (.error f, { s with rest })
  | .lexeme l rest =>
    let (ls, behind) := lexemes { s with previous := some l.token, rest }
    (ls.map (s.output l ++ ·), behind)
termination_by s.rest.length
decreasing_by exact Vocabulary.length_lt_of_read _h

/-- The tokens up to the end of the text or the first fault, and the scanner
    behind them. -/
def tokenize (s : Scanner) : Except ParseFault (List Token) × Scanner :=
  let (read, s) := s.lexemes
  (read.map (·.map Lexeme.token), s)

/-- The answers to `n` requests for tokens, one after the other. -/
def tokenizeTimes : Nat → Scanner → List (Except ParseFault (List Token))
  | 0, _ => []
  | n + 1, s => let (answer, s) := s.tokenize; answer :: tokenizeTimes n s

/-! ## One step of the loop -/

section Steps

variable {s : Scanner} {rest : List Char}

theorem lexemes_of_finished (h : s.vocabulary.read s.previous s.rest = .finished) :
    s.lexemes = (.ok [], { s with rest := [] }) := by
  rw [lexemes]
  split
  · rfl
  · next hread => rw [h] at hread; cases hread
  · next hread => rw [h] at hread; cases hread

theorem lexemes_of_fault {f : ParseFault}
    (h : s.vocabulary.read s.previous s.rest = .fault f rest) :
    s.lexemes = (.error f, { s with rest }) := by
  rw [lexemes]
  split
  · next hread => rw [h] at hread; cases hread
  · next hread => rw [h] at hread; cases hread; rfl
  · next hread => rw [h] at hread; cases hread

theorem lexemes_of_lexeme {l : Lexeme}
    (h : s.vocabulary.read s.previous s.rest = .lexeme l rest) :
    s.lexemes = ((lexemes { s with previous := some l.token, rest }).1.map (s.output l ++ ·),
      (lexemes { s with previous := some l.token, rest }).2) := by
  rw [lexemes]
  split
  · next hread => rw [h] at hread; cases hread
  · next hread => rw [h] at hread; cases hread
  · next hread => rw [h] at hread; cases hread; rfl

end Steps

/-! ## The products of a whole scan -/

/-- Puts the product before each lexeme that starts an operand where the token
    before it ends one. -/
def insertProducts (product : Lexeme) (previous : Option Token) : List Lexeme → List Lexeme
  | [] => []
  | l :: ls =>
    let tail := l :: insertProducts product (some l.token) ls
    if l.token.startsOperand && previous.any Token.endsOperand then product :: tail else tail

/-- What is given for all lexemes that are read behind a token, taken together. -/
def written (v : Vocabulary) (implicit : Bool) (previous : Option Token) (ls : List Lexeme) :
    List Lexeme :=
  if implicit then insertProducts (productLexeme v) previous ls else ls

theorem written_nil (v : Vocabulary) (implicit : Bool) (previous : Option Token) :
    written v implicit previous [] = [] := by
  cases implicit <;> rfl

theorem written_cons (s : Scanner) (l : Lexeme) (ls : List Lexeme) :
    written s.vocabulary s.implicitProduct s.previous (l :: ls)
      = s.output l ++ written s.vocabulary s.implicitProduct (some l.token) ls := by
  cases himplicit : s.implicitProduct with
  | false => simp [written, output, himplicit]
  | true =>
    simp only [written, output, himplicit, insertProducts, Bool.true_and, if_true]
    split <;> rfl

/-- The same is given by a scan that reads all lexemes first, and puts the products
    among them in a second pass. -/
theorem lexemes_eq_written (s : Scanner) :
    s.lexemes = ((lexemes { s with implicitProduct := false }).1.map
        (written s.vocabulary s.implicitProduct s.previous),
      { (lexemes { s with implicitProduct := false }).2 with
        implicitProduct := s.implicitProduct }) := by
  induction s using lexemes.induct with
  | case1 s hread =>
    have hplain := lexemes_of_finished (s := { s with implicitProduct := false }) hread
    rw [lexemes_of_finished hread, hplain]
    exact Prod.ext (congrArg Except.ok (written_nil ..).symm) rfl
  | case2 s f rest hread =>
    have hplain := lexemes_of_fault (s := { s with implicitProduct := false }) hread
    rw [lexemes_of_fault hread, hplain]
    rfl
  | case3 s l rest hread _ _ _ ih =>
    have hplain := lexemes_of_lexeme (s := { s with implicitProduct := false }) hread
    rw [lexemes_of_lexeme hread, hplain, ih]
    -- the rest is read alike by both, so only what is given for it differs
    generalize lexemes { s with implicitProduct := false, previous := some l.token, rest } = plain
    obtain ⟨read, behind⟩ := plain
    cases read with
    | error f => rfl
    | ok ls => exact Prod.ext (congrArg Except.ok (written_cons s l ls).symm) rfl

end Scanner

end StackCalc
