/-
  StackCalc.Lexeme

  Reading one lexeme at the head of a text.  A lexeme is as long as it can be,
  and what is read together with what is left is what there was.
-/
import StackCalc.Identifier
import StackCalc.Numeral
import StackCalc.Symbol
import StackCalc.Token
import StackCalc.Vocabulary

namespace StackCalc

/-- A token with the text that it was read from. -/
structure Lexeme where
  text : List Char
  token : Token

/-- Characters that may stand between lexemes. -/
def isBlank (c : Char) : Bool := c == ' ' || c == '\t' || c == '\n' || c == '\r'

/-- After this token an operator takes an operand on its right only: at the
    start, after an opening parenthesis, a separator, or an operator that is not
    written after its operand. -/
def signPosition : Option Token → Bool
  | none | some .lparen | some .comma => true
  | some (.op o) => !o.isSuffix
  | some _ => false

/-- What is found at the head of a text, and the text behind it. -/
inductive Reading where
  /-- Only blanks are left. -/
  | finished
  /-- A lexeme. -/
  | lexeme (l : Lexeme) (rest : List Char)
  /-- No lexeme; reading goes on at the rest. -/
  | fault (f : ParseFault) (rest : List Char)

/-- A number literal.  One that is not a number is passed over. -/
def readNumeral (cs : List Char) : Reading :=
  let (n, rest) := Numeral.span cs
  match n.value? with
  | some x => .lexeme ⟨n.text, .num x⟩ rest
  | none => .fault (.invalidNumber (String.ofList n.text)) rest

namespace Vocabulary

/-- A name: the function that it calls, or else a variable. -/
def readWord (v : Vocabulary) (cs : List Char) : Reading :=
  let word := cs.takeWhile Identifier.isPart
  let name := String.ofList word
  let token := match v.function? name with
    | some f => .fn f
    | none => .var name
  .lexeme ⟨word, token⟩ (cs.dropWhile Identifier.isPart)

/-- The longest first part of a run, of at most `n` characters, that is an
    operator, and its length. -/
def longestOperator? (v : Vocabulary) (sign : Bool) (run : List Char) :
    Nat → Option (Nat × Operator)
  | 0 => none
  | n + 1 =>
    match v.operator? sign (String.ofList (run.take (n + 1))) with
    | some o => some (n + 1, o)
    | none => v.longestOperator? sign run n

/-- An operator: the longest first part of the run of symbol characters that is
    one. -/
def readSymbol (v : Vocabulary) (previous : Option Token) (cs : List Char) : Reading :=
  let run := cs.takeWhile Symbol.isChar
  match v.longestOperator? (signPosition previous) run run.length with
  | some (n, o) => .lexeme ⟨cs.take n, .op o⟩ (cs.drop n)
  | none => .fault (.unknownOperator (String.ofList run)) cs

/-- The lexeme that starts with the first character of a text. -/
def readHere (v : Vocabulary) (previous : Option Token) : List Char → Reading
  | [] => .finished
  | c :: cs =>
    if Numeral.isMantissaChar c then readNumeral (c :: cs)
    else if Identifier.isStart c then v.readWord (c :: cs)
    else if Symbol.isChar c then v.readSymbol previous (c :: cs)
    else if c == '(' then .lexeme ⟨[c], .lparen⟩ cs
    else if c == ')' then .lexeme ⟨[c], .rparen⟩ cs
    else if c == ',' then .lexeme ⟨[c], .comma⟩ cs
    else .fault (.unexpectedCharacter c) (c :: cs)

/-- The first lexeme of a text, behind any blanks. -/
def read (v : Vocabulary) (previous : Option Token) (cs : List Char) : Reading :=
  v.readHere previous (cs.dropWhile isBlank)

/-! ## Nothing is lost, and something is read -/

theorem longestOperator?_length {v : Vocabulary} {sign : Bool} {run : List Char} {n m : Nat}
    {o : Operator} (h : v.longestOperator? sign run n = some (m, o)) : 0 < m ∧ m ≤ n := by
  induction n with
  | zero => simp [longestOperator?] at h
  | succ n ih =>
    simp only [longestOperator?] at h
    split at h
    · simp only [Option.some.injEq, Prod.mk.injEq] at h
      omega
    · have := ih h
      omega

theorem readNumeral_lexeme {cs rest : List Char} {l : Lexeme}
    (h : readNumeral cs = .lexeme l rest) : l.text ≠ [] ∧ l.text ++ rest = cs := by
  have hspan := Numeral.span_append cs
  unfold readNumeral at h
  generalize Numeral.span cs = p at h hspan
  obtain ⟨n, tail⟩ := p
  simp only at h hspan
  split at h
  · next x hx =>
    cases h
    refine ⟨?_, hspan⟩
    -- a number has a digit, so its literal has a character
    simp only [Numeral.value?, Numeral.isNumber] at hx
    intro hnil
    simp only [Numeral.text, List.append_eq_nil_iff] at hnil
    simp [hnil.1] at hx
  · cases h

theorem readWord_lexeme {v : Vocabulary} {c : Char} {cs rest : List Char} {l : Lexeme}
    (hc : Identifier.isStart c = true) (h : v.readWord (c :: cs) = .lexeme l rest) :
    l.text ≠ [] ∧ l.text ++ rest = c :: cs := by
  simp only [readWord, Reading.lexeme.injEq] at h
  obtain ⟨rfl, rfl⟩ := h
  have := Identifier.isPart_of_isStart hc
  exact ⟨by simp [this], List.takeWhile_append_dropWhile⟩

theorem readSymbol_lexeme {v : Vocabulary} {previous : Option Token} {cs rest : List Char}
    {l : Lexeme} (h : v.readSymbol previous cs = .lexeme l rest) :
    l.text ≠ [] ∧ l.text ++ rest = cs := by
  simp only [readSymbol] at h
  split at h
  · next n o ho =>
    simp only [Reading.lexeme.injEq] at h
    obtain ⟨rfl, rfl⟩ := h
    have hn := longestOperator?_length ho
    have hlen : (cs.takeWhile Symbol.isChar).length ≤ cs.length :=
      (List.takeWhile_sublist _).length_le
    refine ⟨?_, List.take_append_drop n cs⟩
    intro hnil
    rcases List.take_eq_nil_iff.mp hnil with h0 | h0
    · omega
    · subst h0; simp at hn; omega
  · cases h

/-- A lexeme that starts at the head is not empty, and together with the rest it
    is the text. -/
theorem readHere_lexeme {v : Vocabulary} {previous : Option Token} {cs rest : List Char}
    {l : Lexeme} (h : v.readHere previous cs = .lexeme l rest) :
    l.text ≠ [] ∧ l.text ++ rest = cs := by
  cases cs with
  | nil => cases h
  | cons c cs =>
    simp only [readHere] at h
    split at h
    · exact readNumeral_lexeme h
    split at h
    · next hc => exact readWord_lexeme hc h
    split at h
    · exact readSymbol_lexeme h
    split at h
    · cases h; simp
    split at h
    · cases h; simp
    split at h
    · cases h; simp
    · cases h

/-- Blanks, the lexeme and the rest make up the text. -/
theorem read_lexeme {v : Vocabulary} {previous : Option Token} {cs rest : List Char}
    {l : Lexeme} (h : v.read previous cs = .lexeme l rest) :
    l.text ≠ [] ∧ cs.takeWhile isBlank ++ l.text ++ rest = cs := by
  obtain ⟨hne, happ⟩ := readHere_lexeme h
  refine ⟨hne, ?_⟩
  rw [List.append_assoc, happ, List.takeWhile_append_dropWhile]

/-- Reading a lexeme makes the text shorter. -/
theorem length_lt_of_read {v : Vocabulary} {previous : Option Token} {cs rest : List Char}
    {l : Lexeme} (h : v.read previous cs = .lexeme l rest) : rest.length < cs.length := by
  obtain ⟨hne, happ⟩ := read_lexeme h
  have hlen := congrArg List.length happ
  have := List.length_pos_iff.mpr hne
  simp only [List.length_append] at hlen
  omega

end Vocabulary

end StackCalc
