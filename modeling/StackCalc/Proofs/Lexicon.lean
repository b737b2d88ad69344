/-
  StackCalc.Proofs.Lexicon

  The rules of single lexemes.

  `Vocabulary.Heads` says, for each kind of lexeme, what it is and where it ends,
  without saying how it is looked for: every lexeme is as long as its rule lets
  it be.  Its first character tells which rule applies, so a text has one lexeme
  at its head at most, and it is the one that is read (`readHere_eq_lexeme_iff`).
-/
import Mathlib.Data.List.TakeWhile
import StackCalc.Proofs.Scanning

namespace StackCalc

/-- `text` is all that satisfies the condition in front of `rest`. -/
structure IsRun (p : Char → Bool) (text rest : List Char) : Prop where
  all : ∀ c ∈ text, p c = true
  stops : ∀ c, rest.head? = some c → p c = false

section IsRun

variable {p : Char → Bool} {text rest : List Char}

theorem isRun_takeWhile (p : Char → Bool) (cs : List Char) :
    IsRun p (cs.takeWhile p) (cs.dropWhile p) := by
  refine ⟨fun c hc => List.mem_takeWhile_imp hc, ?_⟩
  intro c hc
  have hhead := List.head?_dropWhile_not p cs
  rw [hc] at hhead
  simpa using hhead

theorem IsRun.takeWhile_eq (h : IsRun p text rest) : (text ++ rest).takeWhile p = text := by
  have hrest : rest.takeWhile p = [] := by
    cases rest with
    | nil => rfl
    | cons c rest => rw [List.takeWhile_cons_of_neg (by simp [h.stops c rfl])]
  rw [List.takeWhile_append_of_pos h.all, hrest, List.append_nil]

theorem IsRun.dropWhile_eq (h : IsRun p text rest) : (text ++ rest).dropWhile p = rest := by
  have hsplit : (text ++ rest).takeWhile p ++ (text ++ rest).dropWhile p = text ++ rest :=
    List.takeWhile_append_dropWhile
  rw [h.takeWhile_eq] at hsplit
  exact List.append_cancel_left hsplit

end IsRun

/-! ## Characters -/

theorem isDigit_iff {c : Char} : c.isDigit = true ↔ 48 ≤ c.toNat ∧ c.toNat ≤ 57 := by
  simp only [Char.isDigit, Bool.and_eq_true, decide_eq_true_eq, ge_iff_le, UInt32.le_iff_toNat_le]
  exact Iff.rfl

theorem isAlpha_iff {c : Char} :
    c.isAlpha = true ↔ 65 ≤ c.toNat ∧ c.toNat ≤ 90 ∨ 97 ≤ c.toNat ∧ c.toNat ≤ 122 := by
  have hranges : c.isAlpha = (decide ('A'.val ≤ c.val ∧ c.val ≤ 'Z'.val)
      || decide ('a'.val ≤ c.val) && decide (c.val ≤ 'z'.val)) := rfl
  simp only [hranges, Bool.or_eq_true, Bool.and_eq_true, decide_eq_true_eq,
    UInt32.le_iff_toNat_le]
  exact Iff.rfl

/-- A character that can open a name opens no number. -/
theorem isMantissaChar_of_isStart {c : Char} (h : Identifier.isStart c = true) :
    Numeral.isMantissaChar c = false := by
  rw [Identifier.isStart, Bool.or_eq_true, beq_iff_eq, isAlpha_iff] at h
  rcases h with rfl | h
  · rfl
  · have hdigit : ¬ c.isDigit = true := by
      rw [isDigit_iff]
      omega
    have hpoint : c ≠ '.' := by
      rintro rfl
      exact absurd h (by decide)
    simp [Numeral.isMantissaChar, hdigit, hpoint]

/-- A character of a symbol opens no number and no name. -/
theorem of_isChar {c : Char} (h : Symbol.isChar c = true) :
    Numeral.isMantissaChar c = false ∧ Identifier.isStart c = false := by
  have hall : Symbol.alphabet.all
      (fun c => !Numeral.isMantissaChar c && !Identifier.isStart c) = true := rfl
  simpa using List.all_eq_true.mp hall c (List.contains_iff_mem.mp h)

/-- Symbols are written without blanks. -/
theorem not_blank_of_isChar {c : Char} (h : Symbol.isChar c = true) : isBlank c = false := by
  have hall : Symbol.alphabet.all (fun c => !isBlank c) = true := rfl
  simpa using List.all_eq_true.mp hall c (List.contains_iff_mem.mp h)

theorem mem_blanks_of_isBlank {c : Char} (h : isBlank c = true) : c ∈ [' ', '\t', '\n', '\r'] := by
  simpa [isBlank, or_assoc] using h

/-! ## Numbers -/

namespace Numeral

/-- The exponent of a literal, in front of `rest`: a letter, at most one sign, and
    all digits behind it, of which there is one at least. -/
inductive Exponent : List Char → List Char → Prop where
  | mk {mark : Char} {sign digits rest : List Char} (hmark : isExponentMark mark = true)
      (hsign : sign = [] ∨ sign = ['+'] ∨ sign = ['-']) (hne : digits ≠ [])
      (hdigits : IsRun Char.isDigit digits rest) : Exponent (mark :: sign ++ digits) rest

/-- The exponent in front of `rest`, or nothing where none starts. -/
def ExponentOrNone (exponent rest : List Char) : Prop :=
  Exponent exponent rest
    ∨ exponent = [] ∧ ∀ exponent' rest', rest = exponent' ++ rest' → ¬ Exponent exponent' rest'

theorem spanSign_of_sign {sign digits : List Char} (hsign : sign = [] ∨ sign = ['+'] ∨ sign = ['-'])
    (hdigits : ∀ c, digits.head? = some c → c.isDigit = true) :
    spanSign (sign ++ digits) = (sign, digits) := by
  rcases hsign with rfl | rfl | rfl
  · cases digits with
    | nil => rfl
    | cons c digits =>
      -- a digit is no sign
      have hc := hdigits c rfl
      have hsign : (c == '+' || c == '-') = false := by
        rw [Bool.or_eq_false_iff, beq_eq_false_iff_ne, beq_eq_false_iff_ne]
        constructor
        · rintro rfl
          cases hc
        · rintro rfl
          cases hc
      simp [spanSign, hsign]
  · rfl
  · rfl

theorem Exponent.ne_nil {exponent rest : List Char} (h : Exponent exponent rest) :
    exponent ≠ [] := by
  cases h with
  | mk => exact List.cons_ne_nil _ _

theorem Exponent.span_eq {exponent rest : List Char} (h : Exponent exponent rest) :
    spanExponent (exponent ++ rest) = (exponent, rest) := by
  cases h with
  | @mk mark sign digits _ hmark hsign hne hdigits =>
    have hhead : ∀ c, (digits ++ rest).head? = some c → c.isDigit = true := by
      intro c hc
      cases digits with
      | nil => exact absurd rfl hne
      | cons d digits =>
        cases hc
        exact hdigits.all _ (List.mem_cons_self ..)
    have hspan := spanSign_of_sign hsign hhead
    have htext : mark :: sign ++ digits ++ rest = mark :: (sign ++ (digits ++ rest)) := by simp
    have hempty : digits.isEmpty = false := by simpa using hne
    rw [htext, spanExponent, hspan]
    simp only [hdigits.takeWhile_eq, hdigits.dropWhile_eq, hmark, hempty]
    rfl

theorem exponent_of_span {cs : List Char} (h : (spanExponent cs).1 ≠ []) :
    Exponent (spanExponent cs).1 (spanExponent cs).2 := by
  cases cs with
  | nil => exact absurd rfl h
  | cons c cs =>
    have hsign : (spanSign cs).1 = [] ∨ (spanSign cs).1 = ['+'] ∨ (spanSign cs).1 = ['-'] := by
      cases cs with
      | nil => exact Or.inl rfl
      | cons d cs =>
        rw [spanSign]
        split
        · next hd => simpa using hd
        · exact Or.inl rfl
    rw [spanExponent] at h ⊢
    generalize spanSign cs = parts at h hsign
    obtain ⟨sign, tail⟩ := parts
    simp only at h hsign ⊢
    split
    · next hboth =>
      rw [Bool.and_eq_true] at hboth
      exact .mk hboth.1 hsign (by simpa using hboth.2) (isRun_takeWhile Char.isDigit tail)
    · next hnot =>
      rw [if_neg hnot] at h
      exact absurd rfl h

/-- The exponent that is read is the one at the head of the text. -/
theorem spanExponent_eq_iff {cs exponent rest : List Char} :
    spanExponent cs = (exponent, rest) ↔ ExponentOrNone exponent rest ∧ cs = exponent ++ rest := by
  have happend := spanExponent_append cs
  constructor
  · intro h
    have hread := @exponent_of_span cs
    rw [h] at happend hread
    refine ⟨?_, happend.symm⟩
    by_cases hempty : exponent = []
    · -- an exponent at the head would have been read
      refine Or.inr ⟨hempty, ?_⟩
      intro exponent' rest' hrest hexponent
      have hcs : cs = exponent' ++ rest' := by rw [← hrest, ← happend, hempty]; rfl
      rw [hcs, hexponent.span_eq] at h
      cases h
      exact hexponent.ne_nil hempty
    · exact Or.inl (hread hempty)
  · rintro ⟨hexponent | ⟨hempty, hnone⟩, hcs⟩
    · rw [hcs]
      exact hexponent.span_eq
    · have hrest : cs = rest := by rw [hcs, hempty]; rfl
      have hnil : (spanExponent cs).1 = [] := by
        by_contra hne
        exact hnone _ _ (hrest ▸ happend.symm) (exponent_of_span hne)
      rw [hnil] at happend
      exact Prod.ext (hnil.trans hempty.symm) (happend.trans hrest)

/-- The literal that is read is as long as it can be. -/
theorem span_eq_iff {cs rest : List Char} {n : Numeral} :
    span cs = (n, rest) ↔ IsRun isMantissaChar n.mantissa (n.exponent ++ rest)
      ∧ ExponentOrNone n.exponent rest ∧ cs = n.text ++ rest := by
  constructor
  · intro h
    have hrun := isRun_takeWhile isMantissaChar cs
    have hall : cs.takeWhile isMantissaChar ++ cs.dropWhile isMantissaChar = cs :=
      List.takeWhile_append_dropWhile
    rw [span] at h
    generalize hspan : spanExponent (cs.dropWhile isMantissaChar) = parts at h
    obtain ⟨exponent, tail⟩ := parts
    cases h
    obtain ⟨hexponent, htail⟩ := spanExponent_eq_iff.mp hspan
    rw [htail] at hrun hall
    exact ⟨hrun, hexponent, hall.symm.trans (List.append_assoc ..).symm⟩
  · rintro ⟨hrun, hexponent, hcs⟩
    have hsplit : cs = n.mantissa ++ (n.exponent ++ rest) := by
      rw [hcs, text, List.append_assoc]
    have hspan := spanExponent_eq_iff.mpr ⟨hexponent, rfl⟩
    rw [span, hsplit, hrun.takeWhile_eq, hrun.dropWhile_eq, hspan]

theorem mantissa_ne_nil_of_span {c : Char} {cs rest : List Char} {n : Numeral}
    (hc : isMantissaChar c = true) (h : span (c :: cs) = (n, rest)) : n.mantissa ≠ [] := by
  have hn : n.mantissa = (c :: cs).takeWhile isMantissaChar :=
    (congrArg (fun x => x.1.mantissa) h).symm
  rw [hn, List.takeWhile_cons_of_pos hc]
  exact List.cons_ne_nil _ _

/-- The letter of `2e+x` opens a name, and the point of `1e5.5` another number. -/
example : span ['2', 'e', '+', 'x'] = (⟨['2'], []⟩, ['e', '+', 'x'])
    ∧ span ['1', 'e', '5', '.', '5'] = (⟨['1'], ['e', '5']⟩, ['.', '5']) := by decide

end Numeral

namespace Vocabulary

/-! ## Names -/

/-- What a name stands for: the function registered under it, or else the builtin
    one, or else a variable. -/
inductive Names (v : Vocabulary) (name : String) : Token → Prop where
  | registered {f : Func} (h : v.functions.find? name = some f) : Names v name (.fn f)
  | builtin {f : Func} (hnew : v.functions.find? name = none) (h : Func.builtin? name = some f) :
      Names v name (.fn f)
  | unknown (hnew : v.functions.find? name = none) (h : Func.builtin? name = none) :
      Names v name (.var name)

theorem names_iff {v : Vocabulary} {name : String} {t : Token} :
    v.Names name t ↔ t = match v.function? name with
      | some f => .fn f
      | none => .var name := by
  constructor
  · intro h
    cases h with
    | registered h => simp [function?, h]
    | builtin hnew h => simp [function?, hnew, h]
    | unknown hnew h => simp [function?, hnew, h]
  · rintro rfl
    cases hfind : v.functions.find? name with
    | some f => simpa [function?, hfind] using Names.registered hfind
    | none =>
      cases hbuiltin : Func.builtin? name with
      | some f => simpa [function?, hfind, hbuiltin] using Names.builtin hfind hbuiltin
      | none => simpa [function?, hfind, hbuiltin] using Names.unknown hfind hbuiltin

/-- The name that is read is as long as it can be. -/
theorem readWord_eq_iff {v : Vocabulary} {cs rest : List Char} {l : Lexeme} :
    v.readWord cs = .lexeme l rest ↔ IsRun Identifier.isPart l.text rest
      ∧ v.Names (String.ofList l.text) l.token ∧ cs = l.text ++ rest := by
  constructor
  · intro h
    rw [readWord, Reading.lexeme.injEq] at h
    obtain ⟨rfl, rfl⟩ := h
    exact ⟨isRun_takeWhile Identifier.isPart cs, names_iff.mpr rfl,
      List.takeWhile_append_dropWhile.symm⟩
  · rintro ⟨hrun, hnames, hcs⟩
    obtain ⟨text, token⟩ := l
    have hcs : cs = text ++ rest := hcs
    rw [readWord, hcs, hrun.takeWhile_eq, hrun.dropWhile_eq]
    exact congrArg (fun t => Reading.lexeme ⟨text, t⟩ rest) (names_iff.mp hnames).symm

/-! ## Operators -/

/-- An operator here takes an operand on its right only: there is no token before
    it, or an opening parenthesis, a separator, or an operator that is not a left
    associative one with one operand. -/
def SignPlace (previous : Option Token) : Prop :=
  ∀ t, previous = some t → t = .lparen ∨ t = .comma
    ∨ ∃ o, t = .op o ∧ ¬ (o.arity = 1 ∧ o.associativity = .left)

/-- What a symbol stands for: the operator registered under it, or else a sign, in
    the place of one, or else the builtin operator between two operands. -/
inductive Denotes (v : Vocabulary) (place : Prop) (symbol : String) : Operator → Prop where
  | registered {o : Operator} (h : v.operators.find? symbol = some o) : Denotes v place symbol o
  | sign {o : Operator} (hnew : v.operators.find? symbol = none) (hplace : place)
      (h : Operator.sign? symbol = some o) : Denotes v place symbol o
  | binary {o : Operator} (hnew : v.operators.find? symbol = none)
      (hplace : place → Operator.sign? symbol = none) (h : Operator.binary? symbol = some o) :
      Denotes v place symbol o

/-- The text is a symbol that is registered or builtin. -/
def IsSymbol (v : Vocabulary) (symbol : String) : Prop :=
  v.operators.find? symbol ≠ none ∨ ∃ o ∈ Operator.binaries ++ Operator.signs, o.symbol = symbol

theorem signPlace_iff {previous : Option Token} :
    SignPlace previous ↔ signPosition previous = true := by
  cases previous with
  | none => simp [SignPlace, signPosition]
  | some t =>
    cases t with
    | op o =>
      have hsign : signPosition (some (.op o)) = true
          ↔ ¬ (o.arity = 1 ∧ o.associativity = .left) := by
        simp [signPosition, Operator.isSuffix, Operator.isLeft, imp_iff_not_or]
      rw [hsign]
      constructor
      · intro h
        rcases h _ rfl with h | h | ⟨p, hp, hnot⟩
        · cases h
        · cases h
        · cases hp
          exact hnot
      · intro h t ht
        cases ht
        exact Or.inr (Or.inr ⟨o, rfl, h⟩)
    | num | var | fn | lparen | rparen | comma => simp [SignPlace, signPosition]

theorem operator?_eq_some_iff {v : Vocabulary} {previous : Option Token} {symbol : String}
    {o : Operator} : v.operator? (signPosition previous) symbol = some o
      ↔ v.Denotes (SignPlace previous) symbol o := by
  simp only [operator?, Option.orElse_eq_orElse, Option.orElse_eq_or, Option.or_eq_some_iff]
  constructor
  · rintro (h | ⟨hnew, hsign | ⟨hnone, h⟩⟩)
    · exact .registered h
    · split at hsign
      · next hplace => exact .sign hnew (signPlace_iff.mpr hplace) hsign
      · cases hsign
    · refine .binary hnew (fun hplace => ?_) h
      rwa [if_pos (signPlace_iff.mp hplace)] at hnone
  · intro h
    cases h with
    | registered h => exact Or.inl h
    | sign hnew hplace h =>
      refine Or.inr ⟨hnew, Or.inl ?_⟩
      rwa [if_pos (signPlace_iff.mp hplace)]
    | binary hnew hplace h =>
      refine Or.inr ⟨hnew, Or.inr ⟨?_, h⟩⟩
      split
      · next hsign => exact hplace (signPlace_iff.mpr hsign)
      · rfl

/-- Whether a text is a symbol does not depend on its place: each sign is written
    like an operator between two operands. -/
theorem operator?_eq_none_iff {v : Vocabulary} {sign : Bool} {symbol : String} :
    v.operator? sign symbol = none ↔ ¬ v.IsSymbol symbol := by
  have hsigns : ∀ o ∈ Operator.signs, ∃ p ∈ Operator.binaries, p.symbol = o.symbol := by
    simp [Operator.signs, Operator.binaries, Operator.negate, Operator.affirm, Operator.add,
      Operator.subtract, Operator.leftBinary]
  simp only [operator?, Option.orElse_eq_orElse, Option.orElse_eq_or, Option.or_eq_none_iff,
    IsSymbol, not_or, not_not, Operator.binary?, List.find?_eq_none, beq_iff_eq, not_exists,
    not_and, List.mem_append]
  constructor
  · rintro ⟨hnew, -, hbinary⟩
    refine ⟨hnew, fun o ho => ?_⟩
    rcases ho with ho | ho
    · exact hbinary o ho
    · obtain ⟨p, hp, hsymbol⟩ := hsigns o ho
      rw [← hsymbol]
      exact hbinary p hp
  · rintro ⟨hnew, hall⟩
    refine ⟨hnew, ?_, fun o ho => hall o (Or.inl ho)⟩
    cases sign with
    | false => rfl
    | true =>
      rw [if_pos rfl, Operator.sign?, List.find?_eq_none]
      intro o ho
      simpa using hall o (Or.inr ho)

theorem longestOperator?_eq_some_iff {v : Vocabulary} {sign : Bool} {run : List Char} {n m : Nat}
    {o : Operator} : v.longestOperator? sign run n = some (m, o)
      ↔ 0 < m ∧ m ≤ n ∧ v.operator? sign (String.ofList (run.take m)) = some o
        ∧ ∀ k, m < k → k ≤ n → v.operator? sign (String.ofList (run.take k)) = none := by
  induction n with
  | zero =>
    constructor
    · intro h
      cases h
    · rintro ⟨hpos, hle, -⟩
      omega
  | succ n ih =>
    rw [longestOperator?]
    cases hfirst : v.operator? sign (String.ofList (run.take (n + 1))) with
    | some p =>
      constructor
      · intro h
        cases h
        refine ⟨Nat.succ_pos n, Nat.le_refl _, hfirst, ?_⟩
        intro k hlt hle
        omega
      · rintro ⟨-, hle, ho, hlonger⟩
        -- nothing shorter than the first one that is tried
        by_cases hm : m = n + 1
        · rw [hm, hfirst] at ho
          cases ho
          rw [hm]
        · have hnone := hlonger (n + 1) (by omega) (Nat.le_refl _)
          rw [hfirst] at hnone
          cases hnone
    | none =>
      show v.longestOperator? sign run n = some (m, o) ↔ _
      rw [ih]
      constructor
      · rintro ⟨hpos, hle, ho, hlonger⟩
        refine ⟨hpos, by omega, ho, ?_⟩
        intro k hlt hk
        by_cases hlast : k = n + 1
        · rw [hlast, hfirst]
        · exact hlonger k hlt (by omega)
      · rintro ⟨hpos, hle, ho, hlonger⟩
        have hne : m ≠ n + 1 := by
          rintro rfl
          rw [hfirst] at ho
          cases ho
        exact ⟨hpos, by omega, ho, fun k hlt hk => hlonger k hlt (by omega)⟩

/-! ## Lexemes -/

/-- A lexeme, and the text behind it: a number with all its digits and points and
    any exponent, a name with all its characters, the longest symbol among the
    symbol characters that stand together, or a single character. -/
inductive Heads (v : Vocabulary) (previous : Option Token) : Lexeme → List Char → Prop where
  | numeral {n : Numeral} {rest : List Char} {x : Float} (hne : n.mantissa ≠ [])
      (hmantissa : IsRun Numeral.isMantissaChar n.mantissa (n.exponent ++ rest))
      (hexponent : Numeral.ExponentOrNone n.exponent rest) (hx : n.value? = some x) :
      Heads v previous ⟨n.text, .num x⟩ rest
  | word {c : Char} {text rest : List Char} {t : Token} (hc : Identifier.isStart c = true)
      (htext : IsRun Identifier.isPart (c :: text) rest)
      (ht : v.Names (String.ofList (c :: text)) t) : Heads v previous ⟨c :: text, t⟩ rest
  | symbol {text more rest : List Char} {o : Operator} (hne : text ≠ [])
      (hrun : IsRun Symbol.isChar (text ++ more) rest)
      (ho : v.Denotes (SignPlace previous) (String.ofList text) o)
      (hlongest : ∀ longer, longer <+: text ++ more → text.length < longer.length →
        ¬ v.IsSymbol (String.ofList longer)) :
      Heads v previous ⟨text, .op o⟩ (more ++ rest)
  | lparen (rest : List Char) : Heads v previous ⟨['('], .lparen⟩ rest
  | rparen (rest : List Char) : Heads v previous ⟨[')'], .rparen⟩ rest
  | comma (rest : List Char) : Heads v previous ⟨[','], .comma⟩ rest

section Heads

variable {v : Vocabulary} {previous : Option Token} {cs rest : List Char} {l : Lexeme}

theorem heads_of_readNumeral {c : Char} (hc : Numeral.isMantissaChar c = true)
    (h : readNumeral (c :: cs) = .lexeme l rest) : v.Heads previous l rest := by
  rw [readNumeral] at h
  generalize hspan : Numeral.span (c :: cs) = parts at h
  obtain ⟨n, tail⟩ := parts
  obtain ⟨hmantissa, hexponent, -⟩ := Numeral.span_eq_iff.mp hspan
  have hne := Numeral.mantissa_ne_nil_of_span hc hspan
  simp only at h
  split at h
  · next x hx =>
    cases h
    exact .numeral hne hmantissa hexponent hx
  · cases h

theorem readNumeral_of_value {n : Numeral} {x : Float} (hspan : Numeral.span cs = (n, rest))
    (hx : n.value? = some x) : readNumeral cs = .lexeme ⟨n.text, .num x⟩ rest := by
  rw [readNumeral, hspan]
  simp only [hx]

theorem heads_of_readSymbol (h : v.readSymbol previous cs = .lexeme l rest) :
    v.Heads previous l rest := by
  have hrun := isRun_takeWhile Symbol.isChar cs
  have hcs : cs.takeWhile Symbol.isChar ++ cs.dropWhile Symbol.isChar = cs :=
    List.takeWhile_append_dropWhile
  rw [readSymbol] at h
  generalize cs.takeWhile Symbol.isChar = run at h hrun hcs
  generalize cs.dropWhile Symbol.isChar = tail at hrun hcs
  split at h
  · next n o ho =>
    obtain ⟨hpos, hle, ho, hlonger⟩ := longestOperator?_eq_some_iff.mp ho
    -- the symbol is the first part of the run
    have htake : cs.take n = run.take n := by rw [← hcs, List.take_append_of_le_length hle]
    have hdrop : cs.drop n = run.drop n ++ tail := by
      rw [← hcs, List.drop_append_of_le_length hle]
    have hlength : (run.take n).length = n := List.length_take_of_le hle
    have hne : run.take n ≠ [] := by
      apply List.ne_nil_of_length_pos
      omega
    rw [htake, hdrop] at h
    cases h
    rw [← List.take_append_drop n run] at hrun
    refine .symbol hne hrun (operator?_eq_some_iff.mp ho) ?_
    intro longer hprefix hlt
    rw [List.take_append_drop] at hprefix
    rw [← operator?_eq_none_iff, List.prefix_iff_eq_take.mp hprefix]
    exact hlonger longer.length (by omega) hprefix.length_le
  · cases h

theorem heads_of_readHere (h : v.readHere previous cs = .lexeme l rest) :
    v.Heads previous l rest := by
  cases cs with
  | nil => cases h
  | cons c cs =>
    rw [readHere] at h
    split at h
    · next hc => exact heads_of_readNumeral hc h
    split at h
    · next hc =>
      obtain ⟨htext, ht, hcs⟩ := readWord_eq_iff.mp h
      obtain ⟨text, token⟩ := l
      cases text with
      | nil =>
        -- a name has its first character at least
        have hrest : c :: cs = rest := hcs
        have hstop := htext.stops c (by rw [← hrest]; rfl)
        rw [Identifier.isPart_of_isStart hc] at hstop
        cases hstop
      | cons d text =>
        obtain ⟨rfl, -⟩ := List.cons.inj hcs
        exact .word hc htext ht
    split at h
    · exact heads_of_readSymbol h
    split at h
    · next hc => cases h; rw [beq_iff_eq.mp hc]; exact .lparen rest
    split at h
    · next hc => cases h; rw [beq_iff_eq.mp hc]; exact .rparen rest
    split at h
    · next hc => cases h; rw [beq_iff_eq.mp hc]; exact .comma rest
    · cases h

theorem readSymbol_of_longest {text more : List Char} {o : Operator} (hne : text ≠ [])
    (hrun : IsRun Symbol.isChar (text ++ more) rest)
    (ho : v.Denotes (SignPlace previous) (String.ofList text) o)
    (hlongest : ∀ longer, longer <+: text ++ more → text.length < longer.length →
      ¬ v.IsSymbol (String.ofList longer)) :
    v.readSymbol previous (text ++ (more ++ rest)) = .lexeme ⟨text, .op o⟩ (more ++ rest) := by
  have htake : (text ++ (more ++ rest)).takeWhile Symbol.isChar = text ++ more := by
    rw [← List.append_assoc]
    exact hrun.takeWhile_eq
  have hfound : v.longestOperator? (signPosition previous) (text ++ more) (text ++ more).length
      = some (text.length, o) := by
    refine longestOperator?_eq_some_iff.mpr ⟨List.length_pos_iff.mpr hne, ?_, ?_, ?_⟩
    · rw [List.length_append]
      omega
    · rw [List.take_left]
      exact operator?_eq_some_iff.mpr ho
    · intro k hlt hle
      rw [operator?_eq_none_iff]
      apply hlongest _ (List.take_prefix k _)
      rwa [List.length_take_of_le hle]
  simp only [readSymbol, htake, hfound, List.take_left, List.drop_left]

theorem readHere_of_heads (h : v.Heads previous l rest) :
    v.readHere previous (l.text ++ rest) = .lexeme l rest := by
  cases h with
  | @numeral n _ x hne hmantissa hexponent hx =>
    have hspan : Numeral.span (n.text ++ rest) = (n, rest) :=
      Numeral.span_eq_iff.mpr ⟨hmantissa, hexponent, rfl⟩
    have hread := readNumeral_of_value hspan hx
    obtain ⟨mantissa, exponent⟩ := n
    cases mantissa with
    | nil => exact absurd rfl hne
    | cons c mantissa =>
      have hc : Numeral.isMantissaChar c = true := hmantissa.all c (List.mem_cons_self ..)
      show readHere v previous (c :: (mantissa ++ exponent ++ rest)) = _
      rw [readHere, if_pos hc]
      exact hread
  | @word c text _ t hc htext ht =>
    have hnumber := isMantissaChar_of_isStart hc
    show readHere v previous (c :: (text ++ rest)) = _
    rw [readHere, if_neg (by rw [hnumber]; exact Bool.false_ne_true), if_pos hc]
    exact readWord_eq_iff.mpr ⟨htext, ht, rfl⟩
  | @symbol text more tail o hne hrun ho hlongest =>
    have hread := readSymbol_of_longest hne hrun ho hlongest
    cases text with
    | nil => exact absurd rfl hne
    | cons c text =>
      have hc : Symbol.isChar c = true := hrun.all c (List.mem_cons_self ..)
      obtain ⟨hnumber, hname⟩ := of_isChar hc
      show readHere v previous (c :: (text ++ (more ++ tail))) = _
      rw [readHere, if_neg (by rw [hnumber]; exact Bool.false_ne_true),
        if_neg (by rw [hname]; exact Bool.false_ne_true), if_pos hc]
      exact hread
  | lparen | rparen | comma => rfl

/-- The lexeme that is read is the one that the rules put at the head. -/
theorem readHere_eq_lexeme_iff :
    v.readHere previous cs = .lexeme l rest ↔ v.Heads previous l rest ∧ cs = l.text ++ rest := by
  constructor
  · intro h
    exact ⟨heads_of_readHere h, (readHere_lexeme h).2.symm⟩
  · rintro ⟨h, rfl⟩
    exact readHere_of_heads h

theorem Heads.text_ne_nil (h : v.Heads previous l rest) : l.text ≠ [] :=
  (readHere_lexeme (readHere_of_heads h)).1

/-- No lexeme starts with a blank. -/
theorem Heads.not_blank {c : Char} (h : v.Heads previous l rest)
    (hc : (l.text ++ rest).head? = some c) : isBlank c = false := by
  have hread := readHere_of_heads h
  cases htext : l.text ++ rest with
  | nil =>
    rw [htext] at hc
    cases hc
  | cons d tail =>
    rw [htext] at hc hread
    cases hc
    by_contra hblank
    have hmem := mem_blanks_of_isBlank (eq_true_of_ne_false hblank)
    simp only [List.mem_cons, List.not_mem_nil, or_false] at hmem
    rcases hmem with rfl | rfl | rfl | rfl <;> cases hread

/-- What calls a function or is a variable is written as one name. -/
theorem Heads.name (h : v.Heads previous l rest)
    (ht : (∃ f, l.token = .fn f) ∨ ∃ name, l.token = .var name) :
    Identifier.isValid (String.ofList l.text) = true
      ∧ v.Names (String.ofList l.text) l.token := by
  cases h with
  | @word c text _ t hc htext hnames =>
    refine ⟨Identifier.isValid_iff.mpr ⟨c, text, String.toList_ofList, hc, fun d hd => ?_⟩, hnames⟩
    exact htext.all d (List.mem_cons_of_mem c hd)
  | numeral | symbol | lparen | rparen | comma =>
    rcases ht with ⟨f, hf⟩ | ⟨name, hname⟩
    · cases hf
    · cases hname

/-- An operator is written as one symbol. -/
theorem Heads.isValid_symbol {o : Operator} (h : v.Heads previous l rest)
    (ho : l.token = .op o) : Symbol.isValid (String.ofList l.text) = true := by
  cases h with
  | @symbol text more tail _ hne hrun =>
    rw [Symbol.isValid_iff, String.toList_ofList]
    exact ⟨hne, fun c hc => hrun.all c (List.mem_append_left more hc)⟩
  | word _ _ hnames =>
    cases ho
    cases hnames
  | numeral | lparen | rparen | comma => cases ho

end Heads

end Vocabulary

end StackCalc
