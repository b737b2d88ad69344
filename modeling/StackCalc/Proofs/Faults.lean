/-
  StackCalc.Proofs.Faults

  Where a text has no lexeme.

  A literal that is no number is passed over: reading goes on right behind it
  (`Numeral.Refused`).  In front of a character that opens no lexeme, or of symbol
  characters that start with no symbol, reading stays where it is
  (`Vocabulary.Halts`).  Which of these happens is decided by the text alone and not
  by the token before it, so a fault that halts is found again and again
  (`Halts.read_eq`).
-/
import StackCalc.Proofs.Segmentation

namespace StackCalc

/-- A text of blanks. -/
def Blank (cs : List Char) : Prop := ∀ c ∈ cs, isBlank c = true

theorem blank_nil : Blank [] := fun _ hc => absurd hc List.not_mem_nil

theorem blank_takeWhile (cs : List Char) : Blank (cs.takeWhile isBlank) :=
  fun _ hc => List.mem_takeWhile_imp hc

theorem Blank.append {cs ds : List Char} (hcs : Blank cs) (hds : Blank ds) : Blank (cs ++ ds) := by
  intro c hc
  rcases List.mem_append.mp hc with hc | hc
  · exact hcs c hc
  · exact hds c hc

namespace Numeral

/-- A literal in front of `rest` that is as long as it can be, and no number. -/
structure Refused (n : Numeral) (rest : List Char) : Prop where
  ne_nil : n.mantissa ≠ []
  mantissa : IsRun isMantissaChar n.mantissa (n.exponent ++ rest)
  exponent : ExponentOrNone n.exponent rest
  not_number : n.isNumber = false

theorem Refused.text_ne_nil {n : Numeral} {rest : List Char} (h : n.Refused rest) :
    n.text ≠ [] := by
  rw [text]
  exact List.append_ne_nil_of_left_ne_nil h.ne_nil _

theorem value?_eq_none_iff {n : Numeral} : n.value? = none ↔ n.isNumber = false := by
  rw [value?]
  split
  · next h => simp [h]
  · next h => simp [h]

end Numeral

/-- The character is no blank and opens no lexeme. -/
structure IsForeign (c : Char) : Prop where
  not_blank : isBlank c = false
  not_mantissa : Numeral.isMantissaChar c = false
  not_start : Identifier.isStart c = false
  not_symbol : Symbol.isChar c = false
  not_mark : c ∉ ['(', ')', ',']

namespace Vocabulary

/-- Nothing can be read in front of this text: it starts with a character that opens
    no lexeme, or with symbol characters that do not start with a symbol. -/
inductive Halts (v : Vocabulary) : ParseFault → List Char → Prop where
  | character {c : Char} {cs : List Char} (hc : IsForeign c) :
      Halts v (.unexpectedCharacter c) (c :: cs)
  | run {run rest : List Char} (hne : run ≠ []) (hrun : IsRun Symbol.isChar run rest)
      (hnone : ∀ symbol, symbol ≠ [] → symbol <+: run → ¬ v.IsSymbol (String.ofList symbol)) :
      Halts v (.unknownOperator (String.ofList run)) (run ++ rest)

variable {v : Vocabulary} {previous : Option Token} {cs rest : List Char} {f : ParseFault}

theorem Halts.not_refused (h : v.Halts f rest) (literal : String) :
    f ≠ .invalidNumber literal := by
  cases h with
  | character | run => exact ParseFault.noConfusion

/-! ## Runs without a symbol -/

theorem longestOperator?_eq_none_iff {sign : Bool} {run : List Char} {n : Nat} :
    v.longestOperator? sign run n = none
      ↔ ∀ k, 0 < k → k ≤ n → v.operator? sign (String.ofList (run.take k)) = none := by
  induction n with
  | zero =>
    constructor
    · intro _ k hpos hle
      omega
    · intro _
      rfl
  | succ n ih =>
    rw [longestOperator?]
    cases hfirst : v.operator? sign (String.ofList (run.take (n + 1))) with
    | some o =>
      constructor
      · intro h
        cases h
      · intro hall
        rw [hall (n + 1) (Nat.succ_pos n) (Nat.le_refl _)] at hfirst
        cases hfirst
    | none =>
      show v.longestOperator? sign run n = none ↔ _
      rw [ih]
      constructor
      · intro hall k hpos hle
        by_cases hlast : k = n + 1
        · rw [hlast, hfirst]
        · exact hall k hpos (by omega)
      · intro hall k hpos hle
        exact hall k hpos (by omega)

/-- No first part of a run is found just where none is a symbol. -/
theorem longestOperator?_eq_none_iff_not_isSymbol {sign : Bool} {run : List Char} :
    v.longestOperator? sign run run.length = none
      ↔ ∀ symbol, symbol ≠ [] → symbol <+: run → ¬ v.IsSymbol (String.ofList symbol) := by
  rw [longestOperator?_eq_none_iff]
  constructor
  · intro hall symbol hne hprefix
    rw [← @operator?_eq_none_iff v sign, List.prefix_iff_eq_take.mp hprefix]
    exact hall symbol.length (List.length_pos_iff.mpr hne) hprefix.length_le
  · intro hall k hpos hle
    rw [operator?_eq_none_iff]
    refine hall _ ?_ (List.take_prefix k run)
    apply List.ne_nil_of_length_pos
    rw [List.length_take_of_le hle]
    exact hpos

/-! ## Reading a fault -/

theorem refused_of_readNumeral {c : Char} (hc : Numeral.isMantissaChar c = true)
    (h : readNumeral (c :: cs) = .fault f rest) :
    ∃ n : Numeral, n.Refused rest ∧ f = .invalidNumber (String.ofList n.text)
      ∧ c :: cs = n.text ++ rest := by
  rw [readNumeral] at h
  generalize hspan : Numeral.span (c :: cs) = parts at h
  obtain ⟨n, tail⟩ := parts
  obtain ⟨hmantissa, hexponent, hcs⟩ := Numeral.span_eq_iff.mp hspan
  have hne := Numeral.mantissa_ne_nil_of_span hc hspan
  simp only at h
  split at h
  · cases h
  · next hvalue =>
    cases h
    exact ⟨n, ⟨hne, hmantissa, hexponent, Numeral.value?_eq_none_iff.mp hvalue⟩, rfl, hcs⟩

theorem halts_of_readSymbol {c : Char} (hc : Symbol.isChar c = true)
    (h : v.readSymbol previous (c :: cs) = .fault f rest) : v.Halts f rest ∧ rest = c :: cs := by
  rw [readSymbol] at h
  split at h
  · cases h
  · next hnone =>
    cases h
    have hrun := isRun_takeWhile Symbol.isChar (c :: cs)
    have hne : (c :: cs).takeWhile Symbol.isChar ≠ [] := by
      rw [List.takeWhile_cons_of_pos hc]
      exact List.cons_ne_nil _ _
    have hhalts := Halts.run hne hrun (longestOperator?_eq_none_iff_not_isSymbol.mp hnone)
    rw [List.takeWhile_append_dropWhile] at hhalts
    exact ⟨hhalts, rfl⟩

/-- At the head of a text a literal is refused, or reading halts. -/
theorem fault_of_readHere {c : Char} (hblank : isBlank c = false)
    (h : v.readHere previous (c :: cs) = .fault f rest) :
    (∃ n : Numeral, n.Refused rest ∧ f = .invalidNumber (String.ofList n.text)
        ∧ c :: cs = n.text ++ rest)
      ∨ v.Halts f rest ∧ rest = c :: cs := by
  rw [readHere] at h
  split at h
  · next hc => exact Or.inl (refused_of_readNumeral hc h)
  split at h
  · cases h
  split at h
  · next hc => exact Or.inr (halts_of_readSymbol hc h)
  split at h
  · cases h
  split at h
  · cases h
  split at h
  · cases h
  · next hmantissa hstart hsymbol hopen hclose hcomma =>
    cases h
    -- none of the branches before this one takes the character
    rw [beq_iff_eq] at hopen hclose hcomma
    have hmark : c ∉ ['(', ')', ','] := by simp [hopen, hclose, hcomma]
    exact Or.inr ⟨.character ⟨hblank, eq_false_of_ne_true hmantissa, eq_false_of_ne_true hstart,
      eq_false_of_ne_true hsymbol, hmark⟩, rfl⟩

/-- Behind blanks a literal is refused, or reading halts. -/
theorem fault_of_read (h : v.read previous cs = .fault f rest) :
    ∃ gap, Blank gap
      ∧ ((∃ n : Numeral, n.Refused rest ∧ f = .invalidNumber (String.ofList n.text)
          ∧ cs = gap ++ (n.text ++ rest))
        ∨ v.Halts f rest ∧ cs = gap ++ rest) := by
  refine ⟨cs.takeWhile isBlank, blank_takeWhile cs, ?_⟩
  have hrun := isRun_takeWhile isBlank cs
  have hcs : cs.takeWhile isBlank ++ cs.dropWhile isBlank = cs :=
    List.takeWhile_append_dropWhile
  rw [read] at h
  generalize cs.takeWhile isBlank = gap at hrun hcs
  generalize cs.dropWhile isBlank = text at h hrun hcs
  cases text with
  | nil => cases h
  | cons c text =>
    rcases fault_of_readHere (hrun.stops c rfl) h with ⟨n, hn, hf, htext⟩ | ⟨hhalts, hrest⟩
    · exact Or.inl ⟨n, hn, hf, by rw [← htext, hcs]⟩
    · exact Or.inr ⟨hhalts, by rw [hrest, hcs]⟩

/-! ## Faults that stay -/

/-- Where reading halts, it halts again, whatever token stands before. -/
theorem Halts.read_eq (h : v.Halts f rest) (previous : Option Token) :
    v.read previous rest = .fault f rest := by
  cases h with
  | @character c cs hc =>
    have hdrop : (c :: cs).dropWhile isBlank = c :: cs :=
      List.dropWhile_cons_of_neg (by simp [hc.not_blank])
    obtain ⟨hopen, hclose, hcomma⟩ : c ≠ '(' ∧ c ≠ ')' ∧ c ≠ ',' := by
      simpa using hc.not_mark
    simp [read, hdrop, readHere, hc.not_mantissa, hc.not_start, hc.not_symbol, hopen, hclose,
      hcomma]
  | @run run rest hne hrun hnone =>
    -- the token before decides on the signs, and a sign is a symbol as well
    have hlongest : v.longestOperator? (signPosition previous) run run.length = none :=
      longestOperator?_eq_none_iff_not_isSymbol.mpr hnone
    have hsymbol : v.readSymbol previous (run ++ rest)
        = .fault (.unknownOperator (String.ofList run)) (run ++ rest) := by
      simp only [readSymbol, hrun.takeWhile_eq, hlongest]
    cases run with
    | nil => exact absurd rfl hne
    | cons c run =>
      have hc : Symbol.isChar c = true := hrun.all c (List.mem_cons_self ..)
      obtain ⟨hmantissa, hstart⟩ := of_isChar hc
      have hdrop : (c :: (run ++ rest)).dropWhile isBlank = c :: (run ++ rest) :=
        List.dropWhile_cons_of_neg (by simp [not_blank_of_isChar hc])
      rw [List.cons_append] at hsymbol ⊢
      rw [read, hdrop, readHere, if_neg (by simp [hmantissa]), if_neg (by simp [hstart]),
        if_pos hc, hsymbol]

end Vocabulary

end StackCalc
