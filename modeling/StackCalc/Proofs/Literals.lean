/-
  StackCalc.Proofs.Literals

  Number literals: their form, and the decimals that they denote.

  `Numeral.IsLiteral` is the form, digits and points with at most one exponent, and
  `Numeral.Denotes` says which literals are numbers, and which numbers.  Neither says
  how a literal is looked for in a text.  The reader tries an exponent before it takes
  one, and takes what it reads once; what it comes to is the longest literal at the
  head of the text (`longest_iff`), and this one is a number or refused as a
  whole (`reads_longest_literal`).
-/
import Mathlib.Data.Nat.Digits.Defs
import StackCalc.Proofs.Faults

namespace StackCalc

namespace Numeral

/-! ## The form of a literal -/

/-- Digits and points, of which there is one at least, and then nothing or an
    exponent. -/
structure IsLiteral (n : Numeral) : Prop where
  ne_nil : n.mantissa ≠ []
  mantissa : ∀ c ∈ n.mantissa, isMantissaChar c = true
  exponent : n.exponent = [] ∨ Exponent n.exponent []

/-- A text is a literal and `rest`, and no literal at its head is longer. -/
structure Longest (n : Numeral) (cs rest : List Char) : Prop where
  literal : n.IsLiteral
  text_append : cs = n.text ++ rest
  longest : ∀ m : Numeral, m.IsLiteral → m.text <+: cs → m.text.length ≤ n.text.length

theorem not_isMantissaChar_of_mark {c : Char} (h : isExponentMark c = true) :
    isMantissaChar c = false := by
  rw [isExponentMark, Bool.or_eq_true, beq_iff_eq, beq_iff_eq] at h
  rcases h with rfl | rfl <;> rfl

/-- No character of the mantissa follows where an exponent starts. -/
theorem Exponent.head_not_isMantissaChar {exponent rest tail : List Char} {c : Char}
    (h : Exponent exponent rest) (hc : (exponent ++ tail).head? = some c) :
    isMantissaChar c = false := by
  cases h with
  | mk hmark =>
    cases hc
    exact not_isMantissaChar_of_mark hmark

/-- An exponent stays one when the text behind it is cut off. -/
theorem Exponent.alone {exponent rest : List Char} (h : Exponent exponent rest) :
    Exponent exponent [] := by
  cases h with
  | mk hmark hsign hne hdigits => exact .mk hmark hsign hne ⟨hdigits.all, by rintro _ ⟨⟩⟩

/-- An exponent goes on with the digits behind it. -/
theorem Exponent.extend {exponent : List Char} (h : Exponent exponent []) (tail : List Char) :
    Exponent (exponent ++ tail.takeWhile Char.isDigit) (tail.dropWhile Char.isDigit) := by
  cases h with
  | @mk mark sign digits _ hmark hsign hne hdigits =>
    have hmore := isRun_takeWhile Char.isDigit tail
    rw [List.append_assoc]
    refine .mk hmark hsign (List.append_ne_nil_of_left_ne_nil hne _) ⟨?_, hmore.stops⟩
    exact List.forall_mem_append.mpr ⟨hdigits.all, hmore.all⟩

/-! ## The longest literal -/

theorem isLiteral_of_span {cs rest : List Char} {n : Numeral} (hne : n.mantissa ≠ [])
    (h : span cs = (n, rest)) : n.IsLiteral := by
  obtain ⟨hmantissa, hexponent, -⟩ := span_eq_iff.mp h
  refine ⟨hne, hmantissa.all, ?_⟩
  rcases hexponent with hexponent | ⟨hnil, -⟩
  · exact Or.inr hexponent.alone
  · exact Or.inl hnil

/-- A literal at the head of a text is a part of the one that is read. -/
theorem prefix_of_span {cs rest : List Char} {n m : Numeral} (h : span cs = (n, rest))
    (hm : m.IsLiteral) (hpart : m.text <+: cs) : m.text <+: n.text := by
  obtain ⟨tail, htail⟩ := hpart
  rcases hm.exponent with hnil | hexponent
  · -- all its characters are in the mantissa that is read
    obtain ⟨hmantissa, -, hcs⟩ := span_eq_iff.mp h
    have hmtext : m.text = m.mantissa := by rw [text, hnil, List.append_nil]
    have htake : n.mantissa = m.mantissa ++ tail.takeWhile isMantissaChar := by
      rw [← hmantissa.takeWhile_eq, ← List.append_assoc, ← text, ← hcs, ← htail, hmtext,
        List.takeWhile_append_of_pos hm.mantissa]
    rw [hmtext, text, htake, List.append_assoc]
    exact List.prefix_append ..
  · -- its mantissa ends where its exponent starts, and the exponent goes on with digits
    have hlonger := hexponent.extend tail
    have hspan : span cs = (⟨m.mantissa, m.exponent ++ tail.takeWhile Char.isDigit⟩,
        tail.dropWhile Char.isDigit) := by
      refine span_eq_iff.mpr ⟨⟨hm.mantissa, ?_⟩, Or.inl hlonger, ?_⟩
      · intro c hc
        exact hlonger.head_not_isMantissaChar hc
      · rw [← htail]
        simp [text]
    rw [h, Prod.mk.injEq] at hspan
    rw [hspan.1, text, text, ← List.append_assoc]
    exact List.prefix_append ..

/-- Where the mantissa ends is seen from the text. -/
theorem IsLiteral.takeWhile_text {n : Numeral} (h : n.IsLiteral) :
    n.text.takeWhile isMantissaChar = n.mantissa := by
  have hrun : IsRun isMantissaChar n.mantissa n.exponent := by
    refine ⟨h.mantissa, fun c hc => ?_⟩
    rcases h.exponent with hnil | hexponent
    · rw [hnil] at hc
      cases hc
    · rw [← List.append_nil n.exponent] at hc
      exact hexponent.head_not_isMantissaChar hc
  exact hrun.takeWhile_eq

theorem IsLiteral.eq_of_text_eq {n m : Numeral} (hn : n.IsLiteral) (hm : m.IsLiteral)
    (h : n.text = m.text) : n = m := by
  have hmantissa : n.mantissa = m.mantissa := by
    rw [← hn.takeWhile_text, h, hm.takeWhile_text]
  obtain ⟨mantissa, exponent⟩ := n
  obtain ⟨mantissa', exponent'⟩ := m
  cases hmantissa
  have hexponent : exponent = exponent' := List.append_cancel_left h
  rw [hexponent]

/-- The literal that is read is the longest one, and there is no other. -/
theorem longest_iff {cs rest : List Char} {n : Numeral} :
    n.Longest cs rest ↔ n.mantissa ≠ [] ∧ span cs = (n, rest) := by
  constructor
  · intro h
    refine ⟨h.literal.ne_nil, ?_⟩
    generalize hspan : span cs = parts
    obtain ⟨m, tail⟩ := parts
    have hpart := prefix_of_span hspan h.literal ⟨rest, h.text_append.symm⟩
    have hne : m.mantissa ≠ [] := by
      obtain ⟨c, mantissa, hmantissa⟩ := List.exists_cons_of_ne_nil h.literal.ne_nil
      have hc := h.literal.mantissa c (by rw [hmantissa]; exact List.mem_cons_self ..)
      have hcs : cs = c :: (mantissa ++ n.exponent ++ rest) := by
        rw [h.text_append, text, hmantissa]
        rfl
      rw [hcs] at hspan
      exact mantissa_ne_nil_of_span hc hspan
    have hm := isLiteral_of_span hne hspan
    have hcs := (span_eq_iff.mp hspan).2.2
    have hlength := h.longest m hm ⟨tail, hcs.symm⟩
    obtain rfl := h.literal.eq_of_text_eq hm (hpart.eq_of_length_le hlength)
    rw [h.text_append] at hcs
    rw [List.append_cancel_left hcs]
  · rintro ⟨hne, h⟩
    exact ⟨isLiteral_of_span hne h, (span_eq_iff.mp h).2.2,
      fun _ hm hpart => (prefix_of_span h hm hpart).length_le⟩

/-- Behind a literal no digit follows, and a point only where the literal has an
    exponent. -/
theorem head_of_span {cs rest : List Char} {n : Numeral} {c : Char} (h : span cs = (n, rest))
    (hc : rest.head? = some c) (hmantissa : isMantissaChar c = true) :
    n.exponent ≠ [] ∧ c = '.' := by
  obtain ⟨mantissa, exponent⟩ := n
  obtain ⟨hrun, hexponent, -⟩ := span_eq_iff.mp h
  rcases hexponent with hexponent | ⟨hnil, -⟩
  · refine ⟨hexponent.ne_nil, ?_⟩
    cases hexponent with
    | mk _ _ _ hdigits =>
      -- the digits of the exponent have all been taken
      rw [isMantissaChar, hdigits.stops c hc, Bool.false_or, beq_iff_eq] at hmantissa
      exact hmantissa
  · have hstops := hrun.stops c (by rwa [hnil])
    rw [hmantissa] at hstops
    cases hstops

/-! ## The decimals that literals denote -/

/-- The number that a row of digits stands for, by the places of its digits. -/
def placeValue (digits : List Char) : Nat :=
  Nat.ofDigits 10 (digits.reverse.map fun c => c.toNat - '0'.toNat)

theorem digitsValue_eq_placeValue (digits : List Char) :
    digitsValue digits = placeValue digits := by
  induction digits using List.reverseRecOn with
  | nil => rfl
  | append_singleton digits c ih =>
    have hlast : digitsValue (digits ++ [c]) = 10 * digitsValue digits + (c.toNat - '0'.toNat) := by
      rw [digitsValue, List.foldl_append]
      rfl
    rw [hlast, ih, placeValue, placeValue, List.reverse_append, List.reverse_singleton,
      List.singleton_append, List.map_cons, Nat.ofDigits_cons, Nat.add_comm]

/-- A row of digits that is not empty. -/
structure IsDigits (digits : List Char) : Prop where
  ne_nil : digits ≠ []
  all : ∀ c ∈ digits, c.isDigit = true

/-- The power of ten that an exponent stands for; without one it is zero. -/
inductive Scale : List Char → Int → Prop where
  | none : Scale [] 0
  | unsigned {mark : Char} {digits : List Char} (hmark : isExponentMark mark = true)
      (hdigits : IsDigits digits) : Scale (mark :: digits) (placeValue digits)
  | plus {mark : Char} {digits : List Char} (hmark : isExponentMark mark = true)
      (hdigits : IsDigits digits) : Scale (mark :: '+' :: digits) (placeValue digits)
  | minus {mark : Char} {digits : List Char} (hmark : isExponentMark mark = true)
      (hdigits : IsDigits digits) : Scale (mark :: '-' :: digits) (-placeValue digits)

/-- The decimal that a literal denotes: all its digits, moved behind the point by as
    many places as there are digits behind it, and by the exponent.  On one side of the
    point there may be none. -/
inductive Denotes : Numeral → Decimal → Prop where
  | whole {digits exponent : List Char} {scale : Int} (hdigits : IsDigits digits)
      (hscale : Scale exponent scale) :
      Denotes ⟨digits, exponent⟩ ⟨placeValue digits, scale⟩
  | point {before after exponent : List Char} {scale : Int} (hdigits : IsDigits (before ++ after))
      (hscale : Scale exponent scale) :
      Denotes ⟨before ++ '.' :: after, exponent⟩
        ⟨placeValue (before ++ after), scale - after.length⟩

theorem exponentValue_of_scale {exponent : List Char} {scale : Int} (h : Scale exponent scale) :
    exponentValue exponent = scale := by
  cases h with
  | none => rfl
  | plus | minus =>
    rw [← digitsValue_eq_placeValue]
    rfl
  | @unsigned mark digits _ hdigits =>
    rw [← digitsValue_eq_placeValue]
    cases digits with
    | nil => exact absurd rfl hdigits.ne_nil
    | cons c digits =>
      have hc := hdigits.all c (List.mem_cons_self ..)
      rw [exponentValue]
      -- a digit is no sign
      split
      · next hsign =>
        cases hsign
        cases hc
      · next hsign =>
        cases hsign
        cases hc
      · rfl

theorem exists_scale {exponent : List Char} (h : exponent = [] ∨ Exponent exponent []) :
    ∃ scale, Scale exponent scale := by
  rcases h with rfl | h
  · exact ⟨0, .none⟩
  · cases h with
    | mk hmark hsign hne hdigits =>
      rcases hsign with rfl | rfl | rfl
      · exact ⟨_, .unsigned hmark ⟨hne, hdigits.all⟩⟩
      · exact ⟨_, .plus hmark ⟨hne, hdigits.all⟩⟩
      · exact ⟨_, .minus hmark ⟨hne, hdigits.all⟩⟩

theorem isNumber_iff {n : Numeral} :
    n.isNumber = true ↔ (∃ c ∈ n.mantissa, c.isDigit = true) ∧ n.mantissa.count '.' ≤ 1 := by
  rw [isNumber, Bool.and_eq_true, List.any_eq_true, decide_eq_true_eq]

theorem point_not_mem {digits : List Char} (h : ∀ c ∈ digits, c.isDigit = true) : '.' ∉ digits := by
  intro hpoint
  cases h '.' hpoint

theorem ne_point {c : Char} {digits : List Char} (h : ∀ c ∈ digits, c.isDigit = true)
    (hc : c ∈ digits) : (c != '.') = true := by
  rw [bne_iff_ne]
  rintro rfl
  exact point_not_mem h hc

/-- What a literal denotes is what is computed for it. -/
theorem Denotes.eq_toDecimal {n : Numeral} {d : Decimal} (h : n.Denotes d) :
    n.isNumber = true ∧ d = n.toDecimal := by
  cases h with
  | @whole digits exponent scale hdigits hscale =>
    have hdrop : digits.dropWhile (· != '.') = [] :=
      List.dropWhile_eq_nil_iff.mpr fun c hc => ne_point hdigits.all hc
    have hfilter : digits.filter Char.isDigit = digits := List.filter_eq_self.mpr hdigits.all
    refine ⟨isNumber_iff.mpr ⟨?_, ?_⟩, ?_⟩
    · obtain ⟨c, hc⟩ := List.exists_mem_of_ne_nil digits hdigits.ne_nil
      exact ⟨c, hc, hdigits.all c hc⟩
    · rw [List.count_eq_zero_of_not_mem (point_not_mem hdigits.all)]
      exact Nat.zero_le 1
    · simp [toDecimal, hdrop, hfilter, exponentValue_of_scale hscale, digitsValue_eq_placeValue]
  | @point before after exponent scale hdigits hscale =>
    obtain ⟨hbefore, hafter⟩ := List.forall_mem_append.mp hdigits.all
    have hdrop : (before ++ '.' :: after).dropWhile (· != '.') = '.' :: after := by
      rw [List.dropWhile_append_of_pos fun c hc => ne_point hbefore hc]
      rfl
    have hfilter : (before ++ '.' :: after).filter Char.isDigit = before ++ after := by
      rw [List.filter_append, List.filter_cons_of_neg (by decide), List.filter_eq_self.mpr hbefore,
        List.filter_eq_self.mpr hafter]
    refine ⟨isNumber_iff.mpr ⟨?_, ?_⟩, ?_⟩
    · obtain ⟨c, hc⟩ := List.exists_mem_of_ne_nil _ hdigits.ne_nil
      have hmem : c ∈ before ++ '.' :: after :=
        ((List.sublist_cons_self _ _).append_left before).subset hc
      exact ⟨c, hmem, hdigits.all c hc⟩
    · rw [List.count_append, List.count_cons_self,
        List.count_eq_zero_of_not_mem (point_not_mem hbefore),
        List.count_eq_zero_of_not_mem (point_not_mem hafter)]
    · simp [toDecimal, hdrop, hfilter, exponentValue_of_scale hscale, digitsValue_eq_placeValue]

/-- A character of the mantissa is a digit, unless it is the point. -/
theorem isDigit_of_ne_point {c : Char} (h : isMantissaChar c = true) (hne : c ≠ '.') :
    c.isDigit = true := by
  rw [isMantissaChar, Bool.or_eq_true, beq_iff_eq] at h
  exact h.resolve_right hne

/-- A literal that is a number has one value at least. -/
theorem exists_denotes {n : Numeral} (h : n.IsLiteral) (hnumber : n.isNumber = true) :
    ∃ d, n.Denotes d := by
  obtain ⟨mantissa, exponent⟩ := n
  obtain ⟨⟨c, hc, hdigit⟩, hcount⟩ := isNumber_iff.mp hnumber
  obtain ⟨hne, hall, hexponent⟩ := h
  simp only at hc hcount hne hall hexponent
  obtain ⟨scale, hscale⟩ := exists_scale hexponent
  have hcpoint : c ≠ '.' := by
    rintro rfl
    cases hdigit
  by_cases hpoint : '.' ∈ mantissa
  · -- at the first point, which is the only one
    obtain ⟨before, after, rfl, hbefore⟩ := List.eq_append_cons_of_mem hpoint
    rw [List.count_append, List.count_cons_self, List.count_eq_zero_of_not_mem hbefore] at hcount
    have hafter : '.' ∉ after := List.count_eq_zero.mp (by omega)
    refine ⟨_, .point ⟨?_, fun d hd => ?_⟩ hscale⟩
    · have hmem : c ∈ before ++ after := by simpa [hcpoint] using hc
      exact List.ne_nil_of_mem hmem
    · rcases List.mem_append.mp hd with hd | hd
      · exact isDigit_of_ne_point (hall d (by simp [hd])) (ne_of_mem_of_not_mem hd hbefore)
      · exact isDigit_of_ne_point (hall d (by simp [hd])) (ne_of_mem_of_not_mem hd hafter)
  · refine ⟨_, .whole ⟨hne, fun d hd => ?_⟩ hscale⟩
    exact isDigit_of_ne_point (hall d hd) (ne_of_mem_of_not_mem hd hpoint)

theorem denotes_iff {n : Numeral} {d : Decimal} (h : n.IsLiteral) :
    n.Denotes d ↔ n.isNumber = true ∧ d = n.toDecimal := by
  constructor
  · exact Denotes.eq_toDecimal
  · rintro ⟨hnumber, rfl⟩
    obtain ⟨d, hd⟩ := exists_denotes h hnumber
    rw [← hd.eq_toDecimal.2]
    exact hd

end Numeral

open Numeral (Longest Denotes isMantissaChar)

/-! ## Reading a literal -/

theorem not_isBlank_of_isMantissaChar {c : Char} (h : isMantissaChar c = true) :
    isBlank c = false := by
  by_contra hblank
  have hmem := mem_blanks_of_isBlank (eq_true_of_ne_false hblank)
  simp only [List.mem_cons, List.not_mem_nil, or_false] at hmem
  rcases hmem with rfl | rfl | rfl | rfl <;> cases h

/-- Whatever is known and whatever stands before, a digit or a point opens a literal. -/
theorem Vocabulary.read_eq_readNumeral {c : Char} (h : isMantissaChar c = true) (v : Vocabulary)
    (previous : Option Token) (cs : List Char) :
    v.read previous (c :: cs) = readNumeral (c :: cs) := by
  have hdrop : (c :: cs).dropWhile isBlank = c :: cs :=
    List.dropWhile_cons_of_neg (by simp [not_isBlank_of_isMantissaChar h])
  rw [read, hdrop, readHere, if_pos h]

/-- In front of a digit or a point the longest literal is read, and nothing behind it.
    It is a number, with the value that its text denotes, if there is a digit in its
    mantissa and at most one point; otherwise it is refused, with its text, and reading
    goes on behind it.  Behind it no digit follows, and a point only behind an
    exponent. -/
theorem reads_longest_literal {c : Char} (hc : isMantissaChar c = true) (cs : List Char) :
    (∀ (v : Vocabulary) (previous : Option Token),
        v.read previous (c :: cs) = readNumeral (c :: cs))
      ∧ (∃ n rest, Longest n (c :: cs) rest)
      ∧ ∀ n rest, Longest n (c :: cs) rest →
        ((∃ d, n.Denotes d)
            ↔ (∃ k ∈ n.mantissa, k.isDigit = true) ∧ n.mantissa.count '.' ≤ 1)
          ∧ (∀ d, n.Denotes d →
              readNumeral (c :: cs) = .lexeme ⟨n.text, .num d.toFloat⟩ rest)
          ∧ ((∀ d, ¬ n.Denotes d) →
              readNumeral (c :: cs) = .fault (.invalidNumber (String.ofList n.text)) rest)
          ∧ ∀ k, rest.head? = some k → isMantissaChar k = true → n.exponent ≠ [] ∧ k = '.' := by
  refine ⟨fun v previous => v.read_eq_readNumeral hc previous cs, ?_, ?_⟩
  · generalize hspan : Numeral.span (c :: cs) = parts
    obtain ⟨n, rest⟩ := parts
    exact ⟨n, rest, Numeral.longest_iff.mpr ⟨Numeral.mantissa_ne_nil_of_span hc hspan, hspan⟩⟩
  · intro n rest hlongest
    obtain ⟨-, hspan⟩ := Numeral.longest_iff.mp hlongest
    have hdenotes (d : Decimal) := Numeral.denotes_iff (d := d) hlongest.literal
    refine ⟨?_, ?_, ?_, fun k hk hmantissa => Numeral.head_of_span hspan hk hmantissa⟩
    · rw [← Numeral.isNumber_iff]
      constructor
      · rintro ⟨d, hd⟩
        exact ((hdenotes d).mp hd).1
      · intro hnumber
        exact ⟨_, (hdenotes _).mpr ⟨hnumber, rfl⟩⟩
    · intro d hd
      obtain ⟨hnumber, rfl⟩ := (hdenotes d).mp hd
      exact Vocabulary.readNumeral_of_value hspan (if_pos hnumber)
    · intro hnone
      have hnumber : ¬ n.isNumber = true := fun h => hnone _ ((hdenotes _).mpr ⟨h, rfl⟩)
      have hvalue : n.value? = none := Numeral.value?_eq_none_iff.mpr (eq_false_of_ne_true hnumber)
      rw [readNumeral, hspan]
      simp only [hvalue]

/-- The number of `2.E-3.7e` ends in front of the second point, and the one of `1..2e+x`,
    which has two, in front of the letter. -/
theorem reads_longest_literal_points :
    isMantissaChar '2' = true ∧ isMantissaChar '1' = true
      ∧ Longest ⟨"2.".toList, "E-3".toList⟩ "2.E-3.7e".toList ".7e".toList
      ∧ Longest ⟨"1..2".toList, []⟩ "1..2e+x".toList "e+x".toList
      ∧ Denotes ⟨"2.".toList, "E-3".toList⟩ ⟨2, -3⟩
      ∧ readNumeral "2.E-3.7e".toList
        = .lexeme ⟨"2.E-3".toList, .num (Decimal.mk 2 (-3)).toFloat⟩ ".7e".toList
      ∧ readNumeral "1..2e+x".toList = .fault (.invalidNumber "1..2") "e+x".toList := by
  have hnumber : Longest ⟨"2.".toList, "E-3".toList⟩ "2.E-3.7e".toList ".7e".toList :=
    Numeral.longest_iff.mpr ⟨by decide, rfl⟩
  have hrefused : Longest ⟨"1..2".toList, []⟩ "1..2e+x".toList "e+x".toList :=
    Numeral.longest_iff.mpr ⟨by decide, rfl⟩
  have hdenotes : Denotes ⟨"2.".toList, "E-3".toList⟩ ⟨2, -3⟩ :=
    (Numeral.denotes_iff hnumber.literal).mpr ⟨by decide, by decide⟩
  have hnone (d : Decimal) : ¬ Denotes ⟨"1..2".toList, []⟩ d := by
    rw [Numeral.denotes_iff hrefused.literal]
    rintro ⟨h, -⟩
    cases h
  obtain ⟨-, -, hread⟩ := reads_longest_literal (c := '2') rfl ".E-3.7e".toList
  obtain ⟨-, -, hread'⟩ := reads_longest_literal (c := '1') rfl "..2e+x".toList
  exact ⟨rfl, rfl, hnumber, hrefused, hdenotes, (hread _ _ hnumber).2.1 _ hdenotes,
    (hread' _ _ hrefused).2.2.1 hnone⟩

end StackCalc
