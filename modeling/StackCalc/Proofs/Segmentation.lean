/-
  StackCalc.Proofs.Segmentation

  A text that is scanned is cut into lexemes, and no character is lost.

  `Segmented` cuts a text by the rules of single lexemes alone: blanks, a lexeme
  that is as long as it can be behind the token before it, and so on.  There is at
  most one way to do so (`Segmented.unique`), and a scan that succeeds has found
  it.  The tokens of the scan are those of the lexemes, with a product wherever
  two operands meet.
-/
import StackCalc.Proofs.Lexicon

namespace StackCalc

/-- Blanks, and the lexeme behind them. -/
structure Segment where
  gap : List Char
  lexeme : Lexeme

/-- The segment as it was written. -/
def Segment.text (s : Segment) : List Char := s.gap ++ s.lexeme.text

/-- A text behind the token `previous` falls into segments, and blanks behind the
    last one. -/
inductive Segmented (v : Vocabulary) :
    Option Token → List Char → List Segment → List Char → Prop where
  | blanks {previous : Option Token} {tail : List Char} (htail : ∀ c ∈ tail, isBlank c = true) :
      Segmented v previous tail [] tail
  | segment {previous : Option Token} {s : Segment} {rest tail : List Char}
      {segments : List Segment} (hgap : ∀ c ∈ s.gap, isBlank c = true)
      (hlexeme : v.Heads previous s.lexeme rest)
      (hrest : Segmented v (some s.lexeme.token) rest segments tail) :
      Segmented v previous (s.text ++ rest) (s :: segments) tail

namespace Token

/-- The token starts an operand directly behind the end of another. -/
def Meets (previous : Option Token) (t : Token) : Prop :=
  (∃ last, previous = some last ∧ last.endsOperand = true) ∧ t.startsOperand = true

/-- The second row is the first one with a product wherever two operands meet. -/
inductive WithProducts (product : Token) : Option Token → List Token → List Token → Prop where
  | nil {previous : Option Token} : WithProducts product previous [] []
  | keep {previous : Option Token} {t : Token} {ts us : List Token} (h : ¬ Meets previous t)
      (hrest : WithProducts product (some t) ts us) :
      WithProducts product previous (t :: ts) (t :: us)
  | insert {previous : Option Token} {t : Token} {ts us : List Token} (h : Meets previous t)
      (hrest : WithProducts product (some t) ts us) :
      WithProducts product previous (t :: ts) (product :: t :: us)

theorem meets_iff {previous : Option Token} {t : Token} :
    (t.startsOperand && previous.any endsOperand) = true ↔ Meets previous t := by
  rw [Bool.and_eq_true, Option.any_eq_true, and_comm]
  exact Iff.rfl

end Token

open Token (Meets WithProducts)

/-! ## One segment -/

namespace Vocabulary

variable {v : Vocabulary} {previous : Option Token} {cs rest : List Char}

theorem eq_nil_of_readHere_finished (h : v.readHere previous cs = .finished) : cs = [] := by
  cases cs with
  | nil => rfl
  | cons c cs =>
    rw [readHere] at h
    split at h
    · rw [readNumeral] at h
      generalize Numeral.span (c :: cs) = parts at h
      simp only at h
      split at h <;> cases h
    split at h
    · cases h
    split at h
    · rw [readSymbol] at h
      split at h <;> cases h
    split at h
    · cases h
    split at h
    · cases h
    split at h <;> cases h

theorem read_eq_finished_iff :
    v.read previous cs = .finished ↔ ∀ c ∈ cs, isBlank c = true := by
  rw [← List.dropWhile_eq_nil_iff]
  constructor
  · exact eq_nil_of_readHere_finished
  · intro h
    rw [read, h]
    rfl

/-- A lexeme behind blanks is read, and its blanks are all that stand in front of
    it. -/
theorem read_segment {s : Segment} (hgap : ∀ c ∈ s.gap, isBlank c = true)
    (hlexeme : v.Heads previous s.lexeme rest) :
    v.read previous (s.text ++ rest) = .lexeme s.lexeme rest
      ∧ (s.text ++ rest).takeWhile isBlank = s.gap := by
  have hrun : IsRun isBlank s.gap (s.lexeme.text ++ rest) :=
    ⟨hgap, fun c hc => hlexeme.not_blank hc⟩
  rw [Segment.text, List.append_assoc]
  refine ⟨?_, hrun.takeWhile_eq⟩
  rw [read, hrun.dropWhile_eq]
  exact readHere_of_heads hlexeme

theorem segment_of_read {l : Lexeme} (h : v.read previous cs = .lexeme l rest) :
    (∀ c ∈ cs.takeWhile isBlank, isBlank c = true) ∧ v.Heads previous l rest
      ∧ cs = (Segment.mk (cs.takeWhile isBlank) l).text ++ rest :=
  ⟨(isRun_takeWhile isBlank cs).all, heads_of_readHere h, (read_lexeme h).2.symm⟩

end Vocabulary

/-! ## All segments -/

namespace Segmented

variable {v : Vocabulary} {previous : Option Token} {cs tail : List Char} {segments : List Segment}

open Scanner (Scan)

/-- Nothing is lost. -/
theorem text_eq (h : Segmented v previous cs segments tail) :
    cs = segments.flatMap Segment.text ++ tail := by
  induction h with
  | blanks => rfl
  | segment _ _ _ ih => rw [List.flatMap_cons, List.append_assoc, ← ih]

/-- What is read first decides the first segment. -/
theorem of_read (h : Segmented v previous cs segments tail) :
    v.read previous cs = .finished ∧ segments = [] ∧ tail = cs
      ∨ ∃ s rest more, v.read previous cs = .lexeme s.lexeme rest
        ∧ cs.takeWhile isBlank = s.gap ∧ segments = s :: more
        ∧ Segmented v (some s.lexeme.token) rest more tail := by
  cases h with
  | blanks htail => exact Or.inl ⟨Vocabulary.read_eq_finished_iff.mpr htail, rfl, rfl⟩
  | @segment _ s rest _ more hgap hlexeme hrest =>
    obtain ⟨hread, hblanks⟩ := Vocabulary.read_segment hgap hlexeme
    exact Or.inr ⟨s, rest, more, hread, hblanks, rfl, hrest⟩

/-- A text falls into segments in one way only. -/
theorem unique {segments' : List Segment} {tail' : List Char}
    (h : Segmented v previous cs segments tail) (h' : Segmented v previous cs segments' tail') :
    segments' = segments ∧ tail' = tail := by
  induction h generalizing segments' tail' with
  | blanks htail =>
    rcases h'.of_read with ⟨-, rfl, rfl⟩ | ⟨s, rest, more, hread, -⟩
    · exact ⟨rfl, rfl⟩
    · rw [Vocabulary.read_eq_finished_iff.mpr htail] at hread
      cases hread
  | @segment _ s rest _ segments hgap hlexeme _ ih =>
    obtain ⟨hread, hblanks⟩ := Vocabulary.read_segment hgap hlexeme
    rcases h'.of_read with ⟨hread', -⟩ | ⟨⟨gap, l⟩, rest', more, hread', hblanks', rfl, hrest⟩
    · rw [hread] at hread'
      cases hread'
    · obtain ⟨gap', l'⟩ := s
      rw [hread] at hread'
      cases hread'
      obtain rfl : gap' = gap := hblanks.symm.trans hblanks'
      obtain ⟨rfl, rfl⟩ := ih hrest
      exact ⟨rfl, rfl⟩

theorem scan (h : Segmented v previous cs segments tail) :
    Scan v previous cs (segments.map Segment.lexeme) := by
  induction h with
  | blanks htail => exact .finished (Vocabulary.read_eq_finished_iff.mpr htail)
  | segment hgap hlexeme _ ih => exact .lexeme (Vocabulary.read_segment hgap hlexeme).1 ih

end Segmented

namespace Scanner

/-- Each lexeme of a text stands at the head of what is left there. -/
theorem Scan.exists_heads {v : Vocabulary} {previous : Option Token} {cs : List Char}
    {ls : List Lexeme} {l : Lexeme} (h : Scan v previous cs ls) (hl : l ∈ ls) :
    ∃ before rest, v.Heads before l rest := by
  induction h with
  | finished => exact absurd hl List.not_mem_nil
  | @lexeme previous cs rest m ls hread _ ih =>
    rcases List.mem_cons.mp hl with rfl | hl
    · exact ⟨previous, rest, (Vocabulary.segment_of_read hread).2.1⟩
    · exact ih hl

theorem Scan.exists_segmented {v : Vocabulary} {previous : Option Token} {cs : List Char}
    {ls : List Lexeme} (h : Scan v previous cs ls) :
    ∃ segments tail, Segmented v previous cs segments tail ∧ segments.map Segment.lexeme = ls := by
  induction h with
  | @finished _ cs h => exact ⟨[], cs, .blanks (Vocabulary.read_eq_finished_iff.mp h), rfl⟩
  | @lexeme previous cs rest l ls h _ ih =>
    obtain ⟨segments, tail, hrest, rfl⟩ := ih
    obtain ⟨hgap, hlexeme, hcs⟩ := Vocabulary.segment_of_read h
    refine ⟨⟨cs.takeWhile isBlank, l⟩ :: segments, tail, ?_, rfl⟩
    have hall : Segmented v previous ((Segment.mk (cs.takeWhile isBlank) l).text ++ rest) _ tail :=
      .segment hgap hlexeme hrest
    rwa [← hcs] at hall

theorem withProducts_iff {v : Vocabulary} {previous : Option Token} {ls : List Lexeme}
    {ts : List Token} : WithProducts (.op v.product) previous (ls.map Lexeme.token) ts
      ↔ ts = completed v previous ls := by
  induction ls generalizing previous ts with
  | nil =>
    constructor
    · intro h
      cases h
      rfl
    · rintro rfl
      exact .nil
  | cons l ls ih =>
    rw [List.map_cons, completed_cons]
    by_cases hmeets : Meets previous l.token
    · rw [if_pos (Token.meets_iff.mpr hmeets)]
      constructor
      · intro h
        cases h with
        | keep hnot => exact absurd hmeets hnot
        | insert _ hrest => rw [ih.mp hrest]
      · rintro rfl
        exact .insert hmeets (ih.mpr rfl)
    · rw [if_neg (fun h => hmeets (Token.meets_iff.mp h))]
      constructor
      · intro h
        cases h with
        | keep _ hrest => rw [ih.mp hrest]
        | insert h => exact absurd h hmeets
      · rintro rfl
        exact .keep hmeets (ih.mpr rfl)

/-- A text is scanned with success just where it falls into segments, in one way
    and with no character lost, and the tokens are then those of its lexemes, with
    the products that are not written. -/
theorem tokenize_iff_segmented {v : Vocabulary} {implicit : Bool} {text : String}
    {ts : List Token} :
    (ofText v implicit text).tokenize.1 = .ok ts ↔
      ∃ segments tail, Segmented v none text.toList segments tail
        ∧ (∀ segments' tail', Segmented v none text.toList segments' tail' →
            segments' = segments ∧ tail' = tail)
        ∧ text.toList = segments.flatMap Segment.text ++ tail
        ∧ if implicit then WithProducts (.op v.product) none (segments.map (·.lexeme.token)) ts
          else ts = segments.map (·.lexeme.token) := by
  have hwritten (segments : List Segment) :
      (if implicit then WithProducts (.op v.product) none (segments.map (·.lexeme.token)) ts
        else ts = segments.map (·.lexeme.token))
      ↔ ts = (written v implicit none (segments.map Segment.lexeme)).map Lexeme.token := by
    have hmap : segments.map (·.lexeme.token)
        = (segments.map Segment.lexeme).map Lexeme.token := by
      rw [List.map_map]
      rfl
    rw [hmap]
    cases implicit with
    | true => exact withProducts_iff
    | false => exact Iff.rfl
  rw [tokenize_eq_ok_iff]
  constructor
  · rintro ⟨ls, hscan, hts⟩
    obtain ⟨segments, tail, hsegmented, rfl⟩ := hscan.exists_segmented
    refine ⟨segments, tail, hsegmented, ?_, hsegmented.text_eq, (hwritten segments).mpr hts⟩
    intro segments' tail' h'
    exact hsegmented.unique h'
  · rintro ⟨segments, tail, hsegmented, -, -, hts⟩
    exact ⟨_, hsegmented.scan, (hwritten segments).mp hts⟩

end Scanner

end StackCalc
