/-
  StackCalc.Proofs.Requests

  One scanner, asked again and again.

  A request gives the tokens up to the end of the text, or stops at a fault and gives
  that alone.  What it has read is not read again, also where its tokens were not
  given: over all requests the text is cut once into lexemes and refused literals
  (`Cut`).  Each refused literal ends one request (`Request`).  Behind the last one the
  scan either comes to the end of the text or halts, and from then on no request
  changes the scanner (`requests_settle`).
-/
import StackCalc.Proofs.Faults

namespace StackCalc

/-- What a scan takes off a text: a lexeme, or a literal that is no number. -/
inductive Piece where
  | accepted (l : Lexeme)
  | refused (n : Numeral)

namespace Piece

/-- The token of a lexeme; a refused literal has none. -/
def token? : Piece → Option Token
  | accepted l => some l.token
  | refused _ => none

/-- The fault that a refused literal ends a request with. -/
def fault? : Piece → Option ParseFault
  | accepted _ => none
  | refused n => some (.invalidNumber (String.ofList n.text))

/-- The piece is a number literal, refused or not. -/
def isLiteral : Piece → Bool
  | accepted ⟨_, .num _⟩ => true
  | accepted _ => false
  | refused _ => true

/-- The token that was accepted last: the last one of the pieces, or the one before
    them if they have none. -/
def lastToken (previous : Option Token) (pieces : List Piece) : Option Token :=
  (pieces.filterMap token?).getLast?.or previous

@[simp] theorem lastToken_nil (previous : Option Token) : lastToken previous [] = previous := rfl

@[simp] theorem lastToken_accepted (previous : Option Token) (l : Lexeme) (pieces : List Piece) :
    lastToken previous (.accepted l :: pieces) = lastToken (some l.token) pieces := by
  have htokens : (accepted l :: pieces).filterMap token? = l.token :: pieces.filterMap token? := rfl
  rw [lastToken, lastToken, htokens, List.getLast?_cons]
  cases (pieces.filterMap token?).getLast? <;> rfl

@[simp] theorem lastToken_refused (previous : Option Token) (n : Numeral) (pieces : List Piece) :
    lastToken previous (.refused n :: pieces) = lastToken previous pieces := rfl

theorem lastToken_append (previous : Option Token) (pieces more : List Piece) :
    lastToken previous (pieces ++ more) = lastToken (lastToken previous pieces) more := by
  simp [lastToken, Option.or_assoc]

/-- Each refused literal is one of the literals. -/
theorem length_faults_le (pieces : List Piece) :
    (pieces.filterMap fault?).length ≤ pieces.countP isLiteral := by
  rw [List.length_filterMap_eq_countP]
  refine List.countP_mono_left fun piece _ hfault => ?_
  cases piece with
  | accepted => cases hfault
  | refused => rfl

end Piece

open Piece (lastToken)

/-- A text behind the token `previous` is cut into pieces in front of `rest`; blanks
    may stand between them. -/
inductive Cut (v : Vocabulary) :
    Option Token → List Char → List Piece → List Char → Prop where
  | done {previous : Option Token} {gap rest : List Char} (hgap : Blank gap) :
      Cut v previous (gap ++ rest) [] rest
  | accepted {previous : Option Token} {gap tail rest : List Char} {l : Lexeme}
      {pieces : List Piece} (hgap : Blank gap) (hl : v.Heads previous l tail)
      (hrest : Cut v (some l.token) tail pieces rest) :
      Cut v previous (gap ++ (l.text ++ tail)) (.accepted l :: pieces) rest
  | refused {previous : Option Token} {gap tail rest : List Char} {n : Numeral}
      {pieces : List Piece} (hgap : Blank gap) (hn : n.Refused tail)
      (hrest : Cut v previous tail pieces rest) :
      Cut v previous (gap ++ (n.text ++ tail)) (.refused n :: pieces) rest

namespace Cut

variable {v : Vocabulary} {previous : Option Token} {cs mid rest : List Char}
  {pieces more : List Piece}

theorem refl (previous : Option Token) (cs : List Char) : Cut v previous cs [] cs :=
  .done blank_nil

theorem behind_blanks {gap : List Char} (hgap : Blank gap) (h : Cut v previous cs pieces rest) :
    Cut v previous (gap ++ cs) pieces rest := by
  cases h with
  | done hblank =>
    rw [← List.append_assoc]
    exact .done (hgap.append hblank)
  | accepted hblank hl hrest =>
    rw [← List.append_assoc]
    exact .accepted (hgap.append hblank) hl hrest
  | refused hblank hn hrest =>
    rw [← List.append_assoc]
    exact .refused (hgap.append hblank) hn hrest

/-- What is cut further is cut behind the last token so far. -/
theorem append (h : Cut v previous cs pieces mid)
    (hmore : Cut v (lastToken previous pieces) mid more rest) :
    Cut v previous cs (pieces ++ more) rest := by
  induction h with
  | done hgap => exact hmore.behind_blanks hgap
  | accepted hgap hl _ ih =>
    rw [Piece.lastToken_accepted] at hmore
    exact .accepted hgap hl (ih hmore)
  | refused hgap hn _ ih => exact .refused hgap hn (ih hmore)

/-- Every piece takes a character at least. -/
theorem length_le (h : Cut v previous cs pieces rest) :
    pieces.length + rest.length ≤ cs.length := by
  induction h with
  | done =>
    rw [List.length_append, List.length_nil]
    omega
  | accepted _ hl _ ih =>
    have hpos := List.length_pos_iff.mpr hl.text_ne_nil
    rw [List.length_cons, List.length_append, List.length_append]
    omega
  | refused _ hn _ ih =>
    have hpos := List.length_pos_iff.mpr hn.text_ne_nil
    rw [List.length_cons, List.length_append, List.length_append]
    omega

end Cut

/-! ## One request -/

namespace Scanner

/-- What one request gives, and the scanner behind it: it comes to the end of the text,
    stops behind a refused literal, or stops in front of what cannot be read. -/
inductive Request (s : Scanner) : Except ParseFault (List Lexeme) × Scanner → Prop where
  | finished {ls : List Lexeme} (hcut : Cut s.vocabulary s.previous s.rest (ls.map .accepted) []) :
      Request s (.ok (written s.vocabulary s.implicitProduct s.previous ls),
        { s with previous := lastToken s.previous (ls.map .accepted), rest := [] })
  | refused {ls : List Lexeme} {n : Numeral} {rest : List Char}
      (hcut : Cut s.vocabulary s.previous s.rest (ls.map .accepted) (n.text ++ rest))
      (hn : n.Refused rest) :
      Request s (.error (.invalidNumber (String.ofList n.text)),
        { s with previous := lastToken s.previous (ls.map .accepted), rest })
  | halted {ls : List Lexeme} {f : ParseFault} {rest : List Char}
      (hcut : Cut s.vocabulary s.previous s.rest (ls.map .accepted) rest)
      (hhalts : s.vocabulary.Halts f rest) :
      Request s (.error f, { s with previous := lastToken s.previous (ls.map .accepted), rest })

/-- One lexeme more at the start. -/
theorem Request.cons {s behind : Scanner} {gap rest : List Char} {l : Lexeme}
    {answer : Except ParseFault (List Lexeme)} (hgap : Blank gap)
    (hl : s.vocabulary.Heads s.previous l rest) (hrest : s.rest = gap ++ (l.text ++ rest))
    (h : Request { s with previous := some l.token, rest } (answer, behind)) :
    Request s (answer.map (s.output l ++ ·), behind) := by
  have hcons {ls : List Lexeme} {left : List Char}
      (hcut : Cut s.vocabulary (some l.token) rest (ls.map .accepted) left) :
      Cut s.vocabulary s.previous s.rest ((l :: ls).map .accepted) left := by
    rw [hrest]
    exact .accepted hgap hl hcut
  have hlast (ls : List Lexeme) := Piece.lastToken_accepted s.previous l (ls.map .accepted)
  cases h with
  | @finished ls hcut =>
    rw [← hlast]
    have hall := Request.finished (hcons hcut)
    rwa [written_cons] at hall
  | @refused ls n left hcut hn =>
    rw [← hlast]
    exact .refused (hcons hcut) hn
  | @halted ls f left hcut hhalts =>
    rw [← hlast]
    exact .halted (hcons hcut) hhalts

theorem request_lexemes (s : Scanner) : Request s s.lexemes := by
  induction s using lexemes.induct with
  | case1 s hread =>
    have hcut : Cut s.vocabulary s.previous (s.rest ++ []) (List.map .accepted []) [] :=
      .done (Vocabulary.read_eq_finished_iff.mp hread)
    rw [List.append_nil] at hcut
    have hdone := Request.finished hcut
    rw [lexemes_of_finished hread]
    rwa [written_nil] at hdone
  | case2 s f rest hread =>
    rw [lexemes_of_fault hread]
    obtain ⟨gap, hgap, ⟨m, hm, rfl, hrest⟩ | ⟨hhalts, hrest⟩⟩ := Vocabulary.fault_of_read hread
    · have hcut : Cut s.vocabulary s.previous s.rest (List.map .accepted []) (m.text ++ rest) :=
        hrest ▸ .done hgap
      exact .refused hcut hm
    · have hcut : Cut s.vocabulary s.previous s.rest (List.map .accepted []) rest :=
        hrest ▸ .done hgap
      exact .halted hcut hhalts
  | case3 s l rest hread _ _ _ ih =>
    obtain ⟨hgap, hl, hcs⟩ := Vocabulary.segment_of_read hread
    rw [lexemes_of_lexeme hread]
    -- the rest is asked for behind this lexeme, which is cut off in front of it
    exact ih.cons hgap hl (hcs.trans (List.append_assoc ..))

/-- A request comes to the end of the text, refuses a literal, or halts. -/
theorem tokenize_cases (s : Scanner) :
    (∃ ls : List Lexeme, Cut s.vocabulary s.previous s.rest (ls.map .accepted) []
        ∧ s.tokenize
          = (.ok ((written s.vocabulary s.implicitProduct s.previous ls).map Lexeme.token),
            { s with previous := lastToken s.previous (ls.map .accepted), rest := [] }))
      ∨ (∃ (ls : List Lexeme) (n : Numeral) (rest : List Char),
          Cut s.vocabulary s.previous s.rest (ls.map .accepted) (n.text ++ rest)
            ∧ n.Refused rest
            ∧ s.tokenize = (.error (.invalidNumber (String.ofList n.text)),
                { s with previous := lastToken s.previous (ls.map .accepted), rest }))
      ∨ ∃ (ls : List Lexeme) (f : ParseFault) (rest : List Char),
          Cut s.vocabulary s.previous s.rest (ls.map .accepted) rest
            ∧ s.vocabulary.Halts f rest
            ∧ s.tokenize = (.error f,
                { s with previous := lastToken s.previous (ls.map .accepted), rest }) := by
  have hrequest := s.request_lexemes
  rw [tokenize]
  generalize s.lexemes = result at hrequest ⊢
  cases hrequest with
  | finished hcut => exact Or.inl ⟨_, hcut, rfl⟩
  | refused hcut hn => exact Or.inr (Or.inl ⟨_, _, _, hcut, hn, rfl⟩)
  | halted hcut hhalts => exact Or.inr (Or.inr ⟨_, _, _, hcut, hhalts, rfl⟩)

/-! ## Many requests -/

/-- The scanner behind `k` requests. -/
def after : Nat → Scanner → Scanner
  | 0, s => s
  | k + 1, s => after k s.tokenize.2

/-- A scanner that a request leaves as it is gives the same answer forever. -/
theorem tokenizeTimes_of_fixed {s : Scanner} {answer : Except ParseFault (List Token)}
    (h : s.tokenize = (answer, s)) (n : Nat) : tokenizeTimes n s = List.replicate n answer := by
  induction n with
  | zero => rfl
  | succ n ih => rw [tokenizeTimes, h, List.replicate_succ, ← ih]

theorem tokenize_of_nil {s : Scanner} (h : s.rest = []) : s.tokenize = (.ok [], s) := by
  have hread : s.vocabulary.read s.previous s.rest = .finished := by rw [h]; rfl
  have hsame : { s with rest := [] } = s := by rw [← h]
  rw [tokenize, lexemes_of_finished hread, hsame]
  rfl

theorem tokenize_of_fault {s : Scanner} {f : ParseFault} {rest : List Char}
    (h : s.vocabulary.read s.previous s.rest = .fault f rest) :
    s.tokenize = (.error f, { s with rest }) := by
  rw [tokenize, lexemes_of_fault h]
  rfl

theorem tokenize_of_halts {s : Scanner} {f : ParseFault} (h : s.vocabulary.Halts f s.rest) :
    s.tokenize = (.error f, s) :=
  tokenize_of_fault (h.read_eq s.previous)

/-- The first `n` of the answers that start with `firsts` and go on with `forever`. -/
def settling {α : Type} (firsts : List α) (forever : α) (n : Nat) : List α :=
  (firsts ++ List.replicate n forever).take n

theorem settling_cons {α : Type} (a : α) (firsts : List α) (forever : α) (n : Nat) :
    settling (a :: firsts) forever (n + 1) = a :: settling firsts forever n := by
  have hmin : min (n - firsts.length) (n + 1) = min (n - firsts.length) n := by omega
  simp only [settling, List.cons_append, List.take_succ_cons, List.take_append,
    List.take_replicate, hmin]

theorem settling_nil {α : Type} (forever : α) (n : Nat) :
    settling [] forever n = List.replicate n forever := by
  rw [settling, List.nil_append, List.take_replicate, Nat.min_self]

theorem settling_singleton {α : Type} (forever : α) (n : Nat) :
    settling [forever] forever n = List.replicate n forever := by
  cases n with
  | zero => rfl
  | succ n => rw [settling_cons, settling_nil, List.replicate_succ]

theorem tokenizeTimes_settling {s s' : Scanner} {answer forever : Except ParseFault (List Token)}
    {firsts : List (Except ParseFault (List Token))} (hfirst : s.tokenize = (answer, s'))
    (hlater : ∀ n, tokenizeTimes n s' = settling firsts forever n) (n : Nat) :
    tokenizeTimes n s = settling (answer :: firsts) forever n := by
  cases n with
  | zero => rfl
  | succ n => rw [settling_cons, ← hlater, tokenizeTimes, hfirst]

/-- The answers of the requests that the refused literals end. -/
def refusals (pieces : List Piece) : List (Except ParseFault (List Token)) :=
  (pieces.filterMap Piece.fault?).map .error

theorem refusals_accepted (ls : List Lexeme) : refusals (ls.map .accepted) = [] := by
  rw [refusals, List.map_eq_nil_iff, List.filterMap_eq_nil_iff]
  intro piece hpiece
  obtain ⟨l, -, rfl⟩ := List.mem_map.mp hpiece
  rfl

theorem refusals_refused (ls : List Lexeme) (n : Numeral) (pieces : List Piece) :
    refusals (ls.map .accepted ++ .refused n :: pieces)
      = .error (.invalidNumber (String.ofList n.text)) :: refusals pieces := by
  have haccepted : (ls.map Piece.accepted).filterMap Piece.fault? = [] :=
    List.map_eq_nil_iff.mp (refusals_accepted ls)
  rw [refusals, List.filterMap_append, haccepted]
  rfl

/-- Behind a request that comes to the end of the text there is nothing to give. -/
theorem tokenizeTimes_of_ok {s : Scanner} {ts : List Token} (h : s.tokenize.1 = .ok ts) (n : Nat) :
    tokenizeTimes n s.tokenize.2 = List.replicate n (.ok []) := by
  rcases s.tokenize_cases with ⟨ls, -, heq⟩ | ⟨ls, m, rest, -, -, heq⟩ | ⟨ls, f, rest, -, -, heq⟩
  · rw [heq]
    exact tokenizeTimes_of_fixed (tokenize_of_nil rfl) n
  · rw [heq] at h
    cases h
  · rw [heq] at h
    cases h

/-- A request that does not refuse a literal, and fails, fails again. -/
theorem tokenizeTimes_of_error {s : Scanner} {f : ParseFault} (h : s.tokenize.1 = .error f)
    (hf : ∀ literal, f ≠ .invalidNumber literal) (n : Nat) :
    tokenizeTimes n s.tokenize.2 = List.replicate n (.error f) := by
  rcases s.tokenize_cases with ⟨ls, -, heq⟩ | ⟨ls, m, rest, -, -, heq⟩
    | ⟨ls, g, rest, -, hhalts, heq⟩
  · rw [heq] at h
    cases h
  · rw [heq] at h
    cases h
    exact absurd rfl (hf _)
  · rw [heq] at h ⊢
    cases h
    exact tokenizeTimes_of_fixed (tokenize_of_halts hhalts) n

/-- The next request goes on behind the literal that this one refuses, and behind the
    token that it accepted last. -/
theorem tokenize_of_invalidNumber {s : Scanner} {literal : String}
    (h : s.tokenize.1 = .error (.invalidNumber literal)) :
    ∃ (ls : List Lexeme) (m : Numeral) (rest : List Char),
      Cut s.vocabulary s.previous s.rest (ls.map .accepted) (m.text ++ rest)
        ∧ m.Refused rest ∧ literal = String.ofList m.text
        ∧ s.tokenize.2 = { s with previous := lastToken s.previous (ls.map .accepted), rest } := by
  rcases s.tokenize_cases with ⟨ls, -, heq⟩ | ⟨ls, m, rest, hcut, hm, heq⟩
    | ⟨ls, f, rest, -, hhalts, heq⟩
  · rw [heq] at h
    cases h
  · rw [heq] at h ⊢
    cases h
    exact ⟨ls, m, rest, hcut, hm, rfl, rfl⟩
  · rw [heq] at h
    cases h
    exact absurd rfl (hhalts.not_refused literal)

/-- The literals that are refused end the first requests, and then the answers are
    settled. -/
theorem exists_settling (s : Scanner) :
    ∃ pieces rest, Cut s.vocabulary s.previous s.rest pieces rest
      ∧ ((rest = [] ∧ ∃ ts, ∀ n,
            tokenizeTimes n s = settling (refusals pieces ++ [.ok ts]) (.ok []) n)
        ∨ ∃ f, s.vocabulary.Halts f rest
            ∧ ∀ n, tokenizeTimes n s = settling (refusals pieces) (.error f) n) := by
  -- a refused literal leaves a shorter text behind it
  induction hlen : s.rest.length using Nat.strong_induction_on generalizing s with
  | _ n ih =>
    rcases s.tokenize_cases with ⟨ls, hcut, heq⟩ | ⟨ls, m, rest, hcut, hm, heq⟩
      | ⟨ls, f, rest, hcut, hhalts, heq⟩
    · generalize (written s.vocabulary s.implicitProduct s.previous ls).map Lexeme.token = ts at heq
      refine ⟨_, [], hcut, Or.inl ⟨rfl, ts, ?_⟩⟩
      rw [refusals_accepted, List.nil_append]
      refine tokenizeTimes_settling heq fun n => ?_
      rw [settling_nil]
      exact tokenizeTimes_of_fixed (tokenize_of_nil rfl) n
    · have hshort : rest.length < s.rest.length := by
        have hle := hcut.length_le
        have hpos := List.length_pos_iff.mpr hm.text_ne_nil
        rw [List.length_append] at hle
        omega
      obtain ⟨pieces, last, hmore, hends⟩ := ih rest.length (hlen ▸ hshort)
        { s with previous := lastToken s.previous (ls.map .accepted), rest } rfl
      -- the lexemes of this request, its literal, and then the pieces of the later ones
      refine ⟨_, last, hcut.append (.refused blank_nil hm hmore), ?_⟩
      rw [refusals_refused]
      rcases hends with ⟨hlast, ts, hlater⟩ | ⟨f, hhalts, hlater⟩
      · exact Or.inl ⟨hlast, ts, tokenizeTimes_settling heq hlater⟩
      · exact Or.inr ⟨f, hhalts, tokenizeTimes_settling heq hlater⟩
    · refine ⟨_, rest, hcut, Or.inr ⟨f, hhalts, fun n => ?_⟩⟩
      -- this answer is the first of those that stay
      rw [refusals_accepted, settling_nil, ← settling_singleton]
      refine tokenizeTimes_settling heq (fun n => ?_) n
      rw [settling_nil]
      exact tokenizeTimes_of_fixed (tokenize_of_halts hhalts) n

/-- A scanner that is asked again and again, whatever was read before.  Behind an
    answer with tokens all answers are empty lists.  Behind an unexpected character or
    an unknown operator all answers are this fault.  Behind an invalid number the
    scanner goes on right behind the literal, and behind the token that was accepted
    last.  So the answers are one fault for each literal that is refused, in the order
    of the text, and then a fault that stays, or one list of tokens and then empty
    ones. -/
theorem requests_settle (s : Scanner) :
    (∀ ts, s.tokenize.1 = .ok ts →
        ∀ n, tokenizeTimes n s.tokenize.2 = List.replicate n (.ok []))
      ∧ (∀ f, s.tokenize.1 = .error f →
          ((∃ c, f = .unexpectedCharacter c) ∨ ∃ run, f = .unknownOperator run) →
          ∀ n, tokenizeTimes n s.tokenize.2 = List.replicate n (.error f))
      ∧ (∀ literal, s.tokenize.1 = .error (.invalidNumber literal) →
          ∃ (ls : List Lexeme) (m : Numeral) (rest : List Char),
            Cut s.vocabulary s.previous s.rest (ls.map .accepted) (m.text ++ rest)
              ∧ m.Refused rest ∧ literal = String.ofList m.text
              ∧ s.tokenize.2
                = { s with previous := lastToken s.previous (ls.map .accepted), rest })
      ∧ ∃ pieces rest, Cut s.vocabulary s.previous s.rest pieces rest
        ∧ (refusals pieces).length ≤ pieces.countP Piece.isLiteral
        ∧ ((rest = [] ∧ ∃ ts, ∀ n,
              tokenizeTimes n s = settling (refusals pieces ++ [.ok ts]) (.ok []) n)
          ∨ ∃ f, s.vocabulary.Halts f rest
              ∧ ∀ n, tokenizeTimes n s = settling (refusals pieces) (.error f) n) := by
  refine ⟨fun ts => tokenizeTimes_of_ok, fun f hf hkind => ?_,
    fun literal => tokenize_of_invalidNumber, ?_⟩
  · apply tokenizeTimes_of_error hf
    intro literal
    rcases hkind with ⟨c, rfl⟩ | ⟨run, rfl⟩ <;> exact ParseFault.noConfusion
  · obtain ⟨pieces, rest, hcut, hends⟩ := s.exists_settling
    refine ⟨pieces, rest, hcut, ?_, hends⟩
    rw [refusals, List.length_map]
    exact Piece.length_faults_le pieces

/-- Two literals that are refused, with a variable between them, and a character that
    opens no lexeme. -/
def faulty : Scanner := ofText {} true "1.2.3 x 4..5 ?"

theorem requests_settle_faulty :
    faulty.tokenize = (.error (.invalidNumber "1.2.3"), { faulty with rest := " x 4..5 ?".toList })
      ∧ faulty.tokenize.2.tokenize = (.error (.invalidNumber "4..5"),
          { faulty with previous := some (.var "x"), rest := " ?".toList })
      ∧ ∀ n, tokenizeTimes n (after 3 faulty)
          = List.replicate n (.error (.unexpectedCharacter '?')) := by
  have hfirst : Vocabulary.read {} none "1.2.3 x 4..5 ?".toList
      = .fault (.invalidNumber "1.2.3") " x 4..5 ?".toList := rfl
  have hvariable : Vocabulary.read {} none " x 4..5 ?".toList
      = .lexeme ⟨['x'], .var "x"⟩ " 4..5 ?".toList := rfl
  have hsecond : Vocabulary.read {} (some (.var "x")) " 4..5 ?".toList
      = .fault (.invalidNumber "4..5") " ?".toList := rfl
  have hthird : Vocabulary.read {} (some (.var "x")) " ?".toList
      = .fault (.unexpectedCharacter '?') "?".toList := rfl
  have hone : faulty.tokenize = (.error (.invalidNumber "1.2.3"),
      { faulty with rest := " x 4..5 ?".toList }) := tokenize_of_fault hfirst
  have htwo : faulty.tokenize.2.tokenize = (.error (.invalidNumber "4..5"),
      { faulty with previous := some (.var "x"), rest := " ?".toList }) := by
    rw [hone]
    show tokenize { faulty with rest := " x 4..5 ?".toList } = _
    rw [tokenize, lexemes_of_lexeme hvariable, lexemes_of_fault hsecond]
    rfl
  have hthree : faulty.tokenize.2.tokenize.2.tokenize.1 = .error (.unexpectedCharacter '?') := by
    rw [htwo, tokenize_of_fault hthird]
  obtain ⟨-, hstays, -⟩ := requests_settle faulty.tokenize.2.tokenize.2
  exact ⟨hone, htwo, hstays _ hthree (Or.inl ⟨'?', rfl⟩)⟩

end Scanner

end StackCalc
