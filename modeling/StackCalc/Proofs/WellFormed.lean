/-
  StackCalc.Proofs.WellFormed

  Which rows of tokens are converted.

  `Token.WellFormed` says place by place what a row has to satisfy: its
  parentheses match, functions and separators stand where they may, and every
  call has as many arguments as its function takes.  The reader checks this
  piecemeal, with the token before and what it counts at each parenthesis.  What
  it has counted is what the row says (`Opened`), so it stops nowhere in a
  well-formed row, and wherever it goes on the row is well formed.
-/
import StackCalc.Proofs.Matching

namespace StackCalc

namespace Token

/-- A row of tokens whose parentheses, functions and separators are in order,
    whatever operators and operands stand between them. -/
structure WellFormed (ts : List Token) : Prop where
  matched : Matched ts
  /-- Every function is directly followed by an opening parenthesis. -/
  lparen_of_fn : ∀ before f after, ts = before ++ .fn f :: after → after.head? = some .lparen
  /-- The innermost parenthesis around a separator is directly behind a function. -/
  fn_of_comma : ∀ before after, ts = before ++ .comma :: after →
    ∃ front f inner, before = front ++ .fn f :: .lparen :: inner ∧ Matched inner
  /-- No separator is directly behind an opening parenthesis or a separator. -/
  last_of_comma : ∀ before after, ts = before ++ .comma :: after →
    before.getLast? ≠ some .lparen ∧ before.getLast? ≠ some .comma
  /-- No closing parenthesis is directly behind a separator. -/
  last_of_rparen : ∀ before after, ts = before ++ .rparen :: after →
    before.getLast? ≠ some .comma
  /-- Parentheses with nothing between them are directly behind a function. -/
  fn_of_empty : ∀ before after, ts = before ++ .lparen :: .rparen :: after →
    ∃ front f, before = front ++ [.fn f]
  /-- A function takes as many arguments as its list has: none if the list is
      empty, and otherwise one more than the list has separators of its own. -/
  arity : ∀ before f inner after,
    ts = before ++ .fn f :: .lparen :: (inner ++ .rparen :: after) → Matched inner →
      f.arity = if inner.isEmpty then 0 else 1 + commas inner

end Token

open Token (Matched WellFormed)

namespace Converter

open Pending (Blocks)

theorem isFn_of_closable {previous : Option Token} (h : Closable previous) :
    isFn previous = false := by
  cases previous with
  | none => rfl
  | some last => exact isFn_of_isClosable (h last rfl)

/-! ## What waits, below the operators on top -/

theorem Opened.exists_below {pending : List Pending} {ts : List Token} (h : Opened pending ts) :
    ∃ (os : List Operator) (below : List Pending), pending = os.map .operator ++ below
      ∧ Opened below ts ∧ ∀ q, Blocks q below := by
  induction h with
  | row hts => exact ⟨[], [], rfl, .row hts, Pending.blocks_nil⟩
  | operator o _ ih =>
    obtain ⟨os, below, rfl, hbelow, hblocks⟩ := ih
    exact ⟨o :: os, below, rfl, hbelow, hblocks⟩
  | @group pending before inner h hinner _ =>
    exact ⟨[], _, rfl, .group h hinner, fun q => Pending.blocks_paren q false 0 pending⟩
  | @call pending before inner f args h hne hargs hinner _ =>
    exact ⟨[], _, rfl, .call h hne hargs hinner,
      fun q => Pending.blocks_paren q true args.length (.function f :: pending)⟩

/-- Where all parentheses are matched only operators wait. -/
theorem Opened.exists_operators {pending : List Pending} {ts : List Token}
    (h : Opened pending ts) (hts : Matched ts) :
    ∃ os : List Operator, pending = os.map .operator := by
  obtain ⟨os, below, rfl, hbelow, hblocks⟩ := h.exists_below
  cases hbelow with
  | row => exact ⟨os, List.append_nil _⟩
  | operator o => cases hblocks (fun _ => true) o _ rfl
  | @group pending before inner _ hinner =>
    rw [List.append_assoc] at hts
    exact absurd hts (Token.not_matched_lparen hinner.matched)
  | @call pending before inner f args _ _ hargs hinner =>
    have hlist := Token.matched_arguments hargs hinner
    rw [Token.openCall, List.append_cons] at hts
    exact absurd hts (Token.not_matched_lparen hlist)

/-- At the end of a row only operators wait, if all its parentheses are matched. -/
theorem Reading.exists_operators {pending : List Pending} {previous : Option Token}
    {ts : List Token} (h : Reading pending previous ts) (hfn : isFn previous = false)
    (hts : Matched ts) : ∃ os : List Operator, pending = os.map .operator := by
  cases h with
  | between _ _ hopened => exact hopened.exists_operators hts
  | calling => cases hfn

/-- Between two tokens of a row no function is at its end. -/
theorem Opened.isFn_getLast? {pending : List Pending} {ts : List Token}
    (h : Opened pending ts) : isFn ts.getLast? = false := by
  have hend {start inner : List Token} {t : Token} (ht : isFn (some t) = false)
      (hinner : Nested inner) : isFn (start ++ [t] ++ inner).getLast? = false := by
    cases inner with
    | nil => rwa [List.append_nil, List.getLast?_concat]
    | cons u inner =>
      rw [List.getLast?_append_cons]
      exact isFn_of_closable (closable_of_nested hinner)
  induction h with
  | row hts => exact isFn_of_closable (closable_of_nested hts)
  | operator o _ ih => exact ih
  | group _ hinner _ => exact hend rfl hinner
  | @call pending before inner f args _ _ _ hinner _ =>
    obtain ⟨start, last, hsplit, hlast⟩ := Token.openCall_split f args inner
    rw [hsplit, ← List.append_assoc, ← List.append_assoc]
    apply hend _ hinner
    rcases hlast with ⟨rfl, -⟩ | rfl <;> rfl

theorem Reading.previous_eq {pending : List Pending} {previous : Option Token} {ts : List Token}
    (h : Reading pending previous ts) : previous = ts.getLast? := by
  cases h with
  | between _ hprevious => exact hprevious
  | calling => rw [List.getLast?_concat]

/-! ## What is accepted is well formed -/

theorem Effect.eq_lparen_of_fn {pending pending' : List Pending} {t : Token} {f : Func}
    {out : Program} (h : Effect pending (some (.fn f)) t out pending') : t = .lparen := by
  cases h with
  | num _ hfn | var _ hfn | fn _ hfn | op _ _ _ _ hfn | openGroup hfn => cases hfn
  | comma _ _ _ _ hclosable => cases hclosable
  | closeGroup _ _ _ _ hclosable | closeCall _ _ _ _ _ hclosable => cases hclosable _ rfl
  | openCall => rfl

/-- A separator is accepted in an argument list, and behind an argument. -/
theorem Effect.comma_inside {pending pending' : List Pending} {previous : Option Token}
    {before : List Token} {out : Program} (h : Effect pending previous .comma out pending')
    (hread : Reading pending previous before) :
    (∃ front f inner, before = front ++ .fn f :: .lparen :: inner ∧ Matched inner)
      ∧ before.getLast? ≠ some .lparen ∧ before.getLast? ≠ some .comma := by
  have hprev := hread.previous_eq
  cases h with
  | comma os n below hpending hlast =>
    refine ⟨?_, ?_⟩
    · cases hread with
      | calling => cases hlast
      | between _ _ hopened =>
        rw [hpending] at hopened
        cases hopened.of_operators with
        | @call _ front inner f args _ _ hargs hinner =>
          exact ⟨front, f, _, rfl, Token.matched_arguments hargs hinner⟩
    · rw [← hprev]
      constructor
      · rintro ⟨⟩
        cases hlast
      · rintro ⟨⟩
        cases hlast

theorem Effect.rparen_behind {pending pending' : List Pending} {previous : Option Token}
    {out : Program} (h : Effect pending previous .rparen out pending') :
    previous ≠ some .comma := by
  rintro rfl
  cases h with
  | closeGroup _ _ _ _ hclosable | closeCall _ _ _ _ _ hclosable => cases hclosable _ rfl

/-- A closing parenthesis is accepted directly behind its partner only in the
    list of a function. -/
theorem Effect.rparen_empty {pending pending' : List Pending} {before : List Token}
    {out : Program} (h : Effect pending (some .lparen) .rparen out pending')
    (hread : Reading pending (some .lparen) (before ++ [.lparen])) :
    ∃ front f, before = front ++ [.fn f] := by
  cases h with
  | closeGroup _ _ _ _ hclosable | closeCall _ _ _ _ _ hclosable => cases hclosable _ rfl
  | closeNullary os n f below hpending =>
    cases hread with
    | between _ hprev hopened =>
      rw [hpending] at hopened
      generalize hrow : before ++ [.lparen] = row at hopened hprev
      cases hopened.of_operators with
      | @call _ front inner _ args _ _ _ hinner =>
        obtain ⟨rfl, rfl⟩ := args_eq_nil hinner hprev.symm
        have hsplit : before ++ [.lparen] = (front ++ [.fn f]) ++ [.lparen] := by
          rw [hrow, List.append_assoc]
          rfl
        exact ⟨front, f, List.append_cancel_right hsplit⟩

/-- The parenthesis that waits directly behind a function knows how many
    separators of its own its list has so far. -/
theorem Opened.list_of_fn {call : Bool} {n : Nat} {below : List Pending} {front inner : List Token}
    {f : Func} (h : Opened (.paren call n :: below) (front ++ .fn f :: .lparen :: inner))
    (hinner : Matched inner) :
    call = true ∧ n = Token.commas inner ∧ ∃ rest, below = .function f :: rest := by
  rw [List.append_cons] at h
  generalize hrow : front ++ [.fn f] ++ .lparen :: inner = row at h
  cases h with
  | @group _ before inner' hbefore hinner' =>
    -- a plain parenthesis is not opened behind a function
    rw [List.append_assoc before] at hrow
    obtain ⟨rfl, -⟩ := hinner.lparen_unique hinner'.matched hrow
    have hlast := hbefore.isFn_getLast?
    rw [List.getLast?_concat] at hlast
    cases hlast
  | @call rest before inner' g args _ _ hargs hinner' =>
    rw [Token.openCall, List.append_cons before] at hrow
    obtain ⟨hfront, rfl⟩ := hinner.lparen_unique (Token.matched_arguments hargs hinner') hrow
    have hlast := congrArg List.getLast? hfront
    rw [List.getLast?_concat, List.getLast?_concat] at hlast
    cases hlast
    exact ⟨rfl, (Token.commas_arguments hargs hinner').symm, rest, rfl⟩

/-- A call is closed with as many arguments as its list has. -/
theorem Effect.rparen_arity {pending pending' : List Pending} {previous : Option Token}
    {front inner : List Token} {f : Func} {out : Program}
    (h : Effect pending previous .rparen out pending')
    (hread : Reading pending previous (front ++ .fn f :: .lparen :: inner))
    (hinner : Matched inner) :
    f.arity = if inner.isEmpty then 0 else 1 + Token.commas inner := by
  -- the list ends with the last token that was read
  have hlast : previous = (Token.lparen :: inner).getLast? := by
    rw [hread.previous_eq, List.append_cons, List.getLast?_append_cons]
  have hopened (os : List Operator) (below : List Pending) (call : Bool) (n : Nat)
      (hpending : pending = os.map .operator ++ .paren call n :: below)
      (hfn : isFn previous = false) :
      call = true ∧ n = Token.commas inner ∧ ∃ rest, below = .function f :: rest := by
    generalize hrow : front ++ .fn f :: .lparen :: inner = row at hread
    cases hread with
    | calling => cases hfn
    | between _ _ hopened =>
      rw [hpending, ← hrow] at hopened
      exact hopened.of_operators.list_of_fn hinner
  cases h with
  | closeGroup os n below hpending hclosable =>
    obtain ⟨hcall, -⟩ := hopened os _ false n hpending (isFn_of_closable hclosable)
    cases hcall
  | closeCall os n g below hpending hclosable hg =>
    obtain ⟨-, rfl, rest, hbelow⟩ := hopened os _ true n hpending (isFn_of_closable hclosable)
    cases hbelow
    have hne : inner.isEmpty = false := by
      cases inner with
      | nil => cases hclosable _ hlast
      | cons => rfl
    rw [hne, hg, Nat.add_comm]
    rfl
  | closeNullary os n g below hpending hg =>
    obtain ⟨-, -, rest, hbelow⟩ := hopened os _ true n hpending rfl
    cases hbelow
    -- a matched row does not end with an opening parenthesis
    have hnil : inner = [] := by
      rcases List.eq_nil_or_concat inner with rfl | ⟨start, last, rfl⟩
      · rfl
      · rw [List.concat_eq_append, ← List.cons_append, List.getLast?_concat] at hlast
        cases hlast
        rw [List.concat_eq_append] at hinner
        exact absurd hinner (Token.not_matched_lparen Token.matched_nil)
    rw [hnil, hg]
    rfl

end Converter

namespace Program

open Converter

/-- The stages of a successful conversion; at its end only operators wait. -/
theorem exists_end {ts : List Token} {p : Program} (h : ofTokens ts = .ok p) :
    ∃ (out : Program) (s : Converter) (os : List Operator), ({} : Converter).feed ts = .ok (out, s)
      ∧ s.pending = os.map .operator ∧ p = out ++ Pending.instrs s.pending := by
  obtain ⟨out, s, rest, hfeed, hfinish, rfl, -⟩ := exists_of_ofTokens h
  have hfn := (finish_eq_ok hfinish).1
  have hmatched := (nested_of_ofTokens h).1.matched
  obtain ⟨os, hos⟩ := (reading_of_start hfeed).exists_operators hfn hmatched
  exact ⟨out, s, os, hfeed, hos, by rw [rest_of_finish hfinish]⟩

/-- At each place of a row that is converted, the token there is accepted by a
    reader that has read what stands before it. -/
theorem exists_effect {ts before after : List Token} {t : Token} {p : Program}
    (h : ofTokens ts = .ok p) (hts : ts = before ++ t :: after) :
    ∃ pending out pending',
      Reading pending before.getLast? before ∧ Effect pending before.getLast? t out pending' := by
  obtain ⟨out, s, rest, hfeed, -⟩ := exists_of_ofTokens h
  rw [hts] at hfeed
  obtain ⟨a, s₁, b, hbefore, hrest, -⟩ := exists_of_feed_append hfeed
  obtain ⟨c, s₂, d, hstep, -⟩ := exists_of_feed_cons hrest
  have hread := reading_of_start hbefore
  have heffect := (effect_of_step hstep).1
  have hprevious := hread.previous_eq
  rw [hprevious] at hread heffect
  exact ⟨s₁.pending, c, s₂.pending, hread, heffect⟩

theorem wellFormed_of_ofTokens {ts : List Token} {p : Program} (h : ofTokens ts = .ok p) :
    WellFormed ts := by
  obtain ⟨hnested, -⟩ := nested_of_ofTokens h
  refine ⟨hnested.matched, ?_, ?_, ?_, ?_, ?_, ?_⟩
  · intro before f after hts
    cases after with
    | nil =>
      -- what nests does not end with a function
      have hlast := closable_of_nested hnested (.fn f) (by rw [hts, List.getLast?_concat])
      cases hlast
    | cons t after =>
      rw [List.append_cons] at hts
      obtain ⟨pending, out, pending', -, heffect⟩ := exists_effect h hts
      rw [List.getLast?_concat] at heffect
      rw [heffect.eq_lparen_of_fn]
      rfl
  · intro before after hts
    obtain ⟨pending, out, pending', hread, heffect⟩ := exists_effect h hts
    exact (heffect.comma_inside hread).1
  · intro before after hts
    obtain ⟨pending, out, pending', hread, heffect⟩ := exists_effect h hts
    exact (heffect.comma_inside hread).2
  · intro before after hts
    obtain ⟨pending, out, pending', -, heffect⟩ := exists_effect h hts
    exact heffect.rparen_behind
  · intro before after hts
    rw [List.append_cons] at hts
    obtain ⟨pending, out, pending', hread, heffect⟩ := exists_effect h hts
    rw [List.getLast?_concat] at hread heffect
    exact heffect.rparen_empty hread
  · intro before f inner after hts hinner
    have hsplit : ts = (before ++ .fn f :: .lparen :: inner) ++ .rparen :: after := by
      rw [hts, List.append_assoc]
      rfl
    obtain ⟨pending, out, pending', hread, heffect⟩ := exists_effect h hsplit
    exact heffect.rparen_arity hread hinner

end Program

/-! ## What is well formed is accepted -/

/-- There is something to compute in a row that nests. -/
theorem Nested.instrs_ne_nil {ts : List Token} (h : Nested ts) (hne : ts ≠ []) :
    Token.instrs ts ≠ [] := by
  induction h with
  | nil => exact absurd rfl hne
  | num | var | op | call => simp [Token.instrs, Token.instr?]
  | @group inner rest hinside _ _ ih =>
    show Token.instrs (inner ++ .rparen :: rest) ≠ []
    rw [Token.instrs, List.filterMap_append]
    intro hnil
    exact ih hinside (List.append_eq_nil_iff.mp hnil).1

namespace Converter

/-- In the list of a function its parenthesis waits, with the function below it,
    under nothing but operators. -/
theorem Opened.exists_list {pending : List Pending} {front inner : List Token} {f : Func}
    (h : Opened pending (front ++ .fn f :: .lparen :: inner)) (hinner : Matched inner) :
    ∃ (os : List Operator) (n : Nat) (rest : List Pending),
      pending = os.map .operator ++ .paren true n :: rest := by
  obtain ⟨os, below, rfl, hbelow, hblocks⟩ := h.exists_below
  cases below with
  | nil =>
    -- the parenthesis is open, so something waits
    have hnested := hbelow.nested fun _ _ => List.not_mem_nil
    rw [List.append_cons] at hnested
    exact absurd hnested.matched (Token.not_matched_lparen hinner)
  | cons top below =>
    cases top with
    | operator o => cases hblocks (fun _ => true) o _ rfl
    | function g => cases hbelow
    | paren call n =>
      obtain ⟨rfl, -⟩ := hbelow.list_of_fn hinner
      exact ⟨os, n, below, rfl⟩

theorem exists_step_comma {s : Converter} {before after : List Token}
    (hopened : Opened s.pending before) (hfn : isFn s.previous = false)
    (hprev : s.previous = before.getLast?) (h : WellFormed (before ++ .comma :: after)) :
    ∃ out s', s.step .comma = .ok (out, s') := by
  obtain ⟨pending, previous⟩ := s
  obtain ⟨front, f, inner, hbefore, hinner⟩ := h.fn_of_comma before after rfl
  obtain ⟨hlparen, hcomma⟩ := h.last_of_comma before after rfl
  rw [← hprev] at hlparen hcomma
  have hclosable := closable_of_ne hfn hlparen hcomma
  cases previous with
  | none =>
    have hnil := List.getLast?_eq_none_iff.mp hprev.symm
    simp [hbefore] at hnil
  | some last =>
    rw [hbefore] at hopened
    obtain ⟨os, n, rest, hpending⟩ := hopened.exists_list hinner
    have hpending : pending = os.map .operator ++ .paren true n :: rest := hpending
    rw [hpending]
    exact ⟨_, _, step_comma os n rest (hclosable last rfl)⟩

theorem exists_step_rparen {s : Converter} {before after : List Token}
    (hopened : Opened s.pending before) (hfn : isFn s.previous = false)
    (hprev : s.previous = before.getLast?) (h : WellFormed (before ++ .rparen :: after)) :
    ∃ out s', s.step .rparen = .ok (out, s') := by
  obtain ⟨pending, previous⟩ := s
  have hcomma := h.last_of_rparen before after rfl
  rw [← hprev] at hcomma
  obtain ⟨os, below, hpending, hbelow, hblocks⟩ := hopened.exists_below
  have hpending : pending = os.map .operator ++ below := hpending
  rw [hpending]
  cases hbelow with
  | row hnested =>
    -- some parenthesis is open
    have hnonneg := h.matched.depth_nonneg (before ++ [.rparen]) after (by simp)
    rw [Token.depth_append, hnested.matched.depth_eq] at hnonneg
    exact absurd hnonneg (by decide)
  | operator o => cases hblocks (fun _ => true) o _ rfl
  | @group rest front inner hfront hinner =>
    have hlparen : previous ≠ some .lparen := by
      intro hlast
      have hlast : (front ++ [Token.lparen] ++ inner).getLast? = some .lparen :=
        hprev.symm.trans hlast
      obtain rfl := eq_nil_of_getLast? hinner rfl hlast
      obtain ⟨start, f, rfl⟩ := h.fn_of_empty front after (by simp)
      have hnot := hfront.isFn_getLast?
      rw [List.getLast?_concat] at hnot
      cases hnot
    have hclosable := closable_of_ne hfn hlparen hcomma
    cases previous with
    | none =>
      have hnil := List.getLast?_eq_none_iff.mp hprev.symm
      simp at hnil
    | some last => exact ⟨_, _, step_rparen_group os 0 rest (hclosable last rfl)⟩
  | @call rest front inner f args hfront hne hargs hinner =>
    have harity := h.arity front f (args.flatMap (· ++ [.comma]) ++ inner) after
      (by simp [Token.openCall]) (Token.matched_arguments hargs hinner)
    rw [Token.commas_arguments hargs hinner] at harity
    by_cases hlparen : previous = some .lparen
    · -- the list is empty
      have hlast : (front ++ Token.openCall f args inner).getLast? = some .lparen :=
        hprev.symm.trans hlparen
      obtain ⟨rfl, rfl⟩ := args_eq_nil hinner hlast
      rw [hlparen]
      exact ⟨_, _, step_rparen_nullary os rest harity⟩
    · have hclosable := closable_of_ne hfn hlparen hcomma
      have hinside : inner ≠ [] := inner_ne_nil (hprev ▸ hclosable)
      have hcount : f.arity = args.length + 1 := by
        rw [harity]
        simp [hinside, Nat.add_comm]
      cases previous with
      | none =>
        have hnil := List.getLast?_eq_none_iff.mp hprev.symm
        simp [Token.openCall] at hnil
      | some last => exact ⟨_, _, step_rparen_call os rest (hclosable last rfl) hcount⟩

/-- Behind any beginning of a well-formed row, the next token is accepted. -/
theorem exists_step {s : Converter} {before after : List Token} {t : Token}
    (hread : Reading s.pending s.previous before) (h : WellFormed (before ++ t :: after)) :
    ∃ out s', s.step t = .ok (out, s') := by
  obtain ⟨pending, previous⟩ := s
  generalize hrow : before = row at hread
  cases hread with
  | @calling _ front f _ =>
    -- only an opening parenthesis can follow
    rw [hrow, List.append_assoc] at h
    have hnext := h.lparen_of_fn front f (t :: after) rfl
    cases hnext
    exact ⟨_, _, step_lparen_of_fn⟩
  | between hfn hprev hopened =>
    rw [← hrow] at hopened hprev
    cases t with
    | num | var | fn | op | lparen => exact ⟨_, _, step_of_place hfn rfl⟩
    | comma => exact exists_step_comma hopened hfn hprev h
    | rparen => exact exists_step_rparen hopened hfn hprev h

theorem exists_feed {s : Converter} {before after : List Token}
    (hread : Reading s.pending s.previous before) (h : WellFormed (before ++ after)) :
    ∃ out s', s.feed after = .ok (out, s') := by
  induction after generalizing s before with
  | nil => exact ⟨[], s, rfl⟩
  | cons t after ih =>
    obtain ⟨first, s₁, hstep⟩ := exists_step hread h
    have hnext : Reading s₁.pending s₁.previous (before ++ [t]) :=
      reading_of_feed (feed_singleton hstep) hread
    rw [List.append_cons] at h
    obtain ⟨more, s', hfeed⟩ := ih hnext h
    exact ⟨first ++ more, s', feed_cons hstep hfeed⟩

/-- At the end of a well-formed row the reader is at the end of what it waits for. -/
theorem exists_finish {s : Converter} {ts : List Token}
    (hread : Reading s.pending s.previous ts) (h : WellFormed ts) :
    Nested ts ∧ s.finish = .ok (Pending.instrs s.pending) := by
  obtain ⟨pending, previous⟩ := s
  cases hread with
  | @calling _ front f _ => cases h.lparen_of_fn front f [] rfl
  | between hfn hprev hopened =>
    obtain ⟨os, rfl⟩ := hopened.exists_operators h.matched
    have hinstrs := Pending.instrs_operators os []
    rw [List.append_nil] at hinstrs
    refine ⟨hopened.nested (by simp), ?_⟩
    rw [finish, checkCall_of_not_isFn hfn, hinstrs, Pending.instrs, List.append_nil]
    exact Pending.drain_operators os

end Converter

namespace Program

/-- A row of tokens is converted if and only if there is something in it and it
    is well formed. -/
theorem converts_iff_wellFormed {ts : List Token} :
    (∃ p, ofTokens ts = .ok p) ↔ ts ≠ [] ∧ WellFormed ts := by
  constructor
  · rintro ⟨p, h⟩
    exact ⟨(nested_of_ofTokens h).2, wellFormed_of_ofTokens h⟩
  · rintro ⟨hne, h⟩
    obtain ⟨out, s, hfeed⟩ := Converter.exists_feed (s := {}) (.between rfl rfl (.row .nil)) h
    have hread := Converter.reading_of_start hfeed
    obtain ⟨hnested, hfinish⟩ := Converter.exists_finish hread h
    -- what is emitted is all that stands in the row, and that is something
    have hperm := Converter.feed_perm hfeed
    have hprogram : out ++ Pending.instrs s.pending ≠ [] := by
      intro hnil
      rw [hnil] at hperm
      exact hnested.instrs_ne_nil hne hperm.symm.eq_nil
    exact ⟨_, Converter.ofTokens_of_feed hfeed hfinish hprogram⟩

end Program

end StackCalc
