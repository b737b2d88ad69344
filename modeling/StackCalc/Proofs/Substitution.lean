/-
  StackCalc.Proofs.Substitution

  What stands between parentheses stands for one value.

  A row that is converted on its own is converted in the same way above anything
  that blocks (`Converter.feed_frame`), so between parentheses it neither sees
  what waits below nor disturbs it.  At its closing parenthesis the reader is as
  it would be behind a variable: what follows cannot tell the two apart
  (`Converter.complete_of_isClosable`), whether it is read to its end or not.
-/
import StackCalc.Proofs.Parenthesised
import StackCalc.Proofs.WellFormed

namespace StackCalc

namespace Pending

/-- What blocks on top of something that blocks. -/
theorem Blocks.append {q : Operator → Bool} {pending below : List Pending}
    (h : Blocks q pending) (hbelow : Blocks q below) : Blocks q (pending ++ below) := by
  cases pending with
  | nil => exact hbelow
  | cons top rest =>
    intro o lower heq
    cases heq
    exact h o rest rfl

theorem drain_append (os : List Operator) (below : List Pending) :
    drain (os.map .operator ++ below) = (os.map .op ++ ·) <$> drain below := by
  induction os with
  | nil => simp
  | cons o os ih =>
    rw [List.map_cons, List.cons_append, drain, ih]
    show (Instr.op o :: ·) <$> ((os.map Instr.op ++ ·) <$> drain below) = _
    simp

end Pending

namespace Converter

open Pending (Blocks)

/-! ## Rows above something that blocks -/

theorem step_rparen_of_closable {pending : List Pending} {previous : Option Token}
    (h : Closable previous) :
    (⟨pending, previous⟩ : Converter).step .rparen
      = (⟨pending, some .rparen⟩ : Converter).step .rparen := by
  cases previous with
  | none => rfl
  | some last =>
    have hlast := h last rfl
    cases last with
    | fn | lparen | comma => cases hlast
    | num | var | op | rparen => rfl

/-- A token that is accepted is accepted in the same way above anything that
    blocks. -/
theorem Effect.step_append {pending pending' below : List Pending} {previous : Option Token}
    {t : Token} {out : Program} (h : Effect pending previous t out pending')
    (hbelow : ∀ q, Blocks q below) :
    (⟨pending ++ below, previous⟩ : Converter).step t
      = .ok (out, ⟨pending' ++ below, some t⟩) := by
  cases h with
  | num _ hprev | var _ hprev | fn _ hprev => exact step_of_place hprev rfl
  | op o os kept hpending hprev hkept hos =>
    rw [hpending, List.append_assoc]
    exact step_op os hprev hos (hkept.append (hbelow _))
  | openGroup hprev => exact step_lparen_of_not_isFn hprev
  | openCall f => exact step_lparen_of_fn
  | comma os n kept hpending hlast =>
    rw [hpending, List.append_assoc]
    exact step_comma os n (kept ++ below) hlast
  | closeGroup os n kept hpending hclosable =>
    rw [hpending, List.append_assoc, step_rparen_of_closable hclosable]
    exact step_rparen_group os n (pending' ++ below) rfl
  | closeCall os n f kept hpending hclosable hf =>
    rw [hpending, List.append_assoc, step_rparen_of_closable hclosable]
    exact step_rparen_call os (pending' ++ below) rfl hf
  | closeNullary os n f kept hpending hf =>
    rw [hpending, List.append_assoc]
    exact step_rparen_nullary os (pending' ++ below) hf

theorem feed_frame {s s' : Converter} {ts : List Token} {out : Program} {below : List Pending}
    (h : s.feed ts = .ok (out, s')) (hbelow : ∀ q, Blocks q below) :
    (⟨s.pending ++ below, s.previous⟩ : Converter).feed ts
      = .ok (out, ⟨s'.pending ++ below, s'.previous⟩) := by
  induction ts generalizing s out with
  | nil =>
    cases h
    rfl
  | cons t ts ih =>
    obtain ⟨first, s₁, more, heffect, hprevious, hmore, rfl⟩ := exists_effect_of_feed h
    have hfirst := heffect.step_append hbelow
    rw [← hprevious] at hfirst
    exact feed_cons hfirst (ih hmore)

/-- What can start a row can start it behind anything but a function. -/
theorem step_of_start {s : Converter} {t : Token} {out : Program} {previous : Option Token}
    (h : ({} : Converter).step t = .ok (out, s)) (hprev : isFn previous = false) :
    (⟨[], previous⟩ : Converter).step t = .ok (out, s) := by
  cases t with
  | num | var | fn | op =>
    cases h
    exact step_of_place hprev rfl
  | lparen =>
    cases h
    exact step_lparen_of_not_isFn hprev
  | comma | rparen => cases h

theorem feed_of_start {s : Converter} {ts : List Token} {out : Program} {previous : Option Token}
    (h : ({} : Converter).feed ts = .ok (out, s)) (hne : ts ≠ []) (hprev : isFn previous = false) :
    (⟨[], previous⟩ : Converter).feed ts = .ok (out, s) := by
  cases ts with
  | nil => exact absurd rfl hne
  | cons t ts =>
    obtain ⟨first, s₁, more, hstep, hmore, rfl⟩ := exists_of_feed_cons h
    exact feed_cons (step_of_start hstep hprev) hmore

/-- A row that is converted on its own is read as a whole wherever nothing that
    waits can be completed. -/
theorem readsClear_of_ofTokens {ts : List Token} {p : Program} (h : Program.ofTokens ts = .ok p) :
    ReadsClear ts p := by
  intro s hprev hclear
  obtain ⟨hnested, hne⟩ := Program.nested_of_ofTokens h
  obtain ⟨out, s', rest, hfeed, hfinish, rfl, -⟩ := Program.exists_of_ofTokens h
  have hfn := (finish_eq_ok hfinish).1
  have hread := reading_of_start hfeed
  have hlast := hread.previous_eq
  rw [List.getLast?_eq_some_getLast hne] at hlast
  -- at the end of the row only operators wait
  obtain ⟨os, hos⟩ := hread.exists_operators hfn hnested.matched
  have hrest : rest = os.map .op := by
    rw [rest_of_finish hfinish, hos, ← List.append_nil (os.map Pending.operator),
      Pending.instrs_operators, Pending.instrs, List.append_nil]
  have hframe := feed_frame (feed_of_start hfeed hne hprev) hclear
  rw [hos, hlast] at hframe
  rw [hrest]
  exact ⟨os, out, _, hframe, rfl, closable_of_nested hnested _ (List.getLast?_eq_some_getLast hne)⟩

theorem isFn_previous {s : Converter} {ts : List Token} {out : Program}
    (h : ({} : Converter).feed ts = .ok (out, s)) (hts : isFn ts.getLast? = false) :
    isFn s.previous = false := by
  rwa [(reading_of_start h).previous_eq]

/-! ## What follows -/

/-- The instructions of a row and of all that waits at its end. -/
def complete (s : Converter) (ts : List Token) : Except ParseFault Program := do
  let (out, s) ← s.feed ts
  let rest ← s.finish
  return out ++ rest

theorem complete_cons (s : Converter) (t : Token) (ts : List Token) :
    s.complete (t :: ts) = s.step t >>= fun x => (x.1 ++ ·) <$> x.2.complete ts := by
  simp [complete, feed, ← List.append_assoc]

theorem complete_append (s : Converter) (ts us : List Token) :
    s.complete (ts ++ us) = s.feed ts >>= fun x => (x.1 ++ ·) <$> x.2.complete us := by
  induction ts generalizing s with
  | nil =>
    show s.complete us = ([] ++ ·) <$> s.complete us
    simp
  | cons t ts ih => simp [complete_cons, feed, ih, ← List.append_assoc]

/-- Behind one end of an operand everything goes on as behind another. -/
theorem complete_of_isClosable {pending : List Pending} {last : Token} (ts : List Token)
    (hlast : last.isClosable = true) :
    (⟨pending, some last⟩ : Converter).complete ts
      = (⟨pending, some .rparen⟩ : Converter).complete ts := by
  cases last with
  | fn | lparen | comma => cases hlast
  | num | var | op | rparen =>
    cases ts with
    | nil => rfl
    | cons t ts => cases t <;> rfl

theorem complete_perm {s : Converter} {ts : List Token} {p : Program} (h : s.complete ts = .ok p) :
    p.Perm (Pending.instrs s.pending ++ Token.instrs ts) := by
  obtain ⟨⟨out, s'⟩, hfeed, hmore⟩ := exists_of_bind h
  obtain ⟨rest, hfinish, hp⟩ := exists_of_bind hmore
  cases hp
  rw [rest_of_finish hfinish]
  exact feed_perm hfeed

/-- The tokens are read as a whole behind anything but a function, and nothing of
    them waits. -/
def ReadsWhole (ts : List Token) (p : Program) : Prop :=
  ∀ s : Converter, isFn s.previous = false → Reads s ts [] p

theorem complete_of_reads {s : Converter} {ts : List Token} {p : Program} (us : List Token)
    (h : Reads s ts [] p) :
    s.complete (ts ++ us)
      = (p ++ ·) <$> (⟨s.pending, some .rparen⟩ : Converter).complete us := by
  obtain ⟨out, last, hfeed, hout, hlast⟩ := h
  obtain rfl : out = p := (List.append_nil out).symm.trans hout
  rw [complete_append, hfeed]
  show (out ++ ·) <$> (⟨s.pending, some last⟩ : Converter).complete us = _
  rw [complete_of_isClosable us hlast]

end Converter

namespace Program

open Converter

theorem ofTokens_eq_complete (ts : List Token) :
    ofTokens ts = ({} : Converter).complete ts >>= fun p =>
      if p.isEmpty then .error .emptyExpression else .ok p := by
  simp only [ofTokens, complete, bind_assoc, pure_bind]
  rfl

/-- The instructions before a value and behind it, for a value that stands between
    these tokens. -/
def surroundings (before after : List Token) : Except ParseFault (Program × Program) := do
  let (front, s) ← ({} : Converter).feed before
  let back ← (⟨s.pending, some .rparen⟩ : Converter).complete after
  return (front, back)

/-- What is read as a whole stands in a row as one value. -/
theorem ofTokens_of_readsWhole {before ts : List Token} {p : Program} (after : List Token)
    (hbefore : isFn before.getLast? = false) (hts : ReadsWhole ts p) (hne : p ≠ []) :
    ofTokens (before ++ ts ++ after)
      = (fun x => x.1 ++ p ++ x.2) <$> surroundings before after := by
  rw [ofTokens_eq_complete, List.append_assoc, complete_append, surroundings]
  cases hfeed : ({} : Converter).feed before with
  | error fault => rfl
  | ok x =>
    obtain ⟨front, s⟩ := x
    have hprev := isFn_previous hfeed hbefore
    show ((front ++ ·) <$> s.complete (ts ++ after)) >>= _
      = _ <$> ((⟨s.pending, some .rparen⟩ : Converter).complete after >>= _)
    rw [complete_of_reads after (hts s hprev)]
    cases (⟨s.pending, some .rparen⟩ : Converter).complete after with
    | error fault => rfl
    | ok back =>
      have hempty : (front ++ (p ++ back)).isEmpty = false := by simp [hne]
      show (if (front ++ (p ++ back)).isEmpty then _ else _) = Except.ok (front ++ p ++ back)
      rw [hempty, List.append_assoc]
      rfl

/-- What does not stand around the value does not stand in its surroundings. -/
theorem not_mem_surroundings {before after : List Token} {v : String} {front back : Program}
    (h : surroundings before after = .ok (front, back)) (hbefore : .var v ∉ before)
    (hafter : .var v ∉ after) : .var v ∉ front ∧ .var v ∉ back := by
  obtain ⟨⟨front', s⟩, hfeed, hmore⟩ := exists_of_bind h
  obtain ⟨back', hcomplete, hpair⟩ := exists_of_bind hmore
  cases hpair
  have hrow {ts : List Token} (hts : .var v ∉ ts) : .var v ∉ Token.instrs ts := by
    intro hmem
    obtain ⟨t, ht, heq⟩ := List.mem_filterMap.mp hmem
    cases t with
    | var w => cases heq; exact hts ht
    | num | op | fn | lparen | rparen | comma => cases heq
  have hstart : .var v ∉ front ++ Pending.instrs s.pending := by
    rw [(feed_perm hfeed).mem_iff]
    exact hrow hbefore
  rw [List.mem_append, not_or] at hstart
  refine ⟨hstart.1, ?_⟩
  rw [(complete_perm hcomplete).mem_iff, List.mem_append, not_or]
  exact ⟨hstart.2, hrow hafter⟩

/-- A row that is converted has a value, and so it has between parentheses. -/
theorem readsWhole_enclose {ts : List Token} {p : Program} (h : ofTokens ts = .ok p) :
    ReadsWhole (Token.enclose ts) p ∧ p ≠ [] := by
  obtain ⟨-, -, -, -, -, -, hne⟩ := exists_of_ofTokens h
  exact ⟨fun s hprev => (readsClear_of_ofTokens h).enclose hprev, hne⟩

end Program

/-! ## Parentheses that say nothing new -/

namespace Token

/-- A row that is one operand. -/
inductive Operand : List Token → Prop where
  | num (value : Float) : Operand [.num value]
  | var (name : String) : Operand [.var name]
  | group {ts : List Token} {p : Program} (h : Program.ofTokens ts = .ok p) : Operand (enclose ts)
  | call (f : Func) (args : List (List Token × Program)) (hf : f.arity = args.length)
      (hargs : ∀ a ∈ args, Program.ofTokens a.1 = .ok a.2) :
      Operand (.fn f :: enclose ([comma].intercalate (args.map Prod.fst)))

/-- What stands between these tokens is a whole row, a whole group or a whole
    argument. -/
structure Delimited (before after : List Token) : Prop where
  opens : ∀ t, before.getLast? = some t → t = .lparen ∨ t = .comma
  closes : ∀ t, after.head? = some t → t = .rparen ∨ t = .comma

end Token

open Token (enclose Operand Delimited)

namespace Converter

open Pending (Blocks)

theorem exists_readsWhole {ts : List Token} (h : Operand ts) :
    ∃ p, ReadsWhole ts p ∧ p ≠ [] := by
  cases h with
  | num value => exact ⟨[.num value], fun _ hprev => reads_num value hprev, by simp⟩
  | var name => exact ⟨[.var name], fun _ hprev => reads_var name hprev, by simp⟩
  | @group _ p h => exact ⟨p, Program.readsWhole_enclose h⟩
  | call f args hf hargs =>
    refine ⟨(args.map Prod.snd).flatten ++ [.fn f], fun s hprev => ?_, by simp⟩
    exact reads_call args hprev hf fun a ha => (readsClear_of_ofTokens (hargs a ha)).inside

/-- Behind an opening parenthesis or a separator nothing that waits can be
    completed. -/
theorem Effect.blocks {pending pending' : List Pending} {previous : Option Token} {t : Token}
    {out : Program} (h : Effect pending previous t out pending') (ht : t = .lparen ∨ t = .comma) :
    ∀ q, Blocks q pending' := by
  intro q
  cases h with
  | openGroup => exact Pending.blocks_paren q false 0 pending
  | openCall f => exact Pending.blocks_paren q true 0 pending
  | comma os n below => exact Pending.blocks_paren q true (n + 1) below
  | num | var | fn | op | closeGroup | closeCall | closeNullary => rcases ht with h | h <;> cases h

theorem blocks_of_delimited {s : Converter} {before after : List Token} {out : Program}
    (hfeed : ({} : Converter).feed before = .ok (out, s)) (h : Delimited before after) :
    ∀ q, Blocks q s.pending := by
  rcases List.eq_nil_or_concat before with rfl | ⟨start, last, rfl⟩
  · cases hfeed
    exact Pending.blocks_nil
  · rw [List.concat_eq_append] at hfeed h
    obtain ⟨a, s₁, b, -, hlast, -⟩ := exists_of_feed_append hfeed
    obtain ⟨c, s₂, d, hstep, hend, -⟩ := exists_of_feed_cons hlast
    cases hend
    exact (effect_of_step hstep).1.blocks (h.opens last List.getLast?_concat)

theorem step_eq_place {s : Converter} {t : Token} (hprev : isFn s.previous = false) :
    s.step t = (fun x => (x.1, ⟨x.2, some t⟩)) <$> s.place t := by
  rw [step, checkCall_of_not_isFn hprev]
  cases s.place t <;> simp <;> rfl

theorem closeCall_append (given : Nat) (done out : Program) (below : List Pending) :
    closeCall given (done ++ out) below
      = (fun x => (done ++ x.1, x.2)) <$> closeCall given out below := by
  cases below with
  | nil => rfl
  | cons top below =>
    cases top with
    | operator | paren => rfl
    | function f =>
      by_cases hf : f.arity == given
      · rw [closeCall, closeCall, if_pos hf, if_pos hf, List.append_assoc]
        rfl
      · rw [closeCall, closeCall, if_neg hf, if_neg hf]
        rfl

/-- At the end of a group or an argument it makes no difference whether the
    operators that wait in it have been completed. -/
theorem place_of_operators {t : Token} (os : List Operator) {below : List Pending}
    (hbelow : ∀ q, Blocks q below) (ht : t = .rparen ∨ t = .comma) :
    (⟨os.map .operator ++ below, some .rparen⟩ : Converter).place t
      = (fun x => (os.map .op ++ x.1, x.2)) <$> (⟨below, some .rparen⟩ : Converter).place t := by
  have hall : Pending.releaseAll (os.map .operator ++ below) = (os.map .op, below) :=
    Pending.release_operators (fun _ _ => rfl) (hbelow _)
  have hnone : Pending.releaseAll below = ([], below) := Pending.release_of_blocks (hbelow _)
  rcases ht with rfl | rfl
  · simp only [place, close, hall, hnone]
    cases below with
    | nil => rfl
    | cons top below =>
      cases top with
      | operator | function => rfl
      | paren call n =>
        cases call with
        | false => simp
        | true =>
          rw [← closeCall_append, List.append_nil]
  · simp only [place, separate, hall, hnone]
    cases below with
    | nil => rfl
    | cons top below =>
      cases top with
      | operator | function => rfl
      | paren call n =>
        cases call with
        | false => rfl
        | true => simp

theorem complete_of_operators {before after : List Token} (os : List Operator)
    {below : List Pending} (hbelow : ∀ q, Blocks q below) (h : Delimited before after) :
    (⟨os.map .operator ++ below, some .rparen⟩ : Converter).complete after
      = (os.map .op ++ ·) <$> (⟨below, some .rparen⟩ : Converter).complete after := by
  cases after with
  | nil =>
    show Pending.drain _ >>= _ = _ <$> (Pending.drain below >>= _)
    rw [Pending.drain_append]
    simp
  | cons t after =>
    have hplace := place_of_operators os hbelow (h.closes t rfl)
    rw [complete_cons, complete_cons, step_eq_place rfl, step_eq_place rfl, hplace]
    simp

end Converter

namespace Program

open Converter

theorem ofTokens_enclose_of_operand {before ts : List Token} (after : List Token)
    (hbefore : isFn before.getLast? = false) (h : Operand ts) :
    ofTokens (before ++ enclose ts ++ after) = ofTokens (before ++ ts ++ after) := by
  obtain ⟨p, hwhole, hne⟩ := exists_readsWhole h
  have hts : ofTokens ts = .ok p := ofTokens_of_reads (hwhole {} rfl) hne
  rw [ofTokens_of_readsWhole after hbefore hwhole hne,
    ofTokens_of_readsWhole after hbefore (readsWhole_enclose hts).1 hne]

theorem ofTokens_enclose_of_delimited {before ts after : List Token} {p : Program}
    (hbefore : isFn before.getLast? = false) (hts : ofTokens ts = .ok p)
    (h : Delimited before after) :
    ofTokens (before ++ enclose ts ++ after) = ofTokens (before ++ ts ++ after) := by
  rw [ofTokens_eq_complete, ofTokens_eq_complete, List.append_assoc, List.append_assoc,
    complete_append, complete_append]
  cases hfeed : ({} : Converter).feed before with
  | error fault => rfl
  | ok x =>
    obtain ⟨front, s⟩ := x
    have hclear := blocks_of_delimited hfeed h
    have hprev := isFn_previous hfeed hbefore
    have hgroup := complete_of_reads after ((readsWhole_enclose hts).1 s hprev)
    -- without the parentheses, what waits in the row is completed by what follows
    have hrow : s.complete (ts ++ after)
        = (p ++ ·) <$> (⟨s.pending, some .rparen⟩ : Converter).complete after := by
      obtain ⟨os, out, last, hread, rfl, hlast⟩ := readsClear_of_ofTokens hts s hprev hclear
      rw [complete_append, hread]
      show (out ++ ·) <$> (⟨os.map .operator ++ s.pending, some last⟩ : Converter).complete after
        = _
      rw [complete_of_isClosable after hlast, complete_of_operators os hclear h]
      simp
    show ((front ++ ·) <$> s.complete (enclose ts ++ after)) >>= _
      = ((front ++ ·) <$> s.complete (ts ++ after)) >>= _
    rw [hgroup, hrow]

/-- A converted row between parentheses stands for one value: with it in the place
    of a variable that stands nowhere else, everything is converted as with the
    variable, and so is a fault found.  Parentheses around one operand, or around
    all that is delimited anyway, change nothing. -/
theorem enclosed_as_variable {before ts after : List Token} {p : Program} {v : String}
    (hts : ofTokens ts = .ok p) (hbefore : isFn before.getLast? = false)
    (hv : .var v ∉ before) (hv' : .var v ∉ after) :
    (∀ fault, ofTokens (before ++ .var v :: after) = .error fault →
        ofTokens (before ++ enclose ts ++ after) = .error fault)
      ∧ (∀ q, ofTokens (before ++ .var v :: after) = .ok q →
          ∃ front back, q = front ++ .var v :: back ∧ .var v ∉ front ∧ .var v ∉ back
            ∧ ofTokens (before ++ enclose ts ++ after) = .ok (front ++ p ++ back))
      ∧ (Operand ts ∨ Delimited before after →
          ofTokens (before ++ enclose ts ++ after) = ofTokens (before ++ ts ++ after)) := by
  obtain ⟨hwhole, hne⟩ := readsWhole_enclose hts
  have hgroup := ofTokens_of_readsWhole after hbefore hwhole hne
  have hvar : ofTokens (before ++ .var v :: after)
      = (fun x => x.1 ++ [.var v] ++ x.2) <$> surroundings before after := by
    rw [List.append_cons]
    exact ofTokens_of_readsWhole after hbefore (fun _ hprev => reads_var v hprev) (by simp)
  have hredundant : Operand ts ∨ Delimited before after →
      ofTokens (before ++ enclose ts ++ after) = ofTokens (before ++ ts ++ after) := by
    rintro (hoperand | hdelimited)
    · exact ofTokens_enclose_of_operand after hbefore hoperand
    · exact ofTokens_enclose_of_delimited hbefore hts hdelimited
  cases hsurroundings : surroundings before after with
  | error fault =>
    rw [hsurroundings] at hgroup hvar
    refine ⟨fun fault' h => ?_, fun q h => ?_, hredundant⟩
    · rw [hvar] at h
      cases h
      exact hgroup
    · rw [hvar] at h
      cases h
  | ok x =>
    rw [hsurroundings] at hgroup hvar
    refine ⟨fun fault h => ?_, fun q h => ?_, hredundant⟩
    · rw [hvar] at h
      cases h
    · rw [hvar] at h
      cases h
      obtain ⟨hfront, hback⟩ := not_mem_surroundings hsurroundings hv hv'
      exact ⟨x.1, x.2, (List.append_cons ..).symm, hfront, hback, hgroup⟩

/-- In `2 ^ (x - y) * 3` the difference stands where `z` stands in `2 ^ z * 3`. -/
theorem enclosed_as_variable_power :
    ofTokens [.num 2, .op .power, .var "z", .op .multiply, .num 3]
        = .ok [.num 2, .var "z", .op .power, .num 3, .op .multiply]
      ∧ ∃ front back,
          [.num 2, .var "z", .op .power, .num 3, .op .multiply] = front ++ .var "z" :: back
          ∧ .var "z" ∉ front ∧ .var "z" ∉ back
          ∧ ofTokens [.num 2, .op .power, .lparen, .var "x", .op .subtract, .var "y", .rparen,
                .op .multiply, .num 3]
              = .ok (front ++ [.var "x", .var "y", .op .subtract] ++ back) := by
  have hrow : ofTokens [.var "x", .op .subtract, .var "y"]
      = .ok [.var "x", .var "y", .op .subtract] := rfl
  have hlaw := @enclosed_as_variable [.num 2, .op .power] _ [.op .multiply, .num 3] _ "z" hrow rfl
    (by simp) (by simp)
  exact ⟨rfl, hlaw.2.1 _ rfl⟩

end Program

end StackCalc
