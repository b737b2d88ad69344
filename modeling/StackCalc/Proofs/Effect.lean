/-
  StackCalc.Proofs.Effect

  All that one token can do to what waits.

  `Converter.Effect` lists the ways in which a token is accepted, and
  `effect_of_step` says that there are no others.  What each of them preserves, a
  whole conversion preserves.
-/
import StackCalc.Proofs.Conversion
import StackCalc.Proofs.Grammar

namespace StackCalc

namespace Pending

/-- What is taken off is operators that satisfy the condition, and what stays
    blocks. -/
theorem release_spec {p : Operator → Bool} {pending below : List Pending} {out : Program}
    (h : release p pending = (out, below)) :
    ∃ os : List Operator, pending = os.map .operator ++ below ∧ out = os.map .op
      ∧ Blocks p below ∧ ∀ o ∈ os, p o = true := by
  induction pending generalizing out with
  | nil =>
    cases h
    exact ⟨[], rfl, rfl, blocks_nil p, fun _ h => absurd h List.not_mem_nil⟩
  | cons top rest ih =>
    by_cases hblocks : Blocks p (top :: rest)
    · rw [release_of_blocks hblocks] at h
      cases h
      exact ⟨[], rfl, rfl, hblocks, fun _ h => absurd h List.not_mem_nil⟩
    · -- only an operator can be taken off
      cases top with
      | function f => exact absurd (fun o below heq => by cases heq) hblocks
      | paren call n => exact absurd (blocks_paren p call n rest) hblocks
      | operator o =>
        by_cases ho : p o = true
        · rw [release, if_pos ho] at h
          cases h
          obtain ⟨os, hrest, hout, hbelow, hos⟩ := ih rfl
          refine ⟨o :: os, ?_, ?_, hbelow, List.forall_mem_cons.mpr ⟨ho, hos⟩⟩
          · rw [List.map_cons, List.cons_append, ← hrest]
          · rw [List.map_cons, ← hout]
        · refine absurd ?_ hblocks
          intro o' below' heq
          cases heq
          simpa using ho

/-- The instructions of what waits, from the top. -/
def instrs : List Pending → Program
  | [] => []
  | operator o :: below => .op o :: instrs below
  | function f :: below => .fn f :: instrs below
  | paren _ _ :: below => instrs below

theorem instrs_operators (os : List Operator) (below : List Pending) :
    instrs (os.map .operator ++ below) = os.map .op ++ instrs below := by
  induction os with
  | nil => rfl
  | cons o os ih =>
    rw [List.map_cons, List.cons_append, instrs, ih, List.map_cons, List.cons_append]

/-- At the end of the stream all that waits is emitted, and it is no
    parenthesis. -/
theorem drain_eq_ok {pending : List Pending} {out : Program} (h : drain pending = .ok out) :
    out = instrs pending ∧ ∀ call n, .paren call n ∉ pending := by
  induction pending generalizing out with
  | nil =>
    cases h
    exact ⟨rfl, fun _ _ => List.not_mem_nil⟩
  | cons top below ih =>
    cases top with
    | paren call n => cases h
    | operator o | function f =>
      rw [drain] at h
      cases hbelow : drain below with
      | error e =>
        rw [hbelow] at h
        cases h
      | ok rest =>
        rw [hbelow] at h
        cases h
        obtain ⟨rfl, hno⟩ := ih hbelow
        refine ⟨rfl, fun call n hmem => ?_⟩
        rcases List.mem_cons.mp hmem with heq | hmem
        · cases heq
        · exact hno call n hmem

end Pending

namespace Converter

open Pending (Blocks)

/-- Something can end behind this token, if there is one. -/
def Closable (previous : Option Token) : Prop := ∀ t, previous = some t → t.isClosable = true

/-- The ways in which a token is accepted: what waited and the token before it,
    the token, the instructions that it completes, and what waits then. -/
inductive Effect : List Pending → Option Token → Token → Program → List Pending → Prop where
  | num {pending previous} (value : Float) (hprev : isFn previous = false) :
      Effect pending previous (.num value) [.num value] pending
  | var {pending previous} (name : String) (hprev : isFn previous = false) :
      Effect pending previous (.var name) [.var name] pending
  | fn {pending previous} (f : Func) (hprev : isFn previous = false) :
      Effect pending previous (.fn f) [] (.function f :: pending)
  | op {pending previous} (o : Operator) (os : List Operator) (below : List Pending)
      (hpending : pending = os.map .operator ++ below) (hprev : isFn previous = false)
      (hbelow : Blocks (·.completedBy o) below) (hos : ∀ w ∈ os, w.completedBy o = true) :
      Effect pending previous (.op o) (os.map .op) (.operator o :: below)
  | openGroup {pending previous} (hprev : isFn previous = false) :
      Effect pending previous .lparen [] (.paren false 0 :: pending)
  | openCall {pending} (f : Func) :
      Effect pending (some (.fn f)) .lparen [] (.paren true 0 :: pending)
  | comma {pending} {last : Token} (os : List Operator) (n : Nat) (below : List Pending)
      (hpending : pending = os.map .operator ++ .paren true n :: below)
      (hlast : last.isClosable = true) :
      Effect pending (some last) .comma (os.map .op) (.paren true (n + 1) :: below)
  | closeGroup {pending previous} (os : List Operator) (n : Nat) (below : List Pending)
      (hpending : pending = os.map .operator ++ .paren false n :: below)
      (hprev : Closable previous) : Effect pending previous .rparen (os.map .op) below
  | closeCall {pending previous} (os : List Operator) (n : Nat) (f : Func) (below : List Pending)
      (hpending : pending = os.map .operator ++ .paren true n :: .function f :: below)
      (hprev : Closable previous) (hf : f.arity = n + 1) :
      Effect pending previous .rparen (os.map .op ++ [.fn f]) below
  | closeNullary {pending} (os : List Operator) (n : Nat) (f : Func) (below : List Pending)
      (hpending : pending = os.map .operator ++ .paren true n :: .function f :: below)
      (hf : f.arity = 0) : Effect pending (some .lparen) .rparen (os.map .op ++ [.fn f]) below

theorem isFn_or_of_checkCall {previous : Option Token} {t : Token}
    (h : checkCall previous (some t) = .ok ()) :
    isFn previous = false ∨ ∃ f, previous = some (.fn f) ∧ t = .lparen := by
  cases previous with
  | none => exact Or.inl rfl
  | some last =>
    cases last with
    | fn f =>
      cases t with
      | lparen => exact Or.inr ⟨f, rfl, rfl⟩
      | num | var | op | fn | rparen | comma => cases h
    | num | var | op | lparen | rparen | comma => exact Or.inl rfl

theorem closable_of_ne {previous : Option Token} (hfn : isFn previous = false)
    (hlparen : previous ≠ some .lparen) (hcomma : previous ≠ some .comma) : Closable previous := by
  rintro t rfl
  cases t with
  | fn f => cases hfn
  | lparen => exact absurd rfl hlparen
  | comma => exact absurd rfl hcomma
  | num | var | op | rparen => rfl

theorem effect_of_separate {s : Converter} {out : Program} {pending : List Pending}
    (hfn : isFn s.previous = false) (h : s.separate = .ok (out, pending)) :
    Effect s.pending s.previous .comma out pending := by
  rw [separate] at h
  split at h
  · cases h
  · cases h
  · cases h
  · next hnone hlparen hcomma =>
    split at h
    · next out' n below hrelease =>
      cases h
      obtain ⟨os, hpending, rfl, -⟩ := Pending.release_spec hrelease
      cases hprevious : s.previous with
      | none => exact absurd hprevious hnone
      | some last =>
        exact .comma os n below hpending (closable_of_ne hfn hlparen hcomma last hprevious)
    · cases h

theorem effect_of_closeCall {previous : Option Token} {given n : Nat} {os : List Operator}
    {waiting below pending : List Pending} {out : Program}
    (hwaiting : waiting = os.map .operator ++ .paren true n :: below)
    (hprev : previous = some .lparen ∧ given = 0 ∨ Closable previous ∧ given = n + 1)
    (h : closeCall given (os.map .op) below = .ok (out, pending)) :
    Effect waiting previous .rparen out pending := by
  cases below with
  | nil => cases h
  | cons top below =>
    cases top with
    | operator | paren => cases h
    | function f =>
      rw [closeCall] at h
      split at h
      · next hf =>
        cases h
        have harity : f.arity = given := by simpa using hf
        rcases hprev with ⟨rfl, rfl⟩ | ⟨hclosable, rfl⟩
        · exact .closeNullary os n f _ hwaiting harity
        · exact .closeCall os n f _ hwaiting hclosable harity
      · cases h

theorem effect_of_close {s : Converter} {out : Program} {pending : List Pending}
    (hfn : isFn s.previous = false) (h : s.close = .ok (out, pending)) :
    Effect s.pending s.previous .rparen out pending := by
  rw [close] at h
  split at h
  · cases h
  · next hprevious =>
    split at h
    · next out' n below hrelease =>
      obtain ⟨os, hpending, rfl, -⟩ := Pending.release_spec hrelease
      exact effect_of_closeCall hpending (Or.inl ⟨hprevious, rfl⟩) h
    · cases h
    · cases h
  · next hcomma hlparen =>
    have hclosable := closable_of_ne hfn hlparen hcomma
    split at h
    · next out' n below hrelease =>
      obtain ⟨os, hpending, rfl, -⟩ := Pending.release_spec hrelease
      exact effect_of_closeCall hpending (Or.inr ⟨hclosable, rfl⟩) h
    · next out' n below hrelease =>
      cases h
      obtain ⟨os, hpending, rfl, -⟩ := Pending.release_spec hrelease
      exact .closeGroup os n _ hpending hclosable
    · cases h

/-- A token is accepted in one of the ways listed, and in no other. -/
theorem effect_of_step {s s' : Converter} {t : Token} {out : Program}
    (h : s.step t = .ok (out, s')) :
    Effect s.pending s.previous t out s'.pending ∧ s'.previous = some t := by
  rw [step] at h
  obtain ⟨_, hcheck, hrest⟩ := exists_of_bind h
  obtain ⟨⟨out', pending⟩, hplace, hstate⟩ := exists_of_bind hrest
  cases hstate
  refine ⟨?_, rfl⟩
  rcases isFn_or_of_checkCall hcheck with hfn | ⟨f, hprevious, rfl⟩
  · cases t with
    | num value => cases hplace; exact .num value hfn
    | var name => cases hplace; exact .var name hfn
    | fn f => cases hplace; exact .fn f hfn
    | op o =>
      cases hrelease : Pending.release (·.completedBy o) s.pending with
      | mk out below =>
        simp only [place, hrelease] at hplace
        cases hplace
        obtain ⟨os, hpending, rfl, hblocks, hos⟩ := Pending.release_spec hrelease
        exact .op o os below hpending hfn hblocks hos
    | lparen =>
      rw [place, hfn] at hplace
      cases hplace
      exact .openGroup hfn
    | comma => exact effect_of_separate hfn hplace
    | rparen => exact effect_of_close hfn hplace
  · -- behind a function only its argument list is accepted
    rw [place, hprevious] at hplace
    cases hplace
    rw [hprevious]
    exact .openCall f

/-- A row is read one token after the other. -/
theorem exists_effect_of_feed {s s' : Converter} {t : Token} {ts : List Token} {out : Program}
    (h : s.feed (t :: ts) = .ok (out, s')) :
    ∃ (first : Program) (s₁ : Converter) (more : Program),
      Effect s.pending s.previous t first s₁.pending ∧ s₁.previous = some t
        ∧ s₁.feed ts = .ok (more, s') ∧ out = first ++ more := by
  obtain ⟨first, s₁, more, hstep, hmore, rfl⟩ := exists_of_feed_cons h
  obtain ⟨heffect, hprevious⟩ := effect_of_step hstep
  exact ⟨first, s₁, more, heffect, hprevious, hmore, rfl⟩

theorem finish_eq_ok {s : Converter} {rest : Program} (h : s.finish = .ok rest) :
    isFn s.previous = false ∧ Pending.drain s.pending = .ok rest := by
  rw [finish] at h
  obtain ⟨_, hcheck, hdrain⟩ := exists_of_bind h
  refine ⟨?_, hdrain⟩
  cases hprevious : s.previous with
  | none => rfl
  | some last =>
    rw [hprevious] at hcheck
    cases last with
    | fn f => cases hcheck
    | num | var | op | lparen | rparen | comma => rfl

/-- The end of the stream emits all that waits. -/
theorem rest_of_finish {s : Converter} {rest : Program} (h : s.finish = .ok rest) :
    rest = Pending.instrs s.pending :=
  (Pending.drain_eq_ok (finish_eq_ok h).2).1

end Converter

/-- The stages of a successful conversion. -/
theorem Program.exists_of_ofTokens {ts : List Token} {p : Program} (h : ofTokens ts = .ok p) :
    ∃ out s rest, ({} : Converter).feed ts = .ok (out, s) ∧ s.finish = .ok rest
      ∧ p = out ++ rest ∧ p ≠ [] := by
  rw [ofTokens] at h
  obtain ⟨⟨out, s⟩, hfeed, hmore⟩ := exists_of_bind h
  obtain ⟨rest, hfinish, hif⟩ := exists_of_bind hmore
  simp only at hif
  split at hif
  · cases hif
  · next hne =>
    cases hif
    exact ⟨out, s, rest, hfeed, hfinish, rfl, by simpa using hne⟩

end StackCalc
