/-
  StackCalc.Proofs.Copies

  Copies are independent of each other over whole sessions.

  What becomes of a slot is decided by the commands that fill slots, by the actions
  on it, and by those on the slot that it will be a copy of, up to the copying; and
  so on back to the first of its line (`source`).  All other actions can be left out
  (`relevant`).  The two sessions, with them and without, always agree on the slot
  that the one in question goes back to (`Alike`), and so on every answer about it.
-/
import StackCalc.Proofs.History

namespace StackCalc

namespace Command

/-- The command fills a slot when `n` slots are filled. -/
def fills (n : Nat) : Command → Bool
  | create origin => origin.expression.isOk
  | duplicate slot => decide (slot < n)
  | act _ _ => false

/-- How many slots are filled behind the command. -/
def slotsAfter (n : Nat) (c : Command) : Nat := if c.fills n then n + 1 else n

/-- The slot that a slot goes back to before the command, when it goes back to
    `later` behind it: what is copied into the next slot comes from elsewhere. -/
def sourceBefore (n later : Nat) : Command → Nat
  | duplicate slot => if slot < n ∧ later = n then slot else later
  | create _ | act _ _ => later

/-- The command fills a slot, or acts on one of the two. -/
def bearsOn (k ancestor : Nat) : Command → Bool
  | create _ | duplicate _ => true
  | act slot _ => slot == k || slot == ancestor

theorem le_slotsAfter (n : Nat) (c : Command) : n ≤ c.slotsAfter n := by
  rw [slotsAfter]
  split <;> omega

end Command

namespace Session

/-- The slot that slot `k` goes back to when `n` slots are filled and these commands
    are to come: `k` itself or, if `k` will be filled with a copy, the slot that the
    one that is copied goes back to. -/
def source (n k : Nat) : List Command → Nat
  | [] => k
  | c :: cs => c.sourceBefore n (source (c.slotsAfter n) k cs)

/-- The commands without the actions on other slots than `k`, except those on an
    ancestor of `k` before it is copied. -/
def relevant (n k : Nat) : List Command → List Command
  | [] => []
  | c :: cs =>
    let rest := relevant (c.slotsAfter n) k cs
    if c.bearsOn k (source n k (c :: cs)) then c :: rest else rest

/-- The answer to the command is about slot `k`: about an action on it, or about how
    it was filled. -/
def isAbout (k : Nat) : Command → Answer → Bool
  | .act slot _, _ => slot == k
  | _, .created slot _ => slot == k
  | _, _ => false

/-- The answers about slot `k`, in order. -/
def answersAbout (k : Nat) (s : Session) (cs : List Command) : List Answer :=
  ((cs.zip (s.run cs).1).filter fun step => isAbout k step.1 step.2).map Prod.snd

theorem answersAbout_cons (k : Nat) (s : Session) (c : Command) (cs : List Command) :
    s.answersAbout k (c :: cs)
      = if isAbout k c (s.step c).1 then (s.step c).1 :: (s.step c).2.answersAbout k cs
        else (s.step c).2.answersAbout k cs := by
  rw [answersAbout, run_cons, List.zip_cons_cons, List.filter_cons]
  split <;> rfl

/-! ## Slots and their sources -/

theorem size_step (s : Session) (c : Command) :
    (s.step c).2.slots.size = c.slotsAfter s.slots.size := by
  have hsteps := s.steps_step c
  generalize (s.step c).1 = answer at hsteps
  generalize (s.step c).2 = s' at hsteps
  cases hsteps with
  | created h => simp [Command.slotsAfter, Command.fills, h, Except.isOk, Except.toBool]
  | refused h => simp [Command.slotsAfter, Command.fills, h, Except.isOk, Except.toBool]
  | copied h =>
    obtain ⟨hlt, -⟩ := Array.getElem?_eq_some_iff.mp h
    simp [Command.slotsAfter, Command.fills, hlt]
  | uncopied h =>
    have hge := Array.getElem?_eq_none_iff.mp h
    simp [Command.slotsAfter, Command.fills, hge]
  | acted => simp [Command.slotsAfter, Command.fills]
  | idle => simp [Command.slotsAfter, Command.fills]

/-- A slot that is filled is its own source: no command fills it again. -/
theorem source_of_lt {n k : Nat} (h : k < n) (cs : List Command) : source n k cs = k := by
  induction cs generalizing n with
  | nil => rfl
  | cons c cs ih =>
    have hlater : source (c.slotsAfter n) k cs = k :=
      ih (Nat.lt_of_lt_of_le h (c.le_slotsAfter n))
    rw [source, hlater]
    cases c with
    | create | act => rfl
    | duplicate slot =>
      rw [Command.sourceBefore]
      exact if_neg (by omega)

/-- As many slots are filled, and slot `k` in the same way. -/
structure Alike (k : Nat) (s t : Session) : Prop where
  size : s.slots.size = t.slots.size
  slot : s.slots[k]? = t.slots[k]?

/-- Sessions that are alike in what slot `k` goes back to are alike in `k`. -/
theorem Alike.of_source {s t : Session} {n k : Nat} {cs : List Command} (hn : s.slots.size = n)
    (h : Alike (source n k cs) s t) : Alike k s t := by
  by_cases hk : k < n
  · rwa [source_of_lt hk] at h
  · have hsize := h.size
    have hs : s.slots[k]? = none := Array.getElem?_eq_none (by omega)
    have ht : t.slots[k]? = none := Array.getElem?_eq_none (by omega)
    exact ⟨hsize, hs.trans ht.symm⟩

/-! ## One step -/

section Step

variable {k n later slot : Nat} {c : Command} {s t s' t' : Session}

theorem Alike.push (h : Alike later s t) (e : Expression) :
    Alike later ⟨s.slots.push e⟩ ⟨t.slots.push e⟩ := by
  refine ⟨?_, ?_⟩
  · simp [h.size]
  · simp only [Array.getElem?_push, h.size, h.slot]

theorem alike_push (hsize : s.slots.size = t.slots.size) (e : Expression) :
    Alike s.slots.size ⟨s.slots.push e⟩ ⟨t.slots.push e⟩ := by
  refine ⟨?_, ?_⟩
  · simp [hsize]
  · simp only [Array.getElem?_push, hsize, if_true]

/-- What is put into the next slot does not matter to another slot. -/
theorem Alike.push_other (h : Alike later s t) (hlater : later ≠ s.slots.size)
    (x y : Expression) : Alike later ⟨s.slots.push x⟩ ⟨t.slots.push y⟩ := by
  refine ⟨?_, ?_⟩
  · simp [h.size]
  · have hlater' : later ≠ t.slots.size := h.size ▸ hlater
    simp only [Array.getElem?_push, if_neg hlater, if_neg hlater', h.slot]

theorem Alike.set (h : Alike later s t) (slot : Nat) (e : Expression) :
    Alike later ⟨s.slots.setIfInBounds slot e⟩ ⟨t.slots.setIfInBounds slot e⟩ := by
  refine ⟨?_, ?_⟩
  · simp [h.size]
  · simp only [Array.getElem?_setIfInBounds, h.size, h.slot]

theorem Alike.set_other (h : Alike later s t) (hslot : slot ≠ later) (e : Expression) :
    Alike later ⟨s.slots.setIfInBounds slot e⟩ t := by
  refine ⟨?_, ?_⟩
  · simp [h.size]
  · rw [Array.getElem?_setIfInBounds_ne hslot, h.slot]

/-- A command that is run in both sessions leaves them alike, and gives the same
    answer if it is about the slot. -/
structure KeepsPace (k later : Nat) (c : Command) (s t : Session) : Prop where
  alike : Alike later (s.step c).2 (t.step c).2
  about : isAbout k c (s.step c).1 = isAbout k c (t.step c).1
  answer : isAbout k c (s.step c).1 = true → (s.step c).1 = (t.step c).1

theorem KeepsPace.of_answer {answer : Answer} (hs : s.step c = (answer, s'))
    (ht : t.step c = (answer, t')) (h : Alike later s' t') : KeepsPace k later c s t := by
  refine ⟨?_, ?_, fun _ => ?_⟩
  · rwa [hs, ht]
  · rw [hs, ht]
  · rw [hs, ht]

theorem Alike.create (h : Alike later s t) (origin : Origin) :
    KeepsPace k later (.create origin) s t := by
  cases horigin : origin.expression with
  | ok e =>
    have hs : s.step (.create origin) = (.created s.slots.size e, ⟨s.slots.push e⟩) := by
      rw [step, horigin]
      rfl
    have ht : t.step (.create origin) = (.created s.slots.size e, ⟨t.slots.push e⟩) := by
      rw [step, horigin, h.size]
      rfl
    exact .of_answer hs ht (h.push e)
  | error err =>
    have hs : s.step (.create origin) = (.refused err, s) := by rw [step, horigin]
    have ht : t.step (.create origin) = (.refused err, t) := by rw [step, horigin]
    exact .of_answer hs ht h

theorem Alike.exists_slot (h : Alike later s t) (hlt : slot < s.slots.size) :
    ∃ x y, s.slots[slot]? = some x ∧ t.slots[slot]? = some y :=
  ⟨_, _, Array.getElem?_eq_getElem hlt, Array.getElem?_eq_getElem (h.size ▸ hlt)⟩

/-- A copy of the slot in question is the same in both sessions. -/
theorem Alike.duplicate_source (h : Alike slot s t) (hlt : slot < s.slots.size) :
    KeepsPace k s.slots.size (.duplicate slot) s t := by
  obtain ⟨x, y, hx, hy⟩ := h.exists_slot hlt
  have hxy : x = y := Option.some.inj (hx.symm.trans (h.slot.trans hy))
  have ht := step_duplicate hy
  rw [← hxy, ← h.size] at ht
  exact .of_answer (step_duplicate hx) ht (alike_push h.size _)

/-- A copy in another slot than the one in question may be of anything. -/
theorem Alike.duplicate_other (h : Alike later s t) (hlt : slot < s.slots.size)
    (hlater : later ≠ s.slots.size) (hk : s.slots.size ≠ k) :
    KeepsPace k later (.duplicate slot) s t := by
  obtain ⟨x, y, hx, hy⟩ := h.exists_slot hlt
  have hs := step_duplicate hx
  have ht := step_duplicate hy
  have hother : isAbout k (.duplicate slot) (.created s.slots.size x.duplicate) = false :=
    beq_false_of_ne hk
  refine ⟨?_, ?_, ?_⟩
  · rw [hs, ht]
    exact h.push_other hlater _ _
  · rw [hs, ht, ← h.size]
    rfl
  · rw [hs, hother]
    intro habout
    cases habout

/-- A copy of what the slot goes back to is put into both sessions, or the copy is of
    no matter to the slot. -/
theorem Alike.duplicate (hn : s.slots.size = n)
    (h : Alike ((Command.duplicate slot).sourceBefore n later) s t)
    (hfilled : k < (Command.duplicate slot).slotsAfter n → later = k) :
    KeepsPace k later (.duplicate slot) s t := by
  rw [Command.sourceBefore] at h
  by_cases hlt : slot < n
  · by_cases hlater : later = n
    · rw [if_pos ⟨hlt, hlater⟩] at h
      rw [hlater, ← hn]
      exact h.duplicate_source (by omega)
    · rw [if_neg fun hboth => hlater hboth.2] at h
      have hafter : (Command.duplicate slot).slotsAfter n = n + 1 := if_pos (decide_eq_true hlt)
      -- behind the command the slot in question, if it is the new one, goes back to itself
      have hk : n ≠ k := fun hnk => hlater ((hfilled (by omega)).trans hnk.symm)
      exact h.duplicate_other (by omega) (by omega) (by omega)
  · rw [if_neg fun hboth => hlt hboth.1] at h
    have hsize := h.size
    have hx : s.slots[slot]? = none := Array.getElem?_eq_none (by omega)
    have hy : t.slots[slot]? = none := Array.getElem?_eq_none (by omega)
    exact .of_answer (step_duplicate_of_none hx) (step_duplicate_of_none hy) h

theorem Alike.act (h : Alike later s t) (hslot : s.slots[slot]? = t.slots[slot]?)
    (action : Action) : KeepsPace k later (.act slot action) s t := by
  cases hx : s.slots[slot]? with
  | some x => exact .of_answer (step_act hx action) (step_act (hslot ▸ hx) action) (h.set slot _)
  | none =>
    exact .of_answer (step_act_of_none hx action) (step_act_of_none (hslot ▸ hx) action) h

/-- A command that bears on the slot is run in both sessions. -/
theorem Alike.step (hn : s.slots.size = n) (h : Alike (c.sourceBefore n later) s t)
    (hk : Alike k s t) (hfilled : k < c.slotsAfter n → later = k)
    (hbears : c.bearsOn k (c.sourceBefore n later) = true) : KeepsPace k later c s t := by
  cases c with
  | create origin => exact Alike.create h origin
  | duplicate slot => exact Alike.duplicate hn h hfilled
  | act slot action =>
    have hslot : s.slots[slot]? = t.slots[slot]? := by
      rw [Command.bearsOn, Bool.or_eq_true, beq_iff_eq, beq_iff_eq] at hbears
      rcases hbears with rfl | rfl
      · exact hk.slot
      · exact h.slot
    exact Alike.act h hslot action

/-- An action that does not bear on the slot is left out of the second session. -/
theorem Alike.skip (h : Alike (c.sourceBefore n later) s t)
    (hnot : c.bearsOn k (c.sourceBefore n later) = false) :
    Alike later (s.step c).2 t ∧ isAbout k c (s.step c).1 = false := by
  cases c with
  | create | duplicate => cases hnot
  | act slot action =>
    rw [Command.bearsOn, Bool.or_eq_false_iff, beq_eq_false_iff_ne, beq_eq_false_iff_ne] at hnot
    refine ⟨?_, beq_false_of_ne hnot.1⟩
    cases hx : s.slots[slot]? with
    | some x =>
      rw [step_act hx]
      exact Alike.set_other h hnot.2 _
    | none =>
      rw [step_act_of_none hx]
      exact h

end Step

/-! ## Whole sessions -/

theorem Alike.run {k n : Nat} {s t : Session} {cs : List Command} (hn : s.slots.size = n)
    (h : Alike (source n k cs) s t) :
    s.answersAbout k cs = t.answersAbout k (relevant n k cs)
      ∧ Alike k (s.run cs).2 (t.run (relevant n k cs)).2 := by
  induction cs generalizing n s t with
  | nil => exact ⟨rfl, h⟩
  | cons c cs ih =>
    have hnext : (s.step c).2.slots.size = c.slotsAfter n := hn ▸ s.size_step c
    rw [relevant]
    split
    · next hbears =>
      obtain ⟨halike, habout, hanswer⟩ :=
        Alike.step hn h (h.of_source hn) (fun hlt => source_of_lt hlt cs) hbears
      obtain ⟨hanswers, hend⟩ := ih hnext halike
      refine ⟨?_, hend⟩
      rw [answersAbout_cons, answersAbout_cons, ← habout, hanswers]
      split
      · next hfirst => rw [hanswer hfirst]
      · rfl
    · next hnot =>
      obtain ⟨halike, habout⟩ := Alike.skip h (Bool.eq_false_iff.mpr hnot)
      obtain ⟨hanswers, hend⟩ := ih hnext halike
      refine ⟨?_, hend⟩
      rw [answersAbout_cons, habout, if_neg Bool.false_ne_true]
      exact hanswers

/-- The answers about a slot, and what is in it in the end, are the same when all
    actions on other slots are left out, except those on an ancestor before it was
    copied.  And a copy has the program, the stack size and the values of the
    expression that it is made from, and its evaluation has the same end. -/
theorem copies_independent (cs : List Command) (k : Nat) :
    empty.answersAbout k cs = empty.answersAbout k (relevant 0 k cs)
      ∧ (empty.run cs).2.slots[k]? = (empty.run (relevant 0 k cs)).2.slots[k]?
      ∧ ∀ slot x, (empty.run cs).2.slots[slot]? = some x →
          ∃ copy, (empty.run cs).2.step (.duplicate slot)
              = (.created (empty.run cs).2.slots.size copy, ⟨(empty.run cs).2.slots.push copy⟩)
            ∧ copy.program = x.program ∧ copy.stackSize = x.stackSize
            ∧ copy.bindings = x.bindings ∧ copy.evaluate.1 = x.evaluate.1 := by
  have hsize : empty.slots.size = 0 := rfl
  have hempty : Alike (source 0 k cs) empty empty := ⟨rfl, rfl⟩
  obtain ⟨hanswers, hend⟩ := Alike.run hsize hempty
  refine ⟨hanswers, hend.slot, fun slot x hx => ?_⟩
  have hcopy : x.duplicate.Agrees x := ⟨rfl, fun _ => rfl⟩
  exact ⟨x.duplicate, step_duplicate hx, rfl, rfl, rfl, hcopy.evaluate_eq⟩

/-- A product of a variable. -/
def doubled : Program := [.var "x", .num 2, .op .multiply]

/-- A copy is made between two changes of its source. -/
def forked : List Command :=
  [ .create (.program doubled), .act 0 (.set "x" 1), .duplicate 0, .act 0 (.set "x" 5)
  , .act 1 (.set "y" 10), .act 0 (.validate true), .act 1 .evaluate, .act 1 .clear
  , .act 1 .evaluate ]

theorem copies_independent_forked :
    relevant 0 1 forked
        = [ .create (.program doubled), .act 0 (.set "x" 1), .duplicate 0, .act 1 (.set "y" 10)
          , .act 1 .evaluate, .act 1 .clear, .act 1 .evaluate ]
      ∧ empty.answersAbout 1 forked = empty.answersAbout 1 (relevant 0 1 forked)
      ∧ ∃ x, (empty.run forked).2.slots[0]? = some x
        ∧ ∃ copy, (empty.run forked).2.step (.duplicate 0)
            = (.created 2 copy, ⟨(empty.run forked).2.slots.push copy⟩)
          ∧ copy.bindings = Table.ofList [("x", 5)] ∧ copy.evaluate.1 = x.evaluate.1 := by
  have hx : (empty.run forked).2.slots[0]? = some
      { program := doubled, bindings := Table.ofList [("x", 5)], stackSize := 2 } := by
    rfl
  obtain ⟨hanswers, -, hcopy⟩ := copies_independent forked 1
  obtain ⟨copy, hstep, -, -, hbindings, hevaluate⟩ := hcopy 0 _ hx
  exact ⟨rfl, hanswers, _, hx, copy, hstep, hbindings, hevaluate⟩

end Session

end StackCalc
