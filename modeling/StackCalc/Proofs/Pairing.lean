/-
  StackCalc.Proofs.Pairing

  Functions that wait, and the parentheses of their argument lists.

  The parenthesis of a list comes to wait directly behind its function, and the two
  leave together.  As long as they wait, nothing stands between them, whatever the
  stream holds and whether or not it is converted in the end (`Pending.Paired`).  So
  two of the reader's cases do not occur: no list is closed that has no function below
  it, and no function is left for the end of the stream.
-/
import StackCalc.Func.Builtin
import StackCalc.Operator.Builtin
import StackCalc.Proofs.Nesting

namespace StackCalc

namespace Pending

/-- Each argument list that waits lies directly above a function, and each function
    that waits directly below an argument list; only one that has just been read is
    on top and has none yet.  Places are counted from the top. -/
structure Paired (previous : Option Token) (pending : List Pending) : Prop where
  previous_of_top : ∀ f, pending[0]? = some (.function f) → previous = some (.fn f)
  list_of_function : ∀ i f, pending[i + 1]? = some (.function f) →
    ∃ n, pending[i]? = some (.paren true n)
  function_of_list : ∀ i n, pending[i]? = some (.paren true n) →
    ∃ f, pending[i + 1]? = some (.function f)

variable {previous : Option Token} {pending below : List Pending}

theorem paired_nil (previous : Option Token) : Paired previous [] := by
  refine ⟨fun f h => ?_, fun i f h => ?_, fun i n h => ?_⟩ <;> simp at h

/-- Anything but a list may come on top where no function is on top, and a function
    only if it has just been read. -/
theorem Paired.cons {entry : Pending} (h : Paired none below)
    (hfunction : ∀ f, entry = .function f → previous = some (.fn f))
    (hlist : ∀ n, entry ≠ .paren true n) : Paired previous (entry :: below) := by
  refine ⟨?_, ?_, ?_⟩
  · intro f hf
    rw [List.getElem?_cons_zero, Option.some.injEq] at hf
    exact hfunction f hf
  · intro i f hf
    rw [List.getElem?_cons_succ] at hf
    cases i with
    | zero => cases h.previous_of_top f hf
    | succ i => exact h.list_of_function i f hf
  · intro i n hn
    cases i with
    | zero =>
      rw [List.getElem?_cons_zero, Option.some.injEq] at hn
      exact absurd hn (hlist n)
    | succ i => exact h.function_of_list i n hn

/-- A list comes on top together with its function. -/
theorem Paired.list (h : Paired none below) (n : Nat) (f : Func) :
    Paired previous (.paren true n :: .function f :: below) := by
  refine ⟨?_, ?_, ?_⟩
  · intro g hg
    cases hg
  · intro i g hg
    cases i with
    | zero => exact ⟨n, rfl⟩
    | succ i =>
      cases i with
      | zero => cases h.previous_of_top g hg
      | succ i => exact h.list_of_function i g hg
  · intro i m hm
    cases i with
    | zero => exact ⟨f, rfl⟩
    | succ i =>
      cases i with
      | zero => cases hm
      | succ i => exact h.function_of_list i m hm

/-- Operators that are taken off leave the pairs as they are. -/
theorem Paired.of_operators {os : List Operator}
    (h : Paired previous (os.map .operator ++ below)) : Paired previous below := by
  induction os with
  | nil => exact h
  | cons o os ih =>
    apply ih
    refine ⟨?_, fun i => h.list_of_function (i + 1), fun i => h.function_of_list (i + 1)⟩
    -- no function lies directly below an operator
    intro f hf
    obtain ⟨n, hn⟩ := h.list_of_function 0 f hf
    cases hn

/-! ## The end of the stream -/

/-- What the end of the stream emits, from the top down to the first parenthesis, if
    there is one. -/
def emitted : List Pending → Program
  | [] => []
  | operator o :: below => .op o :: emitted below
  | function f :: below => .fn f :: emitted below
  | paren _ _ :: _ => []

theorem drain_cases (pending : List Pending) :
    drain pending = .ok (emitted pending) ∨ drain pending = .error .mismatchedParenthesis := by
  induction pending with
  | nil => exact Or.inl rfl
  | cons top below ih =>
    cases top with
    | paren => exact Or.inr rfl
    | operator | function =>
      rw [drain, emitted]
      rcases ih with h | h
      · rw [h]
        exact Or.inl rfl
      · rw [h]
        exact Or.inr rfl

/-- Where no function has just been read, only operators are emitted at the end. -/
theorem Paired.emitted_op (h : Paired previous pending)
    (hfn : Converter.isFn previous = false) : ∀ i ∈ emitted pending, ∃ o, i = .op o := by
  induction pending with
  | nil =>
    intro i hi
    cases hi
  | cons top below ih =>
    cases top with
    | paren =>
      intro i hi
      cases hi
    | function f =>
      rw [h.previous_of_top f rfl] at hfn
      cases hfn
    | operator o =>
      intro i hi
      rcases List.mem_cons.mp hi with rfl | hi
      · exact ⟨o, rfl⟩
      · exact ih (@Paired.of_operators previous below [o] h) i hi

end Pending

namespace Converter

open Pending (Paired)

/-! ## The pairs are kept -/

theorem Opened.paired {pending : List Pending} {ts : List Token} (h : Opened pending ts)
    (previous : Option Token) : Paired previous pending := by
  induction h generalizing previous with
  | row => exact Pending.paired_nil previous
  | operator _ _ ih | group _ _ ih => exact (ih none).cons (by rintro _ ⟨⟩) (by rintro _ ⟨⟩)
  | call _ _ _ _ ih => exact (ih none).list _ _

theorem Reading.paired {pending : List Pending} {previous : Option Token} {ts : List Token}
    (h : Reading pending previous ts) : Paired previous pending := by
  cases h with
  | between _ _ hopened => exact hopened.paired previous
  | calling hopened =>
    refine (hopened.paired none).cons ?_ (by rintro _ ⟨⟩)
    rintro _ ⟨⟩
    rfl

/-! ## What does not fail -/

/-- A stage of the conversion that does not fail for want of a function. -/
abbrev FindsFunctions {α : Type} (x : Except ParseFault α) : Prop :=
  x ≠ .error .argumentsWithoutFunction

theorem findsFunctions_checkCall (previous next : Option Token) :
    FindsFunctions (checkCall previous next) := by
  unfold checkCall
  split <;> rintro ⟨⟩

theorem findsFunctions_separate (s : Converter) : FindsFunctions s.separate := by
  rw [separate]
  split
  · rintro ⟨⟩
  · rintro ⟨⟩
  · rintro ⟨⟩
  · split <;> rintro ⟨⟩

/-- Below a list that is closed is its function. -/
theorem findsFunctions_closeCall {previous : Option Token} {os : List Operator} {n given : Nat}
    {below : List Pending} {out : Program}
    (h : Paired previous (os.map .operator ++ .paren true n :: below)) :
    FindsFunctions (closeCall given out below) := by
  obtain ⟨f, hf⟩ := h.of_operators.function_of_list 0 n rfl
  cases below with
  | nil => cases hf
  | cons top below =>
    cases hf
    rw [closeCall]
    split <;> rintro ⟨⟩

theorem findsFunctions_close {s : Converter} (h : Paired s.previous s.pending) :
    FindsFunctions s.close := by
  have hcall {out : Program} {n given : Nat} {below : List Pending}
      (hrelease : Pending.releaseAll s.pending = (out, .paren true n :: below)) :
      FindsFunctions (closeCall given out below) := by
    obtain ⟨os, hpending, -⟩ := Pending.release_spec hrelease
    rw [hpending] at h
    exact findsFunctions_closeCall h
  rw [close]
  split
  · rintro ⟨⟩
  · split
    · next hrelease => exact hcall hrelease
    · rintro ⟨⟩
    · rintro ⟨⟩
  · split
    · next hrelease => exact hcall hrelease
    · rintro ⟨⟩
    · rintro ⟨⟩

theorem findsFunctions_step {s : Converter} (h : Paired s.previous s.pending) (t : Token) :
    FindsFunctions (s.step t) := by
  have hplace : FindsFunctions (s.place t) := by
    cases t with
    | num | var | fn | op | lparen => rintro ⟨⟩
    | comma => exact findsFunctions_separate s
    | rparen => exact findsFunctions_close h
  rw [step]
  refine bind_ne_error (findsFunctions_checkCall _ _) fun _ _ => ?_
  exact bind_ne_error hplace (by rintro _ _ ⟨⟩)

theorem findsFunctions_feed {s : Converter} {ts : List Token}
    (h : Reading s.pending s.previous ts) (us : List Token) : FindsFunctions (s.feed us) := by
  induction us generalizing s ts with
  | nil => rintro ⟨⟩
  | cons t us ih =>
    rw [feed]
    refine bind_ne_error (findsFunctions_step h.paired t) ?_
    rintro ⟨out, s₁⟩ hstep
    have hnext := reading_of_feed (feed_singleton hstep) h
    exact bind_ne_error (ih hnext) (by rintro _ _ ⟨⟩)

theorem findsFunctions_finish (s : Converter) : FindsFunctions s.finish := by
  rw [finish]
  refine bind_ne_error (findsFunctions_checkCall _ _) fun _ _ => ?_
  rcases Pending.drain_cases s.pending with h | h
  · rw [h]
    rintro ⟨⟩
  · rw [h]
    rintro ⟨⟩

end Converter

namespace Program

open Converter

theorem findsFunctions_ofTokens (ts : List Token) : FindsFunctions (ofTokens ts) := by
  rw [ofTokens]
  refine bind_ne_error (findsFunctions_feed (.between rfl rfl (.row .nil)) ts) ?_
  rintro ⟨out, s⟩ -
  refine bind_ne_error (findsFunctions_finish s) fun rest _ => ?_
  show (if (out ++ rest).isEmpty then _ else _) ≠ _
  split <;> rintro ⟨⟩

/-- However the stream goes on behind what has been read, and also while operators are
    taken off, each function that waits lies directly below an argument list, unless it
    is the token that has just been read, and each argument list directly above a
    function.  So no argument list is ever found without its function.  A stream that
    ends with a function is refused before anything is emitted, and what the end of any
    other stream emits, in full or down to a parenthesis, is operators. -/
theorem lists_keep_functions (ts : List Token) :
    (∀ read out s, read <+: ts → ({} : Converter).feed read = .ok (out, s) →
        ∀ (os : List Operator) below, s.pending = os.map .operator ++ below →
          Pending.Paired s.previous below)
      ∧ ofTokens ts ≠ .error .argumentsWithoutFunction
      ∧ ∀ out s, ({} : Converter).feed ts = .ok (out, s) →
          (∀ f, s.previous = some (.fn f) → s.finish = .error (.missingCallParen f.name))
            ∧ (isFn s.previous = false →
              (∀ i ∈ Pending.emitted s.pending, ∃ o, i = .op o)
                ∧ (s.finish = .ok (Pending.emitted s.pending)
                  ∨ s.finish = .error .mismatchedParenthesis)) := by
  refine ⟨?_, findsFunctions_ofTokens ts, ?_⟩
  · intro read out s _ hfeed os below hpending
    have hpaired := (reading_of_start hfeed).paired
    rw [hpending] at hpaired
    exact hpaired.of_operators
  · intro out s hfeed
    constructor
    · intro f hf
      rw [finish, hf]
      rfl
    · intro hfn
      refine ⟨(reading_of_start hfeed).paired.emitted_op hfn, ?_⟩
      rw [finish, checkCall_of_not_isFn hfn]
      exact Pending.drain_cases s.pending

/-- The tokens of `a + pow(2, -x`, with a list that is not closed. -/
def unclosed : List Token :=
  [.var "a", .op .add, .fn (.ofBinary "pow" Float.pow), .lparen, .num 2, .comma, .op .negate,
    .var "x"]

theorem lists_keep_functions_unclosed :
    ∃ out s, ({} : Converter).feed unclosed = .ok (out, s)
      ∧ s.pending = [.operator .negate, .paren true 1, .function (.ofBinary "pow" Float.pow),
          .operator .add]
      ∧ Pending.Paired s.previous
          [.paren true 1, .function (.ofBinary "pow" Float.pow), .operator .add]
      ∧ ofTokens unclosed ≠ .error .argumentsWithoutFunction
      ∧ Pending.emitted s.pending = [.op .negate]
      ∧ s.finish = .error .mismatchedParenthesis := by
  obtain ⟨hpaired, hne, hend⟩ := lists_keep_functions unclosed
  have hfeed : ({} : Converter).feed unclosed = .ok ([.var "a", .num 2, .var "x"],
      ⟨[.operator .negate, .paren true 1, .function (.ofBinary "pow" Float.pow), .operator .add],
        some (.var "x")⟩) := rfl
  have hbelow := hpaired unclosed _ _ List.prefix_rfl hfeed [.negate] _ rfl
  refine ⟨_, _, hfeed, rfl, hbelow, hne, rfl, ?_⟩
  -- the end of the stream comes to the parenthesis
  rcases ((hend _ _ hfeed).2 rfl).2 with h | h
  · cases h
  · exact h

end Program

end StackCalc
