/-
  StackCalc.Proofs.Record

  Evaluations on record.

  A recorded stack is a stack with the list of its moves: each push and each pop,
  with the number of values that the move found.  The evaluation is written out
  on it as it is on a stack, and without the record it is the evaluation itself:
  `Program.erase_recordEvaluation`.  What an instruction puts on record is said
  once, in `Instr.Uses`: it pops its operands one by one and pushes one value on
  what was below them, unless it fails after the pops, or before them.
-/
import StackCalc.Proofs.Execution

namespace StackCalc

/-- A use of the stack, with the number of values that it finds. -/
inductive Move where
  | push (found : Nat)
  | pop (found : Nat)
  deriving DecidableEq, Repr

namespace Move

/-- The number of values that there are after the move. -/
def left : Move → Nat
  | push n => n + 1
  | pop n => n - 1

/-- A stack of this capacity has room for what is pushed, and something to pop. -/
def Fits (capacity : Nat) : Move → Prop
  | push n => n < capacity
  | pop n => 0 < n ∧ n ≤ capacity

/-- The moves of `n` pops, the first of which finds `found` values. -/
def pops (found : Nat) : Nat → List Move
  | 0 => []
  | n + 1 => pop found :: pops (found - 1) n

theorem Fits.left_le {m : Move} {capacity : Nat} (h : m.Fits capacity) : m.left ≤ capacity := by
  cases m with
  | push n => exact h
  | pop n => exact Nat.le_trans (Nat.sub_le n 1) h.2

theorem fits_of_mem_pops {m : Move} {found n capacity : Nat} (hn : n ≤ found)
    (hfound : found ≤ capacity) (h : m ∈ pops found n) : m.Fits capacity := by
  induction n generalizing found with
  | zero => cases h
  | succ n ih =>
    rcases List.mem_cons.mp h with rfl | h
    · exact ⟨by omega, hfound⟩
    · exact ih (by omega) (by omega) h

end Move

/-! ## The evaluation, with a record -/

/-- A stack with a record of its moves, in order. -/
structure Recorded where
  stack : Stack
  moves : List Move := []

namespace Recorded

/-- How many values there are. -/
def size (s : Recorded) : Nat := s.stack.size

/-- A push, put on record. -/
def push (s : Recorded) (v : Float) : Recorded :=
  ⟨s.stack.push v, s.moves ++ [.push s.size]⟩

/-- A pop, put on record. -/
def pop (s : Recorded) : Float × Recorded :=
  (s.stack.pop.1, ⟨s.stack.pop.2, s.moves ++ [.pop s.size]⟩)

/-- The result of a function, as `Stack.deliver` does it. -/
def deliver (s : Recorded) : Except Error Float → Except Error Unit × Recorded
  | .ok v => (.ok (), s.push v)
  | .error e => (.error e, s)

/-- An operator, as `Stack.operate` does it. -/
def operate (s : Recorded) : Operator.Operation → Recorded
  | .unary f =>
    let (x, s) := s.pop
    s.push (f x)
  | .binary f =>
    let (right, s) := s.pop
    let (left, s) := s.pop
    s.push (f left right)

/-- A call, as `Stack.call` does it. -/
def call (s : Recorded) : Func.Operation → Except Error Unit × Recorded
  | .nullary f => s.deliver f
  | .unary f =>
    let (x, s) := s.pop
    s.deliver (f x)
  | .binary f =>
    let (second, s) := s.pop
    let (first, s) := s.pop
    s.deliver (f first second)

/-- A result without the record. -/
def erase {α : Type} (r : α × Recorded) : α × Stack := (r.1, r.2.stack)

end Recorded

/-- One instruction, on record. -/
def Instr.record (bindings : Bindings) (i : Instr) (s : Recorded) :
    Except Error Unit × Recorded :=
  match i with
  | .num v => (.ok (), s.push v)
  | .var name =>
    match bindings.find? name with
    | some v => (.ok (), s.push v)
    | none => (.error (.unboundVariable name), s)
  | .op o =>
    if s.size < o.arity then (.error (.operandUnderflow o.symbol), s)
    else (.ok (), s.operate o.operation)
  | .fn f =>
    if s.size < f.arity then (.error (.operandUnderflow f.name), s)
    else s.call f.operation

namespace Program

/-- Instructions one after the other, on record. -/
def record (bindings : Bindings) : Program → Recorded → Except Error Unit × Recorded
  | [], s => (.ok (), s)
  | i :: rest, s =>
    match i.record bindings s with
    | (.ok (), s) => record bindings rest s
    | (.error e, s) => (.error e, s)

/-- The answer that a finished run leaves, on record. -/
def recordAnswer (s : Recorded) : Except Error Float × Recorded :=
  match s.size with
  | 1 => let (v, s) := s.pop; (.ok v, s)
  | 0 => (.error (.internal "evaluation finished with an empty stack"), s)
  | n => (.error (.surplusOperands n), s)

/-- An evaluation, on record from where the stack is cleared. -/
def recordEvaluation (p : Program) (bindings : Bindings) (s : Stack) :
    Except Error Float × Recorded :=
  match p.record bindings { stack := s.clear } with
  | (.ok (), s) => recordAnswer s
  | (.error e, s) => (.error e, s)

/-- The moves of an evaluation, in order. -/
def moves (p : Program) (bindings : Bindings) (s : Stack) : List Move :=
  (p.recordEvaluation bindings s).2.moves

/-- The numbers of values on the stack during an evaluation: none when it is
    cleared, and then what each move leaves. -/
def heights (p : Program) (bindings : Bindings) (s : Stack) : List Nat :=
  0 :: (p.moves bindings s).map Move.left

end Program

/-! ## Without the record -/

namespace Recorded

theorem erase_deliver (s : Recorded) (result : Except Error Float) :
    erase (s.deliver result) = s.stack.deliver result := by
  cases result <;> rfl

theorem stack_operate (s : Recorded) (operation : Operator.Operation) :
    (s.operate operation).stack = s.stack.operate operation := by
  cases operation <;> rfl

theorem erase_call (s : Recorded) (operation : Func.Operation) :
    erase (s.call operation) = s.stack.call operation := by
  cases operation with
  | nullary f => exact s.erase_deliver f
  | unary f => exact erase_deliver s.pop.2 (f s.pop.1)
  | binary f => exact erase_deliver s.pop.2.pop.2 (f s.pop.2.pop.1 s.pop.1)

end Recorded

open Recorded (erase)

theorem Instr.erase_record (bindings : Bindings) (i : Instr) (s : Recorded) :
    erase (i.record bindings s) = i.run bindings s.stack := by
  cases i with
  | num value => rfl
  | var name =>
    rw [record, run]
    cases bindings.find? name <;> rfl
  | op o =>
    rw [record, run, Recorded.size]
    split
    · rfl
    · rw [erase, s.stack_operate]
  | fn f =>
    rw [record, run, Recorded.size]
    split
    · rfl
    · exact s.erase_call f.operation

namespace Program

theorem erase_record (bindings : Bindings) (p : Program) (s : Recorded) :
    erase (p.record bindings s) = p.run bindings s.stack := by
  induction p generalizing s with
  | nil => rfl
  | cons i rest ih =>
    have hinstr := i.erase_record bindings s
    rw [record, run, ← hinstr]
    obtain ⟨r, s'⟩ := i.record bindings s
    cases r with
    | ok => exact ih s'
    | error err => rfl

theorem erase_recordAnswer (s : Recorded) : erase (recordAnswer s) = answer s.stack := by
  rw [recordAnswer, answer, Recorded.size]
  rcases s.stack.size with _ | _ | n <;> rfl

/-- Without its record, a recorded evaluation is the evaluation. -/
theorem erase_recordEvaluation (p : Program) (bindings : Bindings) (s : Stack) :
    erase (p.recordEvaluation bindings s) = p.evaluate bindings s := by
  have hrun := p.erase_record bindings { stack := s.clear }
  rw [recordEvaluation, evaluate, ← hrun]
  obtain ⟨r, s'⟩ := p.record bindings { stack := s.clear }
  cases r with
  | ok => exact erase_recordAnswer s'
  | error err => rfl

end Program

/-! ## What an instruction puts on record -/

namespace Recorded

open Move (pops)

theorem moves_deliver {s s' : Recorded} {result : Except Error Float} {r : Except Error Unit}
    (h : s.deliver result = (r, s')) :
    r = .ok () ∧ s'.moves = s.moves ++ [.push s.size]
      ∨ ∃ err, r = .error err ∧ s'.moves = s.moves := by
  cases result with
  | ok v =>
    cases h
    exact Or.inl ⟨rfl, rfl⟩
  | error err =>
    cases h
    exact Or.inr ⟨err, rfl, rfl⟩

theorem size_pop (s : Recorded) : s.pop.2.size = s.size - 1 := s.stack.size_pop

theorem moves_pop (s : Recorded) : s.pop.2.moves = s.moves ++ pops s.size 1 := rfl

theorem moves_pop_pop (s : Recorded) : s.pop.2.pop.2.moves = s.moves ++ pops s.size 2 := by
  show s.moves ++ [.pop s.size] ++ [.pop s.pop.2.size] = _
  rw [size_pop, List.append_assoc]
  rfl

theorem moves_operate (s : Recorded) (operation : Operator.Operation) :
    (s.operate operation).moves
      = s.moves ++ pops s.size operation.arity ++ [.push (s.size - operation.arity)] := by
  cases operation with
  | unary f =>
    show s.pop.2.moves ++ [.push s.pop.2.size] = _
    rw [moves_pop, size_pop]
    rfl
  | binary f =>
    show s.pop.2.pop.2.moves ++ [.push s.pop.2.pop.2.size] = _
    rw [moves_pop_pop, size_pop, size_pop]
    rfl

theorem moves_call {s s' : Recorded} {operation : Func.Operation} {r : Except Error Unit}
    (h : s.call operation = (r, s')) :
    r = .ok () ∧ s'.moves
        = s.moves ++ pops s.size operation.arity ++ [.push (s.size - operation.arity)]
      ∨ ∃ err, r = .error err ∧ s'.moves = s.moves ++ pops s.size operation.arity := by
  -- the result is delivered on what the pops have left
  cases operation with
  | nullary f =>
    have hspec := moves_deliver h
    rw [← List.append_nil s.moves] at hspec
    exact hspec
  | unary f =>
    have hspec := moves_deliver (s := s.pop.2) h
    rw [moves_pop, size_pop] at hspec
    exact hspec
  | binary f =>
    have hspec := moves_deliver (s := s.pop.2.pop.2) h
    rw [moves_pop_pop, size_pop, size_pop] at hspec
    exact hspec

end Recorded

namespace Instr

open Move (pops)

/-- What one instruction does to a recorded stack. -/
inductive Uses (i : Instr) (s : Recorded) : Except Error Unit × Recorded → Prop where
  /-- It pops its operands and pushes one value. -/
  | done {s' : Recorded} (henough : i.arity ≤ s.size) (hsize : s'.size = s.size - i.arity + 1)
      (hmoves : s'.moves = s.moves ++ pops s.size i.arity ++ [.push (s.size - i.arity)]) :
      Uses i s (.ok (), s')
  /-- It pops its operands and has no value to push. -/
  | raised {err : Error} {s' : Recorded} (henough : i.arity ≤ s.size)
      (hmoves : s'.moves = s.moves ++ pops s.size i.arity) : Uses i s (.error err, s')
  /-- It finds too few values, and takes none. -/
  | lacking {err : Error} (hlacking : s.size < i.arity) : Uses i s (.error err, s)

theorem moves_record {bindings : Bindings} {i : Instr} {s s' : Recorded} {r : Except Error Unit}
    (henough : i.arity ≤ s.size) (h : i.record bindings s = (r, s')) :
    r = .ok () ∧ s'.moves = s.moves ++ pops s.size i.arity ++ [.push (s.size - i.arity)]
      ∨ ∃ err, r = .error err ∧ s'.moves = s.moves ++ pops s.size i.arity := by
  cases i with
  | num value =>
    cases h
    refine Or.inl ⟨rfl, ?_⟩
    show _ = s.moves ++ [] ++ _
    rw [List.append_nil]
    rfl
  | var name =>
    rw [record] at h
    cases hfind : bindings.find? name with
    | some value =>
      rw [hfind] at h
      cases h
      refine Or.inl ⟨rfl, ?_⟩
      show _ = s.moves ++ [] ++ _
      rw [List.append_nil]
      rfl
    | none =>
      rw [hfind] at h
      cases h
      exact Or.inr ⟨_, rfl, (List.append_nil _).symm⟩
  | op o =>
    have hge : ¬ s.size < o.arity := Nat.not_lt.mpr henough
    rw [record, if_neg hge] at h
    cases h
    exact Or.inl ⟨rfl, s.moves_operate o.operation⟩
  | fn f =>
    have hge : ¬ s.size < f.arity := Nat.not_lt.mpr henough
    rw [record, if_neg hge] at h
    exact Recorded.moves_call h

theorem record_of_lt (bindings : Bindings) {i : Instr} {s : Recorded} (h : s.size < i.arity) :
    ∃ err, i.record bindings s = (.error err, s) := by
  cases i with
  | num | var => exact absurd h (Nat.not_lt_zero _)
  | op o => exact ⟨_, if_pos h⟩
  | fn f => exact ⟨_, if_pos h⟩

theorem uses_record (bindings : Bindings) (i : Instr) (s : Recorded) :
    Uses i s (i.record bindings s) := by
  by_cases henough : i.arity ≤ s.size
  · -- the instruction finds its operands, and may still fail behind the pops
    have hends := i.ends_run bindings s.stack
    rw [← erase_record] at hends
    cases hrecord : i.record bindings s with
    | mk r s' =>
      rcases moves_record henough hrecord with ⟨rfl, hmoves⟩ | ⟨err, rfl, hmoves⟩
      · rw [hrecord] at hends
        -- the size after it is known from the run
        cases hends with
        | done _ hsize =>
          have hsize' : s'.size + i.arity = s.size + 1 := hsize
          exact .done henough (by omega) hmoves
      · exact .raised henough hmoves
  · obtain ⟨err, hrecord⟩ := record_of_lt bindings (Nat.not_le.mp henough)
    rw [hrecord]
    exact .lacking (Nat.not_le.mp henough)

end Instr

/-! ## What a run puts on record -/

namespace Program

open Move (pops)

variable {bindings : Bindings}

theorem record_cons_of_ok {i : Instr} {rest : Program} {s s' : Recorded}
    (h : i.record bindings s = (.ok (), s')) :
    record bindings (i :: rest) s = record bindings rest s' := by
  rw [record, h]

theorem record_cons_of_error {i : Instr} {rest : Program} {s s' : Recorded} {err : Error}
    (h : i.record bindings s = (.error err, s')) :
    record bindings (i :: rest) s = (.error err, s') := by
  rw [record, h]

/-- A run goes on behind its first instruction, with one value in place of the
    operands, or it fails there, after some pops. -/
theorem record_cons (bindings : Bindings) (i : Instr) (rest : Program) (s : Recorded) :
    (∃ s', i.arity ≤ s.size ∧ s'.size = s.size - i.arity + 1
        ∧ s'.moves = s.moves ++ pops s.size i.arity ++ [.push (s.size - i.arity)]
        ∧ record bindings (i :: rest) s = record bindings rest s')
      ∨ ∃ err s' n, n ≤ s.size ∧ s'.moves = s.moves ++ pops s.size n
        ∧ record bindings (i :: rest) s = (.error err, s') := by
  have huses := i.uses_record bindings s
  cases hrecord : i.record bindings s with
  | mk r s' =>
    rw [hrecord] at huses
    cases huses with
    | done henough hsize hmoves =>
      exact Or.inl ⟨s', henough, hsize, hmoves, record_cons_of_ok hrecord⟩
    | raised henough hmoves =>
      exact Or.inr ⟨_, s', i.arity, henough, hmoves, record_cons_of_error hrecord⟩
    | lacking =>
      have hnone : s.moves = s.moves ++ pops s.size 0 := (List.append_nil _).symm
      exact Or.inr ⟨_, s, 0, Nat.zero_le _, hnone, record_cons_of_error hrecord⟩

/-- The record only grows. -/
theorem mem_moves_record {p : Program} {s : Recorded} {m : Move} (h : m ∈ s.moves) :
    m ∈ (p.record bindings s).2.moves := by
  induction p generalizing s with
  | nil => exact h
  | cons i rest ih =>
    rcases record_cons bindings i rest s with
      ⟨s', -, -, hmoves, hrest⟩ | ⟨err, s', n, -, hmoves, herr⟩
    · rw [hrest]
      apply ih
      rw [hmoves, List.append_assoc]
      exact List.mem_append_left _ h
    · rw [herr, hmoves]
      exact List.mem_append_left _ h

/-- An answer is taken off the stack, and nothing else is. -/
theorem moves_recordAnswer (s : Recorded) :
    (recordAnswer s).2.moves = s.moves ∨ (recordAnswer s).2.moves = s.moves ++ [.pop 1] := by
  rw [recordAnswer]
  split
  · next hone =>
    refine Or.inr ?_
    show s.moves ++ [.pop s.size] = _
    rw [hone]
  · exact Or.inl rfl
  · exact Or.inl rfl

end Program

end StackCalc
