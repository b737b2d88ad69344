/-
  StackCalc.Proofs.Capacity

  The number of values that the stack has to hold.

  The static count of the depth does not stop where an evaluation does: it goes
  on behind an instruction that lacks values, a variable without a value or a
  function that fails.  But up to there it is the size of the stack, so whatever
  an evaluation does fits into the capacity that is found in this way.  Where the
  evaluation runs to its end the capacity is reached, and for the program of a
  tree it is the number of registers that the tree needs from left to right.
-/
import StackCalc.Proofs.Postorder
import StackCalc.Proofs.Record

namespace StackCalc

namespace Program

/-! ## The greatest depth -/

theorem le_peakFrom (depth best : Nat) (p : Program) : best ≤ peakFrom depth best p := by
  induction p generalizing depth best with
  | nil => exact Nat.le_refl best
  | cons i rest ih => exact Nat.le_trans (Nat.le_max_left ..) (ih ..)

theorem peakFrom_le (depth best : Nat) (p : Program) :
    peakFrom depth best p ≤ max best (depth + p.length) := by
  induction p generalizing depth best with
  | nil => exact Nat.le_max_left ..
  | cons i rest ih =>
    -- no instruction adds more than one value
    have hrest := ih (depth - i.arity + 1) (max best (depth - i.arity + 1))
    rw [peakFrom, List.length_cons]
    omega

/-- The depth behind an instruction that finds its operands. -/
theorem peakFrom_cons {depth next best : Nat} {i : Instr} (h : next = depth - i.arity + 1)
    (rest : Program) :
    peakFrom depth best (i :: rest) = peakFrom next (max best next) rest := by
  rw [peakFrom, h]

theorem stackSize_pos (p : Program) : 1 ≤ p.stackSize := le_peakFrom 0 1 p

theorem stackSize_le (p : Program) : p.stackSize ≤ max 1 p.length := by
  have hle := peakFrom_le 0 1 p
  rwa [Nat.zero_add] at hle

/-! ## Runs on record -/

variable {bindings : Bindings}

/-- What a run adds to the record fits into the greatest depth from there on. -/
theorem fits_record {p : Program} {s : Recorded} {best : Nat} (hbest : s.size ≤ best) {m : Move}
    (h : m ∈ (p.record bindings s).2.moves) : m ∈ s.moves ∨ m.Fits (peakFrom s.size best p) := by
  induction p generalizing s best with
  | nil => exact Or.inl h
  | cons i rest ih =>
    have hsize : s.size ≤ peakFrom s.size best (i :: rest) := Nat.le_trans hbest (le_peakFrom ..)
    rcases record_cons bindings i rest s with
      ⟨s', henough, hnext, hmoves, hrest⟩ | ⟨err, s', n, hn, hmoves, herr⟩
    · -- the static depth behind the instruction is the size of the stack
      rw [hrest] at h
      rw [peakFrom_cons hnext rest] at hsize ⊢
      have hpush : s'.size ≤ peakFrom s'.size (max best s'.size) rest :=
        Nat.le_trans (Nat.le_max_right ..) (le_peakFrom ..)
      rcases ih (Nat.le_max_right best s'.size) h with hm | hfits
      · rw [hmoves, List.append_assoc, List.mem_append, List.mem_append] at hm
        rcases hm with hm | hm | hm
        · exact Or.inl hm
        · exact Or.inr (Move.fits_of_mem_pops henough hsize hm)
        · cases List.mem_singleton.mp hm
          refine Or.inr ?_
          show s.size - i.arity < _
          omega
      · exact Or.inr hfits
    · -- where the run fails it has popped at most, and nothing is pushed
      rw [herr, hmoves, List.mem_append] at h
      exact h.imp_right (Move.fits_of_mem_pops hn hsize)

/-- A run to the end has put its first instruction on record, and goes on from
    there. -/
theorem exists_of_record_cons {i : Instr} {rest : Program} {s s' : Recorded}
    (h : record bindings (i :: rest) s = (.ok (), s')) :
    ∃ s₁, record bindings rest s₁ = (.ok (), s') ∧ s₁.size = s.size - i.arity + 1
      ∧ .push (s.size - i.arity) ∈ s'.moves := by
  rcases record_cons bindings i rest s with ⟨s₁, -, hsize, hmoves, hrest⟩ | ⟨_, _, _, -, -, herr⟩
  · rw [hrest] at h
    have hpush : .push (s.size - i.arity) ∈ (record bindings rest s₁).2.moves := by
      apply mem_moves_record
      rw [hmoves]
      exact List.mem_append_right _ (List.mem_singleton_self _)
    rw [h] at hpush
    exact ⟨s₁, h, hsize, hpush⟩
  · rw [herr] at h
    cases h

/-- A run to the end comes to the greatest depth, if that is more than it has to
    be anyway. -/
theorem exists_peak {p : Program} {s s' : Recorded} {best : Nat}
    (h : p.record bindings s = (.ok (), s')) :
    peakFrom s.size best p = best ∨ ∃ m ∈ s'.moves, m.left = peakFrom s.size best p := by
  induction p generalizing s best with
  | nil => exact Or.inl rfl
  | cons i rest ih =>
    obtain ⟨s₁, hrest, hsize, hpush⟩ := exists_of_record_cons h
    rw [peakFrom_cons hsize rest]
    rcases @ih s₁ (max best s₁.size) hrest with heq | hex
    · -- nothing behind the instruction is deeper than what it leaves
      rcases Nat.le_total s₁.size best with hle | hle
      · rw [Nat.max_eq_left hle] at heq ⊢
        exact Or.inl heq
      · rw [Nat.max_eq_right hle] at heq ⊢
        refine Or.inr ⟨_, hpush, ?_⟩
        rw [heq, hsize]
        rfl
    · exact Or.inr hex

/-! ## Evaluations of any program -/

theorem fits_moves {p : Program} {s : Stack} {m : Move} (h : m ∈ p.moves bindings s) :
    m.Fits p.stackSize := by
  have hrun (hm : m ∈ (p.record bindings { stack := s.clear }).2.moves) : m.Fits p.stackSize := by
    have hempty : ({ stack := s.clear } : Recorded).size = 0 := by simp [Recorded.size]
    have hfits : m ∈ [] ∨ m.Fits (peakFrom _ 1 p) := fits_record (by omega) hm
    rw [hempty] at hfits
    exact hfits.resolve_left List.not_mem_nil
  rw [moves, recordEvaluation] at h
  cases hrecord : p.record bindings { stack := s.clear } with
  | mk r s' =>
    rw [hrecord] at h hrun
    cases r with
    | error err => exact hrun h
    | ok =>
      have hmem : m ∈ (recordAnswer s').2.moves := h
      rcases moves_recordAnswer s' with heq | heq
      · rw [heq] at hmem
        exact hrun hmem
      · rw [heq, List.mem_append, List.mem_singleton] at hmem
        rcases hmem with hmem | rfl
        · exact hrun hmem
        · -- the answer is the only value
          exact ⟨Nat.one_pos, p.stackSize_pos⟩

theorem le_stackSize_of_mem_heights {p : Program} {s : Stack} {n : Nat}
    (h : n ∈ p.heights bindings s) : n ≤ p.stackSize := by
  rcases List.mem_cons.mp h with rfl | h
  · exact Nat.zero_le _
  · obtain ⟨m, hm, rfl⟩ := List.mem_map.mp h
    exact (fits_moves hm).left_le

/-- Whatever the program, the values of its variables and the results of its
    functions: in an evaluation every push finds room and every pop finds a value,
    on a stack that holds as many values as the analysis says.  That is one at
    least, and at most one for each instruction. -/
theorem evaluation_fits (p : Program) (bindings : Bindings) (s : Stack) :
    Recorded.erase (p.recordEvaluation bindings s) = p.evaluate bindings s
      ∧ (∀ m ∈ p.moves bindings s, m.Fits p.stackSize)
      ∧ (∀ n ∈ p.heights bindings s, n ≤ p.stackSize)
      ∧ 1 ≤ p.stackSize ∧ p.stackSize ≤ max 1 p.length :=
  ⟨p.erase_recordEvaluation bindings s, fun _ => fits_moves,
    fun _ => le_stackSize_of_mem_heights, p.stackSize_pos, p.stackSize_le⟩

/-- A program in which the first call fails, and that lacks values behind it. -/
def overdrawn : Program :=
  [.num 1, .num 2, .fn ⟨"quotient", .binary fun _ _ => .error (.domain "no quotient")⟩, .op .add,
    .op .add]

theorem evaluation_fits_overdrawn :
    overdrawn.moves ∅ .empty = [.push 0, .push 1, .pop 2, .pop 1]
      ∧ ∀ m ∈ [Move.push 0, .push 1, .pop 2, .pop 1], m.Fits 2 := by
  have hmoves : overdrawn.moves ∅ .empty = [.push 0, .push 1, .pop 2, .pop 1] := rfl
  have hfits := (evaluation_fits overdrawn ∅ .empty).2.1
  rw [hmoves] at hfits
  exact ⟨hmoves, hfits⟩

/-! ## Evaluations to the end -/

/-- An evaluation that fails nowhere has run the whole program from an empty
    stack. -/
theorem exists_record_of_evaluate {p : Program} {s : Stack} {v : Float}
    (h : (p.evaluate bindings s).1 = .ok v) :
    ∃ start s', start.size = 0 ∧ p.record bindings start = (.ok (), s')
      ∧ (∀ m ∈ s'.moves, m.left ∈ p.heights bindings s) := by
  rw [← p.erase_recordEvaluation] at h
  cases hrecord : p.record bindings { stack := s.clear } with
  | mk r s' =>
    cases r with
    | error err =>
      rw [recordEvaluation, hrecord] at h
      cases h
    | ok =>
      refine ⟨{ stack := s.clear }, s', by simp [Recorded.size], hrecord, ?_⟩
      intro m hm
      have hmem : m ∈ (recordAnswer s').2.moves := by
        rcases moves_recordAnswer s' with heq | heq <;> rw [heq]
        · exact hm
        · exact List.mem_append_left _ hm
      rw [heights, moves, recordEvaluation, hrecord]
      exact List.mem_cons_of_mem 0 (List.mem_map_of_mem hmem)

/-- An evaluation that fails nowhere comes to the capacity of its stack. -/
theorem stackSize_mem_heights {p : Program} {s : Stack} {v : Float}
    (h : (p.evaluate bindings s).1 = .ok v) (hne : p ≠ []) :
    p.stackSize ∈ p.heights bindings s := by
  obtain ⟨start, s', hstart, hrecord, hheights⟩ := exists_record_of_evaluate h
  have hpeak : peakFrom start.size 1 p = 1 ∨ _ := exists_peak hrecord
  rw [hstart] at hpeak
  rcases hpeak with hone | ⟨m, hm, hleft⟩
  · -- a capacity of one is reached by the first instruction
    cases p with
    | nil => exact absurd rfl hne
    | cons i rest =>
      obtain ⟨-, -, -, hpush⟩ := exists_of_record_cons hrecord
      have hmem := hheights _ hpush
      have hle := le_stackSize_of_mem_heights hmem
      have hsize : stackSize (i :: rest) = 1 := hone
      have heq : (Move.push (start.size - i.arity)).left = 1 := by
        rw [hsize] at hle
        exact Nat.le_antisymm hle (Nat.le_add_left ..)
      rw [hsize, ← heq]
      exact hmem
  · rw [stackSize, ← hleft]
    exact hheights m hm

theorem max?_heights {p : Program} {s : Stack} {v : Float}
    (h : (p.evaluate bindings s).1 = .ok v) (hne : p ≠ []) :
    (p.heights bindings s).max? = some p.stackSize :=
  List.max?_eq_some_iff.mpr
    ⟨stackSize_mem_heights h hne, fun _ => le_stackSize_of_mem_heights⟩

/-! ## Programs of trees -/

/-- Wherever the program starts, it leaves one value, and holds `n` at most on the
    way above those that were there. -/
def Reaches (p : Program) (n : Nat) : Prop :=
  ∀ depth best rest,
    peakFrom depth best (p ++ rest) = peakFrom (depth + 1) (max best (depth + n)) rest

theorem reaches_leaf {i : Instr} (harity : i.arity = 0) : Reaches [i] 1 := by
  intro depth best rest
  rw [List.singleton_append, peakFrom, harity, Nat.sub_zero]

theorem Reaches.unary {p : Program} {n : Nat} {i : Instr} (hp : Reaches p n) (hpos : 1 ≤ n)
    (harity : i.arity = 1) : Reaches (p ++ [i]) n := by
  intro depth best rest
  -- the instruction leaves no more than its operand has needed
  have hbest : max (max best (depth + n)) (depth + 1) = max best (depth + n) := by omega
  rw [List.append_assoc, List.singleton_append, hp, peakFrom, harity, Nat.add_sub_cancel, hbest]

theorem Reaches.binary {p q : Program} {m n : Nat} {i : Instr} (hp : Reaches p m)
    (hq : Reaches q n) (hpos : 1 ≤ m) (harity : i.arity = 2) :
    Reaches (p ++ q ++ [i]) (max m (1 + n)) := by
  intro depth best rest
  -- the second operand is computed above the value of the first
  have hbest : max (max (max best (depth + m)) (depth + 1 + n)) (depth + 1)
      = max best (depth + max m (1 + n)) := by omega
  have hdepth : depth + 1 + 1 - 2 + 1 = depth + 1 := by omega
  rw [List.append_assoc, List.append_assoc, List.singleton_append, hp, hq, peakFrom, harity,
    hdepth, hbest]

end Program

namespace Tree

/-- How many values the stack holds at most while a tree is evaluated: the value
    of the first operand is kept while the second one is computed. -/
def width : Tree → Nat
  | num _ | var _ | call0 .. => 1
  | unary _ _ _ e | call1 _ _ _ e => e.width
  | binary _ _ _ l r | call2 _ _ _ l r => max l.width (1 + r.width)

theorem width_pos (t : Tree) : 1 ≤ t.width := by
  induction t with
  | num | var | call0 => exact Nat.le_refl 1
  | unary _ _ _ _ ih | call1 _ _ _ _ ih => exact ih
  | binary _ _ _ _ _ ih _ | call2 _ _ _ _ _ ih _ => exact Nat.le_trans ih (Nat.le_max_left ..)

theorem reaches_postorder (t : Tree) : t.postorder.Reaches t.width := by
  induction t with
  | num value => exact Program.reaches_leaf rfl
  | var name => exact Program.reaches_leaf rfl
  | unary o f ho e ih => exact ih.unary e.width_pos (Operator.arity_of_unary ho)
  | binary o f ho l r ihl ihr =>
    exact ihl.binary ihr l.width_pos (Operator.arity_of_binary ho)
  | call0 g f hg => exact Program.reaches_leaf (Func.arity_of_nullary hg)
  | call1 g f hg e ih => exact ih.unary e.width_pos (Func.arity_of_unary hg)
  | call2 g f hg l r ihl ihr =>
    exact ihl.binary ihr l.width_pos (Func.arity_of_binary hg)

theorem stackSize_postorder (t : Tree) : t.postorder.stackSize = t.width := by
  have hpeak := t.reaches_postorder 0 1 []
  have hpos := t.width_pos
  have hmax : max 1 (0 + t.width) = t.width := by omega
  rw [List.append_nil, hmax] at hpeak
  exact hpeak

end Tree

/-! ## Analysed programs -/

namespace Program

/-- The analysis of a balanced program, and every expression of it, has one
    capacity for the stack: the width of the tree of the program, and the
    greatest number of values that there are during any evaluation that comes to
    a value. -/
theorem capacity_of_balanced {p : Program} (h : p.balance = []) :
    ∃ n, p.analyze = .ok (n, p) ∧ (Expression.ofProgram p).stackSize = n
      ∧ (∀ ts x, Expression.compile ts = .ok x → x.program = p → x.stackSize = n)
      ∧ (∃ t : Tree, t.postorder = p) ∧ (∀ t : Tree, t.postorder = p → t.width = n)
      ∧ ∀ bindings s v, (p.evaluate bindings s).1 = .ok v →
          (p.heights bindings s).max? = some n := by
  refine ⟨p.stackSize, analyze_eq_ok_iff.mpr ⟨h, rfl, rfl⟩, rfl, ?_, exists_postorder h, ?_, ?_⟩
  · -- compiling stores what the analysis gives
    rintro ts x hcompile rfl
    obtain ⟨q, -, -, rfl⟩ := Expression.compile_eq_ok_iff.mp hcompile
    rfl
  · rintro t rfl
    exact t.stackSize_postorder.symm
  · intro bindings s v hv
    have hne : p ≠ [] := by
      rintro rfl
      cases h
    exact max?_heights hv hne

/-- A quotient that waits for a product, which waits for a call, which waits for its
    second argument. -/
def nested : Tree :=
  .binary .divide _ rfl (.var "x")
    (.binary .multiply _ rfl (.num 1)
      (.call2 distance _ rfl (.var "x") (.num 2)))

theorem capacity_of_balanced_nested :
    nested.postorder.balance = [] ∧ nested.postorder.analyze = .ok (4, nested.postorder)
      ∧ (∃ v, (nested.postorder.evaluate (Table.ofList [("x", 3)]) ⟨#[5, 7]⟩).1 = .ok v)
      ∧ (nested.postorder.heights (Table.ofList [("x", 3)]) ⟨#[5, 7]⟩).max? = some 4 := by
  have hvalue : ∃ v, nested.value (Table.ofList [("x", 3)]) = .ok v := ⟨_, rfl⟩
  obtain ⟨v, hv⟩ := hvalue
  have hevaluate := (nested.computes_postorder (Table.ofList [("x", 3)])).evaluate ⟨#[5, 7]⟩
  rw [hv] at hevaluate
  obtain ⟨n, hanalyze, -, -, -, hwidth, hheights⟩ := capacity_of_balanced nested.balance_postorder
  have hn : 4 = n := hwidth nested rfl
  subst hn
  exact ⟨nested.balance_postorder, hanalyze, ⟨v, hevaluate⟩, hheights _ _ v hevaluate⟩

end Program

end StackCalc
