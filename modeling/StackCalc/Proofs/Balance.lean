/-
  StackCalc.Proofs.Balance

  The signed count of a program, and what it says about the values that its
  instructions find.

  Every instruction changes the count by one less its arity, whatever its kind:
  `Instr.recount_eq`.  So the count before an instruction that has found nothing
  missing so far is the number of values that it finds, and the check ends at the
  first instruction that finds too few.
-/
import StackCalc.Program.Balance

namespace StackCalc

namespace Instr

/-- How many more values there are after an instruction than before it. -/
def gain (i : Instr) : Int := 1 - i.arity

theorem recount_eq (count : Int) (i : Instr) : i.recount count = count + i.gain := by
  cases i with
  | num | var => simp [recount, gain, arity]
  | op o =>
    have hpos := o.arity_pos
    have hle := o.arity_le_two
    rw [recount, gain, arity]
    split
    · next h =>
      have harity : o.arity = 2 := by simpa using h
      rw [harity]
      omega
    · next h =>
      have harity : o.arity ≠ 2 := by simpa using h
      omega
  | fn f =>
    have hle := f.arity_le_two
    rw [recount, gain, arity]
    split
    · omega
    · split
      · next h =>
        have harity : f.arity = 0 := by simpa using h
        omega
      · next h =>
        have harity : f.arity ≠ 0 := by simpa using h
        omega

theorem shortage_of_le {count : Int} {i : Instr} (h : i.arity ≤ count) :
    i.shortage count = [] := by
  cases i with
  | fn f => exact if_neg (Int.not_lt.mpr h)
  | num | var | op => rfl

/-- What is said about an instruction that finds too few values. -/
def complaint : Instr → List BalanceFault
  | fn f => [.notEnoughArguments f.name]
  | _ => []

theorem shortage_of_lt {count : Int} {i : Instr} (h : count < i.arity) :
    i.shortage count = i.complaint := by
  cases i with
  | fn f => exact if_pos h
  | num | var | op => rfl

end Instr

namespace Program

/-- How many more values there are after a program than before it. -/
def gain : Program → Int
  | [] => 0
  | i :: rest => i.gain + gain rest

@[simp] theorem gain_nil : gain [] = 0 := rfl

@[simp] theorem gain_cons (i : Instr) (p : Program) : gain (i :: p) = i.gain + gain p := rfl

@[simp] theorem gain_append (p q : Program) : gain (p ++ q) = gain p + gain q := by
  induction p with
  | nil => rw [List.nil_append, gain_nil, Int.zero_add]
  | cons i rest ih => rw [List.cons_append, gain_cons, gain_cons, ih, Int.add_assoc]

/-- The order of the instructions does not matter to the count. -/
theorem gain_of_perm {p q : Program} (h : p.Perm q) : gain p = gain q := by
  induction h with
  | nil => rfl
  | cons i _ ih => rw [gain_cons, gain_cons, ih]
  | swap i j rest =>
    simp only [gain_cons]
    omega
  | trans _ _ ih₁ ih₂ => exact ih₁.trans ih₂

/-! ## One instruction -/

theorem balanceFrom_cons_of_le {count : Int} {i : Instr} (rest : Program)
    (h : i.arity ≤ count) : balanceFrom count (i :: rest) = balanceFrom (count + i.gain) rest := by
  have hnext : ¬ count + i.gain < 1 := by
    rw [Instr.gain]
    omega
  simp only [balanceFrom, Instr.shortage_of_le h, Instr.recount_eq, if_neg hnext, List.nil_append]

theorem balanceFrom_cons_of_lt {count : Int} {i : Instr} (rest : Program)
    (h : count < i.arity) :
    balanceFrom count (i :: rest) = i.complaint ++ [.tooManyOperators] := by
  have hnext : count + i.gain < 1 := by
    rw [Instr.gain]
    omega
  simp only [balanceFrom, Instr.shortage_of_lt h, Instr.recount_eq, if_pos hnext]

theorem balance_cons (i : Instr) (rest : Program) :
    balance (i :: rest) = balanceFrom 0 (i :: rest) := rfl

/-! ## The first instruction that lacks values -/

/-- The first instruction that finds fewer values than it takes, when the program
    starts with `count` of them. -/
def lackingFrom (count : Int) : Program → Option Instr
  | [] => none
  | i :: rest => if count < i.arity then some i else lackingFrom (count + i.gain) rest

/-- Up to this instruction all find the values that they take, and this one does
    not. -/
def FirstLacking (p : Program) (i : Instr) : Prop :=
  ∃ before after, p = before ++ i :: after ∧ gain before < i.arity
    ∧ ∀ b j a, before = b ++ j :: a → j.arity ≤ gain b

theorem lackingFrom_cons_of_le {count : Int} {i : Instr} (rest : Program) (h : i.arity ≤ count) :
    lackingFrom count (i :: rest) = lackingFrom (count + i.gain) rest :=
  if_neg (Int.not_lt.mpr h)

theorem lackingFrom_cons_of_lt {count : Int} {i : Instr} (rest : Program) (h : count < i.arity) :
    lackingFrom count (i :: rest) = some i :=
  if_pos h

theorem lackingFrom_eq_some_iff {count : Int} {p : Program} {i : Instr} :
    lackingFrom count p = some i ↔ ∃ before after, p = before ++ i :: after
      ∧ count + gain before < i.arity
      ∧ ∀ b j a, before = b ++ j :: a → j.arity ≤ count + gain b := by
  induction p generalizing count with
  | nil => simp [lackingFrom]
  | cons k rest ih =>
    by_cases hk : k.arity ≤ count
    · rw [lackingFrom_cons_of_le rest hk, ih]
      constructor
      · rintro ⟨before, after, rfl, hlt, hle⟩
        refine ⟨k :: before, after, rfl, ?_, ?_⟩
        · rw [gain_cons]
          omega
        · intro b j a hsplit
          cases b with
          | nil =>
            cases hsplit
            rw [gain_nil]
            omega
          | cons k' b =>
            rw [List.cons_append, List.cons.injEq] at hsplit
            obtain ⟨rfl, hsplit⟩ := hsplit
            have hj := hle b j a hsplit
            rw [gain_cons]
            omega
      · rintro ⟨before, after, hsplit, hlt, hle⟩
        cases before with
        | nil =>
          -- the instruction itself lacks nothing
          cases hsplit
          rw [gain_nil] at hlt
          omega
        | cons k' before =>
          rw [List.cons_append, List.cons.injEq] at hsplit
          obtain ⟨rfl, rfl⟩ := hsplit
          rw [gain_cons] at hlt
          refine ⟨before, after, rfl, by omega, ?_⟩
          intro b j a hbefore
          have hj := hle (k :: b) j a (by rw [hbefore, List.cons_append])
          rw [gain_cons] at hj
          omega
    · rw [lackingFrom_cons_of_lt rest (by omega), Option.some.injEq]
      constructor
      · rintro rfl
        refine ⟨[], rest, rfl, ?_, ?_⟩
        · rw [gain_nil]
          omega
        · intro b j a hsplit
          exact absurd hsplit (by simp)
      · rintro ⟨before, after, hsplit, hlt, hle⟩
        cases before with
        | nil =>
          cases hsplit
          rfl
        | cons k' before =>
          rw [List.cons_append, List.cons.injEq] at hsplit
          obtain ⟨rfl, rfl⟩ := hsplit
          have hj := hle [] k before rfl
          rw [gain_nil] at hj
          omega

theorem firstLacking_iff {p : Program} {i : Instr} :
    FirstLacking p i ↔ lackingFrom 0 p = some i := by
  rw [lackingFrom_eq_some_iff, FirstLacking]
  simp only [Int.zero_add]

theorem lackingFrom_append (count : Int) (p q : Program) :
    lackingFrom count (p ++ q) = (lackingFrom count p).or (lackingFrom (count + gain p) q) := by
  induction p generalizing count with
  | nil => rw [List.nil_append, lackingFrom, Option.none_or, gain_nil, Int.add_zero]
  | cons i rest ih =>
    rw [List.cons_append]
    by_cases hi : i.arity ≤ count
    · rw [lackingFrom_cons_of_le _ hi, lackingFrom_cons_of_le _ hi, ih, gain_cons, Int.add_assoc]
    · rw [lackingFrom_cons_of_lt _ (by omega), lackingFrom_cons_of_lt _ (by omega), Option.some_or]

/-- The check ends at the first instruction that lacks values, and otherwise
    counts what is left. -/
theorem balanceFrom_eq (count : Int) (p : Program) :
    balanceFrom count p = match lackingFrom count p with
      | some i => i.complaint ++ [.tooManyOperators]
      | none => if 1 < count + gain p then [.tooManyOperands] else [] := by
  induction p generalizing count with
  | nil => rw [lackingFrom, balanceFrom, gain_nil, Int.add_zero]
  | cons i rest ih =>
    by_cases hi : i.arity ≤ count
    · rw [balanceFrom_cons_of_le rest hi, lackingFrom_cons_of_le rest hi, ih, gain_cons,
        Int.add_assoc]
    · rw [balanceFrom_cons_of_lt rest (by omega), lackingFrom_cons_of_lt rest (by omega)]

/-- Where nothing lacks values, some value is left. -/
theorem one_le_of_lackingFrom {count : Int} {p : Program} (h : lackingFrom count p = none)
    (hne : p ≠ []) : 1 ≤ count + gain p := by
  induction p generalizing count with
  | nil => exact absurd rfl hne
  | cons i rest ih =>
    by_cases hi : i.arity ≤ count
    · rw [lackingFrom_cons_of_le rest hi] at h
      rw [gain_cons]
      -- the last instruction leaves its own value
      by_cases hrest : rest = []
      · rw [hrest, gain_nil, Instr.gain]
        omega
      · have hle := ih h hrest
        omega
    · rw [lackingFrom_cons_of_lt rest (by omega)] at h
      cases h

theorem balance_of_firstLacking {p : Program} {i : Instr} (h : FirstLacking p i) :
    p.balance = i.complaint ++ [.tooManyOperators] := by
  have hlacking := firstLacking_iff.mp h
  cases p with
  | nil => cases hlacking
  | cons j rest => rw [balance_cons, balanceFrom_eq, hlacking]

theorem balance_of_lackingFrom {p : Program} (h : lackingFrom 0 p = none) (hne : p ≠ []) :
    p.balance = if 1 < gain p then [.tooManyOperands] else [] := by
  cases p with
  | nil => exact absurd rfl hne
  | cons j rest => rw [balance_cons, balanceFrom_eq, h, Int.zero_add]

/-! ## Balanced programs -/

theorem balance_eq_nil_iff {p : Program} :
    p.balance = [] ↔ lackingFrom 0 p = none ∧ gain p = 1 := by
  constructor
  · intro h
    have hne : p ≠ [] := by
      rintro rfl
      cases h
    cases hlacking : lackingFrom 0 p with
    | some i =>
      rw [balance_of_firstLacking (firstLacking_iff.mpr hlacking)] at h
      exact absurd h (by simp)
    | none =>
      have hle := one_le_of_lackingFrom hlacking hne
      rw [balance_of_lackingFrom hlacking hne] at h
      have hnot : ¬ 1 < gain p := by
        intro hlt
        rw [if_pos hlt] at h
        cases h
      exact ⟨rfl, by omega⟩
  · rintro ⟨hlacking, hgain⟩
    have hne : p ≠ [] := by
      rintro rfl
      cases hgain
    rw [balance_of_lackingFrom hlacking hne, hgain]
    rfl

/-- Wherever the program starts, it takes none of the values there, and leaves
    `n` more of them. -/
def Leaves (p : Program) (n : Nat) : Prop :=
  ∀ count rest, 0 ≤ count → balanceFrom count (p ++ rest) = balanceFrom (count + n) rest

theorem leaves_nil : Leaves [] 0 := by
  intro count rest _
  rw [List.nil_append, Int.natCast_zero, Int.add_zero]

theorem Leaves.append {p q : Program} {m n : Nat} (hp : Leaves p m) (hq : Leaves q n) :
    Leaves (p ++ q) (m + n) := by
  intro count rest hcount
  rw [List.append_assoc, hp count (q ++ rest) hcount, hq (count + m) rest (by omega),
    Int.natCast_add, Int.add_assoc]

theorem leaves_flatten {ps : List Program} (h : ∀ p ∈ ps, Leaves p 1) :
    Leaves ps.flatten ps.length := by
  induction ps with
  | nil => exact leaves_nil
  | cons p ps ih =>
    have hp := h p (List.mem_cons_self ..)
    have hps := ih fun q hq => h q (List.mem_cons_of_mem p hq)
    rw [List.flatten_cons, List.length_cons, Nat.add_comm]
    exact hp.append hps

/-- An instruction takes what the program before it leaves, and leaves one. -/
theorem Leaves.instr {p : Program} {n : Nat} (hp : Leaves p n) {i : Instr} (harity : i.arity = n) :
    Leaves (p ++ [i]) 1 := by
  intro count rest hcount
  have hcons := balanceFrom_cons_of_le rest (show i.arity ≤ count + n by omega)
  have hgain : count + n + i.gain = count + 1 := by
    rw [Instr.gain]
    omega
  calc balanceFrom count (p ++ [i] ++ rest)
      = balanceFrom count (p ++ i :: rest) := by rw [List.append_assoc, List.singleton_append]
    _ = balanceFrom (count + n) (i :: rest) := hp count (i :: rest) hcount
    _ = balanceFrom (count + 1) rest := by rw [hcons, hgain]

theorem Leaves.balance {p : Program} (hp : Leaves p 1) (hne : p ≠ []) : p.balance = [] := by
  cases p with
  | nil => exact absurd rfl hne
  | cons i rest =>
    have hfrom := hp 0 [] Int.le_rfl
    rw [List.append_nil] at hfrom
    rw [balance_cons, hfrom]
    rfl

end Program

end StackCalc
