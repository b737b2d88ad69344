/-
  StackCalc.Proofs.Postorder

  The balanced programs are the programs of trees.

  A program is read back into trees as it is run, with trees in place of values:
  `Instr.graft` takes the trees of the operands off a stack and puts the tree of
  the result there.  Reading the program of a tree gives the tree, so no two
  trees have the same program.  And where the count of the check finds no
  instruction that lacks values, each instruction finds the trees that it takes:
  reading comes to an end, with as many trees as the count says.
-/
import StackCalc.Proofs.Agreement
import StackCalc.Proofs.Tree

namespace StackCalc

/-! ## Reading a program back -/

/-- The trees after an instruction, the latest first: it takes those of its
    operands, if there are as many. -/
def Instr.graft : Instr → List Tree → Option (List Tree)
  | .num value, ts => some (.num value :: ts)
  | .var name, ts => some (.var name :: ts)
  | .op o, ts =>
    match ho : o.operation, ts with
    | .unary f, e :: below => some (.unary o f ho e :: below)
    -- the right operand is the later one
    | .binary f, r :: l :: below => some (.binary o f ho l r :: below)
    | _, _ => none
  | .fn g, ts =>
    match hg : g.operation, ts with
    | .nullary f, below => some (.call0 g f hg :: below)
    | .unary f, e :: below => some (.call1 g f hg e :: below)
    | .binary f, r :: l :: below => some (.call2 g f hg l r :: below)
    | _, _ => none

namespace Instr

variable {o : Operator} {g : Func} (below : List Tree)

theorem graft_unary {f : Float → Float} (ho : o.operation = .unary f) (e : Tree) :
    (Instr.op o).graft (e :: below) = some (.unary o f ho e :: below) := by
  obtain ⟨symbol, precedence, associativity, operation⟩ := o
  cases ho
  rfl

theorem graft_binary {f : Float → Float → Float} (ho : o.operation = .binary f) (l r : Tree) :
    (Instr.op o).graft (r :: l :: below) = some (.binary o f ho l r :: below) := by
  obtain ⟨symbol, precedence, associativity, operation⟩ := o
  cases ho
  rfl

theorem graft_call0 {f : Except Error Float} (hg : g.operation = .nullary f) :
    (Instr.fn g).graft below = some (.call0 g f hg :: below) := by
  obtain ⟨name, operation⟩ := g
  cases hg
  rfl

theorem graft_call1 {f : Float → Except Error Float} (hg : g.operation = .unary f) (e : Tree) :
    (Instr.fn g).graft (e :: below) = some (.call1 g f hg e :: below) := by
  obtain ⟨name, operation⟩ := g
  cases hg
  rfl

theorem graft_call2 {f : Float → Float → Except Error Float} (hg : g.operation = .binary f)
    (l r : Tree) :
    (Instr.fn g).graft (r :: l :: below) = some (.call2 g f hg l r :: below) := by
  obtain ⟨name, operation⟩ := g
  cases hg
  rfl

end Instr

namespace Program

/-- The trees after a program, the latest first, if every instruction finds as
    many as it takes. -/
def trees (ts : List Tree) : Program → Option (List Tree)
  | [] => some ts
  | i :: rest => (i.graft ts).bind fun us => trees us rest

theorem trees_append {ts us vs : List Tree} {p q : Program} (hp : trees ts p = some us)
    (hq : trees us q = some vs) : trees ts (p ++ q) = some vs := by
  induction p generalizing ts with
  | nil =>
    cases hp
    exact hq
  | cons i rest ih =>
    rw [trees] at hp
    obtain ⟨below, hgraft, hrest⟩ := Option.bind_eq_some_iff.mp hp
    rw [List.cons_append, trees, hgraft]
    exact ih hrest

theorem trees_concat {ts us vs : List Tree} {p : Program} {i : Instr} (hp : trees ts p = some us)
    (hi : i.graft us = some vs) : trees ts (p ++ [i]) = some vs := by
  apply trees_append hp
  rw [trees, hi]
  rfl

end Program

namespace Tree

open Program (trees)

/-- The program of a tree is read as that tree, above whatever was there. -/
theorem trees_postorder (t : Tree) (ts : List Tree) : trees ts t.postorder = some (t :: ts) := by
  induction t generalizing ts with
  | num | var => rfl
  | unary o f ho e ih => exact Program.trees_concat (ih ts) (Instr.graft_unary ts ho e)
  | binary o f ho l r ihl ihr =>
    have hoperands := Program.trees_append (ihl ts) (ihr (l :: ts))
    exact Program.trees_concat hoperands (Instr.graft_binary ts ho l r)
  | call0 g f hg => exact Program.trees_concat (p := []) rfl (Instr.graft_call0 ts hg)
  | call1 g f hg e ih => exact Program.trees_concat (ih ts) (Instr.graft_call1 ts hg e)
  | call2 g f hg l r ihl ihr =>
    have harguments := Program.trees_append (ihl ts) (ihr (l :: ts))
    exact Program.trees_concat harguments (Instr.graft_call2 ts hg l r)

theorem postorder_injective {t u : Tree} (h : t.postorder = u.postorder) : t = u := by
  -- both are what is read from the one program
  have ht := t.trees_postorder []
  rw [h, u.trees_postorder] at ht
  cases ht
  rfl

theorem postorder_ne_nil (t : Tree) : t.postorder ≠ [] := by
  cases t <;> simp [postorder]

/-- The program of a tree leaves one value. -/
theorem leaves_postorder (t : Tree) : Program.Leaves t.postorder 1 := by
  induction t with
  | num value => exact Program.leaves_nil.instr rfl
  | var name => exact Program.leaves_nil.instr rfl
  | unary o f ho e ih => exact ih.instr (Operator.arity_of_unary ho)
  | binary o f ho l r ihl ihr =>
    exact (ihl.append ihr).instr (Operator.arity_of_binary ho)
  | call0 g f hg => exact Program.leaves_nil.instr (Func.arity_of_nullary hg)
  | call1 g f hg e ih => exact ih.instr (Func.arity_of_unary hg)
  | call2 g f hg l r ihl ihr => exact (ihl.append ihr).instr (Func.arity_of_binary hg)

theorem balance_postorder (t : Tree) : t.postorder.balance = [] :=
  t.leaves_postorder.balance t.postorder_ne_nil

end Tree

/-! ## Programs in which nothing lacks values -/

namespace Program

/-- The programs of the trees one after the other; the latest tree comes last. -/
def ofTrees : List Tree → Program
  | [] => []
  | t :: below => ofTrees below ++ t.postorder

/-- The trees of two operands on top. -/
theorem exists_two_of_length {ts : List Tree} (h : 2 ≤ ts.length) :
    ∃ r l below, ts = r :: l :: below := by
  obtain ⟨r, rest, rfl⟩ := List.exists_cons_of_length_pos (Nat.lt_of_lt_of_le Nat.two_pos h)
  obtain ⟨l, below, rfl⟩ := List.exists_cons_of_length_pos (Nat.lt_of_succ_lt_succ h)
  exact ⟨r, l, below, rfl⟩

theorem ofTrees_unary {t : Tree} {i : Instr} (e : Tree) (below : List Tree)
    (h : t.postorder = e.postorder ++ [i]) :
    ofTrees (t :: below) = ofTrees (e :: below) ++ [i] := by
  rw [ofTrees, ofTrees, h, List.append_assoc]

theorem ofTrees_binary {t : Tree} {i : Instr} (l r : Tree) (below : List Tree)
    (h : t.postorder = l.postorder ++ r.postorder ++ [i]) :
    ofTrees (t :: below) = ofTrees (r :: l :: below) ++ [i] := by
  rw [ofTrees, ofTrees, ofTrees, h]
  simp only [List.append_assoc]

/-- An instruction that finds as many trees as it takes. -/
theorem exists_graft {i : Instr} {ts : List Tree} (h : i.arity ≤ ts.length) :
    ∃ us, i.graft ts = some us ∧ ofTrees us = ofTrees ts ++ [i]
      ∧ us.length + i.arity = ts.length + 1 := by
  cases i with
  | num value => exact ⟨.num value :: ts, rfl, rfl, rfl⟩
  | var name => exact ⟨.var name :: ts, rfl, rfl, rfl⟩
  | op o =>
    cases ho : o.operation with
    | unary f =>
      have harity : (Instr.op o).arity = 1 := Operator.arity_of_unary ho
      rw [harity] at h ⊢
      obtain ⟨e, below, rfl⟩ := List.exists_cons_of_length_pos h
      exact ⟨_, Instr.graft_unary below ho e, ofTrees_unary e below rfl, rfl⟩
    | binary f =>
      have harity : (Instr.op o).arity = 2 := Operator.arity_of_binary ho
      rw [harity] at h ⊢
      obtain ⟨r, l, below, rfl⟩ := exists_two_of_length h
      exact ⟨_, Instr.graft_binary below ho l r, ofTrees_binary l r below rfl, rfl⟩
  | fn g =>
    cases hg : g.operation with
    | nullary f =>
      have harity : (Instr.fn g).arity = 0 := Func.arity_of_nullary hg
      rw [harity]
      exact ⟨_, Instr.graft_call0 ts hg, rfl, rfl⟩
    | unary f =>
      have harity : (Instr.fn g).arity = 1 := Func.arity_of_unary hg
      rw [harity] at h ⊢
      obtain ⟨e, below, rfl⟩ := List.exists_cons_of_length_pos h
      exact ⟨_, Instr.graft_call1 below hg e, ofTrees_unary e below rfl, rfl⟩
    | binary f =>
      have harity : (Instr.fn g).arity = 2 := Func.arity_of_binary hg
      rw [harity] at h ⊢
      obtain ⟨r, l, below, rfl⟩ := exists_two_of_length h
      exact ⟨_, Instr.graft_call2 below hg l r, ofTrees_binary l r below rfl, rfl⟩

/-- Where no instruction lacks values, the program is read to its end, and what
    is read spells it. -/
theorem exists_trees {p : Program} {ts : List Tree} (h : lackingFrom ts.length p = none) :
    ∃ us, trees ts p = some us ∧ ofTrees us = ofTrees ts ++ p
      ∧ (us.length : Int) = ts.length + gain p := by
  induction p generalizing ts with
  | nil => exact ⟨ts, rfl, (List.append_nil _).symm, (Int.add_zero _).symm⟩
  | cons i rest ih =>
    by_cases hi : i.arity ≤ ts.length
    · obtain ⟨us, hgraft, hspell, hlength⟩ := exists_graft hi
      -- the number of trees is the count that the check goes on with
      have hcount : (ts.length : Int) + i.gain = us.length := by
        rw [Instr.gain]
        omega
      rw [lackingFrom_cons_of_le rest (by omega), hcount] at h
      obtain ⟨vs, htrees, hspell', hlength'⟩ := ih h
      refine ⟨vs, ?_, ?_, ?_⟩
      · rw [trees, hgraft, Option.bind_some, htrees]
      · rw [hspell', hspell, List.append_assoc, List.singleton_append]
      · rw [gain_cons]
        omega
    · rw [lackingFrom_cons_of_lt rest (by omega)] at h
      cases h

theorem exists_postorder {p : Program} (h : p.balance = []) : ∃ t : Tree, t.postorder = p := by
  obtain ⟨hlacking, hgain⟩ := balance_eq_nil_iff.mp h
  obtain ⟨us, -, hspell, hlength⟩ := @exists_trees p [] hlacking
  have hone : us.length = 1 := by
    rw [hgain, List.length_nil] at hlength
    omega
  -- the one tree that is left spells the whole program
  obtain ⟨t, rfl⟩ := List.length_eq_one_iff.mp hone
  exact ⟨t, hspell⟩

/-- What the check says of a program that is not balanced. -/
theorem complaints_of_unbalanced {p : Program} (hne : p.balance ≠ []) :
    p.complaints = ["empty program"] ∨ p.complaints = ["too many operands"]
      ∨ p.complaints = ["too many operators"]
      ∨ ∃ f, .fn f ∈ p ∧ p.complaints
          = ["not enough arguments for '" ++ f.name ++ "'", "too many operators"] := by
  cases hlacking : lackingFrom 0 p with
  | some i =>
    have hfirst := firstLacking_iff.mpr hlacking
    rcases hfirst.cases with ⟨o, rfl⟩ | ⟨f, rfl⟩
    · exact Or.inr (Or.inr (Or.inl (complaints_of_op hfirst)))
    · have hcomplaints := complaints_of_fn hfirst
      obtain ⟨before, after, hp, -⟩ := hfirst
      have hmem : Instr.fn f ∈ p := by rw [hp]; simp
      exact Or.inr (Or.inr (Or.inr ⟨f, hmem, hcomplaints⟩))
  | none =>
    by_cases hempty : p = []
    · exact Or.inl (complaints_eq_empty_iff.mpr hempty)
    · -- nothing lacks values, so too many are left
      have hle := one_le_of_lackingFrom hlacking hempty
      have hgain : gain p ≠ 1 := fun hone => hne (balance_eq_nil_iff.mpr ⟨hlacking, hone⟩)
      have hlt : 1 < gain p := by omega
      have hcomplaints := complaints_of_lackingFrom hlacking hempty
      rw [if_pos hlt] at hcomplaints
      exact Or.inr (Or.inl hcomplaints)

/-- The check of the balance accepts the programs of trees and no others, and a
    program is the program of one tree at most.  Of any other program it says one
    of four things; the last is about a function of the program. -/
theorem balanced_iff_postorder (p : Program) :
    (p.balance = [] ↔ ∃ t : Tree, t.postorder = p)
      ∧ (∀ t u : Tree, t.postorder = p → u.postorder = p → t = u)
      ∧ (p.balance ≠ [] →
          p.complaints = ["empty program"] ∨ p.complaints = ["too many operands"]
            ∨ p.complaints = ["too many operators"]
            ∨ ∃ f, .fn f ∈ p ∧ p.complaints
                = ["not enough arguments for '" ++ f.name ++ "'", "too many operators"]) := by
  refine ⟨⟨exists_postorder, ?_⟩, ?_, complaints_of_unbalanced⟩
  · rintro ⟨t, rfl⟩
    exact t.balance_postorder
  · intro t u ht hu
    exact Tree.postorder_injective (ht.trans hu.symm)

/-- A function of two arguments. -/
def distance : Func := ⟨"distance", .binary fun x y => .ok (x - y)⟩

/-- The function finds one argument, and a number behind it makes up the count. -/
def stranded : Program := [.var "x", .fn distance, .num 2]

theorem balanced_iff_postorder_stranded :
    gain stranded = 1 ∧ stranded.balance ≠ [] ∧ ¬ ∃ t : Tree, t.postorder = stranded := by
  have hne : stranded.balance ≠ [] := List.cons_ne_nil _ _
  exact ⟨rfl, hne, fun hex => hne ((balanced_iff_postorder stranded).1.mpr hex)⟩

end Program

end StackCalc
