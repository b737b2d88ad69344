/-
  StackCalc.Proofs.Emission

  In which order the instructions of a row are emitted.

  `Converter.Emits` follows a row to its end, token after token, with a label on
  each instruction.  What waits leaves from the top, so what is below is emitted
  later (`Emits.sublist`), and so is what has not been read yet
  (`Emits.pair_of_comes`).
-/
import StackCalc.Proofs.Arrangement
import StackCalc.Proofs.WellFormed

namespace StackCalc

variable {α : Type}

open Token (labelled)

/-! ## What waits -/

namespace Pending

theorem mem_labelled_of_mem {os : List (Operator × α)} {o : Operator} {a : α} (h : (o, a) ∈ os) :
    (.op o, a) ∈ labelled (os.map ofOperator) := by
  induction os with
  | nil => exact absurd h List.not_mem_nil
  | cons x os ih =>
    rcases List.mem_cons.mp h with rfl | h
    · exact List.mem_cons_self ..
    · exact List.mem_cons_of_mem _ (ih h)

/-- An operator above the innermost parenthesis goes with all that is above it. -/
theorem mem_of_above_paren {os above : List (Operator × α)} {kept below : List (Pending × α)}
    {o : Operator} {a b : α} {call : Bool} {n : Nat}
    (h : os.map ofOperator ++ (.paren call n, b) :: kept
      = above.map ofOperator ++ (.operator o, a) :: below) : (o, a) ∈ os := by
  rcases kept_or_released h with ⟨above', habove, hkept⟩ | ⟨x, hx, hw⟩
  · -- only operators are above it
    cases above' with
    | nil => cases hkept
    | cons v above' =>
      have hv : v ∈ above.map ofOperator := by simp [habove]
      obtain ⟨x, -, rfl⟩ := List.mem_map.mp hv
      cases (List.cons.inj hkept).1
  · cases hw
    exact hx

end Pending

namespace Converter

open Pending (Blocks ofOperator)

/-! ## One token -/

/-- One token is read: the reader accepts it, and moves the labels as it moves
    what they are on. -/
structure Moves (previous : Option Token) (ws : List (Pending × α)) (x : Token × α)
    (xs : List (Instr × α)) (ws' : List (Pending × α)) : Prop where
  effect : Effect (ws.map Prod.fst) previous x.1 (xs.map Prod.fst) (ws'.map Prod.fst)
  carries : Carries previous ws x xs ws'

/-- An operator takes off what it completes, and nothing else. -/
theorem Moves.op {previous : Option Token} {ws ws' : List (Pending × α)} {o : Operator} {a : α}
    {xs : List (Instr × α)} (h : Moves previous ws (.op o, a) xs ws') :
    ∃ (os : List (Operator × α)) (kept : List (Pending × α)), ws = os.map ofOperator ++ kept
      ∧ xs = Pending.labelled (os.map ofOperator) ∧ ws' = (.operator o, a) :: kept
      ∧ (∀ w ∈ os, w.1.completedBy o = true) ∧ Blocks (·.completedBy o) (kept.map Prod.fst) := by
  obtain ⟨heffect, hcarries⟩ := h
  cases hcarries with
  | op _ _ os kept =>
    refine ⟨os, kept, rfl, rfl, rfl, ?_⟩
    generalize hwaiting : (os.map ofOperator ++ kept).map Prod.fst = waiting at heffect
    generalize hout : (Pending.labelled (os.map ofOperator)).map Prod.fst = out at heffect
    cases heffect with
    | op _ os' below hpending _ hbelow hos =>
      -- as many operators are taken off with their labels as without
      have hsame : os.map Prod.fst = os' := by
        rw [map_fst_operators] at hout
        exact List.map_injective_iff.mpr (fun _ _ => Instr.op.inj) hout
      refine ⟨fun w hw => hos w.1 ?_, hbelow⟩
      rw [← hsame]
      exact List.mem_map_of_mem hw

/-- A separator and a closing parenthesis take off all operators above the
    innermost parenthesis. -/
theorem Carries.mem_of_above {previous : Option Token} {ws ws' : List (Pending × α)}
    {above : List (Operator × α)} {o : Operator} {i : α} {below : List (Pending × α)}
    {x : Token × α} {xs : List (Instr × α)} (h : Carries previous ws x xs ws')
    (hws : ws = above.map ofOperator ++ (.operator o, i) :: below)
    (hx : x.1 = .comma ∨ x.1 = .rparen) : (.op o, i) ∈ xs := by
  cases h with
  | num | var | fn | op | lparen => rcases hx with hx | hx <;> cases hx
  | comma | closeGroup => exact Pending.mem_labelled_of_mem (Pending.mem_of_above_paren hws)
  | closeCall =>
    have hmem := Pending.mem_labelled_of_mem (Pending.mem_of_above_paren hws)
    exact List.mem_append_left _ hmem

/-- What waits is emitted in the order in which it waits, the top first. -/
theorem Carries.sublist {previous : Option Token} {ws ws' : List (Pending × α)} {x : Token × α}
    {xs : List (Instr × α)} (h : Carries previous ws x xs ws') :
    (Pending.labelled ws).Sublist (xs ++ Pending.labelled ws') := by
  cases h with
  | num | var => exact List.sublist_cons_self ..
  | fn => exact List.sublist_cons_self ..
  | lparen => exact List.Sublist.refl _
  | op o a os kept =>
    rw [Pending.labelled_append]
    exact (List.sublist_cons_self ..).append_left _
  | comma a b os n kept =>
    rw [Pending.labelled_append]
    exact List.Sublist.refl _
  | closeGroup a b os n kept =>
    rw [Pending.labelled_append]
    exact List.Sublist.refl _
  | closeCall a b os n f c kept =>
    rw [Pending.labelled_append, List.append_assoc]
    exact List.Sublist.refl _

/-! ## A row to its end -/

/-- All instructions with their labels, in the order in which they are emitted,
    from a place of a row on: those of what waits there, and those of the rest of
    the row. -/
inductive Emits :
    Option Token → List (Pending × α) → List (Token × α) → List (Instr × α) → Prop where
  | drain {previous} (os : List (Operator × α)) :
      Emits previous (os.map ofOperator) [] (Pending.labelled (os.map ofOperator))
  | move {previous} {ws ws₁ : List (Pending × α)} {x : Token × α} {row : List (Token × α)}
      {xs out : List (Instr × α)} (hfirst : Moves previous ws x xs ws₁)
      (hrest : Emits (some x.1) ws₁ row out) : Emits previous ws (x :: row) (xs ++ out)

theorem exists_emits {s s' : Converter} {row : List (Token × α)} {out : Program}
    {ws : List (Pending × α)} {os : List Operator} (h : s.feed (row.map Prod.fst) = .ok (out, s'))
    (hws : ws.map Prod.fst = s.pending) (hos : s'.pending = os.map .operator) :
    ∃ placed, Emits s.previous ws row placed
      ∧ placed.map Prod.fst = out ++ Pending.instrs s'.pending := by
  induction row generalizing s ws out with
  | nil =>
    cases h
    rw [hos, ← List.append_nil (os.map Pending.operator)] at hws
    obtain ⟨los, kept, rfl, rfl, hkept⟩ := Pending.exists_labels hws
    obtain rfl := List.map_eq_nil_iff.mp hkept
    simp only [List.append_nil] at hws ⊢
    refine ⟨_, .drain los, ?_⟩
    rw [Pending.map_fst_labelled, hws, hos, List.nil_append]
  | cons x row ih =>
    obtain ⟨first, s₁, more, heffect, hprevious, hfeed, rfl⟩ := exists_effect_of_feed h
    rw [← hws] at heffect
    obtain ⟨xs, ws₁, hcarries, rfl, hpending⟩ := heffect.exists_carries x.2
    obtain ⟨placed, hrest, hplaced⟩ := ih hfeed hpending
    rw [hprevious] at hrest
    rw [← hpending] at heffect
    refine ⟨xs ++ placed, .move ⟨heffect, hcarries⟩ hrest, ?_⟩
    rw [List.map_append, hplaced, List.append_assoc]

namespace Emits

variable {previous : Option Token} {ws : List (Pending × α)} {row : List (Token × α)}
  {out : List (Instr × α)}

theorem exists_move {x : Token × α} (h : Emits previous ws (x :: row) out) :
    ∃ xs ws₁ back, Moves previous ws x xs ws₁ ∧ Emits (some x.1) ws₁ row back
      ∧ out = xs ++ back := by
  cases h with
  | move hfirst hrest => exact ⟨_, _, _, hfirst, hrest, rfl⟩

theorem num {value : Float} {a : α} (h : Emits previous ws ((.num value, a) :: row) out) :
    ∃ back, Emits (some (.num value)) ws row back ∧ out = [(.num value, a)] ++ back := by
  obtain ⟨xs, ws₁, back, hfirst, hrest, rfl⟩ := h.exists_move
  obtain ⟨rfl, rfl⟩ := hfirst.carries.num_emitted
  exact ⟨back, hrest, rfl⟩

theorem var {name : String} {a : α} (h : Emits previous ws ((.var name, a) :: row) out) :
    ∃ back, Emits (some (.var name)) ws row back ∧ out = [(.var name, a)] ++ back := by
  obtain ⟨xs, ws₁, back, hfirst, hrest, rfl⟩ := h.exists_move
  obtain ⟨rfl, rfl⟩ := hfirst.carries.var_emitted
  exact ⟨back, hrest, rfl⟩

theorem lparen {a : α} (h : Emits previous ws ((.lparen, a) :: row) out) :
    Emits (some .lparen) ((.paren (isFn previous) 0, a) :: ws) row out := by
  obtain ⟨xs, ws₁, back, hfirst, hrest, rfl⟩ := h.exists_move
  obtain ⟨rfl, rfl⟩ := hfirst.carries.lparen_waits
  exact hrest

/-- Behind a function its parenthesis is opened above it. -/
theorem call {f : Func} {a c : α} (h : Emits previous ws ((.fn f, a) :: (.lparen, c) :: row) out) :
    Emits (some .lparen) ((.paren true 0, c) :: (.function f, a) :: ws) row out := by
  obtain ⟨xs, ws₁, back, hfirst, hrest, rfl⟩ := h.exists_move
  obtain ⟨rfl, rfl⟩ := hfirst.carries.fn_waits
  exact hrest.lparen

/-- A call without arguments is emitted at its closing parenthesis. -/
theorem nullary {f : Func} {a c d : α}
    (h : Emits previous ws ((.fn f, a) :: (.lparen, c) :: (.rparen, d) :: row) out) :
    ∃ back, Emits (some .rparen) ws row back ∧ out = [(.fn f, a)] ++ back := by
  obtain ⟨xs, ws₁, back, hclose, hrest, rfl⟩ := h.call.exists_move
  obtain ⟨rfl, rfl⟩ := hclose.carries.close_call (List.nil_append _).symm rfl
  exact ⟨back, hrest, rfl⟩

theorem perm (h : Emits previous ws row out) : out.Perm (Pending.labelled ws ++ labelled row) := by
  induction h with
  | drain os => exact .of_eq (List.append_nil _).symm
  | @move _ ws ws₁ x row xs out hfirst _ ih =>
    rw [Token.labelled_cons x row]
    have hmore : (out ++ []).Perm (Pending.labelled ws₁ ++ labelled row) := by rwa [List.append_nil]
    have hall := perm_trans hfirst.carries.perm hmore
    rwa [List.append_nil] at hall

theorem sublist (h : Emits previous ws row out) : (Pending.labelled ws).Sublist out := by
  induction h with
  | drain os => exact List.Sublist.refl _
  | move hfirst _ ih => exact hfirst.carries.sublist.trans (ih.append_left _)

/-- What waits now is emitted behind what has been emitted. -/
theorem pair_of_waits {x y : Instr × α} {xs : List (Instr × α)} (h : Emits previous ws row out)
    (hx : x ∈ xs) (hy : y ∈ Pending.labelled ws) : [x, y].Sublist (xs ++ out) :=
  (List.singleton_sublist.mpr hx).append (List.singleton_sublist.mpr (h.sublist.subset hy))

/-- What is emitted now is emitted before an entry that waits, and before all that
    is below it. -/
theorem before_waiting {above below : List (Pending × α)} {w : Pending × α} {x : Instr × α}
    {xs : List (Instr × α)}
    (h : Emits previous (above ++ w :: below) row out) (hx : x ∈ xs) :
    ∀ y ∈ Pending.labelled (w :: below), [x, y].Sublist (xs ++ out) := by
  intro y hy
  apply h.pair_of_waits hx
  rw [Pending.labelled_append]
  exact List.mem_append_right _ hy

/-- What is emitted now is emitted before what has not been read yet. -/
theorem pair_of_comes {x y : Instr × α} {xs : List (Instr × α)} (h : Emits previous ws row out)
    (hx : x ∈ xs) (hy : y ∈ labelled row) : [x, y].Sublist (xs ++ out) := by
  have hmem : y ∈ out := h.perm.mem_iff.mpr (List.mem_append_right _ hy)
  exact (List.singleton_sublist.mpr hx).append (List.singleton_sublist.mpr hmem)

/-- Directly behind an operator it is on top. -/
theorem behind_op {before after : List (Token × α)} {o : Operator} {a : α}
    (h : Emits previous ws (before ++ (.op o, a) :: after) out) :
    ∃ front kept back, Emits (some (.op o)) ((.operator o, a) :: kept) after back
      ∧ out = front ++ back := by
  induction before generalizing previous ws out with
  | nil =>
    obtain ⟨xs, ws₁, back, hfirst, hrest, rfl⟩ := h.exists_move
    obtain ⟨os, kept, -, -, rfl, -⟩ := hfirst.op
    exact ⟨xs, kept, back, hrest, rfl⟩
  | cons x before ih =>
    obtain ⟨xs, ws₁, back, hfirst, hrest, rfl⟩ := h.exists_move
    obtain ⟨front, kept, back, hback, rfl⟩ := ih hrest
    exact ⟨xs ++ front, kept, back, hback, (List.append_assoc ..).symm⟩

end Emits

end Converter

/-- The instructions of a program with the places of the tokens they come from:
    every instruction of the row is there once. -/
structure Program.Places (p : Program) (ts : List Token) (placed : List (Instr × Nat)) : Prop where
  instrs : placed.map Prod.fst = p
  perm : placed.Perm (labelled ts.zipIdx)

/-- The instructions of a converted row are emitted with their places. -/
theorem Program.exists_emits {ts : List Token} {p : Program} (h : ofTokens ts = .ok p) :
    ∃ placed, p.Places ts placed ∧ Converter.Emits none [] ts.zipIdx placed := by
  obtain ⟨out, s, os, hfeed, hos, rfl⟩ := exists_end h
  have hempty : ([] : List (Pending × Nat)).map Prod.fst = ({} : Converter).pending := rfl
  rw [← List.zipIdx_map_fst 0 ts] at hfeed
  obtain ⟨placed, hemits, hplaced⟩ := Converter.exists_emits hfeed hempty hos
  exact ⟨placed, ⟨hplaced, hemits.perm⟩, hemits⟩

end StackCalc
