/-
  StackCalc.Proofs.Settling

  What a unary operator waits for.

  It depends on what stands directly behind it.  Either the operators there
  complete it (`Operator.Settles`), and then it is emitted before any operand
  behind it (`Emits.leaves_behind`).  Or it waits, and then the first operand
  behind it is emitted before it, wherever that stands (`Emits.leaf_before`).
-/
import StackCalc.Proofs.Alternation
import StackCalc.Proofs.Emission

namespace StackCalc

variable {α : Type}

open Token (labelled)

/-- The first number, variable or call without arguments in a row, with its
    label. -/
def Token.firstLeaf (row : List (Token × α)) : Option (Instr × α) :=
  (labelled row).find? (·.1.arity == 0)

theorem Token.firstLeaf_op (o : Operator) (a : α) (row : List (Token × α)) :
    firstLeaf ((.op o, a) :: row) = firstLeaf row := by
  apply List.find?_cons_of_neg
  simpa [Instr.arity] using (Operator.arity_pos o).ne'

theorem Token.firstLeaf_call {f : Func} (hf : f.arity ≠ 0) (a : α) (row : List (Token × α)) :
    firstLeaf ((.fn f, a) :: row) = firstLeaf row := by
  apply List.find?_cons_of_neg
  simpa [Instr.arity] using hf

/-- What stands behind a unary operator completes it before another operand is
    read: the unary operators that come next, or what comes behind them, if that is
    an operator between two operands or the end of the part. -/
def Operator.Settles (o : Operator) : List Token → Prop
  | .op q :: ts => o.Pops q ∨ q.arity = 1 ∧ o.Settles ts
  | [] | .rparen :: _ | .comma :: _ => True
  | .num _ :: _ | .var _ :: _ | .fn _ :: _ | .lparen :: _ => False

/-- What is at least as strong pops before the same operators. -/
theorem Operator.Pops.mono {o w q : Operator} (h : o.Pops q) (hle : o.precedence ≤ w.precedence) :
    w.Pops q := by
  rcases h with hlt | ⟨heq, hassoc⟩
  · exact Or.inl (by omega)
  · by_cases hw : w.precedence = q.precedence
    · exact Or.inr ⟨hw, hassoc⟩
    · exact Or.inl (by omega)

/-- An operator that does not pop before another is at most as strong. -/
theorem Operator.precedence_le_of_not_pops {o q : Operator} (h : ¬ o.Pops q) :
    o.precedence ≤ q.precedence := by
  by_contra hlt
  exact h (Or.inl (by omega))

/-- A unary operator is completed by what it pops before. -/
theorem Operator.completedBy_iff_of_unary {o q : Operator} (harity : o.arity = 1) :
    o.completedBy q = true ↔ o.Pops q := by
  simp [Operator.completedBy, harity, Operator.bindsBefore_iff]

namespace Converter

open Pending (Blocks ofOperator)

/-! ## What a unary operator waits for -/

/-- What is above a unary operator, as strong and unary itself, does not protect it
    from what it pops before. -/
theorem not_pops_of_blocks {q o : Operator} {i : α} {above : List (Operator × α)}
    {below : List (Pending × α)} (harity : o.arity = 1)
    (habove : ∀ w ∈ above, w.1.arity = 1 ∧ o.precedence ≤ w.1.precedence)
    (h : Blocks (·.completedBy q)
      ((above.map ofOperator ++ (.operator o, i) :: below).map Prod.fst)) : ¬ o.Pops q := by
  intro hpops
  cases above with
  | nil =>
    have htop : o.completedBy q = false := h o (below.map Prod.fst) rfl
    rw [(Operator.completedBy_iff_of_unary harity).mpr hpops] at htop
    cases htop
  | cons w above =>
    obtain ⟨hunary, hle⟩ := habove w (List.mem_cons_self ..)
    have htop : w.1.completedBy q = false := h w.1 _ rfl
    rw [(Operator.completedBy_iff_of_unary hunary).mpr (hpops.mono hle)] at htop
    cases htop

/-- A unary operator that is completed by what stands directly behind it is
    emitted before all operands behind it. -/
theorem Emits.leaves_behind {previous : Option Token} {o : Operator} {i : α}
    {above : List (Operator × α)} {below : List (Pending × α)} {row : List (Token × α)}
    {out : List (Instr × α)} {x : Instr × α}
    (h : Emits previous (above.map ofOperator ++ (.operator o, i) :: below) row out)
    (harity : o.arity = 1)
    (habove : ∀ w ∈ above, w.1.arity = 1 ∧ o.precedence ≤ w.1.precedence)
    (hsettles : o.Settles (row.map Prod.fst)) (hx : x ∈ labelled row) (hleaf : x.1.arity = 0) :
    [(.op o, i), x].Sublist out := by
  -- on the row: until the operator leaves, only unary operators that are as strong
  -- come to wait above it
  induction row generalizing previous above below out with
  | nil => exact absurd hx List.not_mem_nil
  | cons y row ih =>
    obtain ⟨t, a⟩ := y
    generalize hws : above.map ofOperator ++ (.operator o, i) :: below = ws at h
    obtain ⟨xs, ws₁, back, hfirst, hrest, rfl⟩ := h.exists_move
    cases t with
    | num | var | fn | lparen => exact absurd hsettles id
    | op q =>
      have hx : x ∈ labelled row := by
        rcases List.mem_cons.mp hx with rfl | hx
        · exact absurd hleaf (Operator.arity_pos q).ne'
        · exact hx
      obtain ⟨os, kept, rfl, rfl, rfl, -, hblocks⟩ := hfirst.op
      rcases Pending.kept_or_released hws.symm with ⟨above', habove', rfl⟩ | ⟨w, hw, hwo⟩
      · -- it stays, below unary operators that are as strong
        obtain ⟨first, above, rfl, -, rfl⟩ := List.map_eq_append_iff.mp habove'
        have hhigh : ∀ w ∈ above, w.1.arity = 1 ∧ o.precedence ≤ w.1.precedence :=
          fun w hw => habove w (List.mem_append_right _ hw)
        have hnot := not_pops_of_blocks harity hhigh hblocks
        obtain ⟨hq, hsettles⟩ := Or.resolve_left hsettles hnot
        have hle := Operator.precedence_le_of_not_pops hnot
        have hmore : ∀ w ∈ (q, a) :: above, w.1.arity = 1 ∧ o.precedence ≤ w.1.precedence :=
          List.forall_mem_cons.mpr ⟨⟨hq, hle⟩, hhigh⟩
        have hpair := ih hrest hmore hsettles hx
        exact hpair.trans (List.sublist_append_right ..)
      · cases hwo
        exact hrest.pair_of_comes (Pending.mem_labelled_of_mem hw) hx
    | comma =>
      have hmem := hfirst.carries.mem_of_above hws.symm (Or.inl rfl)
      exact hrest.pair_of_comes hmem hx
    | rparen =>
      have hmem := hfirst.carries.mem_of_above hws.symm (Or.inr rfl)
      exact hrest.pair_of_comes hmem hx

/-- The entry stays where it waits until the next operand has been read: a unary
    operator that is not completed by what comes, and, in front of an operand, an
    operator between two operands or a parenthesis. -/
def Holds (side : Side) (ts : List Token) : Pending → Prop
  | .operator o => o.arity = 1 ∧ ¬ o.Settles ts ∨ o.arity = 2 ∧ side = .before
  | .paren _ _ => side = .before
  | .function _ => False

/-- Behind an operand only an unsettled operator holds. -/
theorem Holds.exists_unsettled {ts : List Token} {entry : Pending} (h : Holds .behind ts entry) :
    ∃ o : Operator, ¬ o.Settles ts := by
  cases entry with
  | operator o =>
    rcases h with ⟨-, hnot⟩ | ⟨-, hside⟩
    · exact ⟨o, hnot⟩
    · cases hside
  | paren => cases h
  | function => exact absurd h id

/-- What holds in front of a unary operator holds behind it. -/
theorem Holds.behind {side : Side} {o : Operator} {ts : List Token} {entry : Pending}
    (h : Holds side (.op o :: ts) entry) (harity : o.arity = 1) : Holds side ts entry := by
  cases entry with
  | operator w =>
    rcases h with ⟨hw, hnot⟩ | h
    · exact Or.inl ⟨hw, fun hsettles => hnot (Or.inr ⟨harity, hsettles⟩)⟩
    · exact Or.inr h
  | paren | function => exact h

/-- An operator does not take off what holds, if it does not stand between two
    operands where an operand is missing. -/
theorem Emits.behind_of_holds {previous : Option Token} {entry : Pending} {b : α}
    {above below : List (Pending × α)} {o : Operator} {a : α} {row : List (Token × α)}
    {out : List (Instr × α)} {side : Side} {ts : List Token}
    (h : Emits previous (above ++ (entry, b) :: below) ((.op o, a) :: row) out)
    (hentry : Holds side (.op o :: ts) entry) (hunary : side = .before → o.arity = 1) :
    ∃ xs above' back,
      Emits (some (.op o)) ((.operator o, a) :: above' ++ (entry, b) :: below) row back
        ∧ out = xs ++ back := by
  obtain ⟨xs, ws₁, back, hfirst, hrest, rfl⟩ := h.exists_move
  obtain ⟨os, kept, hws, rfl, rfl, hos, -⟩ := hfirst.op
  rcases Pending.kept_or_released hws.symm with ⟨above', -, rfl⟩ | ⟨w, hw, hwo⟩
  · exact ⟨_, above', back, hrest, rfl⟩
  · cases hwo
    have hcompleted := hos w hw
    rcases hentry with ⟨harity, hnot⟩ | ⟨harity, hside⟩
    · rw [Operator.completedBy_iff_of_unary harity] at hcompleted
      exact absurd (Or.inl hcompleted) hnot
    · -- a unary operator takes nothing away from it
      rw [Operator.not_completedBy_of_unary harity (hunary hside)] at hcompleted
      cases hcompleted

/-- Where something holds, the next operand is emitted before it, and before all
    that is below it. -/
theorem Emits.leaf_before {side : Side} {ts : List Token} {previous : Option Token}
    {entry : Pending} {b : α} {above below : List (Pending × α)} {row : List (Token × α)}
    {out : List (Instr × α)} (h : Emits previous (above ++ (entry, b) :: below) row out)
    (halt : Alternates side ts) (hrow : row.map Prod.fst = ts) (hentry : Holds side ts entry) :
    ∃ x, Token.firstLeaf row = some x
      ∧ ∀ y ∈ Pending.labelled ((entry, b) :: below), [x, y].Sublist out := by
  -- what holds changes on the way: an open parenthesis and an operator between two
  -- operands hold all that is below them until the operand behind them has come
  induction halt generalizing previous entry b above below row out with
  | num value _ _ =>
    obtain ⟨⟨t, a⟩, row, rfl, rfl, -⟩ := List.map_eq_cons_iff.mp hrow
    obtain ⟨back, hrest, rfl⟩ := h.num
    exact ⟨(.num value, a), rfl, hrest.before_waiting (List.mem_singleton_self _)⟩
  | var name _ _ =>
    obtain ⟨⟨t, a⟩, row, rfl, rfl, -⟩ := List.map_eq_cons_iff.mp hrow
    obtain ⟨back, hrest, rfl⟩ := h.var
    exact ⟨(.var name, a), rfl, hrest.before_waiting (List.mem_singleton_self _)⟩
  | sign ho _ ih =>
    obtain ⟨⟨t, a⟩, row, rfl, rfl, htail⟩ := List.map_eq_cons_iff.mp hrow
    have harity := (Operator.isSign_iff.mp ho).1
    obtain ⟨xs, above', back, hrest, rfl⟩ := h.behind_of_holds hentry fun _ => harity
    obtain ⟨x, hx, hbefore⟩ := ih hrest htail (hentry.behind harity)
    rw [Token.firstLeaf_op]
    exact ⟨x, hx, fun y hy => (hbefore y hy).trans (List.sublist_append_right ..)⟩
  | group _ ih =>
    obtain ⟨⟨t, a⟩, row, rfl, rfl, htail⟩ := List.map_eq_cons_iff.mp hrow
    have hrest : Emits _ ([] ++ (.paren _ 0, a) :: (above ++ (entry, b) :: below)) row out :=
      h.lparen
    obtain ⟨x, hx, hbefore⟩ := ih hrest htail rfl
    refine ⟨x, hx, fun y hy => hbefore y ?_⟩
    rw [Pending.labelled, Pending.labelled_append]
    exact List.mem_append_right _ hy
  | call hf _ ih =>
    obtain ⟨⟨t, a⟩, row, rfl, rfl, htail⟩ := List.map_eq_cons_iff.mp hrow
    obtain ⟨⟨t, c⟩, row, rfl, rfl, hts⟩ := List.map_eq_cons_iff.mp htail
    have hrest : Emits _
        ([] ++ (.paren true 0, c) :: (.function _, a) :: (above ++ (entry, b) :: below)) row out :=
      h.call
    obtain ⟨x, hx, hbefore⟩ := ih hrest hts rfl
    rw [Token.firstLeaf_call hf]
    refine ⟨x, hx, fun y hy => hbefore y ?_⟩
    rw [Pending.labelled, Pending.labelled, Pending.labelled_append]
    exact List.mem_cons_of_mem _ (List.mem_append_right _ hy)
  | @nullary f ts hf _ _ =>
    obtain ⟨⟨t, a⟩, row, rfl, rfl, htail⟩ := List.map_eq_cons_iff.mp hrow
    obtain ⟨⟨t, c⟩, row, rfl, rfl, hmore⟩ := List.map_eq_cons_iff.mp htail
    obtain ⟨⟨t, d⟩, row, rfl, rfl, -⟩ := List.map_eq_cons_iff.mp hmore
    obtain ⟨back, hrest, rfl⟩ := h.nullary
    refine ⟨(.fn f, a), ?_, hrest.before_waiting (List.mem_singleton_self _)⟩
    apply List.find?_cons_of_pos
    simpa [Instr.arity] using hf
  | stop | comma | rparen =>
    -- here all unary operators are complete, so nothing holds
    obtain ⟨o, hnot⟩ := hentry.exists_unsettled
    exact absurd trivial hnot
  | @binary o ts ho _ ih =>
    obtain ⟨⟨t, a⟩, row, rfl, rfl, htail⟩ := List.map_eq_cons_iff.mp hrow
    obtain ⟨xs, above', back, hbehind, rfl⟩ := h.behind_of_holds hentry Side.noConfusion
    have hrest : Emits _ ([] ++ (.operator o, a) :: (above' ++ (entry, b) :: below)) row back :=
      hbehind
    obtain ⟨x, hx, hbefore⟩ := ih hrest htail (Or.inr ⟨ho, rfl⟩)
    rw [Token.firstLeaf_op]
    refine ⟨x, hx, fun y hy => (hbefore y ?_).trans (List.sublist_append_right ..)⟩
    rw [Pending.labelled, Pending.labelled_append]
    exact List.mem_cons_of_mem _ (List.mem_append_right _ hy)
  | suffix ho _ ih =>
    obtain ⟨⟨t, a⟩, row, rfl, rfl, htail⟩ := List.map_eq_cons_iff.mp hrow
    have harity := (Operator.isSuffix_iff.mp ho).1
    obtain ⟨xs, above', back, hrest, rfl⟩ := h.behind_of_holds hentry fun _ => harity
    obtain ⟨x, hx, hbefore⟩ := ih hrest htail (hentry.behind harity)
    rw [Token.firstLeaf_op]
    exact ⟨x, hx, fun y hy => (hbefore y hy).trans (List.sublist_append_right ..)⟩

/-! ## The unary operators of a row -/

section Row

variable {o : Operator} {i : α} {before after : List (Token × α)} {out : List (Instr × α)}

/-- Wherever a unary operator stands in a row, if it settles there, it comes before
    all operands behind it. -/
theorem Emits.leaves_behind_op (h : Emits none [] (before ++ (.op o, i) :: after) out)
    (harity : o.arity = 1) (hsettles : o.Settles (after.map Prod.fst)) {x : Instr × α}
    (hx : x ∈ labelled after) (hleaf : x.1.arity = 0) : [(.op o, i), x].Sublist out := by
  obtain ⟨front, kept, back, hback, rfl⟩ := h.behind_op
  change Emits _ (([] : List (Operator × α)).map ofOperator ++ (_, _) :: _) after back at hback
  have habove : ∀ w ∈ ([] : List (Operator × α)), w.1.arity = 1 ∧ o.precedence ≤ w.1.precedence :=
    fun _ hw => absurd hw List.not_mem_nil
  have hpair := hback.leaves_behind harity habove hsettles hx hleaf
  exact hpair.trans (List.sublist_append_right ..)

/-- If it does not, the first operand behind it comes before it. -/
theorem Emits.leaf_before_op
    (halt : Alternates .before ((before ++ (.op o, i) :: after).map Prod.fst))
    (h : Emits none [] (before ++ (.op o, i) :: after) out) (harity : o.arity = 1)
    (hnot : ¬ o.Settles (after.map Prod.fst)) :
    ∃ x, Token.firstLeaf after = some x ∧ [x, (.op o, i)].Sublist out := by
  obtain ⟨front, kept, back, hback, rfl⟩ := h.behind_op
  change Emits _ ([] ++ (_, _) :: _) after back at hback
  rw [List.map_append, List.map_cons] at halt
  obtain ⟨x, hx, hbefore⟩ := hback.leaf_before halt.behind_op rfl (Or.inl ⟨harity, hnot⟩)
  have hpair := hbefore (.op o, i) (List.mem_cons_self ..)
  exact ⟨x, hx, hpair.trans (List.sublist_append_right ..)⟩

end Row

end Converter

/-- Whatever the precedences of its operators, a phrase is converted, and its
    instructions are emitted with their places. -/
theorem Phrase.exists_emits {e : Phrase} (he : e.IsPlaced) :
    ∃ p placed, Program.ofTokens e.tokens = .ok p ∧ p.Places e.tokens placed
      ∧ Converter.Emits none [] e.tokens.zipIdx placed
      ∧ Alternates .before (e.tokens.zipIdx.map Prod.fst) := by
  obtain ⟨p, hp⟩ := e.exists_ofTokens
  obtain ⟨placed, hplaces, hemits⟩ := Program.exists_emits hp
  have halternates := alternates_tokens he
  rw [← List.zipIdx_map_fst 0 e.tokens] at halternates
  exact ⟨p, placed, hp, hplaces, hemits, halternates⟩

end StackCalc
