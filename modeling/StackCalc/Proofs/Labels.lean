/-
  StackCalc.Proofs.Labels

  Labels that go with tokens.

  Every token of a row has a label, such as its place, and the label goes where
  the token goes: it waits with it and is emitted with it.  `Converter.Carries`
  says how one token moves labels, in one case for each way in which something
  waits or leaves.  Labels are neither lost nor made up, so a conversion only
  changes the order of what stands in a row.
-/
import StackCalc.Proofs.Effect

namespace StackCalc

variable {α : Type}

/-- The instruction puts a value of its own on the stack, and takes none. -/
def Instr.isOperand : Instr → Bool
  | num _ | var _ => true
  | op _ | fn _ => false

namespace Token

/-- The instruction of a labelled token, with the label. -/
def labelled? (x : Token × α) : Option (Instr × α) := x.1.instr?.map (·, x.2)

/-- The instructions of a row of labelled tokens, in the order of the tokens. -/
def labelled (row : List (Token × α)) : List (Instr × α) := row.filterMap labelled?

theorem labelled_cons (x : Token × α) (row : List (Token × α)) :
    labelled (x :: row) = labelled [x] ++ labelled row :=
  List.filterMap_append (l := [x])

theorem map_fst_labelled (row : List (Token × α)) :
    (labelled row).map Prod.fst = instrs (row.map Prod.fst) := by
  induction row with
  | nil => rfl
  | cons x row ih =>
    obtain ⟨t, a⟩ := x
    rw [labelled_cons, List.map_append, ih]
    cases t <;> rfl

end Token

open Token (labelled)

/-! ## Labels on what waits -/

namespace Pending

/-- A labelled operator, as it waits. -/
def ofOperator (x : Operator × α) : Pending × α := (.operator x.1, x.2)

/-- The labelled instructions of what waits, from the top. -/
def labelled : List (Pending × α) → List (Instr × α)
  | [] => []
  | (operator o, a) :: ws => (.op o, a) :: labelled ws
  | (function f, a) :: ws => (.fn f, a) :: labelled ws
  | (paren _ _, _) :: ws => labelled ws

theorem labelled_append (ws vs : List (Pending × α)) :
    labelled (ws ++ vs) = labelled ws ++ labelled vs := by
  induction ws with
  | nil => rfl
  | cons w ws ih =>
    obtain ⟨entry, a⟩ := w
    cases entry with
    | operator | function => rw [List.cons_append, labelled, ih, labelled, List.cons_append]
    | paren => exact ih

theorem map_fst_labelled (ws : List (Pending × α)) :
    (labelled ws).map Prod.fst = instrs (ws.map Prod.fst) := by
  induction ws with
  | nil => rfl
  | cons w ws ih =>
    obtain ⟨entry, a⟩ := w
    cases entry with
    | operator | function =>
      rw [labelled, List.map_cons, ih]
      rfl
    | paren => exact ih

/-- Nothing that waits is an operand. -/
theorem filter_labelled (ws : List (Pending × α)) :
    (labelled ws).filter (·.1.isOperand) = [] := by
  induction ws with
  | nil => rfl
  | cons w ws ih =>
    obtain ⟨entry, a⟩ := w
    cases entry <;> exact ih

/-- Operators on top, with their labels. -/
theorem exists_labels {ws : List (Pending × α)} {os : List Operator} {below : List Pending}
    (h : ws.map Prod.fst = os.map .operator ++ below) :
    ∃ (los : List (Operator × α)) (kept : List (Pending × α)),
      ws = los.map ofOperator ++ kept ∧ los.map Prod.fst = os ∧ kept.map Prod.fst = below := by
  induction os generalizing ws with
  | nil => exact ⟨[], ws, rfl, rfl, h⟩
  | cons o os ih =>
    cases ws with
    | nil => cases h
    | cons w ws =>
      rw [List.map_cons, List.map_cons, List.cons_append, List.cons.injEq] at h
      obtain ⟨hw, hws⟩ := h
      obtain ⟨los, kept, rfl, hlos, hkept⟩ := ih hws
      refine ⟨(o, w.2) :: los, kept, ?_, by rw [List.map_cons, hlos], hkept⟩
      rw [List.map_cons, List.cons_append, ofOperator, ← hw]

theorem exists_label {ws : List (Pending × α)} {entry : Pending} {below : List Pending}
    (h : ws.map Prod.fst = entry :: below) :
    ∃ (b : α) (kept : List (Pending × α)), ws = (entry, b) :: kept ∧ kept.map Prod.fst = below := by
  cases ws with
  | nil => cases h
  | cons w ws =>
    rw [List.map_cons, List.cons.injEq] at h
    obtain ⟨hw, hws⟩ := h
    exact ⟨w.2, ws, by rw [← hw], hws⟩

end Pending

namespace Converter

open Pending (ofOperator)

/-- How a token moves labels: the token before it and what waits, the token, what
    is emitted, and what waits then. -/
inductive Carries :
    Option Token → List (Pending × α) → Token × α → List (Instr × α) → List (Pending × α) → Prop
    where
  | num {previous} (value : Float) (a : α) (ws : List (Pending × α)) :
      Carries previous ws (.num value, a) [(.num value, a)] ws
  | var {previous} (name : String) (a : α) (ws : List (Pending × α)) :
      Carries previous ws (.var name, a) [(.var name, a)] ws
  | fn {previous} (f : Func) (a : α) (ws : List (Pending × α)) :
      Carries previous ws (.fn f, a) [] ((.function f, a) :: ws)
  | op {previous} (o : Operator) (a : α) (os : List (Operator × α)) (kept : List (Pending × α)) :
      Carries previous (os.map ofOperator ++ kept) (.op o, a) (Pending.labelled (os.map ofOperator))
        ((.operator o, a) :: kept)
  | lparen {previous} (a : α) (ws : List (Pending × α)) :
      Carries previous ws (.lparen, a) [] ((.paren (isFn previous) 0, a) :: ws)
  | comma {previous} (a b : α) (os : List (Operator × α)) (n : Nat) (kept : List (Pending × α)) :
      Carries previous (os.map ofOperator ++ (.paren true n, b) :: kept) (.comma, a)
        (Pending.labelled (os.map ofOperator)) ((.paren true (n + 1), b) :: kept)
  | closeGroup {previous} (a b : α) (os : List (Operator × α)) (n : Nat)
      (kept : List (Pending × α)) :
      Carries previous (os.map ofOperator ++ (.paren false n, b) :: kept) (.rparen, a)
        (Pending.labelled (os.map ofOperator)) kept
  | closeCall {previous} (a b : α) (os : List (Operator × α)) (n : Nat) (f : Func) (c : α)
      (kept : List (Pending × α)) :
      Carries previous (os.map ofOperator ++ (.paren true n, b) :: (.function f, c) :: kept)
        (.rparen, a) (Pending.labelled (os.map ofOperator) ++ [(.fn f, c)]) kept

/-- Operators that are emitted, with and without their labels. -/
theorem map_fst_operators (os : List (Operator × α)) :
    (Pending.labelled (os.map ofOperator)).map Prod.fst = (os.map Prod.fst).map .op := by
  induction os with
  | nil => rfl
  | cons o os ih =>
    show Instr.op o.1 :: (Pending.labelled (os.map ofOperator)).map Prod.fst = _
    rw [ih]
    rfl

/-- Whatever labels there are, a token moves them in one of these ways. -/
theorem Effect.exists_carries {ws : List (Pending × α)} {previous : Option Token} {t : Token}
    {out : Program} {pending : List Pending} (h : Effect (ws.map Prod.fst) previous t out pending)
    (a : α) :
    ∃ xs ws', Carries previous ws (t, a) xs ws' ∧ xs.map Prod.fst = out
      ∧ ws'.map Prod.fst = pending := by
  cases h with
  | num value => exact ⟨_, _, .num value a ws, rfl, rfl⟩
  | var name => exact ⟨_, _, .var name a ws, rfl, rfl⟩
  | fn f => exact ⟨_, _, .fn f a ws, rfl, rfl⟩
  | op o os below hpending =>
    obtain ⟨los, kept, rfl, rfl, rfl⟩ := Pending.exists_labels hpending
    exact ⟨_, _, .op o a los kept, map_fst_operators los, rfl⟩
  | openGroup hprev =>
    refine ⟨_, _, .lparen a ws, rfl, ?_⟩
    rw [List.map_cons, hprev]
  | openCall f => exact ⟨_, _, .lparen a ws, rfl, rfl⟩
  | comma os n below hpending =>
    obtain ⟨los, kept, rfl, rfl, hkept⟩ := Pending.exists_labels hpending
    obtain ⟨b, kept, rfl, rfl⟩ := Pending.exists_label hkept
    exact ⟨_, _, .comma a b los n kept, map_fst_operators los, rfl⟩
  | closeGroup os n below hpending =>
    obtain ⟨los, kept, rfl, rfl, hkept⟩ := Pending.exists_labels hpending
    obtain ⟨b, kept, rfl, rfl⟩ := Pending.exists_label hkept
    exact ⟨_, _, .closeGroup a b los n kept, map_fst_operators los, rfl⟩
  | closeCall os n f below hpending | closeNullary os n f below hpending =>
    obtain ⟨los, kept, rfl, rfl, hkept⟩ := Pending.exists_labels hpending
    obtain ⟨b, lower, rfl, hlower⟩ := Pending.exists_label hkept
    obtain ⟨c, lowest, rfl, rfl⟩ := Pending.exists_label hlower
    refine ⟨_, _, .closeCall a b los n f c lowest, ?_, rfl⟩
    rw [List.map_append, map_fst_operators]
    rfl

/-! ## One token -/

section Carries

variable {previous : Option Token} {ws ws' vs us : List (Pending × α)} {x : Token × α}
  {xs : List (Instr × α)} {call : Bool} {n : Nat} {b : α}

/-- The instructions that are emitted and those that wait are those that waited
    before, and the one of the token. -/
theorem Carries.perm (h : Carries previous ws x xs ws') :
    (xs ++ Pending.labelled ws').Perm (Pending.labelled ws ++ labelled [x]) := by
  cases h with
  | num | var => exact List.perm_append_comm
  | fn f a => exact (List.perm_append_singleton (Instr.fn f, a) _).symm
  | lparen a => exact .of_eq (List.append_nil _).symm
  | op o a os kept =>
    rw [Pending.labelled_append, List.append_assoc]
    exact (List.perm_append_singleton (Instr.op o, a) _).symm.append_left _
  | comma a b os n kept | closeGroup a b os n kept =>
    rw [Pending.labelled_append]
    exact .of_eq (List.append_nil _).symm
  | closeCall a b os n f c kept =>
    rw [Pending.labelled_append, List.append_assoc]
    exact .of_eq (List.append_nil _).symm

/-- An operand is emitted when it is read, and no other one is. -/
theorem Carries.operands (h : Carries previous ws x xs ws') :
    xs.filter (·.1.isOperand) = (labelled [x]).filter (·.1.isOperand) := by
  cases h with
  | num | var | fn | lparen => rfl
  | op | comma | closeGroup => exact Pending.filter_labelled _
  | closeCall => rw [List.filter_append, Pending.filter_labelled]; rfl

end Carries

/-! ## A row of tokens -/

/-- How a row moves labels, token after token. -/
inductive CarriesAll :
    Option Token → List (Pending × α) → List (Token × α) → List (Instr × α) →
      List (Pending × α) → Prop where
  | nil {previous} (ws : List (Pending × α)) : CarriesAll previous ws [] [] ws
  | cons {previous} {ws ws₁ ws₂ : List (Pending × α)} {x : Token × α} {row : List (Token × α)}
      {xs ys : List (Instr × α)} (hfirst : Carries previous ws x xs ws₁)
      (hrest : CarriesAll (some x.1) ws₁ row ys ws₂) :
      CarriesAll previous ws (x :: row) (xs ++ ys) ws₂

theorem exists_carriesAll {s s' : Converter} {row : List (Token × α)} {out : Program}
    {ws : List (Pending × α)} (h : s.feed (row.map Prod.fst) = .ok (out, s'))
    (hws : ws.map Prod.fst = s.pending) :
    ∃ xs ws', CarriesAll s.previous ws row xs ws' ∧ xs.map Prod.fst = out
      ∧ ws'.map Prod.fst = s'.pending := by
  induction row generalizing s ws out with
  | nil =>
    cases h
    exact ⟨[], ws, .nil ws, rfl, hws⟩
  | cons x row ih =>
    obtain ⟨first, s₁, more, heffect, hprevious, hfeed, rfl⟩ := exists_effect_of_feed h
    rw [← hws] at heffect
    obtain ⟨xs, ws₁, hfirst, rfl, hpending⟩ := heffect.exists_carries x.2
    obtain ⟨ys, ws₂, hrest, rfl, hend⟩ := ih hfeed hpending
    rw [hprevious] at hrest
    exact ⟨xs ++ ys, ws₂, .cons hfirst hrest, List.map_append, hend⟩

open scoped List in
/-- What is emitted and what waits after one token and then after others, in terms
    of what waited before and what came in. -/
theorem perm_trans {β : Type} {xs ys ws ws₁ ws₂ first more : List β}
    (hfirst : (xs ++ ws₁).Perm (ws ++ first)) (hmore : (ys ++ ws₂).Perm (ws₁ ++ more)) :
    (xs ++ ys ++ ws₂).Perm (ws ++ (first ++ more)) := by
  calc xs ++ ys ++ ws₂
      = xs ++ (ys ++ ws₂) := List.append_assoc ..
    _ ~ xs ++ (ws₁ ++ more) := hmore.append_left xs
    _ = xs ++ ws₁ ++ more := (List.append_assoc ..).symm
    _ ~ ws ++ first ++ more := hfirst.append_right more
    _ = ws ++ (first ++ more) := List.append_assoc ..

namespace CarriesAll

variable {previous : Option Token} {ws ws' : List (Pending × α)} {row more : List (Token × α)}
  {xs : List (Instr × α)}

theorem perm (h : CarriesAll previous ws row xs ws') :
    (xs ++ Pending.labelled ws').Perm (Pending.labelled ws ++ labelled row) := by
  induction h with
  | nil ws => exact .of_eq (List.append_nil _).symm
  | @cons _ ws ws₁ ws₂ x row xs ys hfirst _ ih =>
    rw [Token.labelled_cons x row]
    exact perm_trans hfirst.perm ih

theorem operands (h : CarriesAll previous ws row xs ws') :
    xs.filter (·.1.isOperand) = (labelled row).filter (·.1.isOperand) := by
  induction h with
  | nil => rfl
  | @cons _ _ _ _ x row xs ys hfirst _ ih =>
    rw [Token.labelled_cons, List.filter_append, List.filter_append, hfirst.operands, ih]

/-- What a row moves it moves up to every place in it, and then from there. -/
theorem exists_append (h : CarriesAll previous ws (row ++ more) xs ws') :
    ∃ between ys ws₁ zs, CarriesAll previous ws row ys ws₁ ∧ CarriesAll between ws₁ more zs ws'
      ∧ xs = ys ++ zs := by
  induction row generalizing previous ws xs with
  | nil => exact ⟨previous, [], ws, xs, .nil ws, h, rfl⟩
  | cons x row ih =>
    cases h with
    | cons hfirst hrest =>
      obtain ⟨between, ys, ws₁, zs, hrow, hmore, rfl⟩ := ih hrest
      exact ⟨between, _, ws₁, zs, .cons hfirst hrow, hmore, (List.append_assoc ..).symm⟩

end CarriesAll

/-! ## Nothing is lost -/

theorem feed_perm {s s' : Converter} {ts : List Token} {out : Program}
    (h : s.feed ts = .ok (out, s')) :
    (out ++ Pending.instrs s'.pending).Perm (Pending.instrs s.pending ++ Token.instrs ts) := by
  -- any labels will do
  have hrow : (ts.map (·, ())).map Prod.fst = ts := by
    rw [List.map_map]
    exact List.map_id ts
  have hws : (s.pending.map (·, ())).map Prod.fst = s.pending := by
    rw [List.map_map]
    exact List.map_id s.pending
  rw [← hrow] at h
  obtain ⟨xs, ws', hall, rfl, hend⟩ := exists_carriesAll h hws
  have hperm := hall.perm.map Prod.fst
  rwa [List.map_append, List.map_append, Pending.map_fst_labelled, Pending.map_fst_labelled,
    Token.map_fst_labelled, hws, hend, hrow] at hperm

end Converter

namespace Program

open Converter

/-- A conversion only changes the order of what stands in the stream. -/
theorem perm_of_ofTokens {ts : List Token} {p : Program} (h : ofTokens ts = .ok p) :
    p.Perm (Token.instrs ts) := by
  obtain ⟨out, s, rest, hfeed, hfinish, rfl, -⟩ := exists_of_ofTokens h
  rw [rest_of_finish hfinish]
  exact feed_perm hfeed

/-- Labels of a row that is converted are labels of its program. -/
theorem exists_labelled {row : List (Token × α)} {p : Program}
    (h : ofTokens (row.map Prod.fst) = .ok p) :
    ∃ xs ws, CarriesAll none [] row xs ws ∧ (xs ++ Pending.labelled ws).map Prod.fst = p := by
  obtain ⟨out, s, rest, hfeed, hfinish, rfl, -⟩ := exists_of_ofTokens h
  have hempty : ([] : List (Pending × α)).map Prod.fst = ({} : Converter).pending := rfl
  obtain ⟨xs, ws, hall, rfl, hws⟩ := exists_carriesAll hfeed hempty
  refine ⟨xs, ws, hall, ?_⟩
  rw [List.map_append, Pending.map_fst_labelled, hws, rest_of_finish hfinish]

end Program

end StackCalc
