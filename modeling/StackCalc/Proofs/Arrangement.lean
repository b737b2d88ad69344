/-
  StackCalc.Proofs.Arrangement

  Where the instructions of a converted row come from.

  Between an opening parenthesis and its partner nothing below the parenthesis is
  moved, so what is emitted there is what stands there, and it is emitted in one
  piece (`CarriesAll.matched`).  A separator or the partner then completes what is
  left of it, before anything else is read.
-/
import StackCalc.Func.Builtin
import StackCalc.Operator.Builtin
import StackCalc.Proofs.Labels
import StackCalc.Proofs.Matching

namespace StackCalc

variable {α : Type}

open Token (Matched labelled)

/-- How a row between parentheses falls into arguments: each of them is matched,
    and there is a separator between each two. -/
inductive Token.Arguments : List (List (Token × α)) → List (Token × α) → Prop where
  | last {arg : List (Token × α)} (harg : Matched (arg.map Prod.fst)) : Arguments [arg] arg
  | cons {arg inner : List (Token × α)} {args : List (List (Token × α))} (a : α)
      (harg : Matched (arg.map Prod.fst)) (hargs : Arguments args inner) :
      Arguments (arg :: args) (arg ++ (.comma, a) :: inner)

open Token (Arguments)

/-- The instructions of a row, in the order of a program that computes it:
    operands in the order of the row, everything between two parentheses in one
    piece, the arguments of a call one behind the other, and then the call. -/
structure Arranged (row : List (Token × α)) (placed : List (Instr × α)) : Prop where
  perm : placed.Perm (labelled row)
  operands : placed.filter (·.1.isOperand) = (labelled row).filter (·.1.isOperand)
  /-- What stands between two parentheses is in one piece. -/
  between : ∀ before a inner b after,
    row = before ++ (.lparen, a) :: (inner ++ (.rparen, b) :: after) →
      Matched (inner.map Prod.fst) →
        ∃ front block back, placed = front ++ block ++ back ∧ block.Perm (labelled inner)
  /-- What stands in an argument is in one piece, and the call is behind the last
      of them. -/
  call : ∀ before f c a args inner b after,
    row = before ++ (.fn f, c) :: (.lparen, a) :: (inner ++ (.rparen, b) :: after) →
      Arguments args inner →
        ∃ front blocks back, placed = front ++ blocks.flatten ++ (.fn f, c) :: back
          ∧ List.Forall₂ (fun block arg => block.Perm (labelled arg)) blocks args

/-! ## One token -/

namespace Pending

/-- How many parentheses wait. -/
def parens : List (Pending × α) → Int
  | [] => 0
  | (operator _, _) :: ws | (function _, _) :: ws => parens ws
  | (paren _ _, _) :: ws => 1 + parens ws

theorem parens_nonneg (ws : List (Pending × α)) : 0 ≤ parens ws := by
  induction ws with
  | nil => exact Int.le_refl 0
  | cons w ws ih =>
    obtain ⟨entry, a⟩ := w
    cases entry with
    | operator | function => exact ih
    | paren =>
      rw [parens]
      omega

theorem parens_operators (os : List (Operator × α)) (ws : List (Pending × α)) :
    parens (os.map ofOperator ++ ws) = parens ws := by
  induction os with
  | nil => rfl
  | cons o os ih => exact ih

/-- When operators are taken off the top, what was below some entry stays with it,
    or the entry is one of them. -/
theorem kept_or_released {os : List (Operator × α)} {kept above below : List (Pending × α)}
    {w : Pending × α} (h : os.map ofOperator ++ kept = above ++ w :: below) :
    (∃ above', above = os.map ofOperator ++ above' ∧ kept = above' ++ w :: below)
      ∨ ∃ x ∈ os, w = ofOperator x := by
  induction os generalizing above with
  | nil => exact Or.inl ⟨above, rfl, h⟩
  | cons o os ih =>
    cases above with
    | nil =>
      have hhead := (List.cons.inj h).1
      exact Or.inr ⟨o, List.mem_cons_self .., hhead.symm⟩
    | cons v above =>
      rw [List.map_cons, List.cons_append, List.cons_append, List.cons.injEq] at h
      obtain ⟨rfl, h⟩ := h
      rcases ih h with ⟨above', rfl, hkept⟩ | ⟨x, hx, hw⟩
      · exact Or.inl ⟨above', rfl, hkept⟩
      · exact Or.inr ⟨x, List.mem_cons_of_mem o hx, hw⟩

/-- Operators on top of a parenthesis are above it. -/
theorem operators_above {os : List (Operator × α)} {kept vs us : List (Pending × α)}
    {call : Bool} {n : Nat} {b : α}
    (h : os.map ofOperator ++ kept = vs ++ (paren call n, b) :: us) :
    ∃ vs', vs = os.map ofOperator ++ vs' ∧ kept = vs' ++ (paren call n, b) :: us := by
  rcases kept_or_released h with hkept | ⟨x, -, hx⟩
  · exact hkept
  · cases hx

end Pending

namespace Converter

open Pending (ofOperator parens operators_above)

section Carries

variable {previous : Option Token} {ws ws' vs us : List (Pending × α)} {x : Token × α}
  {xs : List (Instr × α)} {call : Bool} {n : Nat} {b : α}

/-- What is above a parenthesis that no other one is above is operators, where
    there is a parenthesis behind them. -/
theorem top_paren {os : List (Operator × α)} {call' : Bool} {n' : Nat} {b' : α}
    {kept : List (Pending × α)}
    (h : os.map ofOperator ++ (.paren call' n', b') :: kept = vs ++ (.paren call n, b) :: us)
    (hvs : parens vs = 0) :
    vs = os.map ofOperator ∧ call' = call ∧ n' = n ∧ b' = b ∧ kept = us := by
  obtain ⟨vs', rfl, hkept⟩ := operators_above h
  cases vs' with
  | nil =>
    cases hkept
    exact ⟨List.append_nil _, rfl, rfl, rfl, rfl⟩
  | cons v vs' =>
    cases hkept
    have hnonneg := Pending.parens_nonneg vs'
    rw [Pending.parens_operators, parens] at hvs
    omega

/-- A token that does not close a parenthesis moves nothing below it. -/
theorem Carries.inside (h : Carries previous ws x xs ws')
    (hws : ws = vs ++ (.paren call n, b) :: us) (hdepth : 0 ≤ parens vs + x.1.rise) :
    ∃ vs' n', ws' = vs' ++ (.paren call n', b) :: us
      ∧ (xs ++ Pending.labelled vs').Perm (Pending.labelled vs ++ labelled [x])
      ∧ parens vs' = parens vs + x.1.rise := by
  cases h with
  | num | var => exact ⟨vs, n, hws, List.perm_append_comm, (Int.add_zero _).symm⟩
  | fn f a =>
    refine ⟨(.function f, a) :: vs, n, by rw [hws]; rfl, ?_, (Int.add_zero _).symm⟩
    exact (List.perm_append_singleton (Instr.fn f, a) _).symm
  | lparen a =>
    refine ⟨(.paren (isFn previous) 0, a) :: vs, n, by rw [hws]; rfl, ?_, Int.add_comm 1 _⟩
    exact .of_eq (List.append_nil _).symm
  | op o a os kept =>
    obtain ⟨vs', rfl, rfl⟩ := operators_above hws
    refine ⟨(.operator o, a) :: vs', n, rfl, ?_, ?_⟩
    · rw [Pending.labelled_append, List.append_assoc]
      exact (List.perm_append_singleton (Instr.op o, a) _).symm.append_left _
    · rw [Pending.parens_operators]
      exact (Int.add_zero _).symm
  | comma a b os n kept =>
    obtain ⟨vs', rfl, hkept⟩ := operators_above hws
    cases vs' with
    | nil =>
      -- the separator is counted at the parenthesis itself
      cases hkept
      refine ⟨[], n + 1, rfl, ?_, ?_⟩
      · rw [List.append_nil]
        exact .refl _
      · rw [Pending.parens_operators]
        rfl
    | cons v vs' =>
      cases hkept
      refine ⟨(.paren true (n + 1), b) :: vs', _, rfl, ?_, ?_⟩
      · rw [Pending.labelled_append]
        exact .of_eq (List.append_nil _).symm
      · rw [Pending.parens_operators]
        exact (Int.add_zero _).symm
  | closeGroup a b os n kept =>
    obtain ⟨vs', rfl, hkept⟩ := operators_above hws
    rw [Pending.parens_operators] at hdepth ⊢
    cases vs' with
    | nil => simp [parens, Token.rise] at hdepth
    | cons v vs' =>
      cases hkept
      refine ⟨vs', _, rfl, ?_, ?_⟩
      · rw [Pending.labelled_append]
        exact .of_eq (List.append_nil _).symm
      · rw [parens, Token.rise]
        omega
  | closeCall a b os n f c kept =>
    obtain ⟨vs', rfl, hkept⟩ := operators_above hws
    rw [Pending.parens_operators] at hdepth ⊢
    cases vs' with
    | nil => simp [parens, Token.rise] at hdepth
    | cons v vs' =>
      -- the function of the parenthesis is right below it
      obtain ⟨rfl, hkept⟩ := List.cons.inj hkept
      cases vs' with
      | nil => cases hkept
      | cons w vs' =>
        cases hkept
        refine ⟨vs', _, rfl, ?_, ?_⟩
        · rw [Pending.labelled_append, List.append_assoc]
          exact .of_eq (List.append_nil _).symm
        · rw [parens, parens, Token.rise]
          omega

theorem Carries.num_emitted {value : Float} {a : α}
    (h : Carries previous ws (.num value, a) xs ws') : xs = [(.num value, a)] ∧ ws' = ws := by
  cases h with
  | num => exact ⟨rfl, rfl⟩

theorem Carries.var_emitted {name : String} {a : α}
    (h : Carries previous ws (.var name, a) xs ws') : xs = [(.var name, a)] ∧ ws' = ws := by
  cases h with
  | var => exact ⟨rfl, rfl⟩

theorem Carries.fn_waits {f : Func} {a : α} (h : Carries previous ws (.fn f, a) xs ws') :
    xs = [] ∧ ws' = (.function f, a) :: ws := by
  cases h with
  | fn => exact ⟨rfl, rfl⟩

theorem Carries.lparen_waits {a : α} (h : Carries previous ws (.lparen, a) xs ws') :
    xs = [] ∧ ws' = (.paren (isFn previous) 0, a) :: ws := by
  cases h with
  | lparen => exact ⟨rfl, rfl⟩

/-- A separator completes all that is above its parenthesis. -/
theorem Carries.separate {a : α} (h : Carries previous ws (.comma, a) xs ws')
    (hws : ws = vs ++ (.paren call n, b) :: us) (hvs : parens vs = 0) :
    xs = Pending.labelled vs ∧ ws' = (.paren call (n + 1), b) :: us := by
  cases h with
  | comma a b' os n' kept =>
    obtain ⟨rfl, rfl, rfl, rfl, rfl⟩ := top_paren hws hvs
    exact ⟨rfl, rfl⟩

/-- A closing parenthesis completes all that is above its partner. -/
theorem Carries.close {a : α} (h : Carries previous ws (.rparen, a) xs ws')
    (hws : ws = vs ++ (.paren call n, b) :: us) (hvs : parens vs = 0) :
    ∃ more, xs = Pending.labelled vs ++ more := by
  cases h with
  | closeGroup a b' os n' kept =>
    obtain ⟨rfl, -⟩ := top_paren hws hvs
    exact ⟨[], (List.append_nil _).symm⟩
  | closeCall a b' os n' f c kept =>
    obtain ⟨rfl, -⟩ := top_paren hws hvs
    exact ⟨[(.fn f, c)], rfl⟩

/-- And the call, if its partner is the parenthesis of a function. -/
theorem Carries.close_call {a c : α} {f : Func} (h : Carries previous ws (.rparen, a) xs ws')
    (hws : ws = vs ++ (.paren true n, b) :: (.function f, c) :: us) (hvs : parens vs = 0) :
    xs = Pending.labelled vs ++ [(.fn f, c)] ∧ ws' = us := by
  cases h with
  | closeGroup a b' os n' kept =>
    obtain ⟨-, hcall, -⟩ := top_paren hws hvs
    cases hcall
  | closeCall a b' os n' g c' kept =>
    obtain ⟨rfl, -, -, -, hbelow⟩ := top_paren hws hvs
    cases hbelow
    exact ⟨rfl, rfl⟩

end Carries

/-! ## A row of tokens -/

namespace CarriesAll

variable {previous : Option Token} {ws ws' us : List (Pending × α)} {row more : List (Token × α)}
  {xs : List (Instr × α)}

/-- A row that closes no parenthesis from before it moves nothing below the one
    that is open there. -/
theorem inside {vs : List (Pending × α)} {call : Bool} {n : Nat} {b : α}
    (h : CarriesAll previous (vs ++ (.paren call n, b) :: us) row xs ws')
    (hdepth : ∀ before after, row.map Prod.fst = before ++ after →
      0 ≤ parens vs + Token.depth before) :
    ∃ vs' n', ws' = vs' ++ (.paren call n', b) :: us
      ∧ (xs ++ Pending.labelled vs').Perm (Pending.labelled vs ++ labelled row)
      ∧ parens vs' = parens vs + Token.depth (row.map Prod.fst) := by
  generalize hws : vs ++ (.paren call n, b) :: us = ws at h
  induction h generalizing vs n with
  | nil ws => exact ⟨vs, n, hws.symm, .of_eq (List.append_nil _).symm, (Int.add_zero _).symm⟩
  | @cons _ ws ws₁ ws₂ x row xs ys hfirst _ ih =>
    have hx := hdepth [x.1] (row.map Prod.fst) rfl
    rw [Token.depth_cons, Token.depth_nil, Int.add_zero] at hx
    obtain ⟨vs₁, n₁, rfl, hperm₁, hparens₁⟩ := hfirst.inside hws.symm hx
    have hrest : ∀ before after, row.map Prod.fst = before ++ after →
        0 ≤ parens vs₁ + Token.depth before := by
      intro before after hrow
      have hall := hdepth (x.1 :: before) after (by rw [List.map_cons, hrow]; rfl)
      rw [Token.depth_cons] at hall
      omega
    obtain ⟨vs₂, n₂, rfl, hperm₂, hparens₂⟩ := ih hrest rfl
    refine ⟨vs₂, n₂, rfl, ?_, ?_⟩
    · rw [Token.labelled_cons x row]
      exact perm_trans hperm₁ hperm₂
    · rw [List.map_cons, Token.depth_cons, hparens₂, hparens₁]
      omega

/-- Directly behind an opening parenthesis a matched row is emitted as one block,
    of which the last part waits above the parenthesis. -/
theorem matched {call : Bool} {n : Nat} {b : α}
    (h : CarriesAll previous ((.paren call n, b) :: us) row xs ws')
    (hrow : Matched (row.map Prod.fst)) :
    ∃ vs n', ws' = vs ++ (.paren call n', b) :: us
      ∧ (xs ++ Pending.labelled vs).Perm (labelled row) ∧ parens vs = 0 := by
  have hstart : CarriesAll previous ([] ++ (.paren call n, b) :: us) row xs ws' := h
  obtain ⟨vs, n', hws', hperm, hparens⟩ := hstart.inside (by
    intro before after hcut
    have hnonneg := hrow.depth_nonneg before after hcut
    rw [parens]
    omega)
  refine ⟨vs, n', hws', hperm, ?_⟩
  rw [hparens, hrow.depth_eq]
  rfl

/-- The row between two parentheses is emitted in one piece. -/
theorem between {inner after : List (Token × α)} {a b : α}
    (h : CarriesAll previous ws ((.lparen, a) :: (inner ++ (.rparen, b) :: after)) xs ws')
    (hinner : Matched (inner.map Prod.fst)) :
    ∃ block back, xs = block ++ back ∧ block.Perm (labelled inner) := by
  cases h with
  | cons hopen hrest =>
    obtain ⟨rfl, rfl⟩ := hopen.lparen_waits
    obtain ⟨between, ys, ws₁, zs, hrow, hclose, rfl⟩ := exists_append hrest
    obtain ⟨vs, n, hws₁, hperm, hparens⟩ := hrow.matched hinner
    cases hclose with
    | @cons _ _ _ _ _ _ _ back hclose =>
      obtain ⟨more, rfl⟩ := hclose.close hws₁ hparens
      exact ⟨ys ++ Pending.labelled vs, more ++ back, by simp, hperm⟩

/-- The arguments of a call are emitted one behind the other, and then the call. -/
theorem arguments {args : List (List (Token × α))} {inner after : List (Token × α)} {n : Nat}
    {a b c : α} {f : Func} (hargs : Arguments args inner)
    (h : CarriesAll previous ((.paren true n, a) :: (.function f, c) :: us)
      (inner ++ (.rparen, b) :: after) xs ws') :
    ∃ blocks back, xs = blocks.flatten ++ (.fn f, c) :: back
      ∧ List.Forall₂ (fun block arg => block.Perm (labelled arg)) blocks args := by
  induction hargs generalizing previous n xs with
  | last harg =>
    obtain ⟨between, ys, ws₁, zs, hrow, hrest, rfl⟩ := exists_append h
    obtain ⟨vs, n', hws₁, hperm, hparens⟩ := hrow.matched harg
    cases hrest with
    | @cons _ _ _ _ _ _ _ back hclose =>
      rw [(hclose.close_call hws₁ hparens).1]
      exact ⟨[ys ++ Pending.labelled vs], back, by simp, .cons hperm .nil⟩
  | @cons arg inner args d harg _ ih =>
    rw [List.append_assoc] at h
    obtain ⟨between, ys, ws₁, zs, hrow, hrest, rfl⟩ := exists_append h
    obtain ⟨vs, n', hws₁, hperm, hparens⟩ := hrow.matched harg
    cases hrest with
    | cons hcomma hrest =>
      -- the separator completes the first argument
      obtain ⟨rfl, rfl⟩ := hcomma.separate hws₁ hparens
      obtain ⟨blocks, back, rfl, hblocks⟩ := ih hrest
      refine ⟨(ys ++ Pending.labelled vs) :: blocks, back, ?_, .cons hperm hblocks⟩
      simp

end CarriesAll

end Converter

/-! ## Converted rows -/

namespace Program

open Converter

/-- A conversion only rearranges what stands in a row: with each instruction goes
    the place of its token, and by their places the instructions are arranged. -/
theorem exists_arranged {ts : List Token} {p : Program} (h : ofTokens ts = .ok p) :
    ∃ placed : List (Instr × Nat), placed.map Prod.fst = p ∧ Arranged ts.zipIdx placed := by
  rw [← List.zipIdx_map_fst 0 ts] at h
  obtain ⟨xs, ws, hall, hp⟩ := exists_labelled h
  refine ⟨xs ++ Pending.labelled ws, hp, hall.perm, ?_, ?_, ?_⟩
  · rw [List.filter_append, hall.operands, Pending.filter_labelled, List.append_nil]
  · intro before a inner b after hrow hinner
    rw [hrow] at hall
    obtain ⟨previous, ys, ws₁, zs, -, hrest, rfl⟩ := hall.exists_append
    obtain ⟨block, back, rfl, hperm⟩ := hrest.between hinner
    exact ⟨ys, block, back ++ Pending.labelled ws, by simp, hperm⟩
  · intro before f c a args inner b after hrow hargs
    rw [hrow] at hall
    obtain ⟨previous, ys, ws₁, zs, -, hrest, rfl⟩ := hall.exists_append
    cases hrest with
    | cons hfn hrest =>
      obtain ⟨rfl, rfl⟩ := hfn.fn_waits
      cases hrest with
      | cons hopen hrest =>
        obtain ⟨rfl, rfl⟩ := hopen.lparen_waits
        obtain ⟨blocks, back, rfl, hblocks⟩ := CarriesAll.arguments hargs hrest
        exact ⟨ys, blocks, back ++ Pending.labelled ws, by simp, hblocks⟩

/-- The tokens of `2 ^ pow(x, (y + 1)) * -z`: a group in an argument of a call. -/
def scaledPower : List Token :=
  [.num 2, .op .power, .fn (.ofBinary "pow" Float.pow), .lparen, .var "x", .comma, .lparen,
    .var "y", .op .add, .num 1, .rparen, .rparen, .op .multiply, .op .negate, .var "z"]

theorem exists_arranged_scaledPower :
    ofTokens scaledPower = .ok [.num 2, .var "x", .var "y", .num 1, .op .add,
        .fn (.ofBinary "pow" Float.pow), .op .power, .var "z", .op .negate, .op .multiply]
      ∧ ∃ placed : List (Instr × Nat),
          placed.map Prod.fst = [.num 2, .var "x", .var "y", .num 1, .op .add,
            .fn (.ofBinary "pow" Float.pow), .op .power, .var "z", .op .negate, .op .multiply]
          ∧ Arranged scaledPower.zipIdx placed :=
  ⟨rfl, exists_arranged rfl⟩

end Program

end StackCalc
