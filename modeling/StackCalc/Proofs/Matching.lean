/-
  StackCalc.Proofs.Matching

  Parentheses that nest and match, said by counting: a row of tokens closes as
  many as it opens, and none before it is opened.

  The parenthesis that is innermost behind some tokens is the one with a matched
  row behind it, and there is only one such place: `Matched.lparen_unique`.  How
  deep a separator stands is counted along the way, so the separators of a list
  are those at its own level.
-/
import StackCalc.Proofs.Nesting

namespace StackCalc

namespace Token

/-- How many more parentheses are open behind a token than before it. -/
def rise : Token → Int
  | lparen => 1
  | rparen => -1
  | num _ | var _ | op _ | fn _ | comma => 0

/-- How many more parentheses are open behind a row than before it. -/
def depth : List Token → Int
  | [] => 0
  | t :: ts => t.rise + depth ts

@[simp] theorem depth_nil : depth [] = 0 := rfl

@[simp] theorem depth_cons (t : Token) (ts : List Token) :
    depth (t :: ts) = t.rise + depth ts := rfl

@[simp] theorem depth_append (xs ys : List Token) : depth (xs ++ ys) = depth xs + depth ys := by
  induction xs with
  | nil => rw [List.nil_append, depth_nil, Int.zero_add]
  | cons t xs ih => rw [List.cons_append, depth_cons, depth_cons, ih, Int.add_assoc]

/-- The parentheses of the row nest and match. -/
structure Matched (ts : List Token) : Prop where
  /-- It closes as many as it opens. -/
  depth_eq : depth ts = 0
  /-- It closes none before it is opened. -/
  depth_nonneg : ∀ before after, ts = before ++ after → 0 ≤ depth before

/-- How many separators of a row stand at level zero, where the row starts at
    `level`. -/
def commasAt (level : Int) : List Token → Nat
  | [] => 0
  | .comma :: ts => (if level = 0 then 1 else 0) + commasAt level ts
  | .lparen :: ts => commasAt (level + 1) ts
  | .rparen :: ts => commasAt (level - 1) ts
  | .num _ :: ts | .var _ :: ts | .op _ :: ts | .fn _ :: ts => commasAt level ts

/-- How many separators of a row stand at its own level, outside of all
    parentheses in it. -/
def commas (ts : List Token) : Nat := commasAt 0 ts

theorem commasAt_append (level : Int) (xs ys : List Token) :
    commasAt level (xs ++ ys) = commasAt level xs + commasAt (level + depth xs) ys := by
  induction xs generalizing level with
  | nil => simp [commasAt]
  | cons t xs ih =>
    cases t with
    | num | var | op | fn => simp [commasAt, rise, ih]
    | comma => simp [commasAt, rise, ih, Nat.add_assoc]
    | lparen | rparen => simp [commasAt, rise, ih, Int.add_assoc, Int.sub_eq_add_neg]

/-! ## Matched rows -/

theorem matched_nil : Matched [] := by
  refine ⟨rfl, ?_⟩
  intro before after h
  obtain ⟨rfl, -⟩ := List.append_eq_nil_iff.mp h.symm
  exact Int.le_refl 0

theorem matched_singleton {t : Token} (ht : t.rise = 0) : Matched [t] := by
  refine ⟨by simp [ht], ?_⟩
  intro before after h
  cases before with
  | nil => exact Int.le_refl 0
  | cons u before =>
    rw [List.cons_append, List.cons.injEq] at h
    obtain ⟨rfl, h⟩ := h
    obtain ⟨rfl, -⟩ := List.append_eq_nil_iff.mp h.symm
    simp [ht]

theorem Matched.append {xs ys : List Token} (hx : Matched xs) (hy : Matched ys) :
    Matched (xs ++ ys) := by
  refine ⟨by rw [depth_append, hx.depth_eq, hy.depth_eq]; rfl, ?_⟩
  intro before after h
  -- the cut falls into the one row or into the other
  rcases List.append_eq_append_iff.mp h with ⟨start, rfl, hstart⟩ | ⟨rest, hrest, -⟩
  · have hnonneg := hy.depth_nonneg start after hstart
    rw [depth_append, hx.depth_eq]
    omega
  · exact hx.depth_nonneg before rest hrest

theorem Matched.group {ts : List Token} (h : Matched ts) :
    Matched (.lparen :: ts ++ [.rparen]) := by
  refine ⟨by simp [rise, h.depth_eq], ?_⟩
  intro before after hcut
  cases before with
  | nil => exact Int.le_refl 0
  | cons u before =>
    rw [List.cons_append, List.cons_append, List.cons.injEq] at hcut
    obtain ⟨rfl, hcut⟩ := hcut
    rcases List.append_eq_append_iff.mp hcut with ⟨start, rfl, hstart⟩ | ⟨rest, hrest, -⟩
    · -- behind the row at most its closing parenthesis is cut off
      have hend : 0 ≤ rise .lparen + depth start := by
        rcases List.cons_eq_append_iff.mp hstart with ⟨rfl, -⟩ | ⟨start', rfl, hnil⟩
        · decide
        · obtain ⟨rfl, -⟩ := List.append_eq_nil_iff.mp hnil.symm
          decide
      rw [depth_cons, depth_append, h.depth_eq]
      omega
    · have hnonneg := h.depth_nonneg before rest hrest
      rw [depth_cons, rise]
      omega

theorem matched_intercalate {args : List (List Token)} (h : ∀ a ∈ args, Matched a) :
    Matched ([comma].intercalate args) := by
  refine intercalate_induction matched_nil (fun ts us hts hus => ?_) h
  exact hts.append ((matched_singleton rfl).append hus)

/-- A parenthesis that is still open at the end is not matched. -/
theorem not_matched_lparen {before inner : List Token} (h : Matched inner) :
    ¬ Matched (before ++ .lparen :: inner) := by
  intro hall
  have hdepth := hall.depth_eq
  have hnonneg := hall.depth_nonneg before _ rfl
  rw [depth_append, depth_cons, h.depth_eq, rise] at hdepth
  omega

/-- The innermost parenthesis that is open behind a row is at one place only. -/
theorem Matched.lparen_unique {xs ys before before' : List Token} (hx : Matched xs)
    (hy : Matched ys) (h : before ++ .lparen :: xs = before' ++ .lparen :: ys) :
    before = before' ∧ xs = ys := by
  rcases List.append_eq_append_iff.mp h with ⟨more, rfl, hmore⟩ | ⟨more, rfl, hmore⟩
  · rcases List.cons_eq_append_iff.mp hmore with ⟨rfl, heq⟩ | ⟨more', rfl, rfl⟩
    · cases heq
      exact ⟨(List.append_nil before).symm, rfl⟩
    · exact absurd hx (not_matched_lparen hy)
  · rcases List.cons_eq_append_iff.mp hmore with ⟨rfl, heq⟩ | ⟨more', rfl, rfl⟩
    · cases heq
      exact ⟨List.append_nil before', rfl⟩
    · exact absurd hy (not_matched_lparen hx)

end Token

open Token (Matched commasAt)

/-! ## Rows that nest -/

theorem Nested.matched {ts : List Token} (h : Nested ts) : Matched ts := by
  induction h with
  | nil => exact Token.matched_nil
  | num _ _ ih | var _ _ ih | op _ _ ih => exact (Token.matched_singleton rfl).append ih
  | @group inner rest _ _ _ ihinner ihrest =>
    have hall := ihinner.group.append ihrest
    rwa [List.append_assoc] at hall
  | @call f args rest _ _ _ _ ihargs ihrest =>
    have hlist := (Token.matched_intercalate ihargs).group
    have hall := (Token.matched_singleton (t := .fn f) rfl).append (hlist.append ihrest)
    rwa [List.append_assoc] at hall

/-- Between parentheses no separator stands at the level outside of them. -/
theorem Token.commasAt_intercalate {level : Int} {args : List (List Token)} (hlevel : level ≠ 0)
    (h : ∀ a ∈ args, Matched a ∧ commasAt level a = 0) :
    commasAt level ([Token.comma].intercalate args) = 0 := by
  -- the level behind an argument is that in front of it
  refine (intercalate_induction (P := fun ts => Matched ts ∧ commasAt level ts = 0)
    ⟨matched_nil, rfl⟩ ?_ h).2
  rintro ts us ⟨hts, htsCommas⟩ ⟨hus, husCommas⟩
  refine ⟨hts.append ((matched_singleton rfl).append hus), ?_⟩
  rw [commasAt_append, hts.depth_eq, htsCommas]
  simp [commasAt, hlevel, husCommas]

/-- A row that nests has no separators of its own: each of them belongs to a
    list in it. -/
theorem Nested.commasAt_eq_zero {ts : List Token} (h : Nested ts) {level : Int}
    (hlevel : 0 ≤ level) : commasAt level ts = 0 := by
  induction h generalizing level with
  | nil => rfl
  | num _ _ ih | var _ _ ih | op _ _ ih => exact ih hlevel
  | @group inner rest _ hinner _ ihinner ihrest =>
    show commasAt (level + 1) (inner ++ .rparen :: rest) = 0
    rw [Token.commasAt_append, ihinner (by omega), hinner.matched.depth_eq]
    simp [commasAt, ihrest hlevel]
  | @call f args rest _ _ hargs _ ihargs ihrest =>
    have hmatched : ∀ a ∈ args, Matched a := fun a ha => (hargs a ha).matched
    have hlist : commasAt (level + 1) ([Token.comma].intercalate args) = 0 := by
      apply Token.commasAt_intercalate (by omega)
      intro a ha
      exact ⟨hmatched a ha, ihargs a ha (by omega)⟩
    show commasAt (level + 1) ([Token.comma].intercalate args ++ .rparen :: rest) = 0
    rw [Token.commasAt_append, hlist, (Token.matched_intercalate hmatched).depth_eq]
    simp [commasAt, ihrest hlevel]

/-! ## Lists that are still open -/

/-- The tokens of a list behind its opening parenthesis: the arguments that are
    complete, each with its separator, and the beginning of the next one. -/
theorem Token.matched_arguments {args : List (List Token)} {inner : List Token}
    (hargs : ∀ a ∈ args, Nested a) (hinner : Nested inner) :
    Matched (args.flatMap (· ++ [.comma]) ++ inner) := by
  rw [← Token.intercalate_concat]
  apply Token.matched_intercalate
  intro a ha
  rcases List.mem_append.mp ha with ha | ha
  · exact (hargs a ha).matched
  · rw [List.mem_singleton.mp ha]
    exact hinner.matched

/-- There is one separator behind each argument that is complete. -/
theorem Token.commas_arguments {args : List (List Token)} {inner : List Token}
    (hargs : ∀ a ∈ args, Nested a) (hinner : Nested inner) :
    Token.commas (args.flatMap (· ++ [.comma]) ++ inner) = args.length := by
  induction args with
  | nil => exact hinner.commasAt_eq_zero (Int.le_refl 0)
  | cons a rest ih =>
    have ha := hargs a (List.mem_cons_self ..)
    have hrest := ih fun b hb => hargs b (List.mem_cons_of_mem a hb)
    rw [Token.commas] at hrest ⊢
    rw [List.flatMap_cons, List.append_assoc, List.append_assoc, commasAt_append,
      ha.commasAt_eq_zero (Int.le_refl 0), ha.matched.depth_eq, List.length_cons]
    simp only [List.singleton_append, commasAt, Int.add_zero, if_true, hrest]
    omega

end StackCalc
