/-
  StackCalc.Proofs.Chain

  A phrase as a chain of operands with operators between them, and the grouping
  of a chain.

  `head` and `tail` take a phrase apart without regard to its grouping.
  `Phrase.attach` puts a chain together again from the left, each operator above
  that part of the right spine that it pops.  The two meet in the well-grouped
  phrases: `attach_head_tail` says that a well-grouped phrase is what its chain
  gives, and `regroup` makes one out of any phrase.
-/
import StackCalc.Proofs.Phrase

namespace StackCalc

namespace Phrase

/-! ## Taking apart -/

/-- The first operand, with the signs before it. -/
def head : Phrase → Phrase
  | binary _ l _ => l.head
  | sign o e => sign o e.head
  | e => e

/-- The operators between the operands, each with the operand behind it. -/
def tail : Phrase → List (Operator × Phrase)
  | binary o l r => l.tail ++ (o, r.head) :: r.tail
  | sign _ e => e.tail
  | _ => []

/-- How the operators and operands behind the first are written. -/
def linkTokens (links : List (Operator × Phrase)) : List Token :=
  links.flatMap fun link => .op link.1 :: link.2.tokens

@[simp] theorem linkTokens_cons (link : Operator × Phrase) (links : List (Operator × Phrase)) :
    linkTokens (link :: links) = .op link.1 :: (link.2.tokens ++ linkTokens links) := rfl

@[simp] theorem linkTokens_append (links more : List (Operator × Phrase)) :
    linkTokens (links ++ more) = linkTokens links ++ linkTokens more := by
  simp [linkTokens]

theorem tokens_head_tail (e : Phrase) : e.head.tokens ++ linkTokens e.tail = e.tokens := by
  induction e with
  | binary o l r ihl ihr =>
    rw [head, tail, linkTokens_append, linkTokens_cons, ihr, ← List.append_assoc, ihl, tokens]
  | sign o e ih => rw [head, tail, tokens, tokens, List.cons_append, ih]
  | num | var | group | call | suffix => exact List.append_nil _

theorem tail_head (e : Phrase) : e.head.tail = [] := by
  induction e with
  | binary o l r ihl _ => exact ihl
  | sign o e ih => exact ih
  | num | var | group | call | suffix => rfl

theorem leftSpine_of_tail {e : Phrase} (h : e.tail = []) : e.leftSpine = [] := by
  cases e with
  | binary o l r => simp [tail] at h
  | num | var | group | call | sign | suffix => rfl

/-- What holds of a phrase also holds of the operands in its chain, if it does
    so of both sides of an operator, and of a sign before a single operand.  Of
    the operators between the operands it says something of their own. -/
structure Inherits (P : Phrase → Prop) (Q : Operator → Prop) : Prop where
  binary : ∀ {o l r}, P (.binary o l r) → Q o ∧ P l ∧ P r
  sign : ∀ {o e}, P (.sign o e) → P e ∧ ∀ e', P e' → e'.tail = [] → P (.sign o e')

section Inherits

variable {P : Phrase → Prop} {Q : Operator → Prop}

theorem Inherits.head (hP : Inherits P Q) {e : Phrase} (h : P e) : P e.head := by
  induction e with
  | binary o l r ihl _ => exact ihl (hP.binary h).2.1
  | sign o e ih => exact (hP.sign h).2 e.head (ih (hP.sign h).1) (tail_head e)
  | num | var | group | call | suffix => exact h

theorem Inherits.tail (hP : Inherits P Q) {e : Phrase} (h : P e) :
    ∀ link ∈ e.tail, Q link.1 ∧ P link.2 ∧ link.2.tail = [] := by
  induction e with
  | binary o l r ihl ihr =>
    obtain ⟨ho, hl, hr⟩ := hP.binary h
    intro link hlink
    simp only [Phrase.tail, List.mem_append, List.mem_cons] at hlink
    rcases hlink with hlink | rfl | hlink
    · exact ihl hl link hlink
    · exact ⟨ho, hP.head hr, tail_head r⟩
    · exact ihr hr link hlink
  | sign o e ih => exact ih (hP.sign h).1
  | num | var | group | call | suffix => simp [Phrase.tail]

end Inherits

/-! ## Putting together -/

/-- All of the right spine is complete before the operator. -/
def Yields (e : Phrase) (q : Operator) : Prop := ∀ p ∈ e.rightSpine, p.Pops q

instance (p q : Operator) : Decidable (p.Pops q) :=
  inferInstanceAs (Decidable (q.precedence < p.precedence
    ∨ p.precedence = q.precedence ∧ q.associativity = .left))

instance (e : Phrase) (q : Operator) : Decidable (e.Yields q) :=
  inferInstanceAs (Decidable (∀ p ∈ e.rightSpine, p.Pops q))

/-- Writes an operator and an operand behind a phrase.  The operator takes from
    its left what is complete before it. -/
def extend (q : Operator) (x : Phrase) : Phrase → Phrase
  | binary o l r =>
    if (binary o l r).Yields q then binary q (binary o l r) x else binary o l (extend q x r)
  | sign o e => if (sign o e).Yields q then binary q (sign o e) x else sign o (extend q x e)
  | e => binary q e x

/-- Writes operators and operands behind a phrase one after the other. -/
def attach (e : Phrase) (links : List (Operator × Phrase)) : Phrase :=
  links.foldl (fun e link => extend link.1 link.2 e) e

theorem extend_of_yields {q : Operator} {x e : Phrase} (h : e.Yields q) :
    extend q x e = binary q e x := by
  cases e with
  | binary | sign => rw [extend, if_pos h]
  | num | var | group | call | suffix => rfl

theorem tokens_extend (q : Operator) (x e : Phrase) :
    (extend q x e).tokens = e.tokens ++ .op q :: x.tokens := by
  induction e with
  | binary o l r _ ihr =>
    rw [extend]
    split
    · rfl
    · rw [tokens, ihr, tokens, List.append_assoc, List.cons_append]
  | sign o e ih =>
    rw [extend]
    split
    · rfl
    · rw [tokens, ih, tokens, List.cons_append]
  | num | var | group | call | suffix => rfl

theorem tokens_attach (e : Phrase) (links : List (Operator × Phrase)) :
    (attach e links).tokens = e.tokens ++ linkTokens links := by
  induction links generalizing e with
  | nil => exact (List.append_nil _).symm
  | cons link links ih =>
    show (attach (extend link.1 link.2 e) links).tokens = _
    rw [ih, tokens_extend, linkTokens_cons, List.append_assoc, List.cons_append]

/-! ## A well-grouped phrase is what its chain gives -/

theorem mem_leftSpine_extend {p q : Operator} {e : Phrase} (x : Phrase) (h : p ∈ e.leftSpine) :
    p ∈ (extend q x e).leftSpine := by
  cases e with
  | binary o l r =>
    rw [extend]
    split
    · exact List.mem_cons_of_mem q h
    · exact h
  | num | var | group | call | sign | suffix => exact absurd h List.not_mem_nil

theorem mem_leftSpine_attach {p : Operator} {e : Phrase} (links : List (Operator × Phrase))
    (h : p ∈ e.leftSpine) : p ∈ (attach e links).leftSpine := by
  induction links generalizing e with
  | nil => exact h
  | cons link links ih => exact ih (mem_leftSpine_extend link.2 h)

theorem extend_binary {o q : Operator} {l x e : Phrase} (h : ¬ (o.Pops q ∧ e.Yields q)) :
    extend q x (binary o l e) = binary o l (extend q x e) := by
  rw [extend, if_neg]
  intro hy
  exact h ⟨hy o (List.mem_cons_self ..), fun p hp => hy p (List.mem_cons_of_mem o hp)⟩

theorem extend_sign {o q : Operator} {x e : Phrase} (h : ¬ (o.Pops q ∧ e.Yields q)) :
    extend q x (sign o e) = sign o (extend q x e) := by
  rw [extend, if_neg]
  intro hy
  exact h ⟨hy o (List.mem_cons_self ..), fun p hp => hy p (List.mem_cons_of_mem o hp)⟩

/-- Below an operator that pops nothing of the left spine a chain grows as it
    does by itself. -/
theorem attach_under {o : Operator} {wrap : Phrase → Phrase} {e : Phrase}
    {links : List (Operator × Phrase)}
    (hwrap : ∀ {q x e}, ¬ (o.Pops q ∧ e.Yields q) → extend q x (wrap e) = wrap (extend q x e))
    (h : ∀ q ∈ (attach e links).leftSpine, ¬ o.Pops q) :
    attach (wrap e) links = wrap (attach e links) := by
  induction links generalizing e with
  | nil => rfl
  | cons link links ih =>
    have hnot : ¬ (o.Pops link.1 ∧ e.Yields link.1) := by
      rintro ⟨hpops, hyields⟩
      -- otherwise the operator would stand on the left spine of the whole
      have hmem : link.1 ∈ (extend link.1 link.2 e).leftSpine := by
        rw [extend_of_yields hyields]
        exact List.mem_cons_self ..
      exact h link.1 (mem_leftSpine_attach links hmem) hpops
    show attach (extend link.1 link.2 (wrap e)) links = _
    rw [hwrap hnot]
    exact ih h

theorem attach_append (e : Phrase) (links more : List (Operator × Phrase)) :
    attach e (links ++ more) = attach (attach e links) more :=
  List.foldl_append

theorem attach_head_tail {e : Phrase} (h : e.WellGrouped) : attach e.head e.tail = e := by
  induction e with
  | binary o l r ihl ihr =>
    obtain ⟨hright, hleft, hl, hr⟩ := h
    have hl' := ihl hl
    have hr' := ihr hr
    calc attach l.head (l.tail ++ (o, r.head) :: r.tail)
        = attach (extend o r.head (attach l.head l.tail)) r.tail := attach_append ..
      _ = attach (binary o l r.head) r.tail := by rw [hl', extend_of_yields hright]
      _ = binary o l (attach r.head r.tail) := attach_under extend_binary (by rwa [hr'])
      _ = binary o l r := by rw [hr']
  | sign o e ih =>
    obtain ⟨hleft, he⟩ := h
    have he' := ih he
    calc attach (sign o e.head) e.tail
        = sign o (attach e.head e.tail) := attach_under extend_sign (by rwa [he'])
      _ = sign o e := by rw [he']
  | num | var | group | call | suffix => rfl

/-! ## Every phrase has a well-grouped one with the same tokens -/

/-- The phrase fits the levels, and is grouped as precedence asks for. -/
def IsMeant (levels : Levels) (e : Phrase) : Prop := e.Fits levels ∧ e.WellGrouped

/-- An operator between two operands, below the suffixes. -/
def IsJoint (levels : Levels) (o : Operator) : Prop :=
  o.arity = 2 ∧ o.precedence < levels.suffix

theorem inherits_isMeant (levels : Levels) : Inherits (IsMeant levels) (IsJoint levels) where
  binary := by
    rintro o l r ⟨⟨harity, hprec, hl, hr⟩, -, -, hgl, hgr⟩
    exact ⟨⟨harity, hprec⟩, ⟨hl, hgl⟩, ⟨hr, hgr⟩⟩
  sign := by
    rintro o e ⟨⟨harity, hassoc, hprec, he⟩, -, hge⟩
    refine ⟨⟨he, hge⟩, fun e' he' htail => ⟨⟨harity, hassoc, hprec, he'.1⟩, ?_, he'.2⟩⟩
    simp [leftSpine_of_tail htail]

/-- An operator between two operands, and the single operand behind it. -/
def IsLink (levels : Levels) (link : Operator × Phrase) : Prop :=
  IsJoint levels link.1 ∧ link.2.IsMeant levels ∧ link.2.tail = []

theorem yields_of_isTight {levels : Levels} {e : Phrase} {q : Operator} (hfits : e.Fits levels)
    (htight : e.IsTight) (hq : q.precedence < levels.suffix) : e.Yields q := by
  intro p hp
  have hprec := (rightSpine_of_isTight htight hfits p hp).2
  exact Or.inl (by omega)

/-- An operator is new on the left spine only if it takes the whole phrase. -/
theorem mem_leftSpine_of_extend {levels : Levels} {p q : Operator} {x e : Phrase}
    (hfits : e.Fits levels) (hq : q.precedence < levels.suffix)
    (h : p ∈ (extend q x e).leftSpine) : p ∈ e.leftSpine ∨ p = q ∧ e.Yields q := by
  by_cases hy : e.Yields q
  · rw [extend_of_yields hy] at h
    rcases List.mem_cons.mp h with rfl | h
    · exact Or.inr ⟨rfl, hy⟩
    · exact Or.inl h
  · cases e with
    | binary | sign =>
      rw [extend, if_neg hy] at h
      exact Or.inl h
    | num | var | group | call | suffix => exact absurd (yields_of_isTight hfits trivial hq) hy

theorem isMeant_extend {levels : Levels} {q : Operator} {x e : Phrase} (he : e.IsMeant levels)
    (hlink : IsLink levels (q, x)) : (extend q x e).IsMeant levels := by
  obtain ⟨⟨harity, hprec⟩, ⟨hxfits, hxgrouped⟩, hxtail⟩ := hlink
  have hroot {e : Phrase} (he : e.IsMeant levels) (hy : e.Yields q) :
      (binary q e x).IsMeant levels :=
    ⟨⟨harity, hprec, he.1, hxfits⟩, hy, by simp [leftSpine_of_tail hxtail], he.2, hxgrouped⟩
  induction e with
  | binary o l r _ ihr =>
    by_cases hy : (binary o l r).Yields q
    · rw [extend_of_yields hy]
      exact hroot he hy
    · obtain ⟨⟨hoarity, hoprec, hlfits, hrfits⟩, hright, hleft, hlgrouped, hrgrouped⟩ := he
      obtain ⟨hfits, hgrouped⟩ := ihr ⟨hrfits, hrgrouped⟩
      rw [extend, if_neg hy]
      refine ⟨⟨hoarity, hoprec, hlfits, hfits⟩, hright, ?_, hlgrouped, hgrouped⟩
      intro p hp
      rcases mem_leftSpine_of_extend hrfits hprec hp with hp | ⟨rfl, hyr⟩
      · exact hleft p hp
      · exact fun hpops => hy (List.forall_mem_cons.mpr ⟨hpops, hyr⟩)
  | sign o e ih =>
    by_cases hy : (sign o e).Yields q
    · rw [extend_of_yields hy]
      exact hroot he hy
    · obtain ⟨⟨hoarity, hoassoc, hoprec, hefits⟩, hleft, hegrouped⟩ := he
      obtain ⟨hfits, hgrouped⟩ := ih ⟨hefits, hegrouped⟩
      rw [extend, if_neg hy]
      refine ⟨⟨hoarity, hoassoc, hoprec, hfits⟩, ?_, hgrouped⟩
      intro p hp
      rcases mem_leftSpine_of_extend hefits hprec hp with hp | ⟨rfl, hye⟩
      · exact hleft p hp
      · exact fun hpops => hy (List.forall_mem_cons.mpr ⟨hpops, hye⟩)
  | num | var | group | call | suffix => exact hroot he (yields_of_isTight he.1 trivial hprec)

theorem isMeant_attach {levels : Levels} {e : Phrase} {links : List (Operator × Phrase)}
    (he : e.IsMeant levels) (hlinks : ∀ link ∈ links, IsLink levels link) :
    (attach e links).IsMeant levels := by
  induction links generalizing e with
  | nil => exact he
  | cons link links ih =>
    exact ih (isMeant_extend he (hlinks link (List.mem_cons_self ..)))
      fun link' h => hlinks link' (List.mem_cons_of_mem link h)

/-- The phrase with the same tokens in which everything stands as it is meant. -/
def regroup : Phrase → Phrase
  | num value => num value
  | var name => var name
  | group e => group e.regroup
  | call f args => call f fun i => (args i).regroup
  | binary o l r => attach (extend o r.regroup.head l.regroup) r.regroup.tail
  | sign o e => attach (sign o e.regroup.head) e.regroup.tail
  | suffix e o => suffix e.regroup o

theorem tokens_regroup (e : Phrase) : e.regroup.tokens = e.tokens := by
  induction e with
  | num | var => rfl
  | group e ih => rw [regroup, tokens, ih, tokens]
  | call f args ih => simp only [regroup, tokens, ih]
  | binary o l r ihl ihr =>
    rw [regroup, tokens_attach, tokens_extend, ihl, List.append_assoc, List.cons_append,
      tokens_head_tail, ihr, tokens]
  | sign o e ih =>
    rw [regroup, tokens_attach, tokens, List.cons_append, tokens_head_tail, ih, tokens]
  | suffix e o ih => rw [regroup, tokens, ih, tokens]

theorem isTight_regroup {e : Phrase} (h : e.IsTight) : e.regroup.IsTight := by
  cases e with
  | binary | sign => exact h.elim
  | num | var | group | call | suffix => trivial

theorem isMeant_regroup {levels : Levels} {e : Phrase} (h : e.Fits levels) :
    e.regroup.IsMeant levels := by
  induction e with
  | num | var => exact ⟨trivial, trivial⟩
  | group e ih => exact ih h
  | call f args ih => exact ⟨fun i => (ih i (h i)).1, fun i => (ih i (h i)).2⟩
  | binary o l r ihl ihr =>
    obtain ⟨harity, hprec, hl, hr⟩ := h
    have hlink : IsLink levels (o, r.regroup.head) :=
      ⟨⟨harity, hprec⟩, (inherits_isMeant levels).head (ihr hr), tail_head _⟩
    exact isMeant_attach (isMeant_extend (ihl hl) hlink) ((inherits_isMeant levels).tail (ihr hr))
  | sign o e ih =>
    obtain ⟨harity, hassoc, hprec, he⟩ := h
    obtain ⟨hfits, hgrouped⟩ := (inherits_isMeant levels).head (ih he)
    have hsign : (sign o e.regroup.head).IsMeant levels :=
      ⟨⟨harity, hassoc, hprec, hfits⟩, by simp [leftSpine_of_tail (tail_head _)], hgrouped⟩
    exact isMeant_attach hsign ((inherits_isMeant levels).tail (ih he))
  | suffix e o ih =>
    obtain ⟨harity, hassoc, hprec, htight, he⟩ := h
    exact ⟨⟨harity, hassoc, hprec, isTight_regroup htight, (ih he).1⟩, (ih he).2⟩

end Phrase

end StackCalc
