/-
  StackCalc.Proofs.Grouping

  The well-grouped phrase that is written with some tokens is the only one, and
  the program that the tokens are converted into is its program.

  That two phrases with the same tokens are equal is shown along their chains,
  for phrases that are followed by something: a parenthesis or a separator shows
  where a phrase ends, and an operator between two operands where an operand
  does.  What stands between parentheses is compared first (`Inner`).
-/
import Mathlib.Data.List.OfFn
import StackCalc.Operator.Builtin
import StackCalc.Proofs.Chain
import StackCalc.Proofs.Conversion

namespace StackCalc

namespace Phrase

/-! ## Where phrases and operands end -/

/-- No phrase goes on with these tokens. -/
def Stops : List Token → Prop
  | [] | .rparen :: _ | .comma :: _ => True
  | _ => False

theorem stops_nil : Stops [] := trivial

theorem stops_rparen (us : List Token) : Stops (.rparen :: us) := trivial

theorem stops_comma (us : List Token) : Stops (.comma :: us) := trivial

/-- No operand goes on with these tokens: an operator that comes next stands
    between two operands. -/
def Joins (ts : List Token) : Prop := ∀ o us, ts = .op o :: us → o.arity = 2

theorem joins_of_stops {ts : List Token} (h : Stops ts) : Joins ts := by
  rintro o us rfl
  exact h.elim

theorem joins_linkTokens {levels : Levels} {links : List (Operator × Phrase)} {r : List Token}
    (hlinks : ∀ link ∈ links, IsLink levels link) (hr : Stops r) :
    Joins (linkTokens links ++ r) := by
  cases links with
  | nil => exact joins_of_stops hr
  | cons link links =>
    intro o us heq
    rw [linkTokens_cons, List.cons_append] at heq
    cases heq
    exact (hlinks link (List.mem_cons_self ..)).1.1

/-! ## Suffixes -/

/-- The phrase without the suffixes at its end. -/
def bare : Phrase → Phrase
  | suffix e _ => e.bare
  | e => e

/-- The suffixes at the end of the phrase. -/
def marks : Phrase → List Operator
  | suffix e o => e.marks ++ [o]
  | _ => []

theorem tokens_bare_marks (e : Phrase) : e.bare.tokens ++ e.marks.map .op = e.tokens := by
  induction e with
  | suffix e o ih => rw [bare, marks, List.map_append, ← List.append_assoc, ih, tokens]; rfl
  | num | var | group | call | binary | sign => exact List.append_nil _

theorem foldl_bare_marks (e : Phrase) : e.marks.foldl suffix e.bare = e := by
  induction e with
  | suffix e o ih => rw [bare, marks, List.foldl_append, ih]; rfl
  | num | var | group | call | binary | sign => rfl

theorem arity_of_mem_marks {levels : Levels} {e : Phrase} (h : e.Fits levels) :
    ∀ o ∈ e.marks, o.arity = 1 := by
  induction e with
  | suffix e o ih =>
    obtain ⟨harity, -, -, -, he⟩ := h
    intro p hp
    rcases List.mem_append.mp hp with hp | hp
    · exact ih he p hp
    · rw [List.mem_singleton.mp hp, harity]
  | num | var | group | call | binary | sign => simp [marks]

/-- A number, a variable, a group or a call. -/
def IsAtom : Phrase → Prop
  | num _ | var _ | group _ | call .. => True
  | _ => False

theorem isAtom_bare {levels : Levels} {e : Phrase} (hfits : e.Fits levels) (h : e.IsTight) :
    e.bare.IsAtom := by
  induction e with
  | suffix e o ih =>
    obtain ⟨-, -, -, htight, he⟩ := hfits
    exact ih he htight
  | binary | sign => exact h.elim
  | num | var | group | call => trivial

/-- A row of suffixes ends where no suffix follows. -/
theorem marks_unique {m m' : List Operator} {r r' : List Token} (hm : ∀ o ∈ m, o.arity = 1)
    (hm' : ∀ o ∈ m', o.arity = 1) (hr : Joins r) (hr' : Joins r')
    (h : m.map Token.op ++ r = m'.map Token.op ++ r') : m = m' ∧ r = r' := by
  induction m generalizing m' with
  | nil =>
    cases m' with
    | nil => exact ⟨rfl, h⟩
    | cons o m' =>
      have h2 := hr o _ h
      have h1 := hm' o (List.mem_cons_self ..)
      omega
  | cons o m ih =>
    cases m' with
    | nil =>
      have h2 := hr' o _ h.symm
      have h1 := hm o (List.mem_cons_self ..)
      omega
    | cons o' m' =>
      simp only [List.map_cons, List.cons_append, List.cons.injEq, Token.op.injEq] at h
      obtain ⟨rfl, h⟩ := h
      obtain ⟨rfl, rfl⟩ := ih (fun p hp => hm p (List.mem_cons_of_mem o hp))
        (fun p hp => hm' p (List.mem_cons_of_mem o hp)) h
      exact ⟨rfl, rfl⟩

/-! ## Phrases with the same tokens -/

/-- No other phrase that is meant has the same tokens before a place where both
    can stop. -/
def Determined (levels : Levels) (e : Phrase) : Prop :=
  ∀ ⦃e' : Phrase⦄ ⦃r r' : List Token⦄, e'.IsMeant levels → Stops r → Stops r' →
    e.tokens ++ r = e'.tokens ++ r' → e = e' ∧ r = r'

/-- All that stands between parentheses in the phrase is determined. -/
def Inner (levels : Levels) : Phrase → Prop
  | num _ | var _ => True
  | group e => e.Determined levels
  | call _ args => ∀ i, (args i).Determined levels
  | binary _ l r => l.Inner levels ∧ r.Inner levels
  | sign _ e => e.Inner levels
  | suffix e _ => e.Inner levels

theorem inherits_inner (levels : Levels) : Inherits (Inner levels) fun _ => True where
  binary h := ⟨trivial, h⟩
  sign h := ⟨h, fun _ he' _ => he'⟩

theorem inner_bare {levels : Levels} {e : Phrase} (h : e.Inner levels) : e.bare.Inner levels := by
  induction e with
  | suffix e o ih => exact ih h
  | num | var | group | call | binary | sign => exact h

theorem isMeant_bare {levels : Levels} {e : Phrase} (h : e.IsMeant levels) :
    e.bare.IsMeant levels := by
  induction e with
  | suffix e o ih => exact ih ⟨h.1.2.2.2.2, h.2⟩
  | num | var | group | call | binary | sign => exact h

/-- Argument lists of one length are compared argument by argument. -/
theorem arguments_unique {levels : Levels} (es es' : List Phrase) {r r' : List Token}
    (hlen : es.length = es'.length) (hes : ∀ e ∈ es, e.Determined levels)
    (hes' : ∀ e ∈ es', e.IsMeant levels)
    (h : [Token.comma].intercalate (es.map tokens) ++ .rparen :: r
      = [Token.comma].intercalate (es'.map tokens) ++ .rparen :: r') : es = es' ∧ r = r' := by
  induction es generalizing es' with
  | nil =>
    obtain rfl := List.length_eq_zero_iff.mp hlen.symm
    exact ⟨rfl, (List.cons.inj h).2⟩
  | cons e es ih =>
    cases es' with
    | nil => cases hlen
    | cons e' es' =>
      have hdet := hes e (List.mem_cons_self ..)
      have hmeant := hes' e' (List.mem_cons_self ..)
      cases es with
      | nil =>
        obtain rfl := List.length_eq_zero_iff.mp (Nat.succ.inj hlen).symm
        simp only [List.map_cons, List.map_nil, List.intercalate_singleton] at h
        obtain ⟨rfl, hr⟩ := hdet hmeant (stops_rparen r) (stops_rparen r') h
        exact ⟨rfl, (List.cons.inj hr).2⟩
      | cons f es =>
        cases es' with
        | nil => cases hlen
        | cons f' es' =>
          simp only [List.map_cons, List.intercalate_cons_cons, List.append_assoc,
            List.singleton_append] at h
          obtain ⟨rfl, hr⟩ := hdet hmeant (stops_comma _) (stops_comma _) h
          obtain ⟨hrest, rfl⟩ := ih (f' :: es') (Nat.succ.inj hlen)
            (fun x hx => hes x (List.mem_cons_of_mem _ hx))
            (fun x hx => hes' x (List.mem_cons_of_mem _ hx)) (List.cons.inj hr).2
          exact ⟨by rw [hrest], rfl⟩

theorem atom_unique {levels : Levels} {a a' : Phrase} {r r' : List Token} (ha : a.IsAtom)
    (ha' : a'.IsAtom) (hinner : a.Inner levels) (hmeant : a'.IsMeant levels)
    (h : a.tokens ++ r = a'.tokens ++ r') : a = a' ∧ r = r' := by
  cases a with
  | binary | sign | suffix => exact ha.elim
  | num value =>
    cases a' with
    | binary | sign | suffix => exact ha'.elim
    | num value' => cases h; exact ⟨rfl, rfl⟩
    | var | group | call => cases h
  | var name =>
    cases a' with
    | binary | sign | suffix => exact ha'.elim
    | var name' => cases h; exact ⟨rfl, rfl⟩
    | num | group | call => cases h
  | group e =>
    cases a' with
    | binary | sign | suffix => exact ha'.elim
    | group e' =>
      simp only [tokens, List.cons_append, List.append_assoc, List.nil_append,
        List.cons.injEq, true_and] at h
      have hmeant' : e'.IsMeant levels := hmeant
      obtain ⟨rfl, hr⟩ := hinner hmeant' (stops_rparen r) (stops_rparen r') h
      exact ⟨rfl, (List.cons.inj hr).2⟩
    | num | var | call => cases h
  | call f args =>
    cases a' with
    | binary | sign | suffix => exact ha'.elim
    | call f' args' =>
      simp only [tokens, List.cons_append, List.append_assoc, List.nil_append,
        List.cons.injEq, Token.fn.injEq, true_and] at h
      obtain ⟨rfl, h⟩ := h
      have hdet : ∀ e ∈ List.ofFn args, e.Determined levels := by
        intro e he
        obtain ⟨i, rfl⟩ := List.mem_ofFn.mp he
        exact hinner i
      have hmeant' : ∀ e ∈ List.ofFn args', e.IsMeant levels := by
        intro e he
        obtain ⟨i, rfl⟩ := List.mem_ofFn.mp he
        exact ⟨hmeant.1 i, hmeant.2 i⟩
      obtain ⟨hargs, rfl⟩ := arguments_unique (List.ofFn args) (List.ofFn args') (by simp) hdet
        hmeant' (by simpa only [List.map_ofFn, Function.comp_def] using h)
      obtain rfl := List.ofFn_injective hargs
      exact ⟨rfl, rfl⟩
    | num | var | group => cases h

/-- Operands without signs, that is atoms with suffixes. -/
theorem tight_unique {levels : Levels} {x x' : Phrase} {r r' : List Token} (htight : x.IsTight)
    (htight' : x'.IsTight) (hx : x.IsMeant levels) (hx' : x'.IsMeant levels)
    (hinner : x.Inner levels) (hr : Joins r) (hr' : Joins r')
    (h : x.tokens ++ r = x'.tokens ++ r') : x = x' ∧ r = r' := by
  rw [← tokens_bare_marks x, ← tokens_bare_marks x', List.append_assoc, List.append_assoc] at h
  obtain ⟨hbare, hmarks⟩ := atom_unique (isAtom_bare hx.1 htight) (isAtom_bare hx'.1 htight')
    (inner_bare hinner) (isMeant_bare hx') h
  obtain ⟨hmarks, hrest⟩ := marks_unique (arity_of_mem_marks hx.1) (arity_of_mem_marks hx'.1)
    hr hr' hmarks
  refine ⟨?_, hrest⟩
  rw [← foldl_bare_marks x, ← foldl_bare_marks x', hbare, hmarks]

/-- Only a sign makes an operand start with an operator. -/
theorem tight_tokens_ne {levels : Levels} {x : Phrase} (hfits : x.Fits levels)
    (htight : x.IsTight) (o : Operator) (ts us : List Token) : x.tokens ++ ts ≠ .op o :: us := by
  have hatom := isAtom_bare hfits htight
  rw [← tokens_bare_marks x, List.append_assoc]
  cases hbare : x.bare with
  | binary | sign | suffix =>
    rw [hbare] at hatom
    exact hatom.elim
  | num | var | group | call => simp [tokens]

theorem isTight_or_sign {e : Phrase} (htail : e.tail = []) :
    e.IsTight ∨ ∃ o y, e = .sign o y ∧ y.tail = [] := by
  cases e with
  | binary o l r => simp [tail] at htail
  | sign o y => exact Or.inr ⟨o, y, rfl, htail⟩
  | num | var | group | call | suffix => exact Or.inl trivial

/-- Single operands with the same tokens before a place where both can stop. -/
theorem operand_unique {levels : Levels} {x x' : Phrase} {r r' : List Token} (htail : x.tail = [])
    (htail' : x'.tail = []) (hx : x.IsMeant levels) (hx' : x'.IsMeant levels)
    (hinner : x.Inner levels) (hr : Joins r) (hr' : Joins r')
    (h : x.tokens ++ r = x'.tokens ++ r') : x = x' ∧ r = r' := by
  induction x generalizing x' with
  | binary o l r => simp [tail] at htail
  | sign o y ih =>
    rcases isTight_or_sign htail' with htight' | ⟨o', y', rfl, hy'⟩
    · exact absurd h.symm (tight_tokens_ne hx'.1 htight' o _ _)
    · simp only [tokens, List.cons_append, List.cons.injEq, Token.op.injEq] at h
      obtain ⟨rfl, h⟩ := h
      have hy := ((inherits_isMeant levels).sign hx).1
      obtain ⟨rfl, rfl⟩ := ih htail hy' hy ((inherits_isMeant levels).sign hx').1 hinner h
      exact ⟨rfl, rfl⟩
  | num | var | group | call | suffix =>
    rcases isTight_or_sign htail' with htight' | ⟨o', y', rfl, hy'⟩
    · exact tight_unique trivial htight' hx hx' hinner hr hr' h
    · exact absurd h (tight_tokens_ne hx.1 trivial o' _ _)

/-- Rows of operators and operands with the same tokens. -/
theorem links_unique {levels : Levels} {links links' : List (Operator × Phrase)}
    {r r' : List Token} (hlinks : ∀ link ∈ links, IsLink levels link)
    (hlinks' : ∀ link ∈ links', IsLink levels link) (hinner : ∀ link ∈ links, link.2.Inner levels)
    (hr : Stops r) (hr' : Stops r') (h : linkTokens links ++ r = linkTokens links' ++ r') :
    links = links' ∧ r = r' := by
  induction links generalizing links' with
  | nil =>
    cases links' with
    | nil => exact ⟨rfl, h⟩
    | cons link' links' =>
      rw [show r = linkTokens (link' :: links') ++ r' from h] at hr
      exact hr.elim
  | cons link links ih =>
    cases links' with
    | nil =>
      rw [show r' = linkTokens (link :: links) ++ r from h.symm] at hr'
      exact hr'.elim
    | cons link' links' =>
      obtain ⟨o, x⟩ := link
      obtain ⟨o', x'⟩ := link'
      rw [List.forall_mem_cons] at hlinks hlinks' hinner
      obtain ⟨⟨-, hx, hxtail⟩, hlinks⟩ := hlinks
      obtain ⟨⟨-, hx', hxtail'⟩, hlinks'⟩ := hlinks'
      simp only [linkTokens_cons, List.cons_append, List.append_assoc, List.cons.injEq,
        Token.op.injEq] at h
      obtain ⟨rfl, h⟩ := h
      obtain ⟨rfl, hrest⟩ := operand_unique hxtail hxtail' hx hx' hinner.1
        (joins_linkTokens hlinks hr) (joins_linkTokens hlinks' hr') h
      obtain ⟨rfl, rfl⟩ := ih hlinks hlinks' hinner.2 hrest
      exact ⟨rfl, rfl⟩

/-- A phrase is determined once all that is between its parentheses is: its
    operands and operators follow from the tokens, and its grouping from them. -/
theorem determined_of_inner {levels : Levels} {e : Phrase} (he : e.IsMeant levels)
    (hinner : e.Inner levels) : e.Determined levels := by
  intro e' r r' he' hr hr' h
  have hinherits := inherits_isMeant levels
  rw [← tokens_head_tail e, ← tokens_head_tail e', List.append_assoc, List.append_assoc] at h
  obtain ⟨hhead, h⟩ := operand_unique (tail_head e) (tail_head e') (hinherits.head he)
    (hinherits.head he') ((inherits_inner levels).head hinner)
    (joins_linkTokens (hinherits.tail he) hr) (joins_linkTokens (hinherits.tail he') hr') h
  obtain ⟨htail, hrest⟩ := links_unique (hinherits.tail he) (hinherits.tail he')
    (fun link hlink => ((inherits_inner levels).tail hinner link hlink).2.1) hr hr' h
  refine ⟨?_, hrest⟩
  rw [← attach_head_tail he.2, ← attach_head_tail he'.2, hhead, htail]

theorem inner_of_isMeant {levels : Levels} {e : Phrase} (h : e.IsMeant levels) :
    e.Inner levels := by
  induction e with
  | num | var => trivial
  | group e ih =>
    have he : e.IsMeant levels := h
    exact determined_of_inner he (ih he)
  | call f args ih =>
    intro i
    have hi : (args i).IsMeant levels := ⟨h.1 i, h.2 i⟩
    exact determined_of_inner hi (ih i hi)
  | binary o l r ihl ihr =>
    obtain ⟨-, hl, hr⟩ := (inherits_isMeant levels).binary h
    exact ⟨ihl hl, ihr hr⟩
  | sign o e ih => exact ih ((inherits_isMeant levels).sign h).1
  | suffix e o ih => exact ih ⟨h.1.2.2.2.2, h.2⟩

/-- Only one phrase with given tokens is meant. -/
theorem eq_of_tokens_eq {levels : Levels} {e e' : Phrase} (he : e.IsMeant levels)
    (he' : e'.IsMeant levels) (h : e.tokens = e'.tokens) : e = e' := by
  have hdet := determined_of_inner he (inner_of_isMeant he)
  have h' : e.tokens ++ [] = e'.tokens ++ [] := by rw [h]
  exact (hdet he' stops_nil stops_nil h').1

/-! ## The conversion -/

/-- The conversion groups as precedence and associativity ask for.  A
    well-grouped phrase is converted into its own program; and whatever phrase
    some tokens are written down from, exactly one phrase with these tokens is
    well grouped, and it is the one whose program they are converted into. -/
theorem converts_as_grouped {levels : Levels} {e : Phrase} (hfits : e.Fits levels) :
    (e.WellGrouped → Program.ofTokens e.tokens = .ok e.program)
      ∧ ∃ g : Phrase, (g.Fits levels ∧ g.WellGrouped ∧ g.tokens = e.tokens)
        ∧ Program.ofTokens e.tokens = .ok g.program
        ∧ ∀ g' : Phrase, g'.Fits levels → g'.WellGrouped → g'.tokens = e.tokens → g' = g := by
  have hmeant := isMeant_regroup hfits
  have htokens := tokens_regroup e
  refine ⟨ofTokens_tokens hfits, e.regroup, ⟨hmeant.1, hmeant.2, htokens⟩, ?_, ?_⟩
  · rw [← htokens]
    exact ofTokens_tokens hmeant.1 hmeant.2
  · intro g' hfits' hgrouped' htokens'
    exact eq_of_tokens_eq ⟨hfits', hgrouped'⟩ hmeant (htokens'.trans htokens.symm)

/-- The builtin signs, and suffixes above all builtin operators. -/
def builtinLevels : Levels := ⟨Precedence.sign, Precedence.power + 1, by decide⟩

/-- A suffix that binds closer than powers. -/
def mark : Operator := ⟨"!", Precedence.power + 1, .left, .unary id⟩

/-- The phrase that is meant by `- a ^ - b ! - c`: the first sign is before the
    power, and the second inside its exponent. -/
def signedPower : Phrase :=
  .binary .subtract
    (.sign .negate (.binary .power (.var "a") (.sign .negate (.suffix (.var "b") mark))))
    (.var "c")

theorem converts_as_grouped_signedPower :
    signedPower.Fits builtinLevels ∧ signedPower.WellGrouped
      ∧ Program.ofTokens [.op .negate, .var "a", .op .power, .op .negate, .var "b", .op mark,
          .op .subtract, .var "c"]
        = .ok [.var "a", .var "b", .op mark, .op .negate, .op .power, .op .negate, .var "c",
          .op .subtract] := by
  have hfits : signedPower.Fits builtinLevels := by
    simp [signedPower, Fits, IsTight, builtinLevels, mark, Operator.subtract, Operator.negate,
      Operator.power, Operator.leftBinary, Operator.arity, Operator.Operation.arity,
      Precedence.addition, Precedence.power, Precedence.sign]
  have hgrouped : signedPower.WellGrouped := by
    simp [signedPower, WellGrouped, rightSpine, leftSpine, Operator.Pops, mark,
      Operator.subtract, Operator.negate, Operator.power, Operator.leftBinary,
      Precedence.addition, Precedence.power, Precedence.sign]
  exact ⟨hfits, hgrouped, (converts_as_grouped hfits).1 hgrouped⟩

end Phrase

end StackCalc
