/-
  StackCalc.Proofs.Alternation

  Expressions whose operators have any precedence: signs before their operands,
  suffixes behind them, and operators between two.

  Read from left to right, such a row is always in one of two places: in front of
  an operand, or behind one.  `Alternates` says which tokens may come next in each
  place, and forgets how the expression is built.  A phrase alternates
  (`Phrase.alternates`), so does what stands behind each operator of it
  (`Alternates.behind_op`), and the reader reads it to its end
  (`Phrase.exists_ofTokens`).
-/
import StackCalc.Proofs.WellFormed

namespace StackCalc

namespace Operator

/-- A unary operator that is not written behind its operand is written before
    it. -/
def isSign (o : Operator) : Bool := o.arity == 1 && !o.isLeft

theorem isSuffix_iff {o : Operator} :
    o.isSuffix = true ↔ o.arity = 1 ∧ o.associativity = .left := by
  simp [isSuffix, isLeft]

theorem isSign_iff {o : Operator} :
    o.isSign = true ↔ o.arity = 1 ∧ o.associativity = .right := by
  cases h : o.associativity <;> simp [isSign, isLeft, h]

end Operator

/-! ## The two places -/

/-- A place in an expression. -/
inductive Side where
  /-- In front of an operand. -/
  | before
  /-- Behind an operand. -/
  | behind
  deriving DecidableEq

/-- The row can stand at the place: operands come where one is missing, and what
    joins or ends them comes behind one. -/
inductive Alternates : Side → List Token → Prop where
  | num {ts : List Token} (value : Float) (h : Alternates .behind ts) :
      Alternates .before (.num value :: ts)
  | var {ts : List Token} (name : String) (h : Alternates .behind ts) :
      Alternates .before (.var name :: ts)
  | sign {o : Operator} {ts : List Token} (ho : o.isSign = true) (h : Alternates .before ts) :
      Alternates .before (.op o :: ts)
  | group {ts : List Token} (h : Alternates .before ts) : Alternates .before (.lparen :: ts)
  | call {f : Func} {ts : List Token} (hf : f.arity ≠ 0) (h : Alternates .before ts) :
      Alternates .before (.fn f :: .lparen :: ts)
  | nullary {f : Func} {ts : List Token} (hf : f.arity = 0) (h : Alternates .behind ts) :
      Alternates .before (.fn f :: .lparen :: .rparen :: ts)
  | stop : Alternates .behind []
  | binary {o : Operator} {ts : List Token} (ho : o.arity = 2) (h : Alternates .before ts) :
      Alternates .behind (.op o :: ts)
  | suffix {o : Operator} {ts : List Token} (ho : o.isSuffix = true) (h : Alternates .behind ts) :
      Alternates .behind (.op o :: ts)
  | comma {ts : List Token} (h : Alternates .before ts) : Alternates .behind (.comma :: ts)
  | rparen {ts : List Token} (h : Alternates .behind ts) : Alternates .behind (.rparen :: ts)

/-- The place behind an operator. -/
def Operator.side (o : Operator) : Side := if o.isSuffix then .behind else .before

theorem Operator.side_of_isSign {o : Operator} (ho : o.isSign = true) : o.side = .before := by
  obtain ⟨-, hassoc⟩ := isSign_iff.mp ho
  simp [side, isSuffix, isLeft, hassoc]

theorem Operator.side_of_binary {o : Operator} (ho : o.arity = 2) : o.side = .before := by
  simp [side, isSuffix, ho]

/-- Behind each operator of a row the rest of it can stand at the place there. -/
theorem Alternates.behind_op {side : Side} {before after : List Token} {o : Operator}
    (h : Alternates side (before ++ .op o :: after)) : Alternates o.side after := by
  generalize hrow : before ++ .op o :: after = row at h
  induction h generalizing before with
  | num value _ ih | var name _ ih | group _ ih | comma _ ih | rparen _ ih =>
    cases before with
    | nil => cases hrow
    | cons t before => exact ih (List.cons.inj hrow).2
  | sign ho h ih =>
    cases before with
    | nil =>
      cases hrow
      rwa [Operator.side_of_isSign ho]
    | cons t before => exact ih (List.cons.inj hrow).2
  | binary ho h ih =>
    cases before with
    | nil =>
      cases hrow
      rwa [Operator.side_of_binary ho]
    | cons t before => exact ih (List.cons.inj hrow).2
  | suffix ho h ih =>
    cases before with
    | nil =>
      cases hrow
      rwa [Operator.side, if_pos ho]
    | cons t before => exact ih (List.cons.inj hrow).2
  | call hf _ ih =>
    -- no operator stands between a function and its parenthesis
    rcases before with _ | ⟨t, _ | ⟨u, before⟩⟩
    · cases hrow
    · cases hrow
    · exact ih (List.cons.inj (List.cons.inj hrow).2).2
  | nullary hf _ ih =>
    rcases before with _ | ⟨t, _ | ⟨u, _ | ⟨w, before⟩⟩⟩
    · cases hrow
    · cases hrow
    · cases hrow
    · exact ih (List.cons.inj (List.cons.inj (List.cons.inj hrow).2).2).2
  | stop => simp at hrow

/-! ## Phrases -/

namespace Phrase

/-- Each operator stands where its arity and associativity allow it, whatever its
    precedence: between two operands, before one, or behind one. -/
def IsPlaced : Phrase → Prop
  | num _ | var _ => True
  | group e => e.IsPlaced
  | call _ args => ∀ i, (args i).IsPlaced
  | binary o l r => o.arity = 2 ∧ l.IsPlaced ∧ r.IsPlaced
  | sign o e => o.arity = 1 ∧ o.associativity = .right ∧ e.IsPlaced
  | suffix e o => o.arity = 1 ∧ o.associativity = .left ∧ e.IsPlaced

/-- Arguments can stand in front of what can stand behind the last of them. -/
theorem alternates_arguments {args : List (List Token)} {rest : List Token} (hne : args ≠ [])
    (hargs : ∀ a ∈ args, ∀ ts, Alternates .behind ts → Alternates .before (a ++ ts))
    (hrest : Alternates .behind rest) :
    Alternates .before ([Token.comma].intercalate args ++ rest) := by
  induction args with
  | nil => exact absurd rfl hne
  | cons a args ih =>
    have ha := hargs a (List.mem_cons_self ..)
    cases args with
    | nil =>
      rw [List.intercalate_singleton]
      exact ha rest hrest
    | cons b args =>
      have hmore := ih (List.cons_ne_nil b args) fun c hc => hargs c (List.mem_cons_of_mem a hc)
      rw [List.intercalate_cons_cons, List.append_assoc, List.append_assoc]
      apply ha
      exact .comma hmore

/-- A phrase stands where an operand is missing, in front of all that can stand
    behind one. -/
theorem alternates {e : Phrase} (he : e.IsPlaced) {rest : List Token}
    (hrest : Alternates .behind rest) : Alternates .before (e.tokens ++ rest) := by
  induction e generalizing rest with
  | num value => exact .num value hrest
  | var name => exact .var name hrest
  | group e ih =>
    have hinner := ih he (.rparen hrest)
    simpa [tokens] using hinner.group
  | call f args ih =>
    by_cases hf : f.arity = 0
    · -- there are no arguments
      have hnil : (List.ofFn fun i => (args i).tokens) = [] := by
        rw [← List.length_eq_zero_iff, List.length_ofFn, hf]
      rw [tokens, hnil]
      exact .nullary hf hrest
    · have hne : (List.ofFn fun i => (args i).tokens) ≠ [] := by
        rw [Ne, ← List.length_eq_zero_iff, List.length_ofFn]
        exact hf
      have hlist := alternates_arguments hne (by
        intro a ha ts hts
        obtain ⟨i, rfl⟩ := List.mem_ofFn.mp ha
        exact ih i (he i) hts) (.rparen hrest)
      simpa [tokens] using Alternates.call hf hlist
  | binary o l r ihl ihr =>
    obtain ⟨harity, hl, hr⟩ := he
    have hright := ihr hr hrest
    rw [tokens, List.append_assoc, List.cons_append]
    apply ihl hl
    exact .binary harity hright
  | sign o e ih =>
    obtain ⟨harity, hassoc, he⟩ := he
    exact .sign (Operator.isSign_iff.mpr ⟨harity, hassoc⟩) (ih he hrest)
  | suffix e o ih =>
    obtain ⟨harity, hassoc, he⟩ := he
    rw [tokens, List.append_assoc]
    apply ih he
    exact .suffix (Operator.isSuffix_iff.mpr ⟨harity, hassoc⟩) hrest

theorem alternates_tokens {e : Phrase} (he : e.IsPlaced) : Alternates .before e.tokens := by
  rw [← List.append_nil e.tokens]
  exact alternates he .stop

theorem tokens_ne_nil (e : Phrase) : e.tokens ≠ [] := by
  cases e <;> simp [tokens]

theorem nested_tokens (e : Phrase) : Nested e.tokens := by
  induction e with
  | num value => exact .num value .nil
  | var name => exact .var name .nil
  | group e ih => exact .group (tokens_ne_nil e) ih .nil
  | call f args ih =>
    refine .call (List.length_ofFn) ?_ ?_ .nil
    · intro a ha
      obtain ⟨i, rfl⟩ := List.mem_ofFn.mp ha
      exact tokens_ne_nil (args i)
    · intro a ha
      obtain ⟨i, rfl⟩ := List.mem_ofFn.mp ha
      exact ih i
  | binary o l r ihl ihr => exact ihl.append (.op o ihr)
  | sign o e ih => exact .op o ih
  | suffix e o ih => exact ih.append (.op o .nil)

end Phrase

/-! ## What nests is read to its end -/

namespace Pending

/-- What is released of some operators leaves the rest of them, where nothing
    below them is released. -/
theorem release_above (p : Operator → Bool) (os : List Operator) {below : List Pending}
    (h : Blocks p below) : ∃ (out : Program) (kept : List Operator),
      release p (os.map .operator ++ below) = (out, kept.map .operator ++ below) := by
  induction os with
  | nil => exact ⟨[], [], release_of_blocks h⟩
  | cons o os ih =>
    obtain ⟨out, kept, hrest⟩ := ih
    by_cases ho : p o = true
    · refine ⟨.op o :: out, kept, ?_⟩
      rw [List.map_cons, List.cons_append, release, if_pos ho, hrest]
    · refine ⟨[], o :: os, ?_⟩
      rw [List.map_cons, List.cons_append, release, if_neg ho]

end Pending

namespace Converter

open Pending (Blocks)

/-- Something has been read, and it can end there. -/
def Ended (last : Option Token) : Prop := ∃ t, last = some t ∧ t.isClosable = true

theorem isFn_of_ended {last : Option Token} (h : Ended last) : isFn last = false := by
  obtain ⟨t, rfl, ht⟩ := h
  exact isFn_of_isClosable ht

/-- The row is read wherever no function is waiting for its list, and leaves
    operators on top of what was below the operators there. -/
def Crosses (ts : List Token) : Prop :=
  ∀ (os : List Operator) (below : List Pending) (previous : Option Token),
    isFn previous = false → (∀ q, Blocks q below) →
      ∃ (out : Program) (kept : List Operator) (last : Option Token),
        (⟨os.map .operator ++ below, previous⟩ : Converter).feed ts
            = .ok (out, ⟨kept.map .operator ++ below, last⟩)
          ∧ (ts = [] ∧ last = previous ∨ Ended last)

/-- First a token that leaves only operators on top, and then a row. -/
theorem Crosses.behind {t : Token} {ts : List Token} {s : Converter} {out : Program}
    {os : List Operator} {below : List Pending} (hts : Crosses ts) (ht : t.isClosable = true)
    (hbelow : ∀ q, Blocks q below)
    (hstep : s.step t = .ok (out, ⟨os.map .operator ++ below, some t⟩)) :
    ∃ (more : Program) (kept : List Operator) (last : Option Token),
      s.feed (t :: ts) = .ok (more, ⟨kept.map .operator ++ below, last⟩) ∧ Ended last := by
  obtain ⟨more, kept, last, hfeed, hlast⟩ := hts os below (some t) (isFn_of_isClosable ht) hbelow
  refine ⟨out ++ more, kept, last, feed_cons hstep hfeed, ?_⟩
  rcases hlast with ⟨-, rfl⟩ | hlast
  · exact ⟨t, rfl, ht⟩
  · exact hlast

/-- At the start of a group or an argument only a parenthesis is on top. -/
theorem Crosses.inside {ts : List Token} (hts : Crosses ts) (hne : ts ≠ []) (call : Bool) (n : Nat)
    (below : List Pending) {previous : Option Token} (hprev : isFn previous = false) :
    ∃ (out : Program) (kept : List Operator) (last : Token),
      (⟨.paren call n :: below, previous⟩ : Converter).feed ts
          = .ok (out, ⟨kept.map .operator ++ .paren call n :: below, some last⟩)
        ∧ last.isClosable = true := by
  obtain ⟨out, kept, last, hfeed, hlast⟩ := hts [] (.paren call n :: below) previous hprev
    fun q => Pending.blocks_paren q call n below
  rcases hlast with ⟨hnil, -⟩ | ⟨t, rfl, ht⟩
  · exact absurd hnil hne
  · exact ⟨out, kept, t, hfeed, ht⟩

/-- Arguments are read one after the other, up to the parenthesis behind the last
    one. -/
theorem exists_feed_arguments {f : Func} (below : List Pending) {args : List (List Token)} {n : Nat}
    {previous : Option Token} (hargs : ∀ a ∈ args, Crosses a) (hne : ∀ a ∈ args, a ≠ [])
    (hsome : args ≠ []) (hf : f.arity = n + args.length) (hprev : isFn previous = false) :
    ∃ (out : Program) (kept : List Operator) (m : Nat) (last : Token),
      (⟨.paren true n :: below, previous⟩ : Converter).feed ([Token.comma].intercalate args)
          = .ok (out, ⟨kept.map .operator ++ .paren true m :: below, some last⟩)
        ∧ last.isClosable = true ∧ f.arity = m + 1 := by
  induction args generalizing n previous with
  | nil => exact absurd rfl hsome
  | cons a rest ih =>
    obtain ⟨out, kept, last, hfeed, hlast⟩ := (hargs a (List.mem_cons_self ..)).inside
      (hne a (List.mem_cons_self ..)) true n below hprev
    cases rest with
    | nil =>
      rw [List.intercalate_singleton]
      exact ⟨out, kept, n, last, hfeed, hlast, hf⟩
    | cons b rest =>
      -- the separator completes this argument, and is counted
      have hcomma := step_comma kept n below hlast
      have hcount : f.arity = n + 1 + (b :: rest).length := by
        simp only [List.length_cons] at hf ⊢
        omega
      obtain ⟨more, kept', m, last', hmore, hlast', hm⟩ := ih
        (fun c hc => hargs c (List.mem_cons_of_mem a hc))
        (fun c hc => hne c (List.mem_cons_of_mem a hc)) (List.cons_ne_nil b rest) hcount
        (rfl : isFn (some .comma) = false)
      rw [List.intercalate_cons_cons, List.append_assoc]
      exact ⟨_, kept', m, last', feed_append hfeed (feed_cons hcomma hmore), hlast', hm⟩

/-- An argument list of the right length is read, from its opening parenthesis to
    the closing one. -/
theorem exists_feed_list {f : Func} {args : List (List Token)} (below : List Pending)
    (hlen : args.length = f.arity) (hne : ∀ a ∈ args, a ≠ []) (hargs : ∀ a ∈ args, Crosses a) :
    ∃ (before : Program) (s : Converter) (out : Program),
      (⟨.function f :: below, some (.fn f)⟩ : Converter).feed
          (.lparen :: [Token.comma].intercalate args) = .ok (before, s)
        ∧ s.step .rparen = .ok (out, ⟨below, some .rparen⟩) := by
  by_cases hsome : args = []
  · -- the parentheses stand side by side
    have hf : f.arity = 0 := by rw [← hlen, hsome, List.length_nil]
    rw [hsome]
    exact ⟨_, _, _, feed_singleton step_lparen_of_fn, step_rparen_nullary [] below hf⟩
  · have hcount : f.arity = 0 + args.length := by rw [hlen, Nat.zero_add]
    obtain ⟨out, kept, m, last, hfeed, hlast, hm⟩ := exists_feed_arguments (.function f :: below)
      hargs hne hsome hcount (rfl : isFn (some .lparen) = false)
    exact ⟨_, _, _, feed_cons step_lparen_of_fn hfeed, step_rparen_call kept below hlast hm⟩

/-- A row that nests is read wherever no function is waiting for its list. -/
theorem crosses_of_nested {ts : List Token} (h : Nested ts) : Crosses ts := by
  induction h with
  | nil => exact fun os below previous _ _ => ⟨[], os, previous, rfl, Or.inl ⟨rfl, rfl⟩⟩
  | num value _ ih =>
    intro os below previous hprev hbelow
    have hstep : (⟨os.map .operator ++ below, previous⟩ : Converter).step (.num value)
        = .ok ([.num value], ⟨os.map .operator ++ below, some (.num value)⟩) :=
      step_of_place hprev rfl
    obtain ⟨out, kept, last, hfeed, hlast⟩ := ih.behind rfl hbelow hstep
    exact ⟨out, kept, last, hfeed, Or.inr hlast⟩
  | var name _ ih =>
    intro os below previous hprev hbelow
    have hstep : (⟨os.map .operator ++ below, previous⟩ : Converter).step (.var name)
        = .ok ([.var name], ⟨os.map .operator ++ below, some (.var name)⟩) :=
      step_of_place hprev rfl
    obtain ⟨out, kept, last, hfeed, hlast⟩ := ih.behind rfl hbelow hstep
    exact ⟨out, kept, last, hfeed, Or.inr hlast⟩
  | op o _ ih =>
    intro os below previous hprev hbelow
    obtain ⟨first, os', hrelease⟩ := Pending.release_above (·.completedBy o) os (hbelow _)
    have hplace : (⟨os.map .operator ++ below, previous⟩ : Converter).place (.op o)
        = .ok (first, (o :: os').map .operator ++ below) := by
      rw [place, hrelease]
      rfl
    obtain ⟨out, kept, last, hfeed, hlast⟩ := ih.behind rfl hbelow (step_of_place hprev hplace)
    exact ⟨out, kept, last, hfeed, Or.inr hlast⟩
  | @group inner rest hne _ _ ihinner ihrest =>
    intro os below previous hprev hbelow
    have hopen := step_lparen_of_not_isFn (s := ⟨os.map .operator ++ below, previous⟩) hprev
    obtain ⟨out, kept, t, hfeed, ht⟩ := ihinner.inside hne false 0 (os.map .operator ++ below)
      (rfl : isFn (some .lparen) = false)
    have hclose := step_rparen_group kept 0 (os.map .operator ++ below) ht
    obtain ⟨more, kept', last, hmore, hlast⟩ := ihrest.behind rfl hbelow hclose
    exact ⟨_, kept', last, feed_cons hopen (feed_append hfeed hmore), Or.inr hlast⟩
  | @call f args rest hlen hne _ _ ihargs ihrest =>
    intro os below previous hprev hbelow
    have hfn : (⟨os.map .operator ++ below, previous⟩ : Converter).step (.fn f)
        = .ok ([], ⟨.function f :: (os.map .operator ++ below), some (.fn f)⟩) :=
      step_of_place hprev rfl
    obtain ⟨before, s, out, hfeed, hclose⟩ :=
      exists_feed_list (os.map .operator ++ below) hlen hne ihargs
    obtain ⟨more, kept, last, hmore, hlast⟩ := ihrest.behind rfl hbelow hclose
    exact ⟨_, kept, last, feed_cons hfn (feed_append hfeed hmore), Or.inr hlast⟩

end Converter

namespace Program

/-- What nests is converted, whatever stands where. -/
theorem exists_of_nested {ts : List Token} (h : Nested ts) (hne : ts ≠ []) :
    ∃ p, ofTokens ts = .ok p := by
  obtain ⟨out, kept, last, hfeed, hlast⟩ := Converter.crosses_of_nested h [] [] none rfl
    Pending.blocks_nil
  simp only [List.append_nil, List.map_nil] at hfeed
  have hfn : Converter.isFn last = false := by
    rcases hlast with ⟨-, rfl⟩ | hlast
    · rfl
    · exact Converter.isFn_of_ended hlast
  have hfinish : (⟨kept.map .operator, last⟩ : Converter).finish = .ok (kept.map .op) := by
    rw [Converter.finish, Converter.checkCall_of_not_isFn hfn]
    exact Pending.drain_operators kept
  -- nothing gets lost, so something is emitted
  have hperm := Converter.feed_perm hfeed
  have hkept : Pending.instrs (kept.map .operator) = kept.map .op :=
    (Pending.drain_eq_ok (Pending.drain_operators kept)).1.symm
  have hprogram : out ++ kept.map .op ≠ [] := by
    rw [← hkept]
    intro hnil
    rw [show (⟨kept.map .operator, last⟩ : Converter).pending = kept.map .operator from rfl,
      hnil] at hperm
    exact h.instrs_ne_nil hne hperm.symm.eq_nil
  exact ⟨_, Converter.ofTokens_of_feed hfeed hfinish hprogram⟩

end Program

/-- Whatever the precedences of its operators, a phrase is converted. -/
theorem Phrase.exists_ofTokens (e : Phrase) : ∃ p, Program.ofTokens e.tokens = .ok p :=
  Program.exists_of_nested e.nested_tokens e.tokens_ne_nil

end StackCalc
