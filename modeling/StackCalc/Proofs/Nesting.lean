/-
  StackCalc.Proofs.Nesting

  What the reader has read so far, seen through what waits.

  Every parenthesis that waits was opened at some place of the row, and behind
  that place the row nests; an argument list has its function below it and as
  many complete arguments as separators.  Waiting operators do not matter.  So a
  row that is converted to its end nests as a whole.
-/
import StackCalc.Proofs.Labels

namespace StackCalc

namespace Token

/-- An argument list that is still open: the arguments that are complete, each
    with the separator behind it, and the beginning of the next one. -/
def openCall (f : Func) (args : List (List Token)) (inner : List Token) : List Token :=
  .fn f :: .lparen :: (args.flatMap (· ++ [.comma]) ++ inner)

theorem openCall_append (f : Func) (args : List (List Token)) (inner more : List Token) :
    openCall f args inner ++ more = openCall f args (inner ++ more) := by
  simp [openCall]

/-- A separator completes an argument. -/
theorem openCall_comma (f : Func) (args : List (List Token)) (inner : List Token) :
    openCall f args inner ++ [.comma] = openCall f (args ++ [inner]) [] := by
  simp [openCall]

/-- A closing parenthesis completes the list. -/
theorem openCall_rparen (f : Func) (args : List (List Token)) (inner : List Token) :
    openCall f args inner ++ [.rparen]
      = .fn f :: .lparen :: [comma].intercalate (args ++ [inner]) ++ [.rparen] := by
  rw [intercalate_concat]
  rfl

/-- In front of the next argument stands the opening parenthesis of the list, if
    it is the first one, or a separator. -/
theorem openCall_split (f : Func) (args : List (List Token)) (inner : List Token) :
    ∃ start last, openCall f args inner = start ++ [last] ++ inner
      ∧ (last = .lparen ∧ args = [] ∨ last = .comma) := by
  rcases List.eq_nil_or_concat args with rfl | ⟨args, a, rfl⟩
  · exact ⟨[.fn f], .lparen, rfl, Or.inl ⟨rfl, rfl⟩⟩
  · refine ⟨openCall f args a, .comma, ?_, Or.inr rfl⟩
    rw [openCall_comma, openCall_append, List.concat_eq_append, List.nil_append]

end Token

namespace Converter

/-! ## The end of a row -/

theorem closable_cons {t : Token} {ts : List Token} (ht : t.isClosable = true)
    (h : Closable ts.getLast?) : Closable (t :: ts).getLast? := by
  intro last hlast
  rw [List.getLast?_cons] at hlast
  cases hts : ts.getLast? with
  | none =>
    rw [hts] at hlast
    cases hlast
    exact ht
  | some u =>
    rw [hts] at hlast
    cases hlast
    exact h _ hts

theorem closable_some {t : Token} (h : t.isClosable = true) : Closable (some t) := by
  rintro last ⟨⟩
  exact h

theorem closable_of_nested {ts : List Token} (h : Nested ts) : Closable ts.getLast? := by
  induction h with
  | nil =>
    intro last hlast
    cases hlast
  | num value _ ih => exact closable_cons rfl ih
  | var name _ ih => exact closable_cons rfl ih
  | op o _ ih => exact closable_cons rfl ih
  | group _ _ _ _ ih | call _ _ _ _ _ ih =>
    rw [List.getLast?_append_cons]
    exact closable_cons rfl ih

/-- Where something can end, something stands behind a separator or an opening
    parenthesis. -/
theorem ne_nil_of_closable {before inner : List Token} {t : Token} (ht : t.isClosable = false)
    (hclosable : Closable (before ++ [t] ++ inner).getLast?) : inner ≠ [] := by
  rintro rfl
  rw [List.append_nil, List.getLast?_concat] at hclosable
  have htrue := hclosable t rfl
  rw [ht] at htrue
  cases htrue

/-- Where nothing can end, no row that nests has just been read. -/
theorem eq_nil_of_getLast? {before inner : List Token} {t : Token} (h : Nested inner)
    (ht : t.isClosable = false) (hlast : (before ++ inner).getLast? = some t) : inner = [] := by
  cases inner with
  | nil => rfl
  | cons u inner =>
    rw [List.getLast?_append_cons] at hlast
    have htrue := closable_of_nested h t hlast
    rw [ht] at htrue
    cases htrue

/-! ## Rows with open parentheses -/

/-- The row that has been read when this waits and the last token is no function:
    a row that nests, then for each parenthesis that waits, the lowest first, the
    parenthesis with its function and complete arguments, and a row that nests. -/
inductive Opened : List Pending → List Token → Prop where
  | row {ts : List Token} (h : Nested ts) : Opened [] ts
  | operator {pending : List Pending} {ts : List Token} (o : Operator) (h : Opened pending ts) :
      Opened (.operator o :: pending) ts
  | group {pending : List Pending} {before inner : List Token} (h : Opened pending before)
      (hinner : Nested inner) : Opened (.paren false 0 :: pending) (before ++ [.lparen] ++ inner)
  | call {pending : List Pending} {before inner : List Token} {f : Func}
      {args : List (List Token)} (h : Opened pending before) (hne : ∀ a ∈ args, a ≠ [])
      (hargs : ∀ a ∈ args, Nested a) (hinner : Nested inner) :
      Opened (.paren true args.length :: .function f :: pending)
        (before ++ Token.openCall f args inner)

theorem Opened.append {pending : List Pending} {ts more : List Token} (h : Opened pending ts)
    (hmore : Nested more) : Opened pending (ts ++ more) := by
  induction h with
  | row hts => exact .row (hts.append hmore)
  | operator o _ ih => exact .operator o ih
  | group h hinner _ =>
    rw [List.append_assoc]
    exact .group h (hinner.append hmore)
  | call h hne hargs hinner _ =>
    rw [List.append_assoc, Token.openCall_append]
    exact .call h hne hargs (hinner.append hmore)

theorem Opened.of_operators {os : List Operator} {below : List Pending} {ts : List Token}
    (h : Opened (os.map .operator ++ below) ts) : Opened below ts := by
  induction os with
  | nil => exact h
  | cons o os ih =>
    cases h with
    | operator _ h => exact ih h

theorem Opened.nested {pending : List Pending} {ts : List Token} (h : Opened pending ts)
    (hno : ∀ call n, .paren call n ∉ pending) : Nested ts := by
  induction h with
  | row hts => exact hts
  | operator o _ ih => exact ih fun call n hmem => hno call n (List.mem_cons_of_mem _ hmem)
  | group => exact absurd (List.mem_cons_self ..) (hno false 0)
  | call => exact absurd (List.mem_cons_self ..) (hno true _)

/-- A separator or a closing parenthesis of a list stands behind an argument. -/
theorem inner_ne_nil {before inner : List Token} {f : Func} {args : List (List Token)}
    (hclosable : Closable (before ++ Token.openCall f args inner).getLast?) : inner ≠ [] := by
  obtain ⟨start, last, hsplit, hlast⟩ := Token.openCall_split f args inner
  have hnot : last.isClosable = false := by
    rcases hlast with ⟨rfl, -⟩ | rfl <;> rfl
  rw [hsplit, ← List.append_assoc, ← List.append_assoc] at hclosable
  exact ne_nil_of_closable hnot hclosable

/-- Directly behind the opening parenthesis of a list there is no argument. -/
theorem args_eq_nil {before inner : List Token} {f : Func} {args : List (List Token)}
    (hinner : Nested inner)
    (hlparen : (before ++ Token.openCall f args inner).getLast? = some .lparen) :
    args = [] ∧ inner = [] := by
  obtain ⟨start, last, hsplit, hlast⟩ := Token.openCall_split f args inner
  rw [hsplit, ← List.append_assoc, ← List.append_assoc] at hlparen
  obtain rfl := eq_nil_of_getLast? hinner rfl hlparen
  rw [List.append_nil, List.getLast?_concat] at hlparen
  rcases hlast with ⟨-, hargs⟩ | rfl
  · exact ⟨hargs, rfl⟩
  · cases hlparen

/-! ## What is read keeps its shape -/

/-- The state of the reader after a row of tokens. -/
inductive Reading : List Pending → Option Token → List Token → Prop where
  | between {pending : List Pending} {previous : Option Token} {ts : List Token}
      (hfn : isFn previous = false) (hprevious : previous = ts.getLast?)
      (h : Opened pending ts) : Reading pending previous ts
  /-- Behind a function, before its argument list. -/
  | calling {pending : List Pending} {ts : List Token} {f : Func} (h : Opened pending ts) :
      Reading (.function f :: pending) (some (.fn f)) (ts ++ [.fn f])

/-- Each token is accepted only where it keeps the row in shape. -/
theorem Effect.reading {pending pending' : List Pending} {previous : Option Token} {t : Token}
    {ts : List Token} {out : Program} (heffect : Effect pending previous t out pending')
    (h : Reading pending previous ts) : Reading pending' (some t) (ts ++ [t]) := by
  have hlast : some t = (ts ++ [t]).getLast? := by rw [List.getLast?_concat]
  cases h with
  | @calling pending ts f h =>
    -- only an opening parenthesis is accepted here
    cases heffect with
    | num _ hfn | var _ hfn | fn _ hfn | op _ _ _ _ hfn | openGroup hfn => cases hfn
    | comma _ _ _ _ hclosable => cases hclosable
    | closeGroup _ _ _ _ hclosable | closeCall _ _ _ _ _ hclosable => cases hclosable _ rfl
    | openCall =>
      refine .between rfl hlast ?_
      rw [List.append_assoc]
      exact @Opened.call _ _ [] _ [] h (fun _ ha => absurd ha List.not_mem_nil)
        (fun _ ha => absurd ha List.not_mem_nil) .nil
  | between hfn hprev h =>
    cases heffect with
    | num value => exact .between rfl hlast (h.append (.num value .nil))
    | var name => exact .between rfl hlast (h.append (.var name .nil))
    | fn f => exact .calling h
    | openCall => cases hfn
    | op o os below hpending =>
      rw [hpending] at h
      exact .between rfl hlast (.operator o (h.of_operators.append (.op o .nil)))
    | openGroup =>
      have hopen := Opened.group h .nil
      rw [List.append_nil] at hopen
      exact .between rfl hlast hopen
    | comma os n below hpending hclosable =>
      rw [hpending] at h
      cases h.of_operators with
      | @call _ before inner f args hbefore hne hargs hinner =>
        -- the argument is complete, and a new one begins
        have hinside : inner ≠ [] := inner_ne_nil (hprev ▸ closable_some hclosable)
        have hlen : args.length + 1 = (args ++ [inner]).length := by simp
        refine .between rfl hlast ?_
        rw [List.append_assoc, Token.openCall_comma, hlen]
        exact .call hbefore
          (List.forall_mem_append.mpr ⟨hne, List.forall_mem_singleton.mpr hinside⟩)
          (List.forall_mem_append.mpr ⟨hargs, List.forall_mem_singleton.mpr hinner⟩) .nil
    | closeGroup os n below hpending hclosable =>
      rw [hpending] at h
      cases h.of_operators with
      | @group _ before inner hbefore hinner =>
        -- the group nests, and joins the row before it
        have hinside : inner ≠ [] := ne_nil_of_closable rfl (hprev ▸ hclosable)
        refine .between rfl hlast ?_
        rw [List.append_assoc, List.append_assoc]
        exact hbefore.append (.group hinside hinner .nil)
    | closeCall os n f below hpending hclosable hf =>
      rw [hpending] at h
      cases h.of_operators with
      | @call _ before inner _ args hbefore hne hargs hinner =>
        -- the last argument is complete, and with it the call
        have hinside : inner ≠ [] := inner_ne_nil (hprev ▸ hclosable)
        have hlen : (args ++ [inner]).length = f.arity := by simp [hf]
        refine .between rfl hlast ?_
        rw [List.append_assoc, Token.openCall_rparen]
        exact hbefore.append (.call hlen
          (List.forall_mem_append.mpr ⟨hne, List.forall_mem_singleton.mpr hinside⟩)
          (List.forall_mem_append.mpr ⟨hargs, List.forall_mem_singleton.mpr hinner⟩) .nil)
    | closeNullary os n f below hpending hf =>
      rw [hpending] at h
      cases h.of_operators with
      | @call _ before inner _ args hbefore hne hargs hinner =>
        -- nothing stands between the two parentheses
        obtain ⟨rfl, rfl⟩ := args_eq_nil hinner hprev.symm
        refine .between rfl hlast ?_
        rw [List.append_assoc]
        exact hbefore.append (@Nested.call _ [] _ hf.symm hne hargs .nil)

theorem reading_of_feed {s s' : Converter} {ts us : List Token} {out : Program}
    (hfeed : s.feed us = .ok (out, s')) (h : Reading s.pending s.previous ts) :
    Reading s'.pending s'.previous (ts ++ us) := by
  induction us generalizing s ts out with
  | nil =>
    cases hfeed
    rwa [List.append_nil]
  | cons t us ih =>
    obtain ⟨first, s₁, more, heffect, hprevious, hmore, rfl⟩ := exists_effect_of_feed hfeed
    have hnext := heffect.reading h
    rw [← hprevious] at hnext
    have hall := ih hmore hnext
    rwa [List.append_assoc] at hall

theorem reading_of_start {s : Converter} {ts : List Token} {out : Program}
    (h : ({} : Converter).feed ts = .ok (out, s)) : Reading s.pending s.previous ts :=
  reading_of_feed h (.between rfl rfl (.row .nil))

end Converter

/-- What is converted nests, and there is something in it. -/
theorem Program.nested_of_ofTokens {ts : List Token} {p : Program} (h : ofTokens ts = .ok p) :
    Nested ts ∧ ts ≠ [] := by
  obtain ⟨out, s, rest, hfeed, hfinish, -, hne⟩ := exists_of_ofTokens h
  obtain ⟨hfn, hdrain⟩ := Converter.finish_eq_ok hfinish
  obtain ⟨-, hno⟩ := Pending.drain_eq_ok hdrain
  have hreading := Converter.reading_of_start hfeed
  refine ⟨?_, ?_⟩
  · generalize s.pending = pending at hreading hno
    generalize s.previous = previous at hreading hfn
    cases hreading with
    | between _ _ hopened => exact hopened.nested hno
    | calling => cases hfn
  · rintro rfl
    exact hne (List.perm_nil.mp (perm_of_ofTokens h))

end StackCalc
