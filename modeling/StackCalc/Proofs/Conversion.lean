/-
  StackCalc.Proofs.Conversion

  What the reader makes of a well-grouped phrase.

  While a phrase is read, the operators that still want what comes next wait on
  top of what waited before it: at its end they are its right spine, the
  innermost on top.  `Converter.Reads` says this of any token list, with one rule
  for each way to build a phrase, and `Phrase.reads` is the induction.
-/
import StackCalc.Proofs.Phrase

namespace StackCalc

/-- What succeeds in two stages succeeds in each of them. -/
theorem exists_of_bind {ε α β : Type} {x : Except ε α} {f : α → Except ε β} {b : β}
    (h : (x >>= f) = .ok b) : ∃ a, x = .ok a ∧ f a = .ok b := by
  cases x with
  | error e => cases h
  | ok a => exact ⟨a, rfl, h⟩

/-- Two stages fail in some way only if one of them does. -/
theorem bind_ne_error {ε α β : Type} {x : Except ε α} {f : α → Except ε β} {e : ε}
    (hx : x ≠ .error e) (hf : ∀ a, x = .ok a → f a ≠ .error e) : (x >>= f) ≠ .error e := by
  cases x with
  | error e' =>
    rintro ⟨⟩
    exact hx rfl
  | ok a => exact hf a rfl

/-! ## Waiting operators -/

namespace Pending

/-- No operator that satisfies the condition is on top. -/
def Blocks (p : Operator → Bool) (pending : List Pending) : Prop :=
  ∀ o below, pending = .operator o :: below → p o = false

theorem blocks_nil (p : Operator → Bool) : Blocks p [] := by
  intro o below h
  cases h

theorem blocks_paren (p : Operator → Bool) (call : Bool) (n : Nat) (below : List Pending) :
    Blocks p (.paren call n :: below) := by
  intro o below' h
  cases h

theorem release_of_blocks {p : Operator → Bool} {pending : List Pending} (h : Blocks p pending) :
    release p pending = ([], pending) := by
  cases pending with
  | nil => rfl
  | cons top below =>
    cases top with
    | operator o => simp [release, h o below rfl]
    | function f => rfl
    | paren call n => rfl

/-- Operators that satisfy the condition are taken off down to what blocks. -/
theorem release_operators {p : Operator → Bool} {os : List Operator} {below : List Pending}
    (hos : ∀ o ∈ os, p o = true) (h : Blocks p below) :
    release p (os.map .operator ++ below) = (os.map .op, below) := by
  induction os with
  | nil => exact release_of_blocks h
  | cons o os ih =>
    have ho : p o = true := hos o (List.mem_cons_self ..)
    have hrest := ih fun o' ho' => hos o' (List.mem_cons_of_mem _ ho')
    simp only [List.map_cons, List.cons_append, release, ho, if_true, hrest]

theorem releaseAll_operators (os : List Operator) (call : Bool) (n : Nat) (below : List Pending) :
    releaseAll (os.map .operator ++ .paren call n :: below)
      = (os.map .op, .paren call n :: below) :=
  release_operators (fun _ _ => rfl) (blocks_paren _ call n below)

theorem drain_operators (os : List Operator) : drain (os.map .operator) = .ok (os.map .op) := by
  induction os with
  | nil => rfl
  | cons o os ih => simp [drain, ih, Except.map]

end Pending

/-- Something that can be followed by a separator or a closing parenthesis ends
    with this token. -/
def Token.isClosable : Token → Bool
  | .fn _ | .lparen | .comma => false
  | _ => true

namespace Converter

open Pending (Blocks)

/-! ## One token, and several -/

theorem checkCall_of_not_isFn {previous next : Option Token} (h : isFn previous = false) :
    checkCall previous next = .ok () := by
  cases previous with
  | none => rfl
  | some t =>
    cases t with
    | fn f => cases h
    | num | var | op | lparen | rparen | comma => rfl

theorem isFn_of_isClosable {t : Token} (h : t.isClosable = true) : isFn (some t) = false := by
  cases t with
  | fn | lparen | comma => cases h
  | num | var | op | rparen => rfl

/-- A token other than an argument list is read by its own rule. -/
theorem step_of_place {s : Converter} {t : Token} {out : Program} {pending : List Pending}
    (hprev : isFn s.previous = false) (h : s.place t = .ok (out, pending)) :
    s.step t = .ok (out, ⟨pending, some t⟩) := by
  simp only [step, checkCall_of_not_isFn hprev, h]
  rfl

theorem feed_cons {s s₁ s₂ : Converter} {t : Token} {ts : List Token} {a b : Program}
    (h₁ : s.step t = .ok (a, s₁)) (h₂ : s₁.feed ts = .ok (b, s₂)) :
    s.feed (t :: ts) = .ok (a ++ b, s₂) := by
  simp only [feed, h₁]
  show (s₁.feed ts >>= fun x => _) = _
  rw [h₂]
  rfl

/-- Whatever is read successfully starts with a token that is. -/
theorem exists_of_feed_cons {s s₂ : Converter} {t : Token} {ts : List Token} {out : Program}
    (h : s.feed (t :: ts) = .ok (out, s₂)) :
    ∃ a s₁ b, s.step t = .ok (a, s₁) ∧ s₁.feed ts = .ok (b, s₂) ∧ out = a ++ b := by
  rw [feed] at h
  obtain ⟨⟨a, s₁⟩, hstep, hmore⟩ := exists_of_bind h
  obtain ⟨⟨b, s'⟩, hfeed, hout⟩ := exists_of_bind hmore
  cases hout
  exact ⟨a, s₁, b, hstep, hfeed, rfl⟩

theorem feed_append {s s₁ s₂ : Converter} {ts us : List Token} {a b : Program}
    (h₁ : s.feed ts = .ok (a, s₁)) (h₂ : s₁.feed us = .ok (b, s₂)) :
    s.feed (ts ++ us) = .ok (a ++ b, s₂) := by
  induction ts generalizing s a with
  | nil =>
    cases h₁
    exact h₂
  | cons t ts ih =>
    obtain ⟨c, s', d, hstep, hfeed, rfl⟩ := exists_of_feed_cons h₁
    rw [List.append_assoc]
    exact feed_cons hstep (ih hfeed)

/-- Whatever is read successfully is read up to every place in it. -/
theorem exists_of_feed_append {s s₂ : Converter} {ts us : List Token} {out : Program}
    (h : s.feed (ts ++ us) = .ok (out, s₂)) :
    ∃ a s₁ b, s.feed ts = .ok (a, s₁) ∧ s₁.feed us = .ok (b, s₂) ∧ out = a ++ b := by
  induction ts generalizing s out with
  | nil => exact ⟨[], s, out, rfl, h, rfl⟩
  | cons t ts ih =>
    obtain ⟨a, s', b, hstep, hfeed, rfl⟩ := exists_of_feed_cons h
    obtain ⟨c, s₁, d, hfirst, hsecond, rfl⟩ := ih hfeed
    exact ⟨a ++ c, s₁, d, feed_cons hstep hfirst, hsecond, (List.append_assoc a c d).symm⟩

theorem feed_singleton {s s₁ : Converter} {t : Token} {a : Program}
    (h : s.step t = .ok (a, s₁)) : s.feed [t] = .ok (a, s₁) := by
  have := feed_cons h (rfl : s₁.feed [] = .ok ([], s₁))
  rwa [List.append_nil] at this

theorem ofTokens_of_feed {ts : List Token} {out rest : Program} {s : Converter}
    (hfeed : ({} : Converter).feed ts = .ok (out, s)) (hfinish : s.finish = .ok rest)
    (hne : out ++ rest ≠ []) : Program.ofTokens ts = .ok (out ++ rest) := by
  have hempty : (out ++ rest).isEmpty = false := by simpa using hne
  rw [Program.ofTokens, hfeed]
  show (s.finish >>= fun rest => _) = _
  rw [hfinish]
  show (if (out ++ rest).isEmpty then _ else _) = _
  rw [hempty]
  rfl

/-! ## The rules of each token -/

/-- An operator takes off the waiting operators that it completes. -/
theorem step_op {previous : Option Token} {o : Operator} (os : List Operator)
    {below : List Pending} (hprev : isFn previous = false)
    (hos : ∀ w ∈ os, w.completedBy o = true) (hbelow : Blocks (·.completedBy o) below) :
    (⟨os.map .operator ++ below, previous⟩ : Converter).step (.op o)
      = .ok (os.map .op, ⟨.operator o :: below, some (.op o)⟩) := by
  apply step_of_place hprev
  simp only [place, Pending.release_operators hos hbelow]

theorem step_lparen_of_not_isFn {s : Converter} (hprev : isFn s.previous = false) :
    s.step .lparen = .ok ([], ⟨.paren false 0 :: s.pending, some .lparen⟩) := by
  apply step_of_place hprev
  simp only [place, hprev]

theorem step_lparen_of_fn {f : Func} {pending : List Pending} :
    (⟨pending, some (.fn f)⟩ : Converter).step .lparen
      = .ok ([], ⟨.paren true 0 :: pending, some .lparen⟩) := rfl

/-- A separator completes all that waits in its argument. -/
theorem step_comma {last : Token} (os : List Operator) (n : Nat) (below : List Pending)
    (hlast : last.isClosable = true) :
    (⟨os.map .operator ++ .paren true n :: below, some last⟩ : Converter).step .comma
      = .ok (os.map .op, ⟨.paren true (n + 1) :: below, some .comma⟩) := by
  apply step_of_place (isFn_of_isClosable hlast)
  cases last with
  | fn | lparen | comma => cases hlast
  | num | var | op | rparen => simp only [place, separate, Pending.releaseAll_operators]

/-- A closing parenthesis completes all that waits in its group. -/
theorem step_rparen_group {last : Token} (os : List Operator) (n : Nat) (below : List Pending)
    (hlast : last.isClosable = true) :
    (⟨os.map .operator ++ .paren false n :: below, some last⟩ : Converter).step .rparen
      = .ok (os.map .op, ⟨below, some .rparen⟩) := by
  apply step_of_place (isFn_of_isClosable hlast)
  cases last with
  | fn | lparen | comma => cases hlast
  | num | var | op | rparen => simp [place, close, Pending.releaseAll_operators]

/-- A closing parenthesis completes all that waits in the last argument, and
    then the call. -/
theorem step_rparen_call {last : Token} (os : List Operator) {n : Nat} {f : Func}
    (below : List Pending) (hlast : last.isClosable = true) (hf : f.arity = n + 1) :
    (⟨os.map .operator ++ .paren true n :: .function f :: below, some last⟩ : Converter).step
        .rparen
      = .ok (os.map .op ++ [.fn f], ⟨below, some .rparen⟩) := by
  apply step_of_place (isFn_of_isClosable hlast)
  cases last with
  | fn | lparen | comma => cases hlast
  | num | var | op | rparen =>
    simp [place, close, closeCall, Pending.releaseAll_operators, hf]

/-- A function without arguments is complete with its parentheses. -/
theorem step_rparen_nullary (os : List Operator) {n : Nat} {f : Func} (below : List Pending)
    (hf : f.arity = 0) :
    (⟨os.map .operator ++ .paren true n :: .function f :: below, some .lparen⟩ : Converter).step
        .rparen
      = .ok (os.map .op ++ [.fn f], ⟨below, some .rparen⟩) := by
  apply step_of_place rfl
  simp [place, close, closeCall, Pending.releaseAll_operators, hf]

/-! ## The rules of each phrase -/

/-- The tokens are read as a whole: they compute `program`, of which the last
    part, the operators `waiting`, waits on top of what waited before. -/
def Reads (s : Converter) (ts : List Token) (waiting : List Operator) (program : Program) : Prop :=
  ∃ out last, s.feed ts = .ok (out, ⟨waiting.map .operator ++ s.pending, some last⟩)
    ∧ out ++ waiting.map .op = program ∧ last.isClosable = true

/-- The tokens are read as a whole at the start of a group or of an argument. -/
def ReadsInside (ts : List Token) (program : Program) : Prop :=
  ∀ previous call n below, isFn previous = false →
    ∃ waiting, Reads ⟨.paren call n :: below, previous⟩ ts waiting program

/-- An operator below waiting ones waits with them. -/
theorem waiting_append (waiting : List Operator) (o : Operator) (below : List Pending) :
    (waiting ++ [o]).map .operator ++ below = waiting.map .operator ++ .operator o :: below := by
  simp

theorem reads_num {s : Converter} (value : Float) (hprev : isFn s.previous = false) :
    Reads s [.num value] [] [.num value] :=
  ⟨[.num value], .num value, feed_singleton (step_of_place hprev rfl), rfl, rfl⟩

theorem reads_var {s : Converter} (name : String) (hprev : isFn s.previous = false) :
    Reads s [.var name] [] [.var name] :=
  ⟨[.var name], .var name, feed_singleton (step_of_place hprev rfl), rfl, rfl⟩

theorem reads_group {s : Converter} {ts : List Token} {p : Program}
    (hprev : isFn s.previous = false) (hts : ReadsInside ts p) :
    Reads s (.lparen :: ts ++ [.rparen]) [] p := by
  obtain ⟨waiting, out, last, hfeed, hout, hlast⟩ := hts (some .lparen) false 0 s.pending rfl
  have hclose := feed_singleton (step_rparen_group waiting 0 s.pending hlast)
  have hall := feed_cons (step_lparen_of_not_isFn hprev) (feed_append hfeed hclose)
  refine ⟨_, .rparen, hall, ?_, rfl⟩
  simpa using hout

/-- The operands on both sides of an operator are read one after the other.
    What waits in the left one is complete with the operator. -/
theorem reads_binary {s : Converter} {lts rts : List Token} {lw rw : List Operator}
    {lp rp : Program} {o : Operator} (hl : Reads s lts lw lp)
    (hlw : ∀ w ∈ lw, w.completedBy o = true) (hbelow : Blocks (·.completedBy o) s.pending)
    (hr : Reads ⟨.operator o :: s.pending, some (.op o)⟩ rts rw rp) :
    Reads s (lts ++ .op o :: rts) (rw ++ [o]) (lp ++ rp ++ [.op o]) := by
  obtain ⟨lout, llast, hlfeed, rfl, hllast⟩ := hl
  obtain ⟨rout, rlast, hrfeed, rfl, hrlast⟩ := hr
  have hop := step_op lw (isFn_of_isClosable hllast) hlw hbelow
  have hall := feed_append hlfeed (feed_cons hop hrfeed)
  refine ⟨lout ++ (lw.map .op ++ rout), rlast, ?_, ?_, hrlast⟩
  · rw [hall, waiting_append]
  · simp [List.append_assoc]

theorem reads_sign {s : Converter} {ts : List Token} {waiting : List Operator} {p : Program}
    {o : Operator} (hprev : isFn s.previous = false)
    (hbelow : Blocks (·.completedBy o) s.pending)
    (h : Reads ⟨.operator o :: s.pending, some (.op o)⟩ ts waiting p) :
    Reads s (.op o :: ts) (waiting ++ [o]) (p ++ [.op o]) := by
  obtain ⟨out, last, hfeed, rfl, hlast⟩ := h
  have hop : s.step (.op o) = .ok ([], ⟨.operator o :: s.pending, some (.op o)⟩) :=
    step_op [] hprev (fun _ h => absurd h List.not_mem_nil) hbelow
  have hall := feed_cons hop hfeed
  refine ⟨out, last, ?_, ?_, hlast⟩
  · rw [hall, waiting_append, List.nil_append]
  · simp [List.append_assoc]

theorem reads_suffix {s : Converter} {ts : List Token} {waiting : List Operator} {p : Program}
    {o : Operator} (h : Reads s ts waiting p) (hw : ∀ w ∈ waiting, w.completedBy o = true)
    (hbelow : Blocks (·.completedBy o) s.pending) :
    Reads s (ts ++ [.op o]) [o] (p ++ [.op o]) := by
  obtain ⟨out, last, hfeed, rfl, hlast⟩ := h
  have hop := step_op waiting (isFn_of_isClosable hlast) hw hbelow
  exact ⟨_, .op o, feed_append hfeed (feed_singleton hop), rfl, rfl⟩

/-- Arguments are read one after the other; the parenthesis behind the last one
    completes the call, if they are as many as the function takes. -/
theorem feed_arguments {f : Func} {below : List Pending} {args : List (List Token × Program)}
    {n : Nat} {previous : Option Token} (hne : args ≠ []) (hf : f.arity = n + args.length)
    (hprev : isFn previous = false) (hargs : ∀ a ∈ args, ReadsInside a.1 a.2) :
    (⟨.paren true n :: .function f :: below, previous⟩ : Converter).feed
        ([Token.comma].intercalate (args.map Prod.fst) ++ [.rparen])
      = .ok ((args.map Prod.snd).flatten ++ [.fn f], ⟨below, some .rparen⟩) := by
  induction args generalizing n previous with
  | nil => exact absurd rfl hne
  | cons a rest ih =>
    obtain ⟨waiting, out, last, hfeed, hout, hlast⟩ :=
      hargs a (List.mem_cons_self ..) previous true n (.function f :: below) hprev
    cases rest with
    | nil =>
      -- the parenthesis behind the last argument completes the call
      have hclose := feed_singleton (step_rparen_call waiting below hlast hf)
      have hall := feed_append hfeed hclose
      rw [List.map_cons, List.map_nil, List.intercalate_singleton, hall, ← List.append_assoc, hout]
      simp
    | cons b rest =>
      -- the separator completes this argument, and is counted
      have hcomma := step_comma waiting n (.function f :: below) hlast
      have hrest := @ih (n + 1) (some .comma) (List.cons_ne_nil b rest)
        (by simp only [List.length_cons] at hf ⊢; omega) rfl
        (fun a ha => hargs a (List.mem_cons_of_mem _ ha))
      have hall := feed_append hfeed (feed_cons hcomma hrest)
      rw [List.map_cons, List.map_cons, List.intercalate_cons_cons, List.append_assoc,
        List.append_assoc, List.singleton_append, ← List.map_cons, hall, ← List.append_assoc, hout]
      simp

theorem reads_call {s : Converter} {f : Func} (args : List (List Token × Program))
    (hprev : isFn s.previous = false) (hf : f.arity = args.length)
    (hargs : ∀ a ∈ args, ReadsInside a.1 a.2) :
    Reads s (.fn f :: .lparen :: [Token.comma].intercalate (args.map Prod.fst) ++ [.rparen]) []
      ((args.map Prod.snd).flatten ++ [.fn f]) := by
  have hfn : s.step (.fn f) = .ok ([], ⟨.function f :: s.pending, some (.fn f)⟩) :=
    step_of_place hprev rfl
  have hinside : (⟨.paren true 0 :: .function f :: s.pending, some .lparen⟩ : Converter).feed
      ([Token.comma].intercalate (args.map Prod.fst) ++ [.rparen])
        = .ok ((args.map Prod.snd).flatten ++ [.fn f], ⟨s.pending, some .rparen⟩) := by
    cases args with
    | nil => exact feed_singleton (step_rparen_nullary [] s.pending hf)
    | cons a rest =>
      exact feed_arguments (List.cons_ne_nil a rest) (by rw [hf, Nat.zero_add]) rfl hargs
  have hall := feed_cons hfn (feed_cons step_lparen_of_fn hinside)
  exact ⟨_, .rparen, hall, List.append_nil _, rfl⟩

/-- What is read as a whole from the start is converted: the end of the stream
    completes what waits. -/
theorem ofTokens_of_reads {ts : List Token} {waiting : List Operator} {p : Program}
    (h : Reads {} ts waiting p) (hne : p ≠ []) : Program.ofTokens ts = .ok p := by
  obtain ⟨out, last, hfeed, rfl, hlast⟩ := h
  rw [List.append_nil] at hfeed
  have hfinish : (⟨waiting.map .operator, some last⟩ : Converter).finish
      = .ok (waiting.map .op) := by
    rw [finish, checkCall_of_not_isFn (isFn_of_isClosable hlast)]
    exact Pending.drain_operators waiting
  exact ofTokens_of_feed hfeed hfinish hne

end Converter

/-! ## Well-grouped phrases -/

namespace Phrase

open Converter Pending

/-- What waits where the phrase starts is no operator that its operators would
    complete: an operator between two operands, or a sign, to whose right the
    phrase belongs. -/
def BelongsTo (e : Phrase) (levels : Levels) (pending : List Pending) : Prop :=
  ∀ w below, pending = .operator w :: below →
    (w.arity = 2 ∨ w.precedence = levels.sign) ∧ ∀ q ∈ e.leftSpine, ¬ w.Pops q

theorem belongsTo_paren (e : Phrase) (levels : Levels) (call : Bool) (n : Nat)
    (below : List Pending) : e.BelongsTo levels (.paren call n :: below) := by
  intro w below' h
  cases h

/-- A unary operator leaves what its phrase belongs to. -/
theorem BelongsTo.blocks_unary {e : Phrase} {levels : Levels} {pending : List Pending}
    {o : Operator} (h : e.BelongsTo levels pending) (harity : o.arity = 1)
    (hpops : ∀ w : Operator, w.precedence = levels.sign → ¬ w.Pops o) :
    Blocks (·.completedBy o) pending := by
  intro w below heq
  rcases (h w below heq).1 with hw | hw
  · exact Operator.not_completedBy_of_unary hw harity
  · exact Operator.not_completedBy_of_not_pops (hpops w hw)

/-- A well-grouped phrase is read as a whole.  At its end its right spine waits,
    the innermost operator on top. -/
theorem reads {levels : Levels} {e : Phrase} {s : Converter} (hfits : e.Fits levels)
    (hgrouped : e.WellGrouped) (hprev : isFn s.previous = false)
    (hpending : e.BelongsTo levels s.pending) :
    Reads s e.tokens e.rightSpine.reverse e.program := by
  induction e generalizing s with
  | num value => exact reads_num value hprev
  | var name => exact reads_var name hprev
  | group e ih =>
    refine reads_group hprev fun previous call n below hprev => ⟨e.rightSpine.reverse, ?_⟩
    exact ih hfits hgrouped hprev (belongsTo_paren e levels call n below)
  | call f args ih =>
    have hread := reads_call (f := f)
      (List.ofFn fun i => ((args i).tokens, (args i).program)) hprev (by simp) (by
        intro a ha previous call n below hprev
        obtain ⟨i, rfl⟩ := List.mem_ofFn.mp ha
        exact ⟨(args i).rightSpine.reverse, ih i (hfits i) (hgrouped i) hprev
          (belongsTo_paren (args i) levels call n below)⟩)
    simpa only [tokens, program, rightSpine, List.reverse_nil, List.map_ofFn,
      Function.comp_def] using hread
  | binary o l r ihl ihr =>
    obtain ⟨harity, -, hl, hr⟩ := hfits
    obtain ⟨hright, hleft, hgl, hgr⟩ := hgrouped
    -- the left operand belongs to what waits as the whole phrase does
    have hpl : l.BelongsTo levels s.pending := fun w below heq =>
      ⟨(hpending w below heq).1, fun q hq => (hpending w below heq).2 q (List.mem_cons_of_mem o hq)⟩
    -- and the right operand belongs to the operator
    have hpr : r.BelongsTo levels (.operator o :: s.pending) := by
      intro w below heq
      cases heq
      exact ⟨Or.inl harity, hleft⟩
    have hblocks : Blocks (·.completedBy o) s.pending := fun w below heq =>
      Operator.not_completedBy_of_not_pops ((hpending w below heq).2 o (List.mem_cons_self ..))
    -- what waits in the left operand is complete before the operator
    have hwaiting : ∀ w ∈ l.rightSpine.reverse, w.completedBy o = true := fun w hw =>
      Operator.completedBy_of_pops harity (hright w (List.mem_reverse.mp hw))
    have hread := reads_binary (ihl hl hgl hprev hpl) hwaiting hblocks
      (ihr (s := ⟨.operator o :: s.pending, some (.op o)⟩) hr hgr rfl hpr)
    rw [← List.reverse_cons] at hread
    exact hread
  | sign o e ih =>
    obtain ⟨harity, hassoc, hprec, he⟩ := hfits
    obtain ⟨hleft, hge⟩ := hgrouped
    -- signs are equally strong and group to the right, so none completes another
    have hblocks : Blocks (·.completedBy o) s.pending := hpending.blocks_unary harity (by
      intro w hw hpops
      rcases hpops with hlt | ⟨-, hassoc'⟩
      · omega
      · rw [hassoc] at hassoc'
        cases hassoc')
    have hpe : e.BelongsTo levels (.operator o :: s.pending) := by
      intro w below heq
      cases heq
      exact ⟨Or.inr hprec, hleft⟩
    have hread := reads_sign hprev hblocks
      (ih (s := ⟨.operator o :: s.pending, some (.op o)⟩) he hge rfl hpe)
    rw [← List.reverse_cons] at hread
    exact hread
  | suffix e o ih =>
    obtain ⟨harity, hassoc, hprec, htight, he⟩ := hfits
    have hlt := levels.sign_lt_suffix
    -- a suffix is stronger than any sign, and takes nothing from it
    have hblocks : Blocks (·.completedBy o) s.pending := hpending.blocks_unary harity (by
      intro w hw hpops
      rcases hpops with hlt' | ⟨heq, -⟩ <;> omega)
    have hpe : e.BelongsTo levels s.pending := by
      intro w below heq
      refine ⟨(hpending w below heq).1, ?_⟩
      simp [leftSpine_eq_nil_of_isTight htight]
    -- the suffixes before this one are as strong, and group to the left
    have hwaiting : ∀ w ∈ e.rightSpine.reverse, w.completedBy o = true := by
      intro w hw
      obtain ⟨hwarity, hwprec⟩ := rightSpine_of_isTight htight he w (List.mem_reverse.mp hw)
      have hpops : w.Pops o := Or.inr ⟨hwprec.trans hprec.symm, hassoc⟩
      simp [Operator.completedBy, hwarity, Operator.bindsBefore_iff.mpr hpops]
    exact reads_suffix (ih he hgrouped hprev hpe) hwaiting hblocks

/-- A well-grouped phrase is converted into its program. -/
theorem ofTokens_tokens {levels : Levels} {e : Phrase} (hfits : e.Fits levels)
    (hgrouped : e.WellGrouped) : Program.ofTokens e.tokens = .ok e.program := by
  have hstart : e.BelongsTo levels ({} : Converter).pending := by
    intro w below heq
    cases heq
  exact ofTokens_of_reads (reads hfits hgrouped (s := {}) rfl hstart) (program_ne_nil e)

end Phrase

end StackCalc
