/-
  StackCalc.Proofs.Grammar

  The infix grammar, and how little has to be known of a row of tokens to see
  that it is a sentence.

  In a row whose parentheses nest, and in which nothing that ends an operand is
  followed by what starts one, every operand is followed by an operator or ends
  its part of the row.  So no part gains more than one value, and a part that
  gains one lacks nothing: a surplus in one argument cannot make up for a missing
  operand in another.
-/
import StackCalc.Proofs.Balance
import StackCalc.Proofs.Phrase
import Mathlib.Data.List.Chain
import Mathlib.Data.List.OfFn

namespace StackCalc

/-- The sentences of the infix grammar. -/
inductive Sentence : List Token → Prop where
  | num (value : Float) : Sentence [.num value]
  | var (name : String) : Sentence [.var name]
  /-- Two sentences with an operator between them. -/
  | binary {o : Operator} {l r : List Token} (harity : o.arity = 2) (hl : Sentence l)
      (hr : Sentence r) : Sentence (l ++ .op o :: r)
  /-- An operator before a sentence. -/
  | unary {o : Operator} {ts : List Token} (harity : o.arity = 1) (h : Sentence ts) :
      Sentence (.op o :: ts)
  | group {ts : List Token} (h : Sentence ts) : Sentence (.lparen :: ts ++ [.rparen])
  /-- A function with exactly as many arguments as it takes. -/
  | call {f : Func} {args : List (List Token)} (hlen : args.length = f.arity)
      (hargs : ∀ a ∈ args, Sentence a) :
      Sentence (.fn f :: .lparen :: [Token.comma].intercalate args ++ [.rparen])

/-- Rows of tokens in which parentheses nest and argument lists are complete,
    whatever else stands where. -/
inductive Nested : List Token → Prop where
  | nil : Nested []
  | num {ts : List Token} (value : Float) (h : Nested ts) : Nested (.num value :: ts)
  | var {ts : List Token} (name : String) (h : Nested ts) : Nested (.var name :: ts)
  | op {ts : List Token} (o : Operator) (h : Nested ts) : Nested (.op o :: ts)
  | group {inner rest : List Token} (hne : inner ≠ []) (hinner : Nested inner)
      (hrest : Nested rest) : Nested (.lparen :: inner ++ .rparen :: rest)
  | call {f : Func} {args : List (List Token)} {rest : List Token}
      (hlen : args.length = f.arity) (hne : ∀ a ∈ args, a ≠ []) (hargs : ∀ a ∈ args, Nested a)
      (hrest : Nested rest) :
      Nested (.fn f :: .lparen :: [Token.comma].intercalate args ++ .rparen :: rest)

theorem Nested.append {xs ys : List Token} (hx : Nested xs) (hy : Nested ys) :
    Nested (xs ++ ys) := by
  induction hx with
  | nil => exact hy
  | num value _ ih => exact .num value ih
  | var name _ ih => exact .var name ih
  | op o _ ih => exact .op o ih
  | group hne hinner _ _ ih =>
    rw [List.append_assoc, List.cons_append]
    exact .group hne hinner ih
  | call hlen hne hargs _ _ ih =>
    rw [List.append_assoc, List.cons_append]
    exact .call hlen hne hargs ih

/-! ## Argument lists -/

namespace Token

/-- What the empty row has, and with two rows always the row of both with a separator
    between them, an argument list has if its arguments do. -/
theorem intercalate_induction {P : List Token → Prop} {args : List (List Token)} (hnil : P [])
    (hjoin : ∀ ts us, P ts → P us → P (ts ++ comma :: us)) (h : ∀ a ∈ args, P a) :
    P ([comma].intercalate args) := by
  induction args with
  | nil => exact hnil
  | cons a rest ih =>
    have ha := h a (List.mem_cons_self ..)
    have hrest := ih fun b hb => h b (List.mem_cons_of_mem a hb)
    cases rest with
    | nil => rwa [List.intercalate_singleton]
    | cons b rest =>
      rw [List.intercalate_cons_cons, List.append_assoc]
      exact hjoin a _ ha hrest

/-- Each argument stands in the list as it is. -/
theorem infix_intercalate {a : List Token} {args : List (List Token)} (h : a ∈ args) :
    a <:+: [comma].intercalate args := by
  induction args with
  | nil => exact absurd h List.not_mem_nil
  | cons b rest ih =>
    cases rest with
    | nil =>
      obtain rfl := List.mem_singleton.mp h
      simp only [List.intercalate_singleton, List.infix_rfl]
    | cons c rest =>
      rw [List.intercalate_cons_cons]
      rcases List.mem_cons.mp h with rfl | h
      · rw [List.append_assoc]
        exact (List.prefix_append ..).isInfix
      · exact (ih h).trans (List.suffix_append ..).isInfix

/-- All arguments but the last have a separator behind them. -/
theorem intercalate_concat (args : List (List Token)) (last : List Token) :
    [comma].intercalate (args ++ [last]) = args.flatMap (· ++ [comma]) ++ last := by
  induction args with
  | nil => exact List.intercalate_singleton
  | cons a rest ih =>
    have hne : rest ++ [last] ≠ [] := by simp
    rw [List.cons_append, List.intercalate_cons_of_ne_nil hne, ih, List.flatMap_cons]
    simp only [List.append_assoc]

end Token

/-! ## What a row of tokens gains -/

/-- The instructions of the tokens, in the order of the tokens. -/
def Token.instrs (ts : List Token) : Program := ts.filterMap Token.instr?

/-- How many more values there are after what the tokens stand for. -/
def Token.gain (ts : List Token) : Int := (Token.instrs ts).gain

namespace Token

@[simp] theorem gain_nil : gain [] = 0 := rfl

@[simp] theorem gain_append (ts us : List Token) : gain (ts ++ us) = gain ts + gain us := by
  simp [gain, instrs]

@[simp] theorem gain_num (value : Float) (ts : List Token) :
    gain (.num value :: ts) = 1 + gain ts := rfl

@[simp] theorem gain_var (name : String) (ts : List Token) :
    gain (.var name :: ts) = 1 + gain ts := rfl

@[simp] theorem gain_op (o : Operator) (ts : List Token) :
    gain (.op o :: ts) = 1 - o.arity + gain ts := by
  simp [gain, instrs, instr?, Instr.gain, Instr.arity]

@[simp] theorem gain_fn (f : Func) (ts : List Token) :
    gain (.fn f :: ts) = 1 - f.arity + gain ts := by
  simp [gain, instrs, instr?, Instr.gain, Instr.arity]

@[simp] theorem gain_lparen (ts : List Token) : gain (.lparen :: ts) = gain ts := rfl

@[simp] theorem gain_rparen (ts : List Token) : gain (.rparen :: ts) = gain ts := rfl

@[simp] theorem gain_comma (ts : List Token) : gain (.comma :: ts) = gain ts := rfl

/-- Where the arguments gain one value each at most, a list of them gains at most
    as many as they are, and as many only if each of them gains one. -/
theorem gain_arguments {args : List (List Token)} (h : ∀ a ∈ args, gain a ≤ 1) :
    gain ([comma].intercalate args) ≤ args.length
      ∧ (gain ([comma].intercalate args) = args.length → ∀ a ∈ args, gain a = 1) := by
  induction args with
  | nil => exact ⟨Int.le_refl 0, fun _ a ha => absurd ha List.not_mem_nil⟩
  | cons a rest ih =>
    have ha := h a (List.mem_cons_self ..)
    obtain ⟨hle, heq⟩ := ih fun b hb => h b (List.mem_cons_of_mem a hb)
    have hsum : gain ([comma].intercalate (a :: rest))
        = gain a + gain ([comma].intercalate rest) := by
      cases rest with
      | nil => simp
      | cons b rest => simp [List.intercalate_cons_cons]
    rw [hsum, List.length_cons, Int.natCast_add, Int.natCast_one]
    refine ⟨by omega, fun hall => ?_⟩
    intro b hb
    rcases List.mem_cons.mp hb with rfl | hb
    · omega
    · exact heq (by omega) b hb

/-- What may stand next to each other: behind the end of an operand no other
    operand starts, and an operator takes two operands. -/
def Spaced (a b : Token) : Prop :=
  a.endsOperand = true → b.startsOperand = false ∧ ∀ o, b = .op o → o.arity = 2

end Token

open Token (gain Spaced)

/-! ## From the gain to the grammar -/

/-- Nothing but a sentence gains a value here, and then only one. -/
def Begins (ts : List Token) : Prop := gain ts ≤ 1 ∧ (gain ts = 1 → Sentence ts)

/-- Behind a sentence, the row gains nothing more, and what loses nothing makes a
    longer sentence of it. -/
def Continues (ts : List Token) : Prop :=
  gain ts ≤ 0 ∧ (gain ts = 0 → ∀ before, Sentence before → Sentence (before ++ ts))

theorem begins_nil : Begins [] :=
  ⟨by decide, fun h => absurd h (by decide)⟩

theorem continues_nil : Continues [] :=
  ⟨Int.le_refl 0, fun _ before h => by rwa [List.append_nil]⟩

theorem Begins.append {ts rest : List Token} (hts : Begins ts) (hrest : Continues rest) :
    Begins (ts ++ rest) := by
  obtain ⟨hle, hsentence⟩ := hts
  obtain ⟨hrestle, hlonger⟩ := hrest
  rw [Begins, Token.gain_append]
  refine ⟨by omega, fun h => ?_⟩
  exact hlonger (by omega) ts (hsentence (by omega))

theorem begins_num (value : Float) : Begins [.num value] :=
  ⟨Int.le_refl 1, fun _ => .num value⟩

theorem begins_var (name : String) : Begins [.var name] :=
  ⟨Int.le_refl 1, fun _ => .var name⟩

theorem Begins.group {ts : List Token} (h : Begins ts) : Begins (.lparen :: ts ++ [.rparen]) := by
  obtain ⟨hle, hsentence⟩ := h
  have hgain : gain (.lparen :: ts ++ [.rparen]) = gain ts := by simp
  rw [Begins, hgain]
  exact ⟨hle, fun h => .group (hsentence h)⟩

/-- A call lacks what its arguments lack: none of them gains more than the one
    value that the function takes from it. -/
theorem Begins.call {f : Func} {args : List (List Token)} (hlen : args.length = f.arity)
    (h : ∀ a ∈ args, Begins a) :
    Begins (.fn f :: .lparen :: [Token.comma].intercalate args ++ [.rparen]) := by
  obtain ⟨hle, heq⟩ := Token.gain_arguments fun a ha => (h a ha).1
  have hgain : gain (.fn f :: .lparen :: [Token.comma].intercalate args ++ [.rparen])
      = 1 - f.arity + gain ([Token.comma].intercalate args) := by simp
  rw [Begins, hgain, ← hlen]
  refine ⟨by omega, fun hone => ?_⟩
  have hall := heq (by omega)
  exact .call hlen fun a ha => (h a ha).2 (hall a ha)

theorem Begins.unary {o : Operator} {ts : List Token} (harity : o.arity = 1) (h : Begins ts) :
    Begins (.op o :: ts) := by
  obtain ⟨hle, hsentence⟩ := h
  rw [Begins, Token.gain_op, harity]
  exact ⟨by omega, fun hone => .unary harity (hsentence (by omega))⟩

theorem Begins.binary {o : Operator} {ts : List Token} (harity : o.arity = 2) (h : Begins ts) :
    Continues (.op o :: ts) := by
  obtain ⟨hle, hsentence⟩ := h
  rw [Continues, Token.gain_op, harity]
  refine ⟨by omega, fun hzero before hbefore => ?_⟩
  exact .binary harity hbefore (hsentence (by omega))

theorem Continues.begins {ts : List Token} (h : Continues ts) : Begins ts :=
  ⟨Int.le_trans h.1 (by decide), fun hone => absurd h.1 (by omega)⟩

/-- What a row is at its start, and behind a token that ends an operand.  The
    second part is what the rest of a row has to satisfy behind its first
    operand. -/
theorem Nested.begins_and_continues {ts : List Token} (h : Nested ts) :
    (ts.IsChain Spaced → Begins ts)
      ∧ ∀ x : Token, x.endsOperand = true → (x :: ts).IsChain Spaced → Continues ts := by
  -- an operand cannot stand behind another one
  have hoperand {x t : Token} {ts : List Token} (hx : x.endsOperand = true)
      (ht : t.startsOperand = true) (hchain : (x :: t :: ts).IsChain Spaced) :
      Continues (t :: ts) := by
    have hnot := ((List.isChain_cons_cons.mp hchain).1 hx).1
    rw [ht] at hnot
    cases hnot
  induction h with
  | nil => exact ⟨fun _ => begins_nil, fun _ _ _ => continues_nil⟩
  | num value _ ih =>
    exact ⟨fun hchain => (begins_num value).append (ih.2 _ rfl hchain),
      fun x hx => hoperand hx rfl⟩
  | var name _ ih =>
    exact ⟨fun hchain => (begins_var name).append (ih.2 _ rfl hchain),
      fun x hx => hoperand hx rfl⟩
  | @op ts o _ ih =>
    have hpos := o.arity_pos
    have hle := o.arity_le_two
    refine ⟨fun hchain => ?_, fun x hx hchain => ?_⟩
    · -- at the start an operator is a sign, or loses a value for good
      have hts := ih.1 hchain.tail
      by_cases harity : o.arity = 1
      · exact hts.unary harity
      · exact (hts.binary (by omega)).begins
    · have harity := ((List.isChain_cons_cons.mp hchain).1 hx).2 o rfl
      exact (ih.1 hchain.tail.tail).binary harity
  | @group inner rest _ _ _ ihinner ihrest =>
    refine ⟨fun hchain => ?_, fun x hx => hoperand hx rfl⟩
    -- the closing parenthesis ends an operand, so the rest only continues it
    have hinside : inner.IsChain Spaced := hchain.tail.left_of_append
    have hbehind := ihrest.2 .rparen rfl hchain.right_of_append
    have hsplit : .lparen :: inner ++ .rparen :: rest
        = (.lparen :: inner ++ [.rparen]) ++ rest := by simp
    rw [hsplit]
    exact (ihinner.1 hinside).group.append hbehind
  | @call f args rest hlen _ _ _ ihargs ihrest =>
    refine ⟨fun hchain => ?_, fun x hx => hoperand hx rfl⟩
    -- each argument is a row of its own
    have hlist := hchain.tail.tail.left_of_append
    have hbehind := ihrest.2 .rparen rfl hchain.right_of_append
    have hsplit : .fn f :: .lparen :: [Token.comma].intercalate args ++ .rparen :: rest
        = (.fn f :: .lparen :: [Token.comma].intercalate args ++ [.rparen]) ++ rest := by simp
    rw [hsplit]
    have hinside (a : List Token) (ha : a ∈ args) : a.IsChain Spaced :=
      List.IsChain.infix hlist (Token.infix_intercalate ha)
    have hcall := Begins.call hlen fun a ha => (ihargs a ha).1 (hinside a ha)
    exact hcall.append hbehind

theorem Nested.sentence {ts : List Token} (h : Nested ts) (hspaced : ts.IsChain Spaced)
    (hgain : gain ts = 1) : Sentence ts :=
  (h.begins_and_continues.1 hspaced).2 hgain

/-! ## Sentences as phrases -/

/-- The operators of a row stand on the levels, and none of the unary ones is
    written behind its operand. -/
def Phrase.Levels.Admits (levels : Phrase.Levels) (ts : List Token) : Prop :=
  ∀ o, .op o ∈ ts →
    (o.arity = 1 → o.associativity = .right ∧ o.precedence = levels.sign)
      ∧ (o.arity = 2 → o.precedence < levels.suffix)

/-- Every sentence is how some phrase is written. -/
theorem Sentence.exists_phrase {levels : Phrase.Levels} {ts : List Token} (h : Sentence ts)
    (hadmits : levels.Admits ts) : ∃ e : Phrase, e.Fits levels ∧ e.tokens = ts := by
  induction h with
  | num value => exact ⟨.num value, trivial, rfl⟩
  | var name => exact ⟨.var name, trivial, rfl⟩
  | @binary o l r harity _ _ ihl ihr =>
    obtain ⟨el, hel, rfl⟩ := ihl fun p hp => hadmits p (List.mem_append_left _ hp)
    obtain ⟨er, her, rfl⟩ := ihr fun p hp =>
      hadmits p (List.mem_append_right _ (List.mem_cons_of_mem _ hp))
    have ho := (hadmits o (List.mem_append_right _ (List.mem_cons_self ..))).2 harity
    exact ⟨.binary o el er, ⟨harity, ho, hel, her⟩, rfl⟩
  | @unary o ts harity _ ih =>
    obtain ⟨e, he, rfl⟩ := ih fun p hp => hadmits p (List.mem_cons_of_mem _ hp)
    obtain ⟨hassoc, hprec⟩ := (hadmits o (List.mem_cons_self ..)).1 harity
    exact ⟨.sign o e, ⟨harity, hassoc, hprec, he⟩, rfl⟩
  | group _ ih =>
    obtain ⟨e, he, rfl⟩ := ih fun p hp =>
      hadmits p (List.mem_append_left _ (List.mem_cons_of_mem _ hp))
    exact ⟨.group e, he, rfl⟩
  | @call f args hlen _ ih =>
    -- one phrase for each place of the argument list
    have harg (i : Fin f.arity) :
        ∃ e : Phrase, e.Fits levels ∧ e.tokens = args.get (i.cast hlen.symm) := by
      have hmem : args.get (i.cast hlen.symm) ∈ args := List.get_mem ..
      refine ih _ hmem fun p hp => hadmits p ?_
      have hinside := (Token.infix_intercalate hmem).subset hp
      simp [hinside]
    choose e he htokens using harg
    have hargs : (List.ofFn fun i => (e i).tokens) = args := by
      simp only [htokens]
      rw [← List.ofFn_congr hlen args.get, List.ofFn_get]
    refine ⟨.call f e, he, ?_⟩
    rw [Phrase.tokens, hargs]

end StackCalc
