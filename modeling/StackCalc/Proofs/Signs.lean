/-
  StackCalc.Proofs.Signs

  Signs of different precedences in front of one operand.

  A sign takes nothing away from an operator between two operands, but it does
  complete a stronger sign directly before it, which has no operand yet.  So a sign
  is emitted in front of its operand if a weaker sign stands between the two
  (`Phrase.sign_emission`), and is then applied to what comes before.  Where no
  sign is directly followed by a weaker one, all programs are balanced: what waits
  tells how many values are on the stack (`Alternates.turns`).
-/
import StackCalc.Operator.Builtin
import StackCalc.Proofs.Balance
import StackCalc.Proofs.Settling

namespace StackCalc

open Token (labelled firstLeaf)

namespace Token

/-- The signs that a row starts with. -/
def leadingSigns : List Token → List Operator
  | .op o :: ts => if o.isSign then o :: leadingSigns ts else []
  | _ => []

/-- The tokens are not a sign and a weaker sign. -/
def NoWeaker : Token → Token → Prop
  | .op o, .op q => o.isSign = true → q.isSign = true → o.precedence ≤ q.precedence
  | _, _ => True

end Token

open Token (leadingSigns NoWeaker)

/-- A sign completes what is stronger. -/
theorem Operator.pops_sign_iff {o q : Operator} (hq : q.isSign = true) :
    o.Pops q ↔ q.precedence < o.precedence := by
  obtain ⟨-, hassoc⟩ := Operator.isSign_iff.mp hq
  simp [Operator.Pops, hassoc]

/-- In front of an operand a unary operator is completed by the weaker ones among
    the signs there, and by nothing else. -/
theorem Operator.settles_iff {o : Operator} {ts : List Token} (h : Alternates .before ts) :
    o.Settles ts ↔ ∃ q ∈ leadingSigns ts, q.precedence < o.precedence := by
  generalize hside : Side.before = side at h
  induction h with
  | num | var | group | call | nullary => simp [Operator.Settles, leadingSigns]
  | @sign q ts hq _ ih =>
    have harity := (Operator.isSign_iff.mp hq).1
    simp [Operator.Settles, leadingSigns, hq, harity, Operator.pops_sign_iff hq, ih hside]
  | stop | binary | suffix | comma | rparen => cases hside

/-! ## Two signs -/

namespace Converter

open Pending (Blocks ofOperator)

variable {α : Type}

section Pair

variable {o q : Operator} {i j : α} {before after : List (Token × α)} {out : List (Instr × α)}

/-- Of two adjacent signs the inner one is emitted first, unless it is weaker. -/
theorem Emits.inner_first
    (h : Emits none [] (before ++ (.op o, i) :: (.op q, j) :: after) out) (hq : q.isSign = true)
    (hle : o.precedence ≤ q.precedence) : [(.op q, j), (.op o, i)].Sublist out := by
  obtain ⟨front, kept, back, hback, rfl⟩ := h.behind_op
  obtain ⟨xs, ws₁, back, hfirst, hrest, rfl⟩ := hback.exists_move
  obtain ⟨os, kept', hws, -, rfl, hos, -⟩ := hfirst.op
  have hnot : ¬ o.Pops q := by
    rw [Operator.pops_sign_iff hq]
    omega
  cases os with
  | cons w os =>
    -- the outer one is not complete
    have hcompleted := hos w (List.mem_cons_self ..)
    cases (List.cons.inj hws).1
    rw [Operator.not_completedBy_of_not_pops hnot] at hcompleted
    cases hcompleted
  | nil =>
    obtain rfl : (Pending.operator o, i) :: kept = kept' := hws
    have hpair : [(.op q, j), (.op o, i)].Sublist
        (Pending.labelled ((.operator q, j) :: (.operator o, i) :: kept)) :=
      ((List.nil_sublist _).cons_cons _).cons_cons _
    exact ((hpair.trans hrest.sublist).trans (List.sublist_append_right xs back)).trans
      (List.sublist_append_right front (xs ++ back))

/-- If the inner one is weaker, the outer one is emitted first. -/
theorem Emits.outer_first
    (h : Emits none [] (before ++ (.op o, i) :: (.op q, j) :: after) out) (harity : o.arity = 1)
    (hq : q.isSign = true) (hlt : q.precedence < o.precedence) :
    [(.op o, i), (.op q, j)].Sublist out := by
  obtain ⟨front, kept, back, hback, rfl⟩ := h.behind_op
  obtain ⟨xs, ws₁, back, hfirst, hrest, rfl⟩ := hback.exists_move
  obtain ⟨os, kept', hws, rfl, rfl, -, hblocks⟩ := hfirst.op
  have hcompleted : o.completedBy q = true := by
    rw [Operator.completedBy_iff_of_unary harity, Operator.pops_sign_iff hq]
    exact hlt
  have hpair : [(.op o, i), (.op q, j)].Sublist (Pending.labelled (os.map ofOperator) ++ back) := by
    apply hrest.pair_of_waits _ (List.mem_cons_self ..)
    cases os with
    | nil =>
      -- it does not stay on top
      obtain rfl : (Pending.operator o, i) :: kept = kept' := hws
      have htop : o.completedBy q = false := hblocks o _ rfl
      rw [hcompleted] at htop
      cases htop
    | cons w os =>
      cases (List.cons.inj hws).1
      exact List.mem_cons_self ..
  exact hpair.trans (List.sublist_append_right front _)

end Pair

end Converter

/-! ## How many values there are -/

namespace Program

/-- With `m` values on the stack the program finds all that it takes, and leaves
    `n` of them there. -/
def Turns (p : Program) (m n : Nat) : Prop := lackingFrom m p = none ∧ m + gain p = n

theorem turns_nil (m : Nat) : Turns [] m m := ⟨rfl, by simp⟩

theorem Turns.append {p q : Program} {m k n : Nat} (hp : p.Turns m k) (hq : q.Turns k n) :
    (p ++ q).Turns m n := by
  obtain ⟨hpnone, hpgain⟩ := hp
  obtain ⟨hqnone, hqgain⟩ := hq
  refine ⟨?_, ?_⟩
  · rw [lackingFrom_append, hpnone, hpgain, hqnone]
    rfl
  · rw [gain_append]
    omega

theorem turns_instr {i : Instr} {m n : Nat} (h : n = m + i.arity) : Turns [i] n (m + 1) := by
  refine ⟨?_, ?_⟩
  · rw [lackingFrom_cons_of_le [] (by omega)]
    rfl
  · rw [gain_cons, gain_nil, Instr.gain]
    omega

theorem Turns.balance {p : Program} (h : p.Turns 0 1) : p.balance = [] := by
  obtain ⟨hnone, hgain⟩ := h
  exact balance_eq_nil_iff.mpr ⟨hnone, by omega⟩

end Program

open Program (Turns turns_nil turns_instr)

/-- How many values are on the stack for what waits: the left operands of operators
    between two, and the complete arguments of calls. -/
def Pending.held : List Pending → Nat
  | [] => 0
  | operator o :: below => o.arity - 1 + held below
  | function _ :: below => held below
  | paren true n :: below => n + held below
  | paren false _ :: below => held below

/-- How many values there are at a place, apart from those. -/
def Side.values : Side → Nat
  | before => 0
  | behind => 1

theorem Pending.held_paren (call : Bool) (below : List Pending) :
    held (.paren call 0 :: below) = held below := by
  cases call <;> simp [held]

/-- Behind an operand the operators on top find theirs. -/
theorem Pending.turns_operators (os : List Operator) (below : List Pending) :
    Turns (os.map .op) (held (os.map .operator ++ below) + 1) (held below + 1) := by
  induction os with
  | nil => exact turns_nil _
  | cons o os ih =>
    have hpos := o.arity_pos
    have hfirst : Turns [.op o] (held ((o :: os).map .operator ++ below) + 1)
        (held (os.map .operator ++ below) + 1) := by
      apply turns_instr
      simp only [List.map_cons, List.cons_append, held, Instr.arity]
      omega
    exact hfirst.append ih

namespace Converter

open Pending (Blocks held turns_operators)

section Effect

variable {pending pending' : List Pending} {previous : Option Token} {out : Program}

theorem Effect.num_emitted {value : Float} (h : Effect pending previous (.num value) out pending') :
    out = [.num value] ∧ pending' = pending := by
  cases h with
  | num => exact ⟨rfl, rfl⟩

theorem Effect.var_emitted {name : String} (h : Effect pending previous (.var name) out pending') :
    out = [.var name] ∧ pending' = pending := by
  cases h with
  | var => exact ⟨rfl, rfl⟩

theorem Effect.fn_waits {f : Func} (h : Effect pending previous (.fn f) out pending') :
    out = [] ∧ pending' = .function f :: pending := by
  cases h with
  | fn => exact ⟨rfl, rfl⟩

/-- An operator that completes nothing waits on top. -/
theorem Effect.op_waits {o : Operator} (h : Effect pending previous (.op o) out pending')
    (hblocks : Blocks (·.completedBy o) pending) :
    out = [] ∧ pending' = .operator o :: pending := by
  cases h with
  | op _ os below hpending _ _ hos =>
    cases os with
    | nil =>
      obtain rfl : pending = below := hpending
      exact ⟨rfl, rfl⟩
    | cons w os =>
      have hnot : w.completedBy o = false := hblocks w _ hpending
      rw [hos w (List.mem_cons_self ..)] at hnot
      cases hnot

theorem Effect.turns_op {o : Operator} (h : Effect pending previous (.op o) out pending') :
    ∃ below, pending' = .operator o :: below ∧ Turns out (held pending + 1) (held below + 1) := by
  cases h with
  | op _ os below hpending =>
    rw [hpending]
    exact ⟨below, rfl, turns_operators os below⟩

theorem Effect.lparen_waits (h : Effect pending previous .lparen out pending') :
    out = [] ∧ pending' = .paren (isFn previous) 0 :: pending := by
  cases h with
  | openGroup hprev =>
    rw [hprev]
    exact ⟨rfl, rfl⟩
  | openCall => exact ⟨rfl, rfl⟩

/-- One more argument of the call is complete behind a separator. -/
theorem Effect.turns_comma (h : Effect pending previous .comma out pending') :
    ∃ n below, pending' = .paren true n :: below
      ∧ Turns out (held pending + 1) (held pending') := by
  cases h with
  | comma os n below hpending =>
    refine ⟨n + 1, below, rfl, ?_⟩
    have hturns := turns_operators os (.paren true n :: below)
    rw [← hpending] at hturns
    have hheld : held (.paren true (n + 1) :: below) = held (.paren true n :: below) + 1 := by
      simp only [held]
      omega
    rwa [hheld]

/-- Behind its last argument a call finds all of them. -/
theorem Effect.turns_rparen (h : Effect pending previous .rparen out pending')
    (hprev : previous ≠ some .lparen) : Turns out (held pending + 1) (held pending' + 1) := by
  cases h with
  | closeGroup os n below hpending =>
    rw [hpending]
    exact turns_operators os (.paren false n :: pending')
  | closeCall os n f below hpending _ hf =>
    rw [hpending]
    apply (turns_operators os (.paren true n :: .function f :: pending')).append
    apply turns_instr
    simp only [held, Instr.arity, hf]
    omega
  | closeNullary => exact absurd rfl hprev

theorem Effect.call_nullary {f : Func} {n : Nat}
    (h : Effect (.paren true n :: .function f :: pending) (some .lparen) .rparen out pending') :
    out = [.fn f] ∧ pending' = pending := by
  -- nothing is above the parenthesis
  have hnil {os : List Operator} {call : Bool} {m : Nat} {below : List Pending}
      (hpending : .paren true n :: .function f :: pending
        = os.map Pending.operator ++ .paren call m :: below) : os = [] := by
    cases os with
    | nil => rfl
    | cons => cases hpending
  cases h with
  | closeGroup os n below hpending =>
    obtain rfl := hnil hpending
    cases hpending
  | closeCall _ _ _ _ _ hclosable => cases hclosable _ rfl
  | closeNullary os n f below hpending hf =>
    obtain rfl := hnil hpending
    cases hpending
    exact ⟨rfl, rfl⟩

end Effect

/-- The token that comes next does not take off what is incomplete: in front of an
    operand no operator, and behind one not an empty list. -/
def Ready (s : Converter) : Side → List Token → Prop
  | .before, ts => ∀ q rest, ts = .op q :: rest → Blocks (·.completedBy q) s.pending
  | .behind, _ => s.previous ≠ some .lparen

section Ready

variable {s : Converter} {ts : List Token} {below : List Pending}

theorem ready_of_paren {call : Bool} {n : Nat} (h : s.pending = .paren call n :: below) :
    s.Ready .before ts := by
  intro q rest _
  rw [h]
  exact Pending.blocks_paren _ call n below

theorem ready_of_op {o : Operator} (h : s.pending = .operator o :: below)
    (hts : Alternates .before ts) (hchain : (Token.op o :: ts).IsChain NoWeaker)
    (ho : o.arity = 2 ∨ o.isSign = true) : s.Ready .before ts := by
  rintro q rest rfl w below' hw
  rw [h] at hw
  cases hw
  -- what comes in front of an operand is a sign
  cases hts with
  | sign hq =>
    rcases ho with harity | ho
    · exact Operator.not_completedBy_of_unary harity (Operator.isSign_iff.mp hq).1
    · have hle : o.precedence ≤ q.precedence := hchain.rel ho hq
      apply Operator.not_completedBy_of_not_pops
      rw [Operator.pops_sign_iff hq]
      omega

theorem ready_behind {t : Token} (h : s.previous = some t) (ht : t.isClosable = true) :
    s.Ready .behind ts := by
  intro hlparen
  rw [h] at hlparen
  cases hlparen
  cases ht

end Ready

/-- Wherever a row goes on to its end, the program finds all the values it takes,
    and leaves one of them, if no sign is directly followed by a weaker one. -/
theorem turns_of_alternates {side : Side} {ts : List Token} {s s' : Converter} {out : Program}
    (h : Alternates side ts) (hchain : ts.IsChain NoWeaker) (hready : s.Ready side ts)
    (hfeed : s.feed ts = .ok (out, s')) {os : List Operator} (hos : s'.pending = os.map .operator) :
    Turns (out ++ Pending.instrs s'.pending) (held s.pending + side.values) 1 := by
  -- the count at each place is what waits there and, behind an operand, that operand
  induction h generalizing s out with
  | stop =>
    cases hfeed
    have hturns := turns_operators os []
    have hinstrs := Pending.instrs_operators os []
    rw [List.append_nil, ← hos] at hturns hinstrs
    rw [Pending.instrs, List.append_nil] at hinstrs
    rwa [List.nil_append, hinstrs]
  | num value _ ih =>
    obtain ⟨first, s₁, more, heffect, hprevious, hmore, rfl⟩ := exists_effect_of_feed hfeed
    obtain ⟨rfl, hpending⟩ := heffect.num_emitted
    have hrest := ih hchain.tail (ready_behind hprevious rfl) hmore
    rw [hpending] at hrest
    exact (turns_instr rfl).append hrest
  | var name _ ih =>
    obtain ⟨first, s₁, more, heffect, hprevious, hmore, rfl⟩ := exists_effect_of_feed hfeed
    obtain ⟨rfl, hpending⟩ := heffect.var_emitted
    have hrest := ih hchain.tail (ready_behind hprevious rfl) hmore
    rw [hpending] at hrest
    exact (turns_instr rfl).append hrest
  | @sign o ts ho hts ih =>
    obtain ⟨first, s₁, more, heffect, hprevious, hmore, rfl⟩ := exists_effect_of_feed hfeed
    obtain ⟨rfl, hpending⟩ := heffect.op_waits (hready o ts rfl)
    have hrest := ih hchain.tail (ready_of_op hpending hts hchain (Or.inr ho)) hmore
    have harity := (Operator.isSign_iff.mp ho).1
    rwa [hpending, held, harity, Nat.sub_self, Nat.zero_add] at hrest
  | group _ ih =>
    obtain ⟨first, s₁, more, heffect, hprevious, hmore, rfl⟩ := exists_effect_of_feed hfeed
    obtain ⟨rfl, hpending⟩ := heffect.lparen_waits
    have hrest := ih hchain.tail (ready_of_paren hpending) hmore
    rwa [hpending, Pending.held_paren] at hrest
  | call _ _ ih =>
    obtain ⟨first, s₁, more, heffect, hprevious, hmore, rfl⟩ := exists_effect_of_feed hfeed
    obtain ⟨rfl, hpending⟩ := heffect.fn_waits
    obtain ⟨second, s₂, more, hopen, -, hmore₂, rfl⟩ := exists_effect_of_feed hmore
    obtain ⟨rfl, hpending₂⟩ := hopen.lparen_waits
    have hrest := ih hchain.tail.tail (ready_of_paren hpending₂) hmore₂
    rwa [hpending₂, Pending.held_paren, hpending] at hrest
  | @nullary f ts hf _ ih =>
    obtain ⟨first, s₁, more, heffect, hprevious, hmore, rfl⟩ := exists_effect_of_feed hfeed
    obtain ⟨rfl, hpending⟩ := heffect.fn_waits
    obtain ⟨second, s₂, more, hopen, hprevious₂, hmore₂, rfl⟩ := exists_effect_of_feed hmore
    obtain ⟨rfl, hpending₂⟩ := hopen.lparen_waits
    obtain ⟨third, s₃, more, hclose, hprevious₃, hmore₃, rfl⟩ := exists_effect_of_feed hmore₂
    -- the call finds nothing, and needs nothing
    rw [hpending₂, hpending, hprevious, hprevious₂] at hclose
    obtain ⟨rfl, hpending₃⟩ := hclose.call_nullary
    have hrest := ih hchain.tail.tail.tail (ready_behind hprevious₃ rfl) hmore₃
    rw [hpending₃] at hrest
    have hcall : Turns [.fn f] (held s.pending) (held s.pending + 1) :=
      turns_instr (by rw [Instr.arity, hf, Nat.add_zero])
    exact hcall.append hrest
  | @binary o ts ho hts ih =>
    obtain ⟨first, s₁, more, heffect, hprevious, hmore, rfl⟩ := exists_effect_of_feed hfeed
    obtain ⟨below, hpending, hturns⟩ := heffect.turns_op
    have hrest := ih hchain.tail (ready_of_op hpending hts hchain (Or.inl ho)) hmore
    have hheld : held (.operator o :: below) = held below + 1 := by
      rw [held, ho]
      omega
    rw [hpending, hheld] at hrest
    rw [List.append_assoc]
    exact hturns.append hrest
  | @suffix o ts ho _ ih =>
    obtain ⟨first, s₁, more, heffect, hprevious, hmore, rfl⟩ := exists_effect_of_feed hfeed
    obtain ⟨below, hpending, hturns⟩ := heffect.turns_op
    have hrest := ih hchain.tail (ready_behind hprevious rfl) hmore
    have harity := (Operator.isSuffix_iff.mp ho).1
    rw [hpending, held, harity, Nat.sub_self, Nat.zero_add] at hrest
    rw [List.append_assoc]
    exact hturns.append hrest
  | comma _ ih =>
    obtain ⟨first, s₁, more, heffect, hprevious, hmore, rfl⟩ := exists_effect_of_feed hfeed
    obtain ⟨n, below, hpending, hturns⟩ := heffect.turns_comma
    have hrest := ih hchain.tail (ready_of_paren hpending) hmore
    rw [List.append_assoc]
    exact hturns.append hrest
  | rparen _ ih =>
    obtain ⟨first, s₁, more, heffect, hprevious, hmore, rfl⟩ := exists_effect_of_feed hfeed
    have hturns := heffect.turns_rparen hready
    have hrest := ih hchain.tail (ready_behind hprevious rfl) hmore
    rw [List.append_assoc]
    exact hturns.append hrest

end Converter

namespace Phrase

/-- A phrase none of whose signs is directly followed by a weaker one is converted
    to a balanced program. -/
theorem balance_of_noWeaker {e : Phrase} (he : e.IsPlaced) (hchain : e.tokens.IsChain NoWeaker)
    {p : Program} (h : Program.ofTokens e.tokens = .ok p) : p.balance = [] := by
  obtain ⟨out, s, os, hfeed, hos, rfl⟩ := Program.exists_end h
  have hready : ({} : Converter).Ready .before e.tokens := fun q _ _ => Pending.blocks_nil _
  have hturns := Converter.turns_of_alternates (alternates_tokens he) hchain hready hfeed hos
  exact hturns.balance

/-- Whatever the precedences of its operators, a phrase is converted.  A sign comes
    behind the first number, variable or call without arguments that stands behind
    it if no weaker sign is among those directly behind it, and otherwise before
    all of them.  Of two adjacent signs the inner one comes first, unless it is
    weaker; and if it never is, the program is balanced. -/
theorem sign_emission {e : Phrase} (he : e.IsPlaced) :
    ∃ (p : Program) (placed : List (Instr × Nat)),
      Program.ofTokens e.tokens = .ok p ∧ p.Places e.tokens placed
        ∧ (∀ before o i after, e.tokens.zipIdx = before ++ (.op o, i) :: after → o.isSign = true →
            ((∀ q ∈ leadingSigns (after.map Prod.fst), o.precedence ≤ q.precedence) →
                ∃ x, firstLeaf after = some x ∧ [x, (.op o, i)].Sublist placed)
              ∧ ((∃ q ∈ leadingSigns (after.map Prod.fst), q.precedence < o.precedence) →
                ∀ x ∈ labelled after, x.1.arity = 0 → [(.op o, i), x].Sublist placed))
        ∧ (∀ before o i q j after,
            e.tokens.zipIdx = before ++ (.op o, i) :: (.op q, j) :: after →
              o.isSign = true → q.isSign = true →
                (o.precedence ≤ q.precedence → [(.op q, j), (.op o, i)].Sublist placed)
                  ∧ (q.precedence < o.precedence → [(.op o, i), (.op q, j)].Sublist placed))
        ∧ (e.tokens.IsChain NoWeaker → p.balance = []) := by
  obtain ⟨p, placed, hp, hplaces, hemits, halternates⟩ := exists_emits he
  refine ⟨p, placed, hp, hplaces, ?_, ?_, fun hchain => balance_of_noWeaker he hchain hp⟩
  · intro before o i after hrow ho
    rw [hrow] at hemits halternates
    have harity := (Operator.isSign_iff.mp ho).1
    have hafter : Alternates .before (after.map Prod.fst) := by
      rw [List.map_append, List.map_cons] at halternates
      have hbehind := halternates.behind_op
      rwa [Operator.side_of_isSign ho] at hbehind
    refine ⟨fun hle => ?_, fun hweaker x hx hleaf => ?_⟩
    · apply hemits.leaf_before_op halternates harity
      rw [Operator.settles_iff hafter]
      rintro ⟨q, hq, hlt⟩
      exact absurd (hle q hq) (by omega)
    · have hsettles := (Operator.settles_iff hafter).mpr hweaker
      exact hemits.leaves_behind_op harity hsettles hx hleaf
  · intro before o i q j after hrow ho hq
    rw [hrow] at hemits
    have harity := (Operator.isSign_iff.mp ho).1
    exact ⟨hemits.inner_first hq, hemits.outer_first harity hq⟩

/-- A sign that is weaker than the builtin ones. -/
def looseSign : Operator := ⟨"~", 100, .right, .unary fun x => 1 - x⟩

/-- In `~ -x` both signs come behind the operand. -/
theorem sign_emission_looseOutside :
    ∃ placed, Program.Places [.var "x", .op .negate, .op looseSign]
        [.op looseSign, .op .negate, .var "x"] placed
      ∧ [(.var "x", 2), (.op looseSign, 0)].Sublist placed
      ∧ [(.op .negate, 1), (.op looseSign, 0)].Sublist placed
      ∧ Program.balance [.var "x", .op .negate, .op looseSign] = [] := by
  have he : (Phrase.sign looseSign (.sign .negate (.var "x"))).IsPlaced :=
    ⟨rfl, rfl, rfl, rfl, trivial⟩
  obtain ⟨p, placed, hp, hplaces, hsign, hpair, hbalance⟩ := sign_emission he
  cases hp
  have hle : looseSign.precedence ≤ Operator.negate.precedence := by decide
  refine ⟨placed, hplaces, ?_, ?_, ?_⟩
  · have hleading : ∀ q ∈ leadingSigns [.op .negate, .var "x"],
        looseSign.precedence ≤ q.precedence := List.forall_mem_singleton.mpr hle
    obtain ⟨x, hx, hbefore⟩ :=
      (hsign [] looseSign 0 [(.op .negate, 1), (.var "x", 2)] rfl rfl).1 hleading
    cases hx
    exact hbefore
  · exact (hpair [] looseSign 0 .negate 1 [(.var "x", 2)] rfl rfl rfl).1 hle
  · apply hbalance
    exact .cons_cons (fun _ _ => hle) (.cons_cons trivial (.singleton _))

/-- The other way round, in `- ~x`, neither of them is: the outer sign comes first
    and finds no operand. -/
theorem sign_without_operand :
    (Phrase.sign .negate (.sign looseSign (.var "x"))).IsPlaced
      ∧ Program.ofTokens [.op .negate, .op looseSign, .var "x"]
        = .ok [.op .negate, .var "x", .op looseSign]
      ∧ Program.balance [.op .negate, .var "x", .op looseSign] = [.tooManyOperators] :=
  ⟨⟨rfl, rfl, rfl, rfl, trivial⟩, rfl, rfl⟩

end Phrase

end StackCalc
