/-
  StackCalc.Proofs.Parenthesised

  Trees written with all parentheses.

  Where each operand stands between parentheses of its own, precedence and
  associativity have nothing to decide: at the start of a group or an argument
  only a parenthesis is on top of what waits, and no operator completes it.  So
  the reader finds the tree that was written, whatever its operators, and every
  balanced program can be written down.
-/
import StackCalc.Proofs.Conversion
import StackCalc.Proofs.Postorder

namespace StackCalc

/-- Tokens between parentheses. -/
def Token.enclose (ts : List Token) : List Token := .lparen :: ts ++ [.rparen]

namespace Converter

open Pending (Blocks)

/-- The tokens are read as a whole wherever no operator is on top of what waits. -/
def ReadsClear (ts : List Token) (p : Program) : Prop :=
  ∀ s : Converter, isFn s.previous = false → (∀ q, Blocks q s.pending) →
    ∃ waiting, Reads s ts waiting p

/-- At the start of a group or an argument only a parenthesis is on top. -/
theorem ReadsClear.inside {ts : List Token} {p : Program} (h : ReadsClear ts p) :
    ReadsInside ts p := by
  intro previous call n below hprev
  exact h ⟨.paren call n :: below, previous⟩ hprev fun q => Pending.blocks_paren q call n below

/-- Between parentheses they are read as a whole anywhere, and nothing of them
    waits. -/
theorem ReadsClear.enclose {ts : List Token} {p : Program} (h : ReadsClear ts p) {s : Converter}
    (hprev : isFn s.previous = false) : Reads s (Token.enclose ts) [] p :=
  reads_group hprev h.inside

end Converter

namespace Tree

open Token (enclose)

/-- How a tree is written with all parentheses: the operands of operators are
    enclosed, a unary operator stands where its associativity asks for it, and
    arguments are separated by commas. -/
def tokens : Tree → List Token
  | num value => [.num value]
  | var name => [.var name]
  | unary o _ _ e =>
    match o.associativity with
    | .left => enclose e.tokens ++ [.op o]
    | .right => .op o :: enclose e.tokens
  | binary o _ _ l r => enclose l.tokens ++ .op o :: enclose r.tokens
  | call0 g _ _ => .fn g :: enclose []
  | call1 g _ _ e => .fn g :: enclose e.tokens
  | call2 g _ _ l r => .fn g :: enclose (l.tokens ++ .comma :: r.tokens)

open Converter

theorem tokens_unary_left {o : Operator} {f : Float → Float} (ho : o.operation = .unary f)
    (e : Tree) (h : o.associativity = .left) :
    (unary o f ho e).tokens = enclose e.tokens ++ [.op o] := by
  simp only [tokens, h]

theorem tokens_unary_right {o : Operator} {f : Float → Float} (ho : o.operation = .unary f)
    (e : Tree) (h : o.associativity = .right) :
    (unary o f ho e).tokens = .op o :: enclose e.tokens := by
  simp only [tokens, h]

theorem readsClear (t : Tree) : ReadsClear t.tokens t.postorder := by
  induction t with
  | num value => exact fun s hprev _ => ⟨[], reads_num value hprev⟩
  | var name => exact fun s hprev _ => ⟨[], reads_var name hprev⟩
  | unary o f ho e ih =>
    intro s hprev hclear
    cases hassoc : o.associativity with
    | left =>
      have hread := reads_suffix (ih.enclose hprev) (fun _ h => absurd h List.not_mem_nil)
        (hclear (·.completedBy o))
      rw [tokens_unary_left ho e hassoc]
      exact ⟨[o], hread⟩
    | right =>
      -- the operator is on top before its operand, and a parenthesis on top of it
      have hoperand := ih.enclose (s := ⟨.operator o :: s.pending, some (.op o)⟩) rfl
      rw [tokens_unary_right ho e hassoc]
      exact ⟨[o], reads_sign hprev (hclear _) hoperand⟩
  | binary o f ho l r ihl ihr =>
    intro s hprev hclear
    have hright := ihr.enclose (s := ⟨.operator o :: s.pending, some (.op o)⟩) rfl
    have hread := reads_binary (ihl.enclose hprev) (fun _ h => absurd h List.not_mem_nil)
      (hclear (·.completedBy o)) hright
    exact ⟨[o], hread⟩
  | call0 g f hg =>
    intro s hprev hclear
    have harity : g.arity = 0 := Func.arity_of_nullary hg
    exact ⟨[], reads_call [] hprev harity fun _ h => absurd h List.not_mem_nil⟩
  | call1 g f hg e ih =>
    intro s hprev hclear
    have harity : g.arity = 1 := Func.arity_of_unary hg
    have hread := reads_call [(e.tokens, e.postorder)] hprev harity (by simpa using ih.inside)
    refine ⟨[], ?_⟩
    simpa [tokens, postorder, enclose] using hread
  | call2 g f hg l r ihl ihr =>
    intro s hprev hclear
    have harity : g.arity = 2 := Func.arity_of_binary hg
    have hread := reads_call [(l.tokens, l.postorder), (r.tokens, r.postorder)] hprev harity
      (by simpa using ⟨ihl.inside, ihr.inside⟩)
    refine ⟨[], ?_⟩
    simpa [tokens, postorder, enclose] using hread

/-- A tree with all its parentheses is converted into its program. -/
theorem ofTokens_tokens (t : Tree) : Program.ofTokens t.tokens = .ok t.postorder := by
  obtain ⟨waiting, hread⟩ := t.readsClear {} rfl Pending.blocks_nil
  exact ofTokens_of_reads hread t.postorder_ne_nil

end Tree

namespace Expression

/-- Every balanced program can be written down: it is the program of a tree, and
    the tree with all its parentheses compiles to the program, whatever the
    precedences and associativities of the operators in it. -/
theorem compile_parenthesised {p : Program} (h : p.balance = []) :
    (∃ t : Tree, t.postorder = p)
      ∧ ∀ t : Tree, t.postorder = p → compile t.tokens = .ok (.ofProgram p) := by
  refine ⟨Program.exists_postorder h, ?_⟩
  rintro t rfl
  exact compile_eq_ok_iff.mpr ⟨_, t.ofTokens_tokens, h, rfl⟩

/-- A suffix that is weaker than all that stands around it. -/
def looseSquare : Operator := ⟨"!", -3, .left, .unary fun x => x * x⟩

/-- An operator that groups to the right, at the level of sums. -/
def difference : Operator := ⟨"~", Precedence.addition, .right, .binary fun x y => x - y⟩

def one : Func := ⟨"one", .nullary (.ok 1)⟩

def larger : Func := ⟨"larger", .binary fun x y => .ok (if x < y then y else x)⟩

/-- The difference between a square and a call. -/
def spread : Tree :=
  .binary difference _ rfl (.unary looseSquare _ rfl (.var "x"))
    (.call2 larger _ rfl (.unary .negate _ rfl (.var "y")) (.call0 one _ rfl))

theorem compile_parenthesised_spread :
    spread.postorder.balance = []
      ∧ compile [.lparen, .lparen, .var "x", .rparen, .op looseSquare, .rparen, .op difference,
          .lparen, .fn larger, .lparen, .op .negate, .lparen, .var "y", .rparen, .comma, .fn one,
          .lparen, .rparen, .rparen, .rparen]
        = .ok (.ofProgram [.var "x", .op looseSquare, .var "y", .op .negate, .fn one, .fn larger,
          .op difference]) := by
  have hbalance := spread.balance_postorder
  exact ⟨hbalance, (compile_parenthesised hbalance).2 spread rfl⟩

end Expression

end StackCalc
