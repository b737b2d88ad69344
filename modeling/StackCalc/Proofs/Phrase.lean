/-
  StackCalc.Proofs.Phrase

  Expressions as they are written, with every parenthesis in place: the tokens
  they are written with, the program that computes them, operands first, and the
  grouping that precedence and associativity ask for.

  One token list may be written down by several phrases, which differ in what
  belongs to what: `a - b - c` is a difference of `a - b` and `c`, and also of
  `a` and `b - c`.  `Phrase.WellGrouped` says which of them is meant.
-/
import StackCalc.Program.OfTokens

namespace StackCalc

/-- An expression as it is written. -/
inductive Phrase where
  | num (value : Float)
  | var (name : String)
  /-- A phrase between parentheses. -/
  | group (inner : Phrase)
  /-- A function with exactly as many arguments as it takes. -/
  | call (f : Func) (args : Fin f.arity → Phrase)
  | binary (o : Operator) (left right : Phrase)
  /-- A unary operator before its operand. -/
  | sign (o : Operator) (operand : Phrase)
  /-- A unary operator after its operand. -/
  | suffix (operand : Phrase) (o : Operator)

namespace Phrase

/-- How the phrase is written. -/
def tokens : Phrase → List Token
  | num value => [.num value]
  | var name => [.var name]
  | group e => .lparen :: e.tokens ++ [.rparen]
  | call f args =>
    .fn f :: .lparen :: [Token.comma].intercalate (List.ofFn fun i => (args i).tokens) ++ [.rparen]
  | binary o l r => l.tokens ++ .op o :: r.tokens
  | sign o e => .op o :: e.tokens
  | suffix e o => e.tokens ++ [.op o]

/-- The program that computes the phrase: the operands from left to right, and
    then what is done with them. -/
def program : Phrase → Program
  | num value => [.num value]
  | var name => [.var name]
  | group e => e.program
  | call f args => (List.ofFn fun i => (args i).program).flatten ++ [.fn f]
  | binary o l r => l.program ++ r.program ++ [.op o]
  | sign o e => e.program ++ [.op o]
  | suffix e o => e.program ++ [.op o]

theorem program_ne_nil (e : Phrase) : e.program ≠ [] := by
  induction e <;> simp_all [program]

/-! ## Which phrases are meant -/

/-- The phrase holds together without regard to precedence: it is a number, a
    variable, a group, a call, or one of these with suffixes. -/
def IsTight : Phrase → Prop
  | binary .. | sign .. => False
  | _ => True

/-- The operators that still want what comes next when the phrase ends, the
    outermost first. -/
def rightSpine : Phrase → List Operator
  | binary o _ r => o :: r.rightSpine
  | sign o e => o :: e.rightSpine
  | suffix _ o => [o]
  | _ => []

/-- The operators between two operands that want what comes before the phrase,
    the outermost first.  None reaches across a unary operator. -/
def leftSpine : Phrase → List Operator
  | binary o l _ => o :: l.leftSpine
  | _ => []

end Phrase

/-- With `p` before `q` and one operand between them, the operand belongs to
    `p`: its precedence is greater, or the two are equal and `q` groups to the
    left. -/
def Operator.Pops (p q : Operator) : Prop :=
  q.precedence < p.precedence ∨ p.precedence = q.precedence ∧ q.associativity = .left

namespace Phrase

/-- What belongs together by precedence and associativity is together: an
    operator takes from its left only what is complete before it, and leaves to
    its right only what is not complete before the next operator. -/
def WellGrouped : Phrase → Prop
  | num _ | var _ => True
  | group e => e.WellGrouped
  | call _ args => ∀ i, (args i).WellGrouped
  | binary o l r =>
    (∀ p ∈ l.rightSpine, p.Pops o) ∧ (∀ q ∈ r.leftSpine, ¬ o.Pops q)
      ∧ l.WellGrouped ∧ r.WellGrouped
  | sign o e => (∀ q ∈ e.leftSpine, ¬ o.Pops q) ∧ e.WellGrouped
  | suffix e _ => e.WellGrouped

/-- The precedences of the unary operators of a phrase. -/
structure Levels where
  /-- The precedence of all signs. -/
  sign : Int
  /-- The precedence of all suffixes. -/
  suffix : Int
  sign_lt_suffix : sign < suffix

/-- Each operator stands where its arity and associativity allow it.  The signs
    have one precedence in common, and the suffixes another one, which is greater
    than that of every other operator. -/
def Fits (levels : Levels) : Phrase → Prop
  | num _ | var _ => True
  | group e => e.Fits levels
  | call _ args => ∀ i, (args i).Fits levels
  | binary o l r =>
    o.arity = 2 ∧ o.precedence < levels.suffix ∧ l.Fits levels ∧ r.Fits levels
  | sign o e =>
    o.arity = 1 ∧ o.associativity = .right ∧ o.precedence = levels.sign ∧ e.Fits levels
  | suffix e o =>
    o.arity = 1 ∧ o.associativity = .left ∧ o.precedence = levels.suffix
      ∧ e.IsTight ∧ e.Fits levels

theorem leftSpine_eq_nil_of_isTight {e : Phrase} (h : e.IsTight) : e.leftSpine = [] := by
  cases e with
  | binary | sign => exact h.elim
  | num | var | group | call | suffix => rfl

/-- Among the suffixes of a fitting phrase only the last still waits, at the
    level of the suffixes. -/
theorem rightSpine_of_isTight {levels : Levels} {e : Phrase} (h : e.IsTight) (hf : e.Fits levels) :
    ∀ p ∈ e.rightSpine, p.arity = 1 ∧ p.precedence = levels.suffix := by
  cases e with
  | binary | sign => exact h.elim
  | suffix e o =>
    obtain ⟨harity, -, hprec, -⟩ := hf
    simp [rightSpine, harity, hprec]
  | num | var | group | call => simp [rightSpine]

end Phrase

namespace Operator

theorem isLeft_iff {o : Operator} : o.isLeft = true ↔ o.associativity = .left := by
  simp [isLeft]

theorem bindsBefore_iff {p q : Operator} : p.bindsBefore q = true ↔ p.Pops q := by
  simp [bindsBefore, Pops, isLeft_iff]

/-- An operator between two operands completes what pops before it. -/
theorem completedBy_of_pops {p q : Operator} (hq : q.arity = 2) (h : p.Pops q) :
    p.completedBy q = true := by
  simp [completedBy, hq, bindsBefore_iff.mpr h]

theorem not_completedBy_of_not_pops {p q : Operator} (h : ¬ p.Pops q) :
    p.completedBy q = false := by
  simp [completedBy, Bool.eq_false_iff.mpr (mt bindsBefore_iff.mp h)]

/-- A unary operator completes nothing that stands between two operands. -/
theorem not_completedBy_of_unary {p q : Operator} (hp : p.arity = 2) (hq : q.arity = 1) :
    p.completedBy q = false := by
  simp [completedBy, hp, hq]

end Operator

end StackCalc
