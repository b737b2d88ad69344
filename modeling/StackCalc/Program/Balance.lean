/-
  StackCalc.Program.Balance

  Static checks of a postfix program: whether it leaves exactly one value, and
  how many values it holds at most on the way.

  The balance is taken with a signed count, in which only what changes the
  number of values is looked at: an operator between two operands, and a
  function with no argument or several.  A unary operator or function that finds
  no value shows in the count as well, since it can only be the first
  instruction or come after the check has ended.
-/
import StackCalc.Program

namespace StackCalc

namespace Instr

/-- The signed count of values after an instruction. -/
def recount (count : Int) : Instr → Int
  | num _ | var _ => count + 1
  | fn f =>
    if 1 < f.arity then count - (f.arity - 1)
    else if f.arity == 0 then count + 1
    else count
  | op o => if o.arity == 2 then count - 1 else count

/-- What there is to say about an instruction apart from the count: a function
    that finds too few values is named. -/
def shortage (count : Int) : Instr → List BalanceFault
  | fn f => if count < f.arity then [.notEnoughArguments f.name] else []
  | _ => []

end Instr

namespace Program

/-- The faults of the rest of a program that starts with `count` values.  The
    first instruction that leaves no value ends the check. -/
def balanceFrom (count : Int) : Program → List BalanceFault
  | [] => if 1 < count then [.tooManyOperands] else []
  | i :: rest =>
    let next := i.recount count
    i.shortage count ++ if next < 1 then [.tooManyOperators] else balanceFrom next rest

/-- The faults of a program; none when it leaves exactly one value. -/
def balance : Program → List BalanceFault
  | [] => [.emptyProgram]
  | p => balanceFrom 0 p

/-- The program leaves exactly one value. -/
def isBalanced (p : Program) : Bool := p.balance.isEmpty

/-- The greatest number of values on the stack during the rest of a program that
    starts with `depth` of them, or `best` if that is more.  An instruction that
    finds too few values takes those there are. -/
def peakFrom (depth best : Nat) : Program → Nat
  | [] => best
  | i :: rest =>
    let next := depth - i.arity + 1
    peakFrom next (max best next) rest

/-- How many values the stack has to hold; at least one, for the answer. -/
def stackSize (p : Program) : Nat := peakFrom 0 1 p

/-- The analysis of a program: how many values the stack has to hold, with the
    program as it is, or the faults of its balance. -/
def analyze (p : Program) : Except (List BalanceFault) (Nat × Program) :=
  match p.balance with
  | [] => .ok (p.stackSize, p)
  | faults => .error faults

theorem analyze_eq_ok_iff {p q : Program} {n : Nat} :
    p.analyze = .ok (n, q) ↔ p.balance = [] ∧ n = p.stackSize ∧ q = p := by
  rw [analyze]
  cases p.balance with
  | nil => simp [eq_comm]
  | cons fault faults => simp

end Program

end StackCalc
