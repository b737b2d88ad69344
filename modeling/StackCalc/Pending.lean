/-
  StackCalc.Pending

  What an infix reader has seen and cannot yet emit: operators that wait for
  their right operand, functions that wait for their arguments, and open
  parentheses.
-/
import StackCalc.Program

namespace StackCalc

/-- An entry of the waiting stack. -/
inductive Pending where
  | operator (o : Operator)
  | function (f : Func)
  /-- An open parenthesis: whether it opens an argument list, and how many
      separators there are in it so far. -/
  | paren (call : Bool) (separators : Nat)

namespace Pending

/-- Takes operators off the top as long as they satisfy a condition, and gives
    their instructions and what stays. -/
def release (p : Operator → Bool) : List Pending → Program × List Pending
  | operator o :: below =>
    if p o then
      let (out, kept) := release p below
      (.op o :: out, kept)
    else ([], operator o :: below)
  | kept => ([], kept)

/-- Takes all operators off the top. -/
def releaseAll : List Pending → Program × List Pending :=
  release fun _ => true

/-- The instructions of everything that waits when the stream ends. -/
def drain : List Pending → Except ParseFault Program
  | [] => .ok []
  | operator o :: below => (drain below).map (.op o :: ·)
  | function f :: below => (drain below).map (.fn f :: ·)
  | paren _ _ :: _ => .error .mismatchedParenthesis

end Pending

end StackCalc
