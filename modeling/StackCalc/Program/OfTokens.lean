/-
  StackCalc.Program.OfTokens

  From infix tokens to a postfix program, by operator precedence.  The reader
  takes one token at a time and emits what is complete by then.
-/
import StackCalc.Pending

namespace StackCalc

/-- The state of the conversion between two tokens. -/
structure Converter where
  /-- What waits, the latest first. -/
  pending : List Pending := []
  /-- The token before. -/
  previous : Option Token := none

namespace Converter

/-- A function name must be followed by an opening parenthesis. -/
def checkCall (previous : Option Token) (next : Option Token) : Except ParseFault Unit :=
  match previous, next with
  | some (.fn _), some .lparen => .ok ()
  | some (.fn f), _ => .error (.missingCallParen f.name)
  | _, _ => .ok ()

/-- The token is a function name. -/
def isFn : Option Token → Bool
  | some (.fn _) => true
  | _ => false

/-- A separator ends an argument of the innermost parenthesis. -/
def separate (s : Converter) : Except ParseFault (Program × List Pending) :=
  match s.previous with
  | none | some .lparen | some .comma => .error .missingArgument
  | _ =>
    match Pending.releaseAll s.pending with
    | (out, .paren true n :: below) => .ok (out, .paren true (n + 1) :: below)
    | _ => .error .misplacedSeparator

/-- The end of an argument list, above which the function waits. -/
def closeCall (given : Nat) (out : Program) :
    List Pending → Except ParseFault (Program × List Pending)
  | .function f :: below =>
    if f.arity == given then .ok (out ++ [.fn f], below)
    else .error (.wrongArgumentCount f.name f.arity given)
  | _ => .error .argumentsWithoutFunction

/-- A closing parenthesis ends a group or an argument list. -/
def close (s : Converter) : Except ParseFault (Program × List Pending) :=
  let finish (empty : Bool) : Except ParseFault (Program × List Pending) :=
    match Pending.releaseAll s.pending with
    | (out, .paren true n :: below) => closeCall (if empty then 0 else n + 1) out below
    | (out, .paren false _ :: below) =>
      if empty then .error .emptyParenthesis else .ok (out, below)
    | _ => .error .mismatchedParenthesis
  match s.previous with
  | some .comma => .error .missingArgument
  | some .lparen => finish true
  | _ => finish false

/-- What one token completes, and what waits after it. -/
def place (s : Converter) : Token → Except ParseFault (Program × List Pending)
  | .num value => .ok ([.num value], s.pending)
  | .var name => .ok ([.var name], s.pending)
  | .fn f => .ok ([], .function f :: s.pending)
  | .op o =>
    let (out, kept) := Pending.release (·.completedBy o) s.pending
    .ok (out, .operator o :: kept)
  | .lparen => .ok ([], .paren (isFn s.previous) 0 :: s.pending)
  | .comma => s.separate
  | .rparen => s.close

/-- Reads one token: the instructions that it completes, and the next state. -/
def step (s : Converter) (t : Token) : Except ParseFault (Program × Converter) := do
  checkCall s.previous (some t)
  let (out, pending) ← s.place t
  return (out, ⟨pending, some t⟩)

/-- Reads tokens one after the other. -/
def feed (s : Converter) : List Token → Except ParseFault (Program × Converter)
  | [] => .ok ([], s)
  | t :: ts => do
    let (out, s) ← s.step t
    let (more, s) ← s.feed ts
    return (out ++ more, s)

/-- The end of the stream completes what waits. -/
def finish (s : Converter) : Except ParseFault Program := do
  checkCall s.previous none
  Pending.drain s.pending

end Converter

/-- The postfix program of an infix token stream. -/
def Program.ofTokens (ts : List Token) : Except ParseFault Program := do
  let (out, s) ← ({} : Converter).feed ts
  let rest ← s.finish
  let program := out ++ rest
  if program.isEmpty then .error .emptyExpression else return program

end StackCalc
