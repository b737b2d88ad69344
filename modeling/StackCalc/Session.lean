/-
  StackCalc.Session

  Sessions: expressions in numbered slots, and commands that create, change and
  ask them.  A command that fails changes nothing, except that a list of values
  is set up to the name that is refused.
-/
import StackCalc.Formula
import StackCalc.Report

namespace StackCalc

/-- The expressions of a session by slot number, in order of creation. -/
structure Session where
  slots : Array Expression := #[]

/-- Where a new expression comes from. -/
inductive Origin where
  /-- A text over the builtin vocabulary. -/
  | parse (text : String)
  /-- A text with a vocabulary that is checked. -/
  | build (f : Formula)
  /-- A text that must give a balanced program. -/
  | compileText (f : Formula)
  /-- Infix tokens that must give a balanced program. -/
  | compileTokens (ts : List Token)
  /-- A program as it is. -/
  | program (p : Program)

/-- What is done to one expression. -/
inductive Action where
  | set (name : String) (value : Float)
  | setMany (vars : List (String × Float))
  | clear
  | has (name : String)
  | varNames
  | program
  | validate (checkVariables : Bool)
  | evaluate

/-- A step of a session. -/
inductive Command where
  /-- Fills the next slot. -/
  | create (origin : Origin)
  /-- Copies a slot into the next one. -/
  | duplicate (slot : Nat)
  /-- Acts on a slot. -/
  | act (slot : Nat) (action : Action)

/-- What a step answers. -/
inductive Answer where
  /-- The slot that was filled, and the expression in it. -/
  | created (slot : Nat) (e : Expression)
  /-- The bound names after a change. -/
  | names (names : List String)
  /-- Whether a name is bound. -/
  | has (b : Bool)
  /-- The names that the program reads. -/
  | varNames (names : List String)
  | program (p : Program)
  | verdict (warnings : List Warning)
  /-- A value, and how it is to be shown. -/
  | value (v : Float) (precision : Precision)
  | refused (e : Error)
  /-- Setting several values was refused; the names that are bound now. -/
  | refusedAfter (e : Error) (names : List String)
  /-- There is no such slot. -/
  | noSlot (slot : Nat)

/-- The expression that comes from an origin. -/
def Origin.expression : Origin → Except Error Expression
  | parse text => Expression.parse text
  | build f => f.build
  | compileText f => f.compile
  | compileTokens ts => Expression.compile ts
  | program p => .ok (.ofProgram p)

/-- The bound names of an expression in order. -/
def Expression.boundNames (e : Expression) : List String := sortNames e.bindings.names

/-- The answer of an expression to an action, and the expression after it. -/
def Action.run (e : Expression) : Action → Answer × Expression
  | set name value =>
    match e.setVariable name value with
    | .ok e => (.names e.boundNames, e)
    | .error err => (.refused err, e)
  | setMany vars =>
    match e.setVariables vars with
    | (.ok (), e) => (.names e.boundNames, e)
    | (.error err, e) => (.refusedAfter err e.boundNames, e)
  | clear => (.names e.clearVariables.boundNames, e.clearVariables)
  | has name => (.has (e.hasVariable name), e)
  | varNames => (.varNames (sortNames e.program.varNames), e)
  | program => (.program e.program, e)
  | validate check => (.verdict (e.validate check), e)
  | evaluate =>
    match e.evaluate with
    | (.ok v, e) => (.value v (.ofProgram e.program), e)
    | (.error err, e) => (.refused err, e)

namespace Session

/-- The session without expressions. -/
def empty : Session := {}

/-- Puts an expression into the next slot. -/
def add (s : Session) (e : Expression) : Answer × Session :=
  (.created s.slots.size e, ⟨s.slots.push e⟩)

/-- One step: the answer, and the session after it. -/
def step (s : Session) : Command → Answer × Session
  | .create origin =>
    match origin.expression with
    | .ok e => s.add e
    | .error err => (.refused err, s)
  | .duplicate slot =>
    match s.slots[slot]? with
    | some e => s.add e.duplicate
    | none => (.noSlot slot, s)
  | .act slot action =>
    match s.slots[slot]? with
    | some e =>
      let (answer, e) := action.run e
      (answer, ⟨s.slots.setIfInBounds slot e⟩)
    | none => (.noSlot slot, s)

/-- The answers to a list of commands, and the session after them. -/
def run (s : Session) : List Command → List Answer × Session
  | [] => ([], s)
  | c :: cs =>
    let (answer, s) := s.step c
    let (answers, s) := s.run cs
    (answer :: answers, s)

end Session

end StackCalc
