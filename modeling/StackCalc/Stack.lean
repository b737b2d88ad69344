/-
  StackCalc.Stack

  The stack of values that a program works on.
-/
import StackCalc.Binary

namespace StackCalc

/-- Values, the last pushed at the end. -/
structure Stack where
  values : Array Float := #[]
  deriving Inhabited

namespace Stack

/-- The stack without values. -/
def empty : Stack := {}

/-- How many values there are. -/
def size (s : Stack) : Nat := s.values.size

/-- Puts a value on top. -/
def push (s : Stack) (v : Float) : Stack := ⟨s.values.push v⟩

/-- Takes the top value off.  An empty stack gives no number and stays empty;
    programs ask for the size first. -/
def pop (s : Stack) : Float × Stack :=
  (s.values.back?.getD notANumber, ⟨s.values.pop⟩)

/-- The same storage without values. -/
def clear (s : Stack) : Stack := ⟨s.values.take 0⟩

@[simp] theorem size_empty : empty.size = 0 := rfl

@[simp] theorem size_push (s : Stack) (v : Float) : (s.push v).size = s.size + 1 := by
  simp [size, push]

@[simp] theorem pop_push (s : Stack) (v : Float) : (s.push v).pop = (v, s) := by
  simp [pop, push]

@[simp] theorem size_pop (s : Stack) : s.pop.2.size = s.size - 1 := by
  simp [size, pop]

@[simp] theorem clear_eq_empty (s : Stack) : s.clear = empty := by
  simp [clear, empty]

end Stack

end StackCalc
