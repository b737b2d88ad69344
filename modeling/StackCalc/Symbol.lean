/-
  StackCalc.Symbol

  Symbols of operators: non-empty words over a fixed set of characters, none of
  which can stand in a name, a number or a parenthesis.
-/

namespace StackCalc.Symbol

/-- The characters that operator symbols are written with. -/
def alphabet : List Char :=
  ['+', '-', '*', '/', '^', '%', '!', '#', '§', '$', '&', ';', ':', '~', '<', '>', '|', '=']

/-- A character of the alphabet. -/
def isChar (c : Char) : Bool := alphabet.contains c

/-- The whole text is one operator symbol. -/
def isValid (symbol : String) : Bool :=
  !symbol.toList.isEmpty && symbol.toList.all isChar

theorem isValid_iff {symbol : String} :
    isValid symbol = true ↔ symbol.toList ≠ [] ∧ ∀ c ∈ symbol.toList, isChar c = true := by
  simp [isValid]

end StackCalc.Symbol
