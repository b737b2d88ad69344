/-
  StackCalc.Identifier

  Names of variables and functions.  A name starts with an ASCII letter or an
  underscore and goes on with ASCII letters, digits, underscores and dots.
-/

namespace StackCalc.Identifier

/-- A character that can open a name. -/
def isStart (c : Char) : Bool := c == '_' || c.isAlpha

/-- A character that can stand inside a name. -/
def isPart (c : Char) : Bool := c == '.' || c == '_' || c.isAlphanum

/-- The whole text is one name. -/
def isValid (name : String) : Bool :=
  match name.toList with
  | [] => false
  | c :: cs => isStart c && cs.all isPart

theorem isValid_iff {name : String} :
    isValid name = true ↔ ∃ c cs, name.toList = c :: cs ∧ isStart c = true
      ∧ ∀ d ∈ cs, isPart d = true := by
  rw [isValid]
  split
  · next h => simp [h]
  · next c cs h =>
    rw [h, Bool.and_eq_true, List.all_eq_true]
    constructor
    · intro hname
      exact ⟨c, cs, rfl, hname⟩
    · rintro ⟨_, _, ⟨⟩, hname⟩
      exact hname

/-- What can open a name can also stand inside it. -/
theorem isPart_of_isStart {c : Char} (h : isStart c = true) : isPart c = true := by
  simp only [isStart, isPart, Char.isAlphanum, Bool.or_eq_true] at h ⊢
  rcases h with h | h
  · exact .inl (.inr h)
  · exact .inr (.inl h)

end StackCalc.Identifier
