/-
  StackCalc.Proofs.Bindings

  What the variables of an expression are bound to.

  A history of actions comes down to its accepted writes and its clearings
  (`Action.edits`): a list of values is written up to the first reserved name, and
  evaluating, validating and asking edit nothing.  A name has the value that was
  written to it last, if nothing was cleared since (`find?_foldl_apply`).
-/
import Mathlib.Data.List.TakeWhile
import StackCalc.Proofs.History

namespace StackCalc

/-! ## Edits -/

/-- What is done to the values of variables: one is written, or all are taken away. -/
inductive Edit where
  | write (name : String) (value : Float)
  | clear

namespace Edit

/-- The values behind the edit. -/
def apply (t : Bindings) : Edit → Bindings
  | write name value => t.insert name value
  | clear => ∅

/-- The edit writes to this name, or takes its value away. -/
def Touches (name : String) : Edit → Prop
  | write key _ => key = name
  | clear => True

/-- The name is left as it was. -/
def Untouched (name : String) (edits : List Edit) : Prop := ∀ e ∈ edits, ¬ e.Touches name

/-- The value was written to the name, and the name was not touched since. -/
def LastWritten (name : String) (value : Float) (edits : List Edit) : Prop :=
  ∃ before behind, edits = before ++ write name value :: behind ∧ Untouched name behind

theorem untouched_nil (name : String) : Untouched name [] :=
  fun _ he => absurd he List.not_mem_nil

theorem untouched_cons {name : String} {e : Edit} {edits : List Edit} :
    Untouched name (e :: edits) ↔ ¬ e.Touches name ∧ Untouched name edits :=
  List.forall_mem_cons

theorem not_lastWritten_nil (name : String) (value : Float) : ¬ LastWritten name value [] := by
  rintro ⟨before, behind, h, -⟩
  cases before <;> cases h

theorem lastWritten_cons {name : String} {value : Float} {e : Edit} {edits : List Edit} :
    LastWritten name value (e :: edits)
      ↔ LastWritten name value edits ∨ e = write name value ∧ Untouched name edits := by
  constructor
  · rintro ⟨before, behind, h, hbehind⟩
    cases before with
    | nil =>
      cases h
      exact Or.inr ⟨rfl, hbehind⟩
    | cons first before =>
      cases h
      exact Or.inl ⟨before, behind, rfl, hbehind⟩
  · rintro (⟨before, behind, rfl, hbehind⟩ | ⟨rfl, hedits⟩)
    · exact ⟨e :: before, behind, rfl, hbehind⟩
    · exact ⟨[], edits, rfl, hedits⟩

/-- Behind one edit a name has the value that was written, or the one that it had. -/
theorem find?_apply {t : Bindings} {e : Edit} {name : String} {value : Float} :
    (e.apply t).find? name = some value
      ↔ e = write name value ∨ ¬ e.Touches name ∧ t.find? name = some value := by
  cases e with
  | write key written =>
    have hinsert : ((write key written).apply t).find? name
        = if name == key then some written else t.find? name :=
      Table.find?_insert t key name written
    rw [hinsert]
    by_cases hkey : key = name
    · simp [hkey, Touches]
    · simp [hkey, Ne.symm hkey, Touches]
  | clear =>
    have hempty : (clear.apply t).find? name = none := rfl
    simp [hempty, Touches]

/-- Behind many edits a name has the value that was written last. -/
theorem find?_foldl_apply {t : Bindings} {edits : List Edit} {name : String} {value : Float} :
    (edits.foldl apply t).find? name = some value
      ↔ LastWritten name value edits ∨ Untouched name edits ∧ t.find? name = some value := by
  induction edits generalizing t with
  | nil => simp [not_lastWritten_nil, untouched_nil]
  | cons e edits ih =>
    -- what the first edit gives to the name stays only if no later one touches it
    rw [List.foldl_cons, ih, find?_apply, lastWritten_cons, untouched_cons, and_or_left, or_assoc,
      and_comm (b := e = _), and_left_comm, and_assoc]

theorem find?_foldl_apply_of_untouched {t : Bindings} {edits : List Edit} {name : String}
    (h : Untouched name edits) : (edits.foldl apply t).find? name = t.find? name := by
  have hwritten (value : Float) : ¬ LastWritten name value edits := by
    rintro ⟨before, behind, rfl, -⟩
    exact h (write name value) (by simp) rfl
  refine Option.ext fun value => ?_
  rw [find?_foldl_apply]
  simp [hwritten value, h]

theorem find?_foldl_congr {t u : Bindings} {name : String} (h : t.find? name = u.find? name)
    (edits : List Edit) :
    (edits.foldl apply t).find? name = (edits.foldl apply u).find? name := by
  refine Option.ext fun value => ?_
  rw [find?_foldl_apply, find?_foldl_apply, h]

theorem find?_foldl_comm {t : Bindings} {edits others : List Edit} {name : String}
    (h : Untouched name edits) :
    (others.foldl apply (edits.foldl apply t)).find? name
      = (edits.foldl apply (others.foldl apply t)).find? name := by
  rw [find?_foldl_apply_of_untouched h]
  exact find?_foldl_congr (find?_foldl_apply_of_untouched h) others

/-- Values that are entered one after the other are as many writes. -/
theorem insertMany_eq_foldl_apply (t : Bindings) (vars : List (String × Float)) :
    t.insertMany vars = (vars.map fun var => write var.1 var.2).foldl apply t := by
  rw [List.foldl_map]
  rfl

end Edit

/-! ## The edits of an action -/

/-- The values that are written of a list: those before the first reserved name. -/
def accepted (vars : List (String × Float)) : List (String × Float) :=
  vars.takeWhile fun var => !Func.isBuiltin var.1

/-- The answer to writing a list of values. -/
def verdict (vars : List (String × Float)) : Except Error Unit :=
  match vars.find? fun var => Func.isBuiltin var.1 with
  | none => .ok ()
  | some var => .error (.namingConflict var.1)

section Lists

variable {vars before : List (String × Float)} {name : String}

theorem accepted_of_free (h : ∀ var ∈ vars, Func.isBuiltin var.1 = false) : accepted vars = vars :=
  List.takeWhile_eq_self_iff.mpr fun var hvar => by simp [h var hvar]

theorem accepted_append_reserved (hbefore : ∀ var ∈ before, Func.isBuiltin var.1 = false)
    (hname : Func.isBuiltin name = true) (value : Float) (behind : List (String × Float)) :
    accepted (before ++ (name, value) :: behind) = before := by
  have hfree : ∀ var ∈ before, (!Func.isBuiltin var.1) = true :=
    fun var hvar => by simp [hbefore var hvar]
  rw [accepted, List.takeWhile_append_of_pos hfree, List.takeWhile_cons_of_neg (by simp [hname]),
    List.append_nil]

/-- A list of values is accepted, or one of its names is refused. -/
theorem verdict_cases (vars : List (String × Float)) :
    (verdict vars = .ok () ∧ ∀ var ∈ vars, Func.isBuiltin var.1 = false)
      ∨ ∃ var ∈ vars, Func.isBuiltin var.1 = true
        ∧ verdict vars = .error (.namingConflict var.1) := by
  rw [verdict]
  cases hfind : vars.find? fun var => Func.isBuiltin var.1 with
  | none => exact Or.inl ⟨rfl, by simpa using hfind⟩
  | some var =>
    have hreserved : Func.isBuiltin var.1 = true :=
      List.find?_some (p := fun var : String × Float => Func.isBuiltin var.1) hfind
    exact Or.inr ⟨var, List.mem_of_find?_eq_some hfind, hreserved, rfl⟩

theorem verdict_eq_ok_iff : verdict vars = .ok () ↔ ∀ var ∈ vars, Func.isBuiltin var.1 = false := by
  rcases verdict_cases vars with ⟨hok, hfree⟩ | ⟨var, hvar, hreserved, herror⟩
  · exact iff_of_true hok hfree
  · rw [herror]
    refine iff_of_false (fun hok => nomatch hok) fun hfree => ?_
    rw [hfree var hvar] at hreserved
    cases hreserved

theorem verdict_append_reserved (hbefore : ∀ var ∈ before, Func.isBuiltin var.1 = false)
    (hname : Func.isBuiltin name = true) (value : Float) (behind : List (String × Float)) :
    verdict (before ++ (name, value) :: behind) = .error (.namingConflict name) := by
  have hnone : before.find? (fun var => Func.isBuiltin var.1) = none := by simpa using hbefore
  simp [verdict, List.find?_append, hnone, hname]

end Lists

/-- What an action edits: the accepted values one after the other, or everything. -/
def Action.edits : Action → List Edit
  | set name value => (accepted [(name, value)]).map fun var => .write var.1 var.2
  | setMany vars => (accepted vars).map fun var => .write var.1 var.2
  | clear => [.clear]
  | has _ | varNames | program | validate _ | evaluate => []

theorem Action.untouched_edits_setMany {vars : List (String × Float)} {name : String}
    (h : ∀ var ∈ vars, var.1 ≠ name) : Edit.Untouched name (setMany vars).edits := by
  intro e he
  obtain ⟨var, hvar, rfl⟩ := List.mem_map.mp he
  exact h var (List.takeWhile_subset _ hvar)

namespace Expression

theorem setVariable_of_reserved {name : String} (h : Func.isBuiltin name = true) (x : Expression)
    (value : Float) : x.setVariable name value = .error (.namingConflict name) := by
  rw [setVariable, if_pos h]

theorem setVariable_of_free {name : String} (h : Func.isBuiltin name = false) (x : Expression)
    (value : Float) :
    x.setVariable name value = .ok { x with bindings := x.bindings.insert name value } := by
  rw [setVariable, if_neg (by simp [h])]

/-- A list of values is written up to the first reserved name, which is refused. -/
theorem setVariables_eq (x : Expression) (vars : List (String × Float)) :
    x.setVariables vars
      = (verdict vars, { x with bindings := x.bindings.insertMany (accepted vars) }) := by
  induction vars generalizing x with
  | nil => rfl
  | cons var rest ih =>
    obtain ⟨name, value⟩ := var
    rw [setVariables]
    cases hname : Func.isBuiltin name with
    | true =>
      rw [x.setVariable_of_reserved hname]
      simp [verdict, accepted, hname, Table.insertMany]
    | false =>
      rw [x.setVariable_of_free hname]
      show setVariables _ rest = _
      rw [ih]
      simp [verdict, accepted, hname, Table.insertMany]

theorem run_set (x : Expression) (name : String) (value : Float) :
    ((Action.set name value).run x).2
      = { x with bindings := x.bindings.insertMany (accepted [(name, value)]) } := by
  rw [Action.run]
  cases hname : Func.isBuiltin name with
  | true =>
    rw [x.setVariable_of_reserved hname]
    simp [accepted, hname, Table.insertMany]
  | false =>
    rw [x.setVariable_of_free hname]
    simp [accepted, hname, Table.insertMany]

/-- An action changes the values by its edits. -/
theorem bindings_run (x : Expression) (action : Action) :
    (action.run x).2.bindings = action.edits.foldl Edit.apply x.bindings := by
  cases action with
  | set name value => rw [run_set, Action.edits, Edit.insertMany_eq_foldl_apply]
  | setMany vars =>
    rw [Action.run_setMany_snd, setVariables_eq, Action.edits, Edit.insertMany_eq_foldl_apply]
  | clear | has | varNames | program | validate => rfl
  | evaluate =>
    rw [Action.run_evaluate_snd]
    rfl

theorem bindings_after (x : Expression) (actions : List Action) :
    (x.after actions).bindings = (actions.flatMap Action.edits).foldl Edit.apply x.bindings := by
  induction actions generalizing x with
  | nil => rfl
  | cons action rest ih =>
    rw [List.flatMap_cons, List.foldl_append, ← bindings_run]
    exact ih (action.run x).2

/-- Of free names, a list of values is the same as the values one by one. -/
theorem after_sets {vars : List (String × Float)}
    (h : ∀ var ∈ vars, Func.isBuiltin var.1 = false) (x : Expression) :
    x.after (vars.map fun var => .set var.1 var.2)
      = { x with bindings := x.bindings.insertMany vars } := by
  induction vars generalizing x with
  | nil => rfl
  | cons var rest ih =>
    obtain ⟨hvar, hrest⟩ := List.forall_mem_cons.mp h
    have hrun : ((Action.set var.1 var.2).run x).2
        = { x with bindings := x.bindings.insert var.1 var.2 } := by
      rw [Action.run, x.setVariable_of_free hvar]
    have hafter := ih hrest ((Action.set var.1 var.2).run x).2
    rw [hrun] at hafter
    rw [List.map_cons, after, List.foldl_cons, hrun]
    exact hafter

/-- Two actions that do not touch the same name can be done in either order. -/
theorem agrees_of_untouched (x : Expression) {action other : Action}
    (h : ∀ name, Edit.Untouched name action.edits ∨ Edit.Untouched name other.edits)
    (actions : List Action) :
    (x.after (action :: other :: actions)).Agrees (x.after (other :: action :: actions)) := by
  have hprogram (y : Expression) (a : Action) : (a.run y).2.program = y.program :=
    (y.becomes_run a).program
  refine Agrees.after ⟨?_, fun name => ?_⟩ actions
  · rw [hprogram, hprogram, hprogram, hprogram]
  · simp only [bindings_run]
    rcases h name with hfirst | hsecond
    · exact Edit.find?_foldl_comm hfirst
    · exact (Edit.find?_foldl_comm hsecond).symm

theorem agrees_of_swap (x : Expression) {vars others : List (String × Float)}
    (hne : ∀ var ∈ vars, ∀ other ∈ others, var.1 ≠ other.1) (actions : List Action) :
    (x.after (.setMany vars :: .setMany others :: actions)).Agrees
      (x.after (.setMany others :: .setMany vars :: actions)) := by
  refine x.agrees_of_untouched (fun name => ?_) actions
  by_cases hname : ∃ var ∈ vars, var.1 = name
  · obtain ⟨var, hvar, rfl⟩ := hname
    exact Or.inr <| Action.untouched_edits_setMany fun other hother =>
      (hne var hvar other hother).symm
  · exact Or.inl (Action.untouched_edits_setMany fun var hvar h => hname ⟨var, hvar, h⟩)

/-- Of an expression that is changed and evaluated in any way, a name has the value
    that was written to it last, if it was not cleared since, or the one that it had
    before; no other name has one.  A reserved name is refused, and nothing changes.
    Of a list of values those before the first reserved name are written, and none
    behind it; the list is accepted just where it has no reserved name.  Writes to
    different names can be made in either order. -/
theorem last_write_wins (x : Expression) :
    (∀ actions name value, (x.after actions).bindings.find? name = some value
        ↔ Edit.LastWritten name value (actions.flatMap Action.edits)
          ∨ Edit.Untouched name (actions.flatMap Action.edits)
            ∧ x.bindings.find? name = some value)
      ∧ (∀ actions name, name ∈ (x.after actions).bindings.names
          ↔ ∃ value, (x.after actions).bindings.find? name = some value)
      ∧ (∀ name value, Func.isBuiltin name = true →
          (Action.set name value).run x = (.refused (.namingConflict name), x))
      ∧ (∀ vars, (x.setVariables vars).1 = .ok () ↔ ∀ var ∈ vars, Func.isBuiltin var.1 = false)
      ∧ (∀ before name value behind, (∀ var ∈ before, Func.isBuiltin var.1 = false) →
          Func.isBuiltin name = true →
          x.setVariables (before ++ (name, value) :: behind)
            = (.error (.namingConflict name), x.after (before.map fun var => .set var.1 var.2)))
      ∧ (∀ name other value otherValue actions, name ≠ other →
          (x.after (.set name value :: .set other otherValue :: actions)).Agrees
            (x.after (.set other otherValue :: .set name value :: actions)))
      ∧ ∀ vars others actions, (∀ var ∈ vars, ∀ other ∈ others, var.1 ≠ other.1) →
          (x.after (.setMany vars :: .setMany others :: actions)).Agrees
            (x.after (.setMany others :: .setMany vars :: actions)) := by
  refine ⟨fun actions name value => ?_, fun actions name => Table.mem_names_iff,
    fun name value h => ?_, fun vars => ?_, fun before name value behind hbefore hname => ?_,
    fun name other value otherValue actions hne => ?_, fun vars others actions hne => ?_⟩
  · rw [bindings_after]
    exact Edit.find?_foldl_apply
  · rw [Action.run, x.setVariable_of_reserved h]
  · rw [setVariables_eq]
    exact verdict_eq_ok_iff
  · rw [setVariables_eq, accepted_append_reserved hbefore hname value behind,
      verdict_append_reserved hbefore hname value behind, after_sets hbefore]
  · -- one value is written as a list of one is
    refine x.agrees_of_untouched (fun key => ?_) actions
    by_cases hkey : name = key
    · exact Or.inr (Action.untouched_edits_setMany (by simpa [← hkey] using hne.symm))
    · exact Or.inl (Action.untouched_edits_setMany (by simpa using hkey))
  · exact x.agrees_of_swap hne actions

/-- The second list is written up to the reserved name. -/
theorem last_write_wins_conflict :
    ((ofProgram [.var "x"]).after [.set "x" 1, .setMany [("x", 2), ("sin", 3), ("x", 4)],
        .evaluate]).bindings.find? "x" = some 2 := by
  have hedits : [Action.set "x" 1, .setMany [("x", 2), ("sin", 3), ("x", 4)], .evaluate].flatMap
      Action.edits = [.write "x" 1, .write "x" 2] := by rfl
  refine ((last_write_wins (ofProgram [.var "x"])).1 _ _ _).mpr (Or.inl ?_)
  rw [hedits]
  exact ⟨[.write "x" 1], [], rfl, Edit.untouched_nil "x"⟩

end Expression

end StackCalc
