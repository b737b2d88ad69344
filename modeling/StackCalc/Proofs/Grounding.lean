/-
  StackCalc.Proofs.Grounding

  What an evaluation reads of the values of variables.

  `Program.ground` puts the values of some variables into the program.  A grounded
  instruction does to every stack what the one does that it comes from
  (`Instr.run_ground`), so two runs can be followed side by side to the end of both,
  whatever it is (`Program.run_ground`).  The count of the balance and the height of the
  stack do not tell a number from a variable, so they stay as they are.
-/
import StackCalc.Proofs.Execution
import StackCalc.Proofs.History

namespace StackCalc

/-- The instruction with the value of its variable in place of it, if the variable is
    one of `names` and has a value. -/
def Instr.ground (bindings : Bindings) (names : List String) : Instr → Instr
  | .var name =>
    if name ∈ names then
      match bindings.find? name with
      | some value => .num value
      | none => .var name
    else .var name
  | i => i

/-- The program with the values of the variables in `names` in place of them. -/
def Program.ground (bindings : Bindings) (names : List String) (p : Program) : Program :=
  p.map (Instr.ground bindings names)

variable {bindings : Bindings} {names : List String}

/-! ## One instruction -/

namespace Instr

/-- A variable is replaced if it is chosen and has a value; all else stays. -/
theorem ground_cases (bindings : Bindings) (names : List String) (i : Instr) :
    (∃ name value, i = .var name ∧ name ∈ names ∧ bindings.find? name = some value
        ∧ i.ground bindings names = .num value)
      ∨ i.ground bindings names = i
        ∧ ∀ name, i = .var name → name ∈ names → bindings.find? name = none := by
  cases i with
  | num | op | fn => exact Or.inr ⟨rfl, fun _ heq => nomatch heq⟩
  | var name =>
    rw [ground]
    split
    · next hmem =>
      cases hfind : bindings.find? name with
      | some value => exact Or.inl ⟨name, value, rfl, hmem, hfind, rfl⟩
      | none => exact Or.inr ⟨rfl, fun _ heq _ => by cases heq; exact hfind⟩
    · next hmem => exact Or.inr ⟨rfl, fun _ heq h => by cases heq; exact absurd h hmem⟩

theorem run_ground (i : Instr) (s : Stack) :
    (i.ground bindings names).run bindings s = i.run bindings s := by
  rcases i.ground_cases bindings names with ⟨name, value, rfl, -, hfind, hground⟩ | ⟨hground, -⟩
  · rw [hground, run, run, hfind]
  · rw [hground]

/-- What does not tell a number from a variable does not see the difference. -/
theorem apply_ground {α : Type} {g : Instr → α} (h : ∀ name value, g (.num value) = g (.var name))
    (i : Instr) : g (i.ground bindings names) = g i := by
  rcases i.ground_cases bindings names with ⟨name, value, rfl, -, -, hground⟩ | ⟨hground, -⟩
  · rw [hground, h name value]
  · rw [hground]

theorem arity_ground (i : Instr) : (i.ground bindings names).arity = i.arity :=
  apply_ground (fun _ _ => rfl) i

theorem recount_ground (i : Instr) (count : Int) :
    (i.ground bindings names).recount count = i.recount count :=
  apply_ground (g := recount count) (fun _ _ => rfl) i

theorem shortage_ground (i : Instr) (count : Int) :
    (i.ground bindings names).shortage count = i.shortage count :=
  apply_ground (g := shortage count) (fun _ _ => rfl) i

end Instr

/-! ## A whole program -/

namespace Program

theorem ground_cons (i : Instr) (p : Program) :
    ground bindings names (i :: p) = i.ground bindings names :: ground bindings names p := rfl

/-- The variables that are left are those that were not chosen or have no value. -/
theorem mem_varNames_ground {p : Program} {name : String} :
    name ∈ (p.ground bindings names).varNames
      ↔ name ∈ p.varNames ∧ (name ∈ names → bindings.find? name = none) := by
  rw [mem_varNames_iff, mem_varNames_iff, ground, List.mem_map]
  constructor
  · rintro ⟨i, hi, hname⟩
    rcases i.ground_cases bindings names with ⟨_, _, -, -, -, hground⟩ | ⟨hground, hleft⟩
    · rw [hground] at hname
      cases hname
    · obtain rfl : i = .var name := hground.symm.trans hname
      exact ⟨hi, hleft name rfl⟩
  · rintro ⟨hi, hleft⟩
    refine ⟨.var name, hi, ?_⟩
    rcases (Instr.var name).ground_cases bindings names with
      ⟨_, value, heq, hmem, hfind, -⟩ | hstays
    · cases heq
      rw [hleft hmem] at hfind
      cases hfind
    · exact hstays.1

/-- Up to the end of both, the two runs have the same stacks. -/
theorem run_ground (p : Program) (s : Stack) :
    run bindings (p.ground bindings names) s = run bindings p s := by
  induction p generalizing s with
  | nil => rfl
  | cons i rest ih =>
    rw [ground_cons]
    simp only [run, i.run_ground, ih]

theorem evaluate_ground (p : Program) (s : Stack) :
    (p.ground bindings names).evaluate bindings s = p.evaluate bindings s := by
  rw [evaluate, evaluate, run_ground]

theorem balanceFrom_ground (p : Program) (count : Int) :
    balanceFrom count (p.ground bindings names) = balanceFrom count p := by
  induction p generalizing count with
  | nil => rfl
  | cons i rest ih =>
    rw [ground_cons]
    simp only [balanceFrom, i.recount_ground, i.shortage_ground, ih]

theorem balance_ground (p : Program) : (p.ground bindings names).balance = p.balance := by
  cases p with
  | nil => rfl
  | cons i rest => exact balanceFrom_ground (i :: rest) 0

theorem peakFrom_ground (p : Program) (depth best : Nat) :
    peakFrom depth best (p.ground bindings names) = peakFrom depth best p := by
  induction p generalizing depth best with
  | nil => rfl
  | cons i rest ih =>
    rw [ground_cons]
    simp only [peakFrom, i.arity_ground, ih]

theorem stackSize_ground (p : Program) : (p.ground bindings names).stackSize = p.stackSize :=
  peakFrom_ground p 0 1

/-! ## Variables without a value -/

theorem evaluate_ne_ok_of_unset {p : Program} {name : String} (hname : name ∈ p.varNames)
    (hunset : bindings.find? name = none) (s : Stack) (v : Float) :
    (p.evaluate bindings s).1 ≠ .ok v := by
  intro hv
  have hends := ends_evaluate bindings p s
  rw [hv] at hends
  cases hends with
  | value _ _ _ hset => exact hset name (mem_varNames_iff.mp hname) hunset

/-- A balanced program finds all values that it takes, so it is a variable or a function
    that ends its evaluation. -/
theorem exists_raises_of_unset {p : Program} (hbalance : p.balance = []) {name : String}
    (hname : name ∈ p.varNames) (hunset : bindings.find? name = none) (s : Stack) :
    ∃ err, p.Raises bindings err ∧ (p.evaluate bindings s).1 = .error err := by
  obtain ⟨hlacking, hgain⟩ := balance_eq_nil_iff.mp hbalance
  have hends := ends_evaluate bindings p s
  generalize (p.evaluate bindings s).1 = result at hends ⊢
  cases hends with
  | value _ _ _ hset => exact absurd hunset (hset name (mem_varNames_iff.mp hname))
  | surplus n _ hgain' hn => omega
  | empty _ hempty =>
    rw [hempty, gain_nil] at hgain
    cases hgain
  | @raised err hraises => exact ⟨err, hraises, rfl⟩
  | lacking hfirst =>
    rw [firstLacking_iff, hlacking] at hfirst
    cases hfirst

/-- Of the values of variables an evaluation reads those of the variables of the program,
    and nothing else: where these agree it ends in the same way, balanced or not, with the
    same answer and the same values left on the stack.  Nothing changes when any of the
    variables that have a value are replaced by it, wherever they stand; neither do the
    faults of the balance and the stack size.  Where one of the variables has no value,
    neither has the program; if it is balanced, the error is that of a variable without a
    value, or one that a function returns, to which the run has come. -/
theorem evaluate_reads_varNames (p : Program) (bindings : Bindings) (s : Stack) :
    (∀ bindings' t, (∀ name ∈ p.varNames, bindings'.find? name = bindings.find? name) →
        p.evaluate bindings' t = p.evaluate bindings s)
      ∧ (∀ names,
          (∀ name, name ∈ (p.ground bindings names).varNames
              ↔ name ∈ p.varNames ∧ (name ∈ names → bindings.find? name = none))
            ∧ (p.ground bindings names).evaluate bindings s = p.evaluate bindings s
            ∧ (p.ground bindings names).balance = p.balance
            ∧ (p.ground bindings names).stackSize = p.stackSize)
      ∧ ∀ name ∈ p.varNames, bindings.find? name = none →
          (∀ v, (p.evaluate bindings s).1 ≠ .ok v)
            ∧ (p.balance = [] →
                ∃ err, p.Raises bindings err ∧ (p.evaluate bindings s).1 = .error err) := by
  refine ⟨fun bindings' t hagree => ?_, fun names => ?_, fun name hname hunset => ?_⟩
  · exact evaluate_congr (fun name hname => hagree name (mem_varNames_iff.mpr hname)) t s
  · exact ⟨fun name => mem_varNames_ground, evaluate_ground p s, balance_ground p,
      stackSize_ground p⟩
  · exact ⟨evaluate_ne_ok_of_unset hname hunset s,
      fun hbalance => exists_raises_of_unset hbalance hname hunset s⟩

/-- A function that has no value anywhere. -/
def nowhere : Func := ⟨"nowhere", .unary fun _ => .error (.domain "nowhere")⟩

/-- The function ends the evaluation before the second variable is read. -/
def cutOff : Program := [.var "x", .fn nowhere, .var "y", .op .add]

theorem evaluate_reads_varNames_cutOff :
    (∀ name ∈ cutOff.varNames, (Table.ofList [("z", 1), ("x", 3)]).find? name
        = (Table.ofList [("x", (3 : Float))]).find? name)
      ∧ cutOff.evaluate (Table.ofList [("z", 1), ("x", 3)]) .empty
        = cutOff.evaluate (Table.ofList [("x", 3)]) ⟨#[1, 2]⟩
      ∧ (cutOff.ground (Table.ofList [("x", 3)]) ["x", "y"]).varNames = ["y"]
      ∧ (cutOff.ground (Table.ofList [("x", 3)]) ["x", "y"]).evaluate (Table.ofList [("x", 3)])
          ⟨#[1, 2]⟩
        = cutOff.evaluate (Table.ofList [("x", 3)]) ⟨#[1, 2]⟩
      ∧ "y" ∈ cutOff.varNames ∧ (Table.ofList [("x", (3 : Float))]).find? "y" = none
      ∧ cutOff.balance = []
      ∧ ∃ err, cutOff.Raises (Table.ofList [("x", 3)]) err
        ∧ (cutOff.evaluate (Table.ofList [("x", 3)]) ⟨#[1, 2]⟩).1 = .error err := by
  have hagree : ∀ name ∈ cutOff.varNames, (Table.ofList [("z", 1), ("x", 3)]).find? name
      = (Table.ofList [("x", (3 : Float))]).find? name := by
    intro name hname
    rw [mem_varNames_iff] at hname
    simp only [cutOff, List.mem_cons, Instr.var.injEq, reduceCtorEq, List.not_mem_nil, or_false,
      false_or] at hname
    rcases hname with rfl | rfl <;> rfl
  have hy : "y" ∈ cutOff.varNames := mem_varNames_iff.mpr (by simp [cutOff])
  obtain ⟨hreads, hground, hunset⟩ :=
    evaluate_reads_varNames cutOff (Table.ofList [("x", 3)]) ⟨#[1, 2]⟩
  exact ⟨hagree, hreads _ _ hagree, rfl, (hground ["x", "y"]).2.1, hy, rfl, rfl,
    (hunset "y" hy rfl).2 rfl⟩

end Program

end StackCalc
