/-
  StackCalc.Proofs.Tree

  Expression trees, the programs that compute them, and their values.

  The value of a tree is defined without a stack, by recursion from left to
  right.  Its program, the tree in postorder, has the same answer on every stack
  and in front of every further program, also where some part has no value: the
  first error ends the run.
-/
import StackCalc.Operator.Builtin
import StackCalc.Proofs.Execution

namespace StackCalc

/-- An expression tree: every operator and function has as many subtrees as it
    takes operands. -/
inductive Tree where
  | num (value : Float)
  | var (name : String)
  | unary (o : Operator) (f : Float → Float) (ho : o.operation = .unary f) (e : Tree)
  | binary (o : Operator) (f : Float → Float → Float) (ho : o.operation = .binary f)
      (l r : Tree)
  | call0 (g : Func) (f : Except Error Float) (hg : g.operation = .nullary f)
  | call1 (g : Func) (f : Float → Except Error Float) (hg : g.operation = .unary f) (e : Tree)
  | call2 (g : Func) (f : Float → Float → Except Error Float) (hg : g.operation = .binary f)
      (l r : Tree)

namespace Tree

/-- The program of a tree: subtrees from left to right, and then what is done
    with their values. -/
def postorder : Tree → Program
  | num value => [.num value]
  | var name => [.var name]
  | unary o _ _ e => e.postorder ++ [.op o]
  | binary o _ _ l r => l.postorder ++ r.postorder ++ [.op o]
  | call0 g _ _ => [.fn g]
  | call1 g _ _ e => e.postorder ++ [.fn g]
  | call2 g _ _ l r => l.postorder ++ r.postorder ++ [.fn g]

/-- The value of a tree.  Subtrees are evaluated from left to right, and the
    first that has no value ends the evaluation. -/
def value (bindings : Bindings) : Tree → Except Error Float
  | num v => .ok v
  | var name =>
    match bindings.find? name with
    | some v => .ok v
    | none => .error (.unboundVariable name)
  | unary _ f _ e => do
    let x ← e.value bindings
    return f x
  | binary _ f _ l r => do
    let x ← l.value bindings
    let y ← r.value bindings
    return f x y
  | call0 _ f _ => f
  | call1 _ f _ e => do
    let x ← e.value bindings
    f x
  | call2 _ f _ l r => do
    let x ← l.value bindings
    let y ← r.value bindings
    f x y

end Tree

/-! ## Instructions that find their operands -/

namespace Operator

variable {o : Operator}

theorem arity_of_unary {f : Float → Float} (ho : o.operation = .unary f) : o.arity = 1 :=
  congrArg Operation.arity ho

theorem arity_of_binary {f : Float → Float → Float} (ho : o.operation = .binary f) :
    o.arity = 2 :=
  congrArg Operation.arity ho

end Operator

namespace Func

variable {g : Func}

theorem arity_of_nullary {f : Except Error Float} (hg : g.operation = .nullary f) :
    g.arity = 0 :=
  congrArg Operation.arity hg

theorem arity_of_unary {f : Float → Except Error Float} (hg : g.operation = .unary f) :
    g.arity = 1 :=
  congrArg Operation.arity hg

theorem arity_of_binary {f : Float → Float → Except Error Float}
    (hg : g.operation = .binary f) : g.arity = 2 :=
  congrArg Operation.arity hg

end Func

namespace Instr

variable {bindings : Bindings}

theorem run_unary {o : Operator} {f : Float → Float} (ho : o.operation = .unary f) (s : Stack)
    (x : Float) : (Instr.op o).run bindings (s.push x) = s.deliver (.ok (f x)) := by
  have harity := Operator.arity_of_unary ho
  have hsize : ¬ (s.push x).size < o.arity := by
    rw [harity, Stack.size_push]
    omega
  rw [run, if_neg hsize, ho]
  simp [Stack.operate, Stack.deliver]

theorem run_binary {o : Operator} {f : Float → Float → Float} (ho : o.operation = .binary f)
    (s : Stack) (x y : Float) :
    (Instr.op o).run bindings ((s.push x).push y) = s.deliver (.ok (f x y)) := by
  have harity := Operator.arity_of_binary ho
  have hsize : ¬ ((s.push x).push y).size < o.arity := by
    rw [harity, Stack.size_push, Stack.size_push]
    omega
  rw [run, if_neg hsize, ho]
  simp [Stack.operate, Stack.deliver]

theorem run_call0 {g : Func} {f : Except Error Float} (hg : g.operation = .nullary f)
    (s : Stack) : (Instr.fn g).run bindings s = s.deliver f := by
  have harity := Func.arity_of_nullary hg
  have hsize : ¬ s.size < g.arity := by
    rw [harity]
    omega
  rw [run, if_neg hsize, hg, Stack.call]

theorem run_call1 {g : Func} {f : Float → Except Error Float} (hg : g.operation = .unary f)
    (s : Stack) (x : Float) : (Instr.fn g).run bindings (s.push x) = s.deliver (f x) := by
  have harity := Func.arity_of_unary hg
  have hsize : ¬ (s.push x).size < g.arity := by
    rw [harity, Stack.size_push]
    omega
  rw [run, if_neg hsize, hg]
  simp [Stack.call]

theorem run_call2 {g : Func} {f : Float → Float → Except Error Float}
    (hg : g.operation = .binary f) (s : Stack) (x y : Float) :
    (Instr.fn g).run bindings ((s.push x).push y) = s.deliver (f x y) := by
  have harity := Func.arity_of_binary hg
  have hsize : ¬ ((s.push x).push y).size < g.arity := by
    rw [harity, Stack.size_push, Stack.size_push]
    omega
  rw [run, if_neg hsize, hg]
  simp [Stack.call]

end Instr

/-! ## Programs with a result -/

namespace Program

/-- On every stack, and in front of every further program, the program puts its
    result on top, or ends the run with its error. -/
def Computes (bindings : Bindings) (p : Program) : Except Error Float → Prop
  | .ok v => ∀ rest s, run bindings (p ++ rest) s = run bindings rest (s.push v)
  | .error err => ∀ rest s, ∃ s', run bindings (p ++ rest) s = (.error err, s')

variable {bindings : Bindings} {p q : Program} {i : Instr}

/-- An instruction that comes to a result behind a program that does. -/
theorem computes_instr {result : Except Error Float}
    (h : ∀ rest s, ∃ t, run bindings (p ++ rest) s = run bindings rest t
      ∧ i.run bindings t = s.deliver result) : Computes bindings (p ++ [i]) result := by
  cases result with
  | ok v =>
    intro rest s
    obtain ⟨t, hp, hi⟩ := h (i :: rest) s
    rw [List.append_assoc, List.singleton_append, hp, run_cons hi]
  | error err =>
    intro rest s
    obtain ⟨t, hp, hi⟩ := h (i :: rest) s
    refine ⟨s, ?_⟩
    rw [List.append_assoc, List.singleton_append, hp, run, hi]
    rfl

theorem computes_leaf {result : Except Error Float}
    (h : ∀ s, i.run bindings s = s.deliver result) : Computes bindings [i] result :=
  computes_instr (p := []) fun _ s => ⟨s, rfl, h s⟩

/-- An error in front of a program ends it as well. -/
theorem Computes.append_of_error {err : Error} (hp : Computes bindings p (.error err))
    (q : Program) : Computes bindings (p ++ q) (.error err) := by
  intro rest s
  rw [List.append_assoc]
  exact hp (q ++ rest) s

theorem Computes.unary {x : Except Error Float} {f : Float → Except Error Float}
    (hp : Computes bindings p x)
    (hi : ∀ v (s : Stack), i.run bindings (s.push v) = s.deliver (f v)) :
    Computes bindings (p ++ [i]) (x >>= f) := by
  cases x with
  | error err => exact hp.append_of_error [i]
  | ok v => exact computes_instr fun rest s => ⟨s.push v, hp rest s, hi v s⟩

theorem Computes.binary {x y : Except Error Float} {f : Float → Float → Except Error Float}
    (hp : Computes bindings p x) (hq : Computes bindings q y)
    (hi : ∀ v w (s : Stack), i.run bindings ((s.push v).push w) = s.deliver (f v w)) :
    Computes bindings (p ++ q ++ [i]) (x >>= fun v => y >>= fun w => f v w) := by
  cases x with
  | error err =>
    rw [List.append_assoc]
    exact hp.append_of_error (q ++ [i])
  | ok v =>
    -- the second operand is computed above the first
    cases y with
    | error err =>
      intro rest s
      rw [List.append_assoc, List.append_assoc, hp]
      exact hq ([i] ++ rest) (s.push v)
    | ok w =>
      refine computes_instr fun rest s => ⟨(s.push v).push w, ?_, hi v w s⟩
      rw [List.append_assoc, hp, hq]

/-- The answer of a program is its result, whatever the stack held before. -/
theorem Computes.evaluate {result : Except Error Float} (hp : Computes bindings p result)
    (s : Stack) : (p.evaluate bindings s).1 = result := by
  rw [Program.evaluate, Stack.clear_eq_empty]
  cases result with
  | ok v =>
    have hrun := hp [] .empty
    rw [List.append_nil] at hrun
    rw [hrun]
    rfl
  | error err =>
    obtain ⟨s', hrun⟩ := hp [] .empty
    rw [List.append_nil] at hrun
    rw [hrun]

end Program

/-- The program of a tree computes its value. -/
theorem Tree.computes_postorder (bindings : Bindings) (t : Tree) :
    t.postorder.Computes bindings (t.value bindings) := by
  induction t with
  | num value => exact Program.computes_leaf fun s => rfl
  | var name =>
    refine Program.computes_leaf fun s => ?_
    rw [Instr.run, value]
    cases bindings.find? name <;> rfl
  | unary o f ho e ih => exact ih.unary fun v s => Instr.run_unary ho s v
  | binary o f ho l r ihl ihr => exact ihl.binary ihr fun v w s => Instr.run_binary ho s v w
  | call0 g f hg => exact Program.computes_leaf fun s => Instr.run_call0 hg s
  | call1 g f hg e ih => exact ih.unary fun v s => Instr.run_call1 hg s v
  | call2 g f hg l r ihl ihr => exact ihl.binary ihr fun v w s => Instr.run_call2 hg s v w

/-! ## Evaluation -/

namespace Expression

/-- The program of a tree is evaluated to the value of the tree, whatever is left
    on the stack from before.  And a balanced program fails only with an error of
    its own: the run has come to a variable without a value, or to a function that
    returns the error. -/
theorem evaluate_eq_value (x : Expression) :
    (∀ t : Tree, x.program = t.postorder → x.evaluate.1 = t.value x.bindings)
      ∧ (x.program.balance = [] → ∀ err, x.evaluate.1 = .error err →
          x.program.Raises x.bindings err) := by
  refine ⟨fun t ht => ?_, fun hbalance err herr => ?_⟩
  · have hcomputes := t.computes_postorder x.bindings
    rw [← ht] at hcomputes
    exact hcomputes.evaluate x.stack
  · obtain ⟨hnone, hgain⟩ := Program.balance_eq_nil_iff.mp hbalance
    have hends : Program.Ends x.bindings x.program x.evaluate.1 :=
      Program.ends_evaluate x.bindings x.program x.stack
    rw [herr] at hends
    cases hends with
    | surplus n _ hn => omega
    | empty reason hempty =>
      rw [hempty] at hgain
      cases hgain
    | raised hraises => exact hraises
    | lacking hlacking =>
      rw [Program.firstLacking_iff, hnone] at hlacking
      cases hlacking

/-- A function that has no value. -/
def undefined : Func := ⟨"undefined", .nullary (.error (.domain "no value"))⟩

/-- A sum whose first operand fails, and whose second is a variable without a
    value. -/
def failingSum : Tree := .binary .add _ rfl (.call0 undefined _ rfl) (.var "y")

/-- The failing sum, on a stack that is not empty. -/
def failing : Expression := { ofProgram failingSum.postorder with stack := ⟨#[1]⟩ }

theorem evaluate_eq_value_failing :
    failing.program = failingSum.postorder ∧ failing.program.balance = []
      ∧ failing.evaluate.1 = .error (.domain "no value")
      ∧ failing.program.Raises failing.bindings (.domain "no value") := by
  have htree : failing.evaluate.1 = .error (.domain "no value") :=
    (evaluate_eq_value failing).1 failingSum rfl
  exact ⟨rfl, rfl, htree, (evaluate_eq_value failing).2 rfl _ htree⟩

end Expression

end StackCalc
