/-
  StackCalc.Proofs.Variables

  The variables of a text can all be given values.

  Three parts of the way from a text to its value know names: the scanner, which asks
  what a name calls, the reader, which moves what was scanned, and the check of the name
  that a value is set for.  A variable comes from one name in the text that calls nothing
  (`Scanner.Scan.of_var`), the reader only moves it, and a name that calls nothing is not
  reserved.  Once all variables have values, only a function can say that one has none
  (`Program.returns_of_unboundVariable`).
-/
import StackCalc.Proofs.Acceptance
import StackCalc.Proofs.Agreement
import StackCalc.Proofs.Bindings
import StackCalc.Proofs.Labels
import StackCalc.Proofs.Segmentation

namespace StackCalc

/-! ## From the text to the program -/

namespace Scanner

variable {v : Vocabulary} {previous : Option Token} {cs : List Char} {ls : List Lexeme}

/-- A variable is written as a name that calls no function. -/
theorem Scan.of_var (h : Scan v previous cs ls) {name : String}
    (hname : .var name ∈ ls.map Lexeme.token) :
    ⟨name.toList, .var name⟩ ∈ ls ∧ Identifier.isValid name = true
      ∧ v.functions.find? name = none ∧ Func.builtin? name = none := by
  obtain ⟨⟨text, token⟩, hl, rfl⟩ := List.mem_map.mp hname
  obtain ⟨before, rest, hheads⟩ := h.exists_heads hl
  obtain ⟨hvalid, hnames⟩ := hheads.name (Or.inr ⟨name, rfl⟩)
  have htext : (String.ofList text).toList = text := String.toList_ofList
  generalize String.ofList text = word at hvalid hnames htext
  subst htext
  cases hnames with
  | unknown hnew hbuiltin => exact ⟨hl, hvalid, hnew, hbuiltin⟩

end Scanner

namespace Formula

variable {f : Formula} {x : Expression}

/-- What is built is the program of the lexemes of the text. -/
theorem exists_scan_of_build (h : f.build = .ok x) :
    ∃ ls p, Scanner.Scan f.vocabulary none f.text.toList ls
      ∧ Program.ofTokens
          ((Scanner.written f.vocabulary f.implicitProduct none ls).map Lexeme.token) = .ok p
      ∧ x = .ofProgram p := by
  have hwords : f.vocabulary.check = .ok () := by
    rw [build] at h
    split at h
    · cases h
    · next hok => exact hok
  cases htokens : f.tokens with
  | error fault =>
    rw [build_of_tokens_eq_error hwords htokens] at h
    cases h
  | ok ts =>
    obtain ⟨p, hp, rfl⟩ := (build_eq_ok_iff hwords htokens).mp h
    obtain ⟨ls, hscan, rfl⟩ := Scanner.tokenize_eq_ok_iff.mp htokens
    exact ⟨ls, p, hscan, hp, rfl⟩

end Formula

/-- The reader gives no variable that is not among the tokens. -/
theorem Program.var_mem_of_ofTokens {ts : List Token} {p : Program} (h : ofTokens ts = .ok p)
    {name : String} (hname : name ∈ p.varNames) : .var name ∈ ts := by
  have hinstr := (perm_of_ofTokens h).mem_iff.mp (mem_varNames_iff.mp hname)
  obtain ⟨t, ht, hvar⟩ := List.mem_filterMap.mp hinstr
  cases t with
  | var =>
    cases hvar
    exact ht
  | num | op | fn | lparen | rparen | comma => cases hvar

/-! ## Values for all variables -/

/-- Where all variables have values, only a function says that one has none. -/
theorem Program.returns_of_unboundVariable {bindings : Bindings} {p : Program}
    (hset : p.IsSet bindings) {s : Stack} {name : String}
    (h : (p.evaluate bindings s).1 = .error (.unboundVariable name)) :
    p.Returns bindings (.unboundVariable name) := by
  have hends := ends_evaluate bindings p s
  rw [h] at hends
  cases hends with
  | raised hraises =>
    cases hraises with
    | unset hp _ hunset => exact absurd hunset (hset name (by rw [hp]; simp))
    | returned hreturns => exact hreturns

namespace Expression

variable {x : Expression} {vars : List (String × Float)}

/-- Free names among which are all variables of the program are all accepted. -/
theorem isSet_insertMany (h : ∀ name ∈ x.program.varNames, name ∈ vars.map Prod.fst) :
    x.program.IsSet (x.bindings.insertMany vars) :=
  fun name hname =>
    Table.find?_ne_none_iff.mpr (Table.mem_names_insertMany.mpr
      (Or.inl (h name (Program.mem_varNames_iff.mpr hname))))

theorem unset_not_mem_validate (h : x.program.IsSet x.bindings) (name : String) :
    .unset name ∉ x.validate true := by
  rw [validate, if_pos rfl, unsetWarnings_eq, filterMap_unsetWarning?.mpr h, List.nil_append]
  simp

end Expression

namespace Formula

/-- An expression that is built from a text reads only variables that stand in the text,
    each as a lexeme that is one name and that no function is called by, registered or
    builtin.  So a value can be set for each of them, at any time.  Once values are set for
    all of them, in any order and whatever was done before, there is no warning about a
    variable, and an evaluation ends with the error of a variable without a value only
    where a function of the program returns that error. -/
theorem variables_of_build {f : Formula} {x : Expression} (h : f.build = .ok x) :
    (∃ segments tail, Segmented f.vocabulary none f.text.toList segments tail
        ∧ ∀ name ∈ x.program.varNames,
          (∃ s ∈ segments, s.lexeme = ⟨name.toList, .var name⟩)
            ∧ Identifier.isValid name = true
            ∧ Func.isBuiltin name = false
            ∧ f.vocabulary.functions.contains name = false
            ∧ ∀ (y : Expression) value, y.setVariable name value
              = .ok { y with bindings := y.bindings.insert name value })
      ∧ ∀ (y : Expression) vars, y.program = x.program →
          (∀ name, name ∈ vars.map Prod.fst ↔ name ∈ x.program.varNames) →
          ∃ z, y.setVariables vars = (.ok (), z)
            ∧ y.after (vars.map fun var => .set var.1 var.2) = z
            ∧ z.program = x.program
            ∧ (∀ name, .unset name ∉ z.validate true)
            ∧ ∀ name, z.evaluate.1 = .error (.unboundVariable name) →
                z.program.Returns z.bindings (.unboundVariable name) := by
  obtain ⟨ls, p, hscan, hconverted, rfl⟩ := exists_scan_of_build h
  -- each variable is that of a lexeme, since a product is none
  have hvar : ∀ name ∈ p.varNames, .var name ∈ ls.map Lexeme.token := by
    intro name hname
    obtain ⟨l, hl, htoken⟩ := List.mem_map.mp (Program.var_mem_of_ofTokens hconverted hname)
    rcases Scanner.mem_written hl with rfl | hl
    · cases htoken
    · exact List.mem_map.mpr ⟨l, hl, htoken⟩
  have hfree : ∀ name ∈ p.varNames, Func.isBuiltin name = false := by
    intro name hname
    rw [Func.isBuiltin, (hscan.of_var (hvar name hname)).2.2.2]
    rfl
  constructor
  · obtain ⟨segments, tail, hsegmented, rfl⟩ := hscan.exists_segmented
    refine ⟨segments, tail, hsegmented, fun name hname => ?_⟩
    obtain ⟨hmem, hvalid, hnew, -⟩ := hscan.of_var (hvar name hname)
    refine ⟨List.mem_map.mp hmem, hvalid, hfree name hname, ?_, fun y value => ?_⟩
    · rw [Table.contains, hnew]
      rfl
    · exact y.setVariable_of_free (hfree name hname) value
  · intro y vars hy hvars
    have hvarsFree : ∀ var ∈ vars, Func.isBuiltin var.1 = false :=
      fun var hmem => hfree var.1 ((hvars var.1).mp (List.mem_map_of_mem hmem))
    have hset : y.program.IsSet (y.bindings.insertMany vars) :=
      Expression.isSet_insertMany fun name hname => (hvars name).mpr (hy ▸ hname)
    refine ⟨{ y with bindings := y.bindings.insertMany vars }, ?_,
      Expression.after_sets hvarsFree y, hy, Expression.unset_not_mem_validate hset,
      fun name hname => ?_⟩
    · rw [Expression.setVariables_eq, verdict_eq_ok_iff.mpr hvarsFree, accepted_of_free hvarsFree]
    · exact Program.returns_of_unboundVariable hset hname

/-- A function that says that a variable has no value. -/
def probe : Func := ⟨"probe", .unary fun _ => .error (.unboundVariable "inner")⟩

/-- A product of two variables, one with a dotted name, which a function does not like. -/
def probed : Formula where
  text := "probe(x.2 rate)"
  vocabulary := Vocabulary.addFunction {} probe

theorem variables_of_build_probed :
    ∃ x, probed.build = .ok x ∧ x.program.varNames = ["x.2", "rate"]
      ∧ (∀ name, name ∈ [("rate", (2 : Float)), ("x.2", 3)].map Prod.fst
          ↔ name ∈ x.program.varNames)
      ∧ ∃ z, x.setVariables [("rate", 2), ("x.2", 3)] = (.ok (), z)
        ∧ z.evaluate.1 = .error (.unboundVariable "inner")
        ∧ z.program.Returns z.bindings (.unboundVariable "inner") := by
  have htokens : probed.tokens = .ok [.fn probe, .lparen, .var "x.2", .op .multiply, .var "rate",
      .rparen] := by
    refine (tokens_eq_ok_iff rfl).mpr
      ⟨[⟨"probe".toList, .fn probe⟩, ⟨['('], .lparen⟩, ⟨"x.2".toList, .var "x.2"⟩,
        ⟨"rate".toList, .var "rate"⟩, ⟨[')'], .rparen⟩], ?_, rfl⟩
    exact .lexeme rfl <| .lexeme rfl <| .lexeme rfl <| .lexeme rfl <| .lexeme rfl <| .finished rfl
  have hbuild : probed.build
      = .ok (.ofProgram [.var "x.2", .var "rate", .op .multiply, .fn probe]) :=
    (build_eq_ok_iff rfl htokens).mpr ⟨_, rfl, rfl⟩
  have hnames (name : String) : name ∈ [("rate", (2 : Float)), ("x.2", 3)].map Prod.fst
      ↔ name ∈ Program.varNames [.var "x.2", .var "rate", .op .multiply, .fn probe] := by
    simp [Program.mem_varNames_iff, or_comm]
  obtain ⟨z, hset, -, -, -, hreturns⟩ :=
    (variables_of_build hbuild).2 _ [("rate", 2), ("x.2", 3)] rfl hnames
  have hevaluate : z.evaluate.1 = .error (.unboundVariable "inner") := by
    obtain rfl := congrArg Prod.snd hset
    rfl
  exact ⟨_, hbuild, rfl, hnames, z, hset, hevaluate, hreturns "inner" hevaluate⟩

end Formula

end StackCalc
