/-
  StackCalc.Proofs.Registration

  A function or an operator more, which a text does not use.

  A scan looks up names and symbols that are well formed and stand in the text, and the
  symbol of the product.  Two vocabularies that agree on these (`Vocabulary.AgreesOn`)
  give the same lexemes and come to the same places (`Scanner.lexemes_congr`).  A word
  that does not stand in the text is never looked up, and a well-formed one is not refused
  either, so it can be registered without any change to what a build gives
  (`Formula.registration_conservative`).
-/
import Mathlib.Data.List.Infix
import StackCalc.Proofs.Acceptance
import StackCalc.Proofs.Lexicon
import StackCalc.Proofs.Requests

namespace StackCalc

namespace Vocabulary

/-- The same functions and operators under all words that can be read in the text, and
    the same product. -/
structure AgreesOn (v w : Vocabulary) (text : List Char) : Prop where
  functions : ∀ name, Identifier.isValid name = true → name.toList <:+: text →
    v.functions.find? name = w.functions.find? name
  operators : ∀ symbol, Symbol.isValid symbol = true → symbol.toList <:+: text →
    v.operators.find? symbol = w.operators.find? symbol
  product : v.product = w.product

variable {v w : Vocabulary} {previous : Option Token} {cs text : List Char}

theorem AgreesOn.of_infix (h : v.AgreesOn w text) (hpart : cs <:+: text) : v.AgreesOn w cs where
  functions name hvalid hname := h.functions name hvalid (hname.trans hpart)
  operators symbol hvalid hsymbol := h.operators symbol hvalid (hsymbol.trans hpart)
  product := h.product

/-! ## One lexeme -/

theorem AgreesOn.readWord_eq {c : Char} (h : v.AgreesOn w (c :: cs))
    (hc : Identifier.isStart c = true) : v.readWord (c :: cs) = w.readWord (c :: cs) := by
  have hrun := isRun_takeWhile Identifier.isPart (c :: cs)
  have hpart : (c :: cs).takeWhile Identifier.isPart <:+: c :: cs :=
    (List.takeWhile_prefix _).isInfix
  have hvalid :
      Identifier.isValid (String.ofList ((c :: cs).takeWhile Identifier.isPart)) = true := by
    rw [List.takeWhile_cons_of_pos (Identifier.isPart_of_isStart hc)] at hrun ⊢
    rw [Identifier.isValid_iff, String.toList_ofList]
    exact ⟨c, _, rfl, hc, fun d hd => hrun.all d (List.mem_cons_of_mem c hd)⟩
  -- the tables are asked for the longest name alone
  have hfind := h.functions _ hvalid (by rwa [String.toList_ofList])
  simp only [readWord, function?, hfind]

theorem AgreesOn.longestOperator?_eq {sign : Bool} {run : List Char} (h : v.AgreesOn w run)
    (hrun : ∀ c ∈ run, Symbol.isChar c = true) (hne : run ≠ []) (n : Nat) :
    v.longestOperator? sign run n = w.longestOperator? sign run n := by
  -- all first parts of the run may be asked for, and all are symbols in the text
  induction n with
  | zero => rfl
  | succ n ih =>
    have hinitial : run.take (n + 1) <+: run := List.take_prefix ..
    have hvalid : Symbol.isValid (String.ofList (run.take (n + 1))) = true := by
      rw [Symbol.isValid_iff, String.toList_ofList]
      refine ⟨?_, fun c hc => hrun c (hinitial.subset hc)⟩
      simpa [List.take_eq_nil_iff] using hne
    have hfind := h.operators _ hvalid (by rw [String.toList_ofList]; exact hinitial.isInfix)
    rw [longestOperator?, longestOperator?, operator?, operator?, hfind, ih]

theorem AgreesOn.readSymbol_eq {c : Char} (h : v.AgreesOn w (c :: cs))
    (hc : Symbol.isChar c = true) :
    v.readSymbol previous (c :: cs) = w.readSymbol previous (c :: cs) := by
  have hrun := (isRun_takeWhile Symbol.isChar (c :: cs)).all
  have hne : (c :: cs).takeWhile Symbol.isChar ≠ [] := by
    rw [List.takeWhile_cons_of_pos hc]
    exact List.cons_ne_nil _ _
  have hagree := h.of_infix (List.takeWhile_prefix Symbol.isChar).isInfix
  simp only [readSymbol, hagree.longestOperator?_eq hrun hne]

theorem AgreesOn.readHere_eq (h : v.AgreesOn w cs) :
    v.readHere previous cs = w.readHere previous cs := by
  cases cs with
  | nil => rfl
  | cons c cs =>
    rw [readHere, readHere]
    split
    · rfl
    split
    · next hc => exact h.readWord_eq hc
    split
    · next hc => exact h.readSymbol_eq hc
    · rfl

theorem AgreesOn.read_eq (h : v.AgreesOn w cs) : v.read previous cs = w.read previous cs :=
  (h.of_infix (List.dropWhile_suffix isBlank).isInfix).readHere_eq

end Vocabulary

/-! ## A whole text -/

namespace Scanner

open Vocabulary (AgreesOn)

variable {v w : Vocabulary}

theorem suffix_of_read {previous : Option Token} {cs rest : List Char} {l : Lexeme}
    (h : v.read previous cs = .lexeme l rest) : rest <:+ cs :=
  ⟨_, (Vocabulary.read_lexeme h).2⟩

theorem lexemes_congr {s : Scanner} (h : s.vocabulary.AgreesOn w s.rest) :
    lexemes { s with vocabulary := w } = (s.lexemes.1, { s.lexemes.2 with vocabulary := w }) := by
  induction s using lexemes.induct with
  | case1 s hread =>
    rw [lexemes_of_finished hread]
    exact lexemes_of_finished (s := { s with vocabulary := w }) (h.read_eq.symm.trans hread)
  | case2 s f rest hread =>
    rw [lexemes_of_fault hread]
    exact lexemes_of_fault (s := { s with vocabulary := w }) (h.read_eq.symm.trans hread)
  | case3 s l rest hread _ _ _ ih =>
    -- what is left is a part of the text, and the product is the same
    have hrest := ih (h.of_infix (suffix_of_read hread).isInfix)
    have houtput : output { s with vocabulary := w } l = s.output l := by
      simp only [output, productLexeme, h.product]
    rw [lexemes_of_lexeme hread, lexemes_of_lexeme (s := { s with vocabulary := w })
      (h.read_eq.symm.trans hread), houtput, hrest]

/-- A request is answered in the same way. -/
theorem tokenize_congr {s : Scanner} (h : s.vocabulary.AgreesOn w s.rest) :
    (tokenize { s with vocabulary := w }).1 = s.tokenize.1 := by
  rw [tokenize_fst, tokenize_fst, lexemes_congr h]

end Scanner

/-! ## A word more in a table -/

namespace Vocabulary

/-- The same functions and operators, which may be listed in another order. -/
structure Reordered (v w : Vocabulary) : Prop where
  functions : v.functions.Reordered w.functions
  operators : v.operators.Reordered w.operators

/-- Two vocabularies that differ at most in what is registered under one word.  The word
    is well formed, does not stand in the text, and is not the symbol of the product. -/
inductive DiffersOutside (text : List Char) : Vocabulary → Vocabulary → Prop where
  | function {functions functions' : Table Func} {operators : Table Operator} {name : String}
      (hvalid : Identifier.isValid name = true) (hfresh : ¬ name.toList <:+: text)
      (hsame : functions.without name = functions'.without name) :
      DiffersOutside text ⟨functions, operators⟩ ⟨functions', operators⟩
  -- the product is asked for also where it does not stand in the text
  | operator {functions : Table Func} {operators operators' : Table Operator} {symbol : String}
      (hvalid : Symbol.isValid symbol = true) (hfresh : ¬ symbol.toList <:+: text)
      (hproduct : symbol ≠ "*")
      (hsame : operators.without symbol = operators'.without symbol) :
      DiffersOutside text ⟨functions, operators⟩ ⟨functions, operators'⟩

namespace DiffersOutside

variable {v w : Vocabulary} {text : List Char}

theorem agreesOn (h : DiffersOutside text v w) : v.AgreesOn w text := by
  cases h with
  | function hvalid hfresh hsame =>
    -- a name that stands in the text is another one
    refine ⟨fun name _ hname => ?_, fun _ _ _ => rfl, rfl⟩
    exact Table.find?_of_without hsame fun heq => hfresh (heq ▸ hname)
  | operator hvalid hfresh hproduct hsame =>
    refine ⟨fun _ _ _ => rfl, fun symbol _ hsymbol => ?_, ?_⟩
    · exact Table.find?_of_without hsame fun heq => hfresh (heq ▸ hsymbol)
    · rw [product, product, Table.find?_of_without hsame hproduct.symm]

theorem check_eq (h : DiffersOutside text v w) : v.check = w.check := by
  cases h with
  | @function _ _ _ name hvalid hfresh hsame =>
    have hwell : (!Identifier.isValid name) = false := by rw [hvalid]; rfl
    have hnames := Table.find?_names_of_without (p := (!Identifier.isValid ·)) hwell hsame
    rw [check, check, hnames]
  | @operator _ _ _ symbol hvalid hfresh hproduct hsame =>
    have hwell : (!Symbol.isValid symbol) = false := by rw [hvalid]; rfl
    have hnames := Table.find?_names_of_without (p := (!Symbol.isValid ·)) hwell hsame
    rw [check, check, hnames]

end DiffersOutside

end Vocabulary

/-! ## The build -/

namespace Formula

open Vocabulary (DiffersOutside)

/-- The formula with one function more, or another one under its name. -/
def addFunction (f : Formula) (g : Func) : Formula :=
  { f with vocabulary := f.vocabulary.addFunction g }

/-- The formula with one operator more, or another one under its symbol. -/
def addOperator (f : Formula) (o : Operator) : Formula :=
  { f with vocabulary := f.vocabulary.addOperator o }

/-- What a build can come to when the order of the tables is left open.  The order
    decides which one of several words that are not well formed is refused. -/
def Outcome (f : Formula) (result : Except Error Expression) : Prop :=
  ∃ w, f.vocabulary.Reordered w ∧ build { f with vocabulary := w } = result

theorem outcome_build (f : Formula) : f.Outcome f.build :=
  ⟨f.vocabulary, ⟨.refl _, .refl _⟩, rfl⟩

variable {f : Formula} {w : Vocabulary}

/-- A build asks for the words of the text, and whether all words are well formed. -/
theorem build_congr (hcheck : f.vocabulary.check = w.check)
    (hagree : f.vocabulary.AgreesOn w f.text.toList) :
    build { f with vocabulary := w } = f.build := by
  have htokens : tokens { f with vocabulary := w } = f.tokens :=
    Scanner.tokenize_congr (s := f.scanner) hagree
  rw [build, build, program, program, htokens, hcheck]

theorem build_of_differsOutside (h : DiffersOutside f.text.toList f.vocabulary w) :
    build { f with vocabulary := w } = f.build :=
  build_congr h.check_eq h.agreesOn

/-- The outcomes are the same when each order of the one vocabulary differs from an order
    of the other only outside the text. -/
theorem outcome_iff {result : Except Error Expression}
    (hforth : ∀ v, f.vocabulary.Reordered v →
      ∃ v', w.Reordered v' ∧ DiffersOutside f.text.toList v v')
    (hback : ∀ v', w.Reordered v' →
      ∃ v, f.vocabulary.Reordered v ∧ DiffersOutside f.text.toList v v') :
    Outcome { f with vocabulary := w } result ↔ f.Outcome result := by
  constructor
  · rintro ⟨v', hv', hbuild⟩
    obtain ⟨v, hv, hdiffers⟩ := hback v' hv'
    have hsame := build_of_differsOutside (f := { f with vocabulary := v }) hdiffers
    exact ⟨v, hv, hsame.symm.trans hbuild⟩
  · rintro ⟨v, hv, hbuild⟩
    obtain ⟨v', hv', hdiffers⟩ := hforth v hv
    have hsame := build_of_differsOutside (f := { f with vocabulary := v }) hdiffers
    exact ⟨v', hv', hsame.trans hbuild⟩

theorem outcome_addFunction {g : Func} (hvalid : Identifier.isValid g.name = true)
    (habsent : f.vocabulary.functions.contains g.name = false)
    (hfresh : ¬ g.name.toList <:+: f.text.toList) (result : Except Error Expression) :
    (f.addFunction g).Outcome result ↔ f.Outcome result := by
  refine outcome_iff (fun v hv => ?_) (fun v' hv' => ?_)
  · exact ⟨v.addFunction g, ⟨hv.functions.insert habsent g, hv.operators⟩,
      .function hvalid hfresh (Table.without_insert v.functions g.name g).symm⟩
  · exact ⟨⟨v'.functions.without g.name, v'.operators⟩,
      ⟨hv'.functions.of_insert habsent, hv'.operators⟩,
      .function hvalid hfresh (Table.without_without v'.functions g.name)⟩

theorem outcome_addOperator {o : Operator} (hvalid : Symbol.isValid o.symbol = true)
    (hproduct : o.symbol ≠ "*") (habsent : f.vocabulary.operators.contains o.symbol = false)
    (hfresh : ¬ o.symbol.toList <:+: f.text.toList) (result : Except Error Expression) :
    (f.addOperator o).Outcome result ↔ f.Outcome result := by
  refine outcome_iff (fun v hv => ?_) (fun v' hv' => ?_)
  · exact ⟨v.addOperator o, ⟨hv.functions, hv.operators.insert habsent o⟩,
      .operator hvalid hfresh hproduct (Table.without_insert v.operators o.symbol o).symm⟩
  · exact ⟨⟨v'.functions, v'.operators.without o.symbol⟩,
      ⟨hv'.functions, hv'.operators.of_insert habsent⟩,
      .operator hvalid hfresh hproduct (Table.without_without v'.operators o.symbol)⟩

/-- A function or an operator more changes nothing for a text in which its word does not
    stand: neither what a build gives, as the tables list their entries, nor what it can
    give for some order of the entries.  The word is well formed and was not in its table,
    and the operator is not the one that products are written with. -/
theorem registration_conservative (f : Formula) :
    (∀ g : Func, Identifier.isValid g.name = true →
        f.vocabulary.functions.contains g.name = false → ¬ g.name.toList <:+: f.text.toList →
        (f.addFunction g).build = f.build
          ∧ ∀ result, (f.addFunction g).Outcome result ↔ f.Outcome result)
      ∧ ∀ o : Operator, Symbol.isValid o.symbol = true → o.symbol ≠ "*" →
        f.vocabulary.operators.contains o.symbol = false → ¬ o.symbol.toList <:+: f.text.toList →
        (f.addOperator o).build = f.build
          ∧ ∀ result, (f.addOperator o).Outcome result ↔ f.Outcome result := by
  refine ⟨fun g hvalid habsent hfresh => ⟨?_, outcome_addFunction hvalid habsent hfresh⟩,
    fun o hvalid hproduct habsent hfresh =>
      ⟨?_, outcome_addOperator hvalid hproduct habsent hfresh⟩⟩
  · exact build_of_differsOutside
      (.function hvalid hfresh (Table.without_insert f.vocabulary.functions g.name g).symm)
  · exact build_of_differsOutside
      (.operator hvalid hfresh hproduct
        (Table.without_insert f.vocabulary.operators o.symbol o).symm)

/-- Whether the left operand is the right one at least. -/
def atLeast : Operator := ⟨">=", 300, .left, .binary fun x y => if x < y then 0 else 1⟩

/-- A comparison with a dotted name on its left. -/
def comparison : Formula where
  text := "rate.x >= y"
  vocabulary := Vocabulary.addOperator {} atLeast

/-- The new name and the new symbol are each one character longer than what the text has,
    and the parts of the new symbol stand in the text. -/
theorem registration_conservative_comparison :
    Identifier.isValid "rates" = true
      ∧ comparison.vocabulary.functions.contains "rates" = false
      ∧ ¬ "rates".toList <:+: comparison.text.toList
      ∧ Symbol.isValid ">==" = true ∧ ">==" ≠ "*"
      ∧ comparison.vocabulary.operators.contains ">==" = false
      ∧ ¬ ">==".toList <:+: comparison.text.toList
      ∧ comparison.build = .ok (.ofProgram [.var "rate.x", .var "y", .op atLeast])
      ∧ (∀ operation, (comparison.addFunction ⟨"rates", operation⟩).build = comparison.build)
      ∧ ∀ precedence associativity operation,
        (comparison.addOperator ⟨">==", precedence, associativity, operation⟩).build
          = comparison.build := by
  have hrates : ¬ "rates".toList <:+: comparison.text.toList := by decide
  have hsymbol : ¬ ">==".toList <:+: comparison.text.toList := by decide
  have hname : Identifier.isValid "rates" = true := rfl
  have hvalid : Symbol.isValid ">==" = true := rfl
  have hproduct : ">==" ≠ "*" := by decide
  have htokens : comparison.tokens = .ok [.var "rate.x", .op atLeast, .var "y"] := by
    refine tokens_eq_ok_iff rfl |>.mpr ⟨[⟨"rate.x".toList, .var "rate.x"⟩,
      ⟨">=".toList, .op atLeast⟩, ⟨['y'], .var "y"⟩], ?_, rfl⟩
    exact .lexeme rfl <| .lexeme rfl <| .lexeme rfl <| .finished rfl
  have hbuild := (build_eq_ok_iff rfl htokens).mpr ⟨_, rfl, rfl⟩
  obtain ⟨hfunction, hoperator⟩ := comparison.registration_conservative
  exact ⟨hname, rfl, hrates, hvalid, hproduct, rfl, hsymbol, hbuild,
    fun operation => (hfunction ⟨"rates", operation⟩ hname rfl hrates).1,
    fun precedence associativity operation =>
      (hoperator ⟨">==", precedence, associativity, operation⟩ hvalid hproduct rfl hsymbol).1⟩

end Formula

end StackCalc
