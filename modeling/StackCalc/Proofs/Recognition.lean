/-
  StackCalc.Proofs.Recognition

  Which entries of a vocabulary a text can reach.

  A word is looked up only where it stands as one lexeme, so it is well formed
  (`Recognises.isValid_name`, `Recognises.isValid_symbol`).  The other way round a
  well-formed word, as a text of its own, is one lexeme: a name has nothing behind it that
  could make it longer, and a symbol is tried as a whole before its shorter parts.  So the
  words that the check of a vocabulary lets through are the ones that some text reaches
  (`recognises_iff_isValid`).
-/
import StackCalc.Proofs.Bindings
import StackCalc.Proofs.Modes
import StackCalc.Proofs.Spelling

namespace StackCalc

/-! ## What a scan looks up -/

namespace Scanner

theorem vocabulary_after (n : Nat) (s : Scanner) : (after n s).vocabulary = s.vocabulary := by
  obtain ⟨pieces, rest, -, hafter⟩ := exists_cut_after n s
  rw [hafter]

/-- The lexemes that a request gives are read from the text, or are products. -/
theorem heads_of_mem_lexemes {s : Scanner} {ls : List Lexeme} {l : Lexeme}
    (h : s.lexemes.1 = .ok ls) (hl : l ∈ ls) :
    l = productLexeme s.vocabulary ∨ ∃ previous rest, s.vocabulary.Heads previous l rest := by
  obtain ⟨read, hscan, rfl⟩ := exists_scan_of_lexemes h
  exact (mem_written hl).imp_right hscan.exists_heads

/-- A text that is one lexeme gives this lexeme, and no product. -/
theorem lexemes_ofText_of_heads {v : Vocabulary} {word : String} {t : Token}
    (h : v.Heads none ⟨word.toList, t⟩ []) (implicit : Bool) :
    (ofText v implicit word).lexemes.1 = .ok [⟨word.toList, t⟩] := by
  have hgap : ∀ c ∈ ([] : List Char), isBlank c = true := by simp
  have hread := (Vocabulary.read_segment (s := ⟨[], ⟨word.toList, t⟩⟩) hgap h).1
  have htext : (Segment.mk [] ⟨word.toList, t⟩).text ++ [] = word.toList := List.append_nil _
  rw [htext] at hread
  have hscan : Scan v none word.toList [⟨word.toList, t⟩] := .lexeme hread (.finished rfl)
  rw [ofText, hscan.lexemes_eq, written]
  simp [insertProducts]

end Scanner

namespace Vocabulary

/-- Some text is given this lexeme for, by some request for its tokens.  The text of the
    lexeme is the word that its token was looked up under, also for a product. -/
def Recognises (v : Vocabulary) (l : Lexeme) : Prop :=
  ∃ implicit text n ls, (Scanner.after n (.ofText v implicit text)).lexemes.1 = .ok ls ∧ l ∈ ls

variable {v : Vocabulary} {word : String}

theorem Recognises.cases {l : Lexeme} (h : v.Recognises l) :
    l = Scanner.productLexeme v ∨ ∃ previous rest, v.Heads previous l rest := by
  obtain ⟨implicit, text, n, ls, hls, hl⟩ := h
  have hvocabulary : (Scanner.after n (.ofText v implicit text)).vocabulary = v :=
    Scanner.vocabulary_after n _
  have hheads := Scanner.heads_of_mem_lexemes hls hl
  rwa [hvocabulary] at hheads

/-- A function is called by a well-formed name. -/
theorem Recognises.isValid_name {f : Func} (h : v.Recognises ⟨word.toList, .fn f⟩) :
    Identifier.isValid word = true := by
  rcases h.cases with hproduct | ⟨previous, rest, hheads⟩
  · exact Token.noConfusion (congrArg Lexeme.token hproduct)
  · have hvalid := (hheads.name (Or.inl ⟨f, rfl⟩)).1
    rwa [String.ofList_toList] at hvalid

/-- An operator is written as a well-formed symbol, and so is a product. -/
theorem Recognises.isValid_symbol {o : Operator} (h : v.Recognises ⟨word.toList, .op o⟩) :
    Symbol.isValid word = true := by
  rcases h.cases with hproduct | ⟨previous, rest, hheads⟩
  · -- a product need not stand in the text, but it is looked up as `*`
    have hstar : word.toList = ['*'] := congrArg Lexeme.text hproduct
    rw [Symbol.isValid, hstar]
    rfl
  · have hvalid := hheads.isValid_symbol rfl
    rwa [String.ofList_toList] at hvalid

/-! ## Words that stand alone -/

theorem heads_of_isValid_name {f : Func} (hvalid : Identifier.isValid word = true)
    (hfind : v.functions.find? word = some f) : v.Heads none ⟨word.toList, .fn f⟩ [] := by
  obtain ⟨c, cs, hword, hc, hcs⟩ := Identifier.isValid_iff.mp hvalid
  have hrun : IsRun Identifier.isPart (c :: cs) [] := by
    refine ⟨fun d hd => ?_, fun d hd => by cases hd⟩
    rcases List.mem_cons.mp hd with rfl | hd
    · exact Identifier.isPart_of_isStart hc
    · exact hcs d hd
  have hnames : v.Names (String.ofList (c :: cs)) (.fn f) := by
    rw [← hword, String.ofList_toList]
    exact .registered hfind
  rw [hword]
  exact .word hc hrun hnames

/-- Whatever stands under shorter symbols, the whole symbol is the longest one. -/
theorem heads_of_isValid_symbol {o : Operator} (hvalid : Symbol.isValid word = true)
    (hfind : v.operators.find? word = some o) : v.Heads none ⟨word.toList, .op o⟩ [] := by
  obtain ⟨hne, hall⟩ := Symbol.isValid_iff.mp hvalid
  have hrun : IsRun Symbol.isChar word.toList [] := ⟨hall, fun d hd => by cases hd⟩
  refine .symbol_alone hne hrun ?_
  rw [String.ofList_toList]
  exact .registered hfind

theorem Heads.recognises {t : Token} (h : v.Heads none ⟨word.toList, t⟩ []) :
    v.Recognises ⟨word.toList, t⟩ :=
  ⟨true, word, 0, _, Scanner.lexemes_ofText_of_heads h true, List.mem_singleton_self _⟩

theorem Heads.tokenize_eq {t : Token} (h : v.Heads none ⟨word.toList, t⟩ []) (implicit : Bool) :
    (Scanner.ofText v implicit word).tokenize.1 = .ok [t] := by
  rw [Scanner.tokenize_fst, Scanner.lexemes_ofText_of_heads h implicit]
  rfl

/-! ## The check -/

theorem check_eq_ok_iff : v.check = .ok ()
    ↔ (∀ name f, v.functions.find? name = some f → Identifier.isValid name = true)
      ∧ ∀ symbol o, v.operators.find? symbol = some o → Symbol.isValid symbol = true := by
  simp only [← Table.forall_mem_names]
  rw [check]
  split
  · next name hname =>
    have hinvalid := List.find?_some hname
    refine iff_of_false nofun fun ⟨hnames, _⟩ => ?_
    simp [hnames name (List.mem_of_find?_eq_some hname)] at hinvalid
  · next hnames =>
    have hnames : ∀ name ∈ v.functions.names, Identifier.isValid name = true := by
      simpa using hnames
    split
    · next symbol hsymbol =>
      have hinvalid := List.find?_some hsymbol
      refine iff_of_false nofun fun ⟨_, hsymbols⟩ => ?_
      simp [hsymbols symbol (List.mem_of_find?_eq_some hsymbol)] at hinvalid
    · next hsymbols =>
      have hsymbols : ∀ symbol ∈ v.operators.names, Symbol.isValid symbol = true := by
        simpa using hsymbols
      exact iff_of_true rfl ⟨hnames, hsymbols⟩

/-- The check of the words and the scan agree, for every vocabulary.  A name under which a
    function stands is well formed just when some text has it read as that function, and
    then the name alone is scanned to this one token.  So it is with symbols and operators,
    whatever stands under the parts of a symbol.  Thus the check lets a vocabulary through
    just when every entry of it can be read. -/
theorem recognises_iff_isValid (v : Vocabulary) :
    (∀ name f, v.functions.find? name = some f →
        (Identifier.isValid name = true ↔ v.Recognises ⟨name.toList, .fn f⟩)
          ∧ (Identifier.isValid name = true →
            ∀ implicit, (Scanner.ofText v implicit name).tokenize.1 = .ok [.fn f]))
      ∧ (∀ symbol o, v.operators.find? symbol = some o →
        (Symbol.isValid symbol = true ↔ v.Recognises ⟨symbol.toList, .op o⟩)
          ∧ (Symbol.isValid symbol = true →
            ∀ implicit, (Scanner.ofText v implicit symbol).tokenize.1 = .ok [.op o]))
      ∧ (v.check = .ok ()
        ↔ (∀ name f, v.functions.find? name = some f → v.Recognises ⟨name.toList, .fn f⟩)
          ∧ ∀ symbol o, v.operators.find? symbol = some o →
            v.Recognises ⟨symbol.toList, .op o⟩) := by
  have hfunction : ∀ name f, v.functions.find? name = some f →
      (Identifier.isValid name = true ↔ v.Recognises ⟨name.toList, .fn f⟩) := fun name f hfind =>
    ⟨fun hvalid => (heads_of_isValid_name hvalid hfind).recognises, Recognises.isValid_name⟩
  have hoperator : ∀ symbol o, v.operators.find? symbol = some o →
      (Symbol.isValid symbol = true ↔ v.Recognises ⟨symbol.toList, .op o⟩) := fun symbol o hfind =>
    ⟨fun hvalid => (heads_of_isValid_symbol hvalid hfind).recognises, Recognises.isValid_symbol⟩
  refine ⟨fun name f hfind => ⟨hfunction name f hfind, fun hvalid => ?_⟩,
    fun symbol o hfind => ⟨hoperator symbol o hfind, fun hvalid => ?_⟩, ?_⟩
  · exact (heads_of_isValid_name hvalid hfind).tokenize_eq
  · exact (heads_of_isValid_symbol hvalid hfind).tokenize_eq
  · rw [check_eq_ok_iff]
    exact and_congr (forall₂_congr fun name f => forall_congr' (hfunction name f))
      (forall₂_congr fun symbol o => forall_congr' (hoperator symbol o))

def half : Func := ⟨"half", .unary fun x => .ok (x / 2)⟩

def less : Operator := ⟨"<", 300, .left, .binary fun x y => if x < y then 1 else 0⟩

def shift : Operator := ⟨"<<", 400, .left, .binary fun x y => x * y⟩

/-- One function under two names, of which a digit starts one; and a symbol that starts
    with another symbol and with the empty one. -/
def shifts : Vocabulary where
  functions := ⟨[("half.1", half), ("1half", half)]⟩
  operators := ⟨[("", less), ("<", less), ("<<", shift)]⟩

theorem recognises_iff_isValid_shifts :
    shifts.functions.find? "half.1" = some half ∧ Identifier.isValid "half.1" = true
      ∧ shifts.Recognises ⟨"half.1".toList, .fn half⟩
      ∧ shifts.functions.find? "1half" = some half
      ∧ ¬ shifts.Recognises ⟨"1half".toList, .fn half⟩
      ∧ shifts.operators.find? "<<" = some shift ∧ Symbol.isValid "<<" = true
      ∧ (∀ implicit, (Scanner.ofText shifts implicit "<<").tokenize.1 = .ok [.op shift])
      ∧ shifts.operators.find? "" = some less ∧ ¬ shifts.Recognises ⟨"".toList, .op less⟩
      ∧ shifts.check = .error (.invalidFunctionName "1half") := by
  obtain ⟨hfunctions, hoperators, -⟩ := recognises_iff_isValid shifts
  have hdotted : Identifier.isValid "half.1" = true := rfl
  have hdigit : ¬ Identifier.isValid "1half" = true := Bool.false_ne_true
  have hlong : Symbol.isValid "<<" = true := rfl
  have hempty : ¬ Symbol.isValid "" = true := Bool.false_ne_true
  exact ⟨rfl, hdotted, (hfunctions "half.1" half rfl).1.mp hdotted,
    rfl, mt (hfunctions "1half" half rfl).1.mpr hdigit,
    rfl, hlong, (hoperators "<<" shift rfl).2 hlong,
    rfl, mt (hoperators "" less rfl).1.mpr hempty, rfl⟩

end Vocabulary

end StackCalc
