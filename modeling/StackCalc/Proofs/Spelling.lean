/-
  StackCalc.Proofs.Spelling

  A text that is spelled out is scanned to the same tokens.

  Spelling out a text writes its lexemes with one space between them, and a `*`
  for each product that the scan has put in.  What stands behind a lexeme only
  stops it, so it is read as before where a space or nothing follows
  (`Heads.of_clear`).  What stands before it matters to an operator alone, and no
  product is put before an operator (`Heads.behind`).  So the lexemes of the
  spelled text are the ones that were written (`Scan.spell_written`), and the
  products among them leave no place for another (`insertProducts_idem`).
-/
import StackCalc.Proofs.Segmentation

namespace StackCalc

/-- A space follows, or nothing. -/
def Clear (rest : List Char) : Prop := ∀ c, rest.head? = some c → c = ' '

theorem clear_nil : Clear [] := by
  intro c hc
  cases hc

theorem clear_cons_space (cs : List Char) : Clear (' ' :: cs) := by
  intro c hc
  cases hc
  rfl

theorem IsRun.of_clear {p : Char → Bool} {text rest rest' : List Char} (h : IsRun p text rest)
    (hspace : p ' ' = false) (hclear : Clear rest') : IsRun p text rest' := by
  refine ⟨h.all, fun c hc => ?_⟩
  rw [hclear c hc]
  exact hspace

/-! ## Lexemes in front of a space -/

namespace Numeral

theorem Exponent.head_ne_space {exponent rest : List Char} (h : Exponent exponent rest) :
    exponent.head? ≠ some ' ' := by
  cases h with
  | mk hmark =>
    intro hhead
    cases hhead
    cases hmark

theorem ExponentOrNone.of_clear {exponent rest rest' : List Char}
    (h : ExponentOrNone exponent rest) (hclear : Clear rest') : ExponentOrNone exponent rest' := by
  rcases h with h | ⟨hnil, -⟩
  · cases h with
    | mk hmark hsign hne hdigits =>
      exact Or.inl (.mk hmark hsign hne (hdigits.of_clear rfl hclear))
  · -- what starts with a space is no exponent
    refine Or.inr ⟨hnil, fun exponent' rest'' hrest hexponent => ?_⟩
    cases exponent' with
    | nil => exact hexponent.ne_nil rfl
    | cons c exponent' =>
      have hc : c = ' ' := hclear c (by rw [hrest]; rfl)
      exact hexponent.head_ne_space (by rw [hc]; rfl)

end Numeral

namespace Vocabulary

variable {v : Vocabulary} {previous : Option Token} {l : Lexeme} {rest rest' : List Char}

/-- A symbol that is a whole run has nothing longer to give way to. -/
theorem Heads.symbol_alone {text : List Char} {o : Operator} (hne : text ≠ [])
    (hrun : IsRun Symbol.isChar text rest)
    (ho : v.Denotes (SignPlace previous) (String.ofList text) o) :
    v.Heads previous ⟨text, .op o⟩ rest := by
  have hrun' : IsRun Symbol.isChar (text ++ []) rest := by rwa [List.append_nil]
  have hheads : v.Heads previous ⟨text, .op o⟩ ([] ++ rest) := by
    refine .symbol hne hrun' ho fun longer hprefix hlt => ?_
    have hle := hprefix.length_le
    rw [List.append_nil] at hle
    omega
  exact hheads

/-- A lexeme is the same in front of a space as in front of what stopped it. -/
theorem Heads.of_clear (h : v.Heads previous l rest) (hclear : Clear rest') :
    v.Heads previous l rest' := by
  cases h with
  | @numeral n _ x hne hmantissa hexponent hx =>
    refine .numeral hne ⟨hmantissa.all, ?_⟩ (hexponent.of_clear hclear) hx
    -- the mantissa is stopped by the exponent, if there is one
    intro c hc
    cases hn : n.exponent with
    | nil =>
      rw [hn, List.nil_append] at hc
      rw [hclear c hc]
      rfl
    | cons d digits =>
      rw [hn, List.cons_append, List.head?_cons] at hc
      exact hmantissa.stops c (by rw [hn, List.cons_append, List.head?_cons, hc])
  | word hc htext ht => exact .word hc (htext.of_clear rfl hclear) ht
  | @symbol text more tail o hne hrun ho hlongest =>
    have hrun' : IsRun Symbol.isChar text rest' :=
      ⟨fun c hc => hrun.all c (List.mem_append_left more hc), (hrun.of_clear rfl hclear).stops⟩
    exact .symbol_alone hne hrun' ho
  | lparen => exact .lparen rest'
  | rparen => exact .rparen rest'
  | comma => exact .comma rest'

/-- What starts an operand is the same behind every token. -/
theorem Heads.behind (h : v.Heads previous l rest) (hstarts : l.token.startsOperand = true)
    (other : Option Token) : v.Heads other l rest := by
  cases h with
  | numeral hne hmantissa hexponent hx => exact .numeral hne hmantissa hexponent hx
  | word hc htext ht => exact .word hc htext ht
  | symbol => cases hstarts
  | lparen => exact .lparen rest
  | rparen => exact .rparen rest
  | comma => exact .comma rest

/-- The product is what a `*` stands for, wherever it stands. -/
theorem heads_product (hclear : Clear rest) :
    v.Heads previous (Scanner.productLexeme v) rest := by
  have hdenotes : v.Denotes (SignPlace previous) (String.ofList ['*']) v.product := by
    rw [product]
    cases hfind : v.operators.find? "*" with
    | some o => exact .registered hfind
    | none => exact .binary hfind (fun _ => rfl) rfl
  have hrun : IsRun Symbol.isChar ['*'] rest := by
    refine ⟨fun c hc => ?_, fun c hc => ?_⟩
    · rw [List.mem_singleton.mp hc]
      rfl
    · rw [hclear c hc]
      rfl
  exact .symbol_alone (List.cons_ne_nil _ _) hrun hdenotes

end Vocabulary

/-! ## Lexemes that stand alone -/

namespace Scanner

variable {v : Vocabulary} {previous : Option Token} {cs : List Char} {ls : List Lexeme}

/-- Each lexeme is read behind the token of the one before it, wherever a space or
    nothing follows. -/
inductive Apart (v : Vocabulary) : Option Token → List Lexeme → Prop where
  | nil {previous : Option Token} : Apart v previous []
  | cons {previous : Option Token} {l : Lexeme} {ls : List Lexeme}
      (h : ∀ rest, Clear rest → v.Heads previous l rest) (hrest : Apart v (some l.token) ls) :
      Apart v previous (l :: ls)

theorem Scan.apart (h : Scan v previous cs ls) : Apart v previous ls := by
  induction h with
  | finished => exact .nil
  | lexeme h _ ih =>
    have hheads := (Vocabulary.segment_of_read h).2.1
    exact .cons (fun rest hclear => hheads.of_clear hclear) ih

theorem Apart.insertProducts (h : Apart v previous ls) :
    Apart v previous (insertProducts (productLexeme v) previous ls) := by
  induction h with
  | nil => exact .nil
  | @cons previous l ls h hrest ih =>
    rw [Scanner.insertProducts]
    split
    · next hmeets =>
      -- behind the product stands what starts an operand
      rw [Bool.and_eq_true] at hmeets
      have hbehind : ∀ rest, Clear rest → v.Heads (some (productLexeme v).token) l rest :=
        fun rest hclear => (h rest hclear).behind hmeets.1 _
      exact .cons (fun rest hclear => Vocabulary.heads_product hclear) (.cons hbehind ih)
    · exact .cons h ih

/-- A product stands between two operands, so no other is put beside it. -/
theorem insertProducts_idem (v : Vocabulary) (previous : Option Token) (ls : List Lexeme) :
    insertProducts (productLexeme v) previous (insertProducts (productLexeme v) previous ls)
      = insertProducts (productLexeme v) previous ls := by
  induction ls generalizing previous with
  | nil => rfl
  | cons l ls ih =>
    have hproduct (more : List Lexeme) :
        insertProducts (productLexeme v) previous (productLexeme v :: l :: more)
          = productLexeme v :: l :: insertProducts (productLexeme v) (some l.token) more := by
      have hends : Option.any Token.endsOperand (some (productLexeme v).token) = false := rfl
      have hstarts : (productLexeme v).token.startsOperand = false := rfl
      simp only [insertProducts, hends, hstarts, Bool.false_and, Bool.and_false,
        Bool.false_eq_true, if_false]
    rw [insertProducts]
    split
    · rw [hproduct, ih]
    · next hnot => rw [insertProducts, if_neg hnot, ih]

/-! ## The spelled text -/

/-- Lexemes written one after the other, with a space between them. -/
def spell (ls : List Lexeme) : List Char := [' '].intercalate (ls.map Lexeme.text)

theorem spell_cons (l : Lexeme) (ls : List Lexeme) :
    spell (l :: ls) = l.text ++ ls.flatMap fun m => ' ' :: m.text := by
  induction ls generalizing l with
  | nil => simp [spell]
  | cons m ls ih =>
    have htail : spell (m :: ls) = m.text ++ ls.flatMap fun m => ' ' :: m.text := ih m
    rw [spell, List.map_cons] at htail
    rw [spell, List.map_cons, List.map_cons, List.intercalate_cons_cons, htail,
      List.flatMap_cons, List.append_assoc, List.singleton_append, List.cons_append]

theorem clear_spaced (ls : List Lexeme) : Clear (ls.flatMap fun m => ' ' :: m.text) := by
  cases ls with
  | nil => exact clear_nil
  | cons m ls => exact clear_cons_space _

/-- Lexemes that stand apart are read again, each behind its space. -/
theorem Apart.scan_spaced (h : Apart v previous ls) :
    Scan v previous (ls.flatMap fun m => ' ' :: m.text) ls := by
  induction h with
  | nil => exact .finished rfl
  | @cons previous l ls h _ ih =>
    have hgap : ∀ c ∈ [' '], isBlank c = true := by simp [isBlank]
    have hread := (Vocabulary.read_segment (s := ⟨[' '], l⟩) hgap (h _ (clear_spaced ls))).1
    exact .lexeme hread ih

theorem Apart.scan_spell (h : Apart v previous ls) : Scan v previous (spell ls) ls := by
  cases h with
  | nil => exact .finished rfl
  | @cons _ l ls h hrest =>
    rw [spell_cons]
    have hgap : ∀ c ∈ ([] : List Char), isBlank c = true := by simp
    have hread := (Vocabulary.read_segment (s := ⟨[], l⟩) hgap (h _ (clear_spaced ls))).1
    exact .lexeme hread hrest.scan_spaced

theorem Scan.spell_written (h : Scan v none cs ls) (implicit : Bool) :
    Scan v none (spell (written v implicit none ls)) (written v implicit none ls) := by
  apply Apart.scan_spell
  rw [written]
  split
  · exact h.apart.insertProducts
  · exact h.apart

theorem written_written {implicit again : Bool} (hagain : again = true → implicit = true) :
    written v again none (written v implicit none ls) = written v implicit none ls := by
  cases again with
  | false => rfl
  | true =>
    rw [hagain rfl]
    exact insertProducts_idem v none ls

/-- The text that is spelled out for lexemes, with the products between them. -/
def spelledText (v : Vocabulary) (implicit : Bool) (ls : List Lexeme) : String :=
  String.ofList (spell (written v implicit none ls))

theorem tokenize_spelledText (h : Scan v none cs ls) (implicit again : Bool) :
    (ofText v again (spelledText v implicit ls)).tokenize.1
      = .ok ((written v again none (written v implicit none ls)).map Lexeme.token) := by
  refine tokenize_eq_ok_iff.mpr ⟨_, ?_, rfl⟩
  rw [spelledText, String.toList_ofList]
  exact h.spell_written implicit

/-- A text that is scanned with success falls into lexemes.  When these are
    spelled out, with a `*` for each product that was put in, they are scanned to
    the same tokens, without products or, if the first scan put them in, with them.
    If only the second scan puts products in, it gives what a scan of the text
    itself with products gives. -/
theorem tokenize_spelled {implicit : Bool} {text : String} {ts : List Token}
    (h : (ofText v implicit text).tokenize.1 = .ok ts) :
    ∃ segments tail, Segmented v none text.toList segments tail
      ∧ ts = (written v implicit none (segments.map Segment.lexeme)).map Lexeme.token
      ∧ (∀ again : Bool, (again = true → implicit = true) →
          (ofText v again (spelledText v implicit (segments.map Segment.lexeme))).tokenize.1
            = .ok ts)
      ∧ (implicit = false →
          (ofText v true (spelledText v implicit (segments.map Segment.lexeme))).tokenize.1
            = (ofText v true text).tokenize.1) := by
  obtain ⟨ls, hscan, rfl⟩ := tokenize_eq_ok_iff.mp h
  obtain ⟨segments, tail, hsegmented, rfl⟩ := hscan.exists_segmented
  refine ⟨segments, tail, hsegmented, rfl, fun again hagain => ?_, ?_⟩
  · rw [tokenize_spelledText hscan, written_written hagain]
  · rintro rfl
    have htext : (ofText v true text).tokenize.1 = .ok _ := tokenize_eq_ok_iff.mpr ⟨_, hscan, rfl⟩
    rw [htext, tokenize_spelledText hscan]
    rfl

/-- A product of its own, which stands behind one operand. -/
def doubling : Operator := ⟨"*", 20000, .left, .unary fun x => x + x⟩

/-- The letter that `2` is multiplied with opens no exponent. -/
def exponentLike : List Lexeme :=
  [ ⟨['2'], .num (Numeral.toDecimal ⟨['2'], []⟩).toFloat⟩, ⟨['e'], .var "e"⟩
  , ⟨['+'], .op .add⟩, ⟨['x'], .var "x"⟩ ]

theorem tokenize_spelled_exponentLike :
    ∃ ts, (ofText (({} : Vocabulary).addOperator doubling) true "2e+x").tokenize.1 = .ok ts
      ∧ spelledText (({} : Vocabulary).addOperator doubling) true exponentLike = "2 * e + x"
      ∧ ∀ again, (ofText (({} : Vocabulary).addOperator doubling) again "2 * e + x").tokenize.1
        = .ok ts := by
  have hscan : Scan (({} : Vocabulary).addOperator doubling) none "2e+x".toList exponentLike :=
    .lexeme rfl (.lexeme rfl (.lexeme rfl (.lexeme rfl (.finished rfl))))
  have hfirst : (ofText (({} : Vocabulary).addOperator doubling) true "2e+x").tokenize.1 = .ok _ :=
    tokenize_eq_ok_iff.mpr ⟨_, hscan, rfl⟩
  obtain ⟨segments, tail, hsegmented, -, hagain, -⟩ := tokenize_spelled hfirst
  have hlexemes : segments.map Segment.lexeme = exponentLike :=
    hsegmented.scan.unique hscan
  have htext : spelledText (({} : Vocabulary).addOperator doubling) true exponentLike
      = "2 * e + x" := rfl
  rw [hlexemes, htext] at hagain
  exact ⟨_, hfirst, htext, fun again => hagain again fun _ => rfl⟩

/-- Two variables side by side. -/
def sideBySide : List Segment :=
  [⟨[], ⟨['x'], .var "x"⟩⟩, ⟨[' '], ⟨['y'], .var "y"⟩⟩]

/-- Lexemes that were read without products do not stay as they are in a scan that
    puts products in. -/
theorem tokenize_spelled_ne_of_products :
    (ofText {} false "x y").tokenize.1 = .ok [.var "x", .var "y"]
      ∧ Segmented {} none "x y".toList sideBySide []
      ∧ spelledText {} false (sideBySide.map Segment.lexeme) = "x y"
      ∧ (ofText {} true (spelledText {} false (sideBySide.map Segment.lexeme))).tokenize.1
        ≠ .ok [.var "x", .var "y"] := by
  have hscan : Scan {} none "x y".toList (sideBySide.map Segment.lexeme) :=
    .lexeme rfl (.lexeme rfl (.finished rfl))
  refine ⟨tokenize_eq_ok_iff.mpr ⟨_, hscan, rfl⟩, ?_, rfl, ?_⟩
  · have hblank : ∀ c ∈ [' '], isBlank c = true := by simp [isBlank]
    have hx : Vocabulary.Heads {} none ⟨['x'], .var "x"⟩ [' ', 'y'] :=
      Vocabulary.heads_of_readHere (rfl : Vocabulary.readHere {} none ['x', ' ', 'y'] = _)
    have hy : Vocabulary.Heads {} (some (.var "x")) ⟨['y'], .var "y"⟩ [] :=
      Vocabulary.heads_of_readHere (rfl : Vocabulary.readHere {} _ ['y'] = _)
    have hend : Segmented {} (some (.var "y")) [] [] [] := .blanks (by simp)
    exact .segment (s := ⟨[], ⟨['x'], .var "x"⟩⟩) (by simp) hx
      (.segment (s := ⟨[' '], ⟨['y'], .var "y"⟩⟩) hblank hy hend)
  · rw [tokenize_spelledText hscan]
    intro heq
    have hlength := congrArg List.length (Except.ok.inj heq)
    exact absurd hlength (by decide)

end Scanner

end StackCalc
