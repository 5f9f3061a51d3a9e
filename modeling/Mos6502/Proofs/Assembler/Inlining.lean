/-
# Constants can be written out

A line can define a name as a constant, by a number or a quoted character
(`IsDefinition`). On the lines behind it, wherever the name is an expression of its own
it can be replaced by that literal (`WritesOut`): the line is then read with a body
that agrees (`WritesOut.readsAs`). The source is accepted as before, with the same
image, symbols, warnings and listing (`constants_can_be_written_out`).

Key definitions: `IsDefinition`, `WritesOut`, `WrittenOut`, `Program.SameReport`.
Key theorems: `knows_of_addLine`, `WritesOut.readsAs`, `constants_can_be_written_out`.
-/
import Mos6502.Proofs.Assembler.Constant
import Mathlib.Logic.Relation

namespace Mos6502
namespace Assembler

open Text

/-- The line defines the name as a constant, by a literal. -/
structure IsDefinition (text : List Char) (name : String) (literal : List Char) (number : Number) :
    Prop where
  read_eq : ∃ line, Line.read text = .ok (some line) ∧ line.label = some name ∧
    line.operation = some ".EQU" ∧ line.operand = literal
  number_eq : Expression.read literal = .ok (.literal number)

/-- A line is written with the literal of a constant in place of its name. What stands
between is the name, whatever its case and blanks, and is an expression of its own in the
operand. -/
inductive WritesOut (name : String) (literal : List Char) : List Char → List Char → Prop
  | intro {front before occurrence written after comment operation : List Char}
      {label : Option (List Char)} (hfront : Front front label (some operation))
      (hstart : StartsBlank before) (hne : before ≠ [])
      (hcode : IsCode (front ++ (before ++ (occurrence ++ after))))
      (hcomment : comment = [] ∨ comment.head? = some ';')
      (hclosed : endsOpen (front ++ before) = false)
      (hoccurrence : compact occurrence = name.toList) (hwritten : compact written = literal)
      (hslot : Slot (operationName operation) (compact before) (compact after)) :
      WritesOut name literal (front ++ (before ++ (occurrence ++ after)) ++ comment)
        (front ++ (before ++ (written ++ after)) ++ comment)

/-- A source is written with a constant in place of its name, any number of times on any
lines behind the definition. -/
inductive WrittenOut (source inlined : String) : Prop
  | intro {before after others : List (List Char)} {definition literal : List Char} {name : String}
      {number : Number} (hsource : lines source.toList = before ++ definition :: after)
      (hinlined : lines inlined.toList = before ++ definition :: others)
      (hdefinition : IsDefinition definition name literal number)
      (hlines : List.Forall₂ (Relation.ReflTransGen (WritesOut name literal)) after others)

/-- Programs with the same image, symbols, warnings and listing. -/
structure Program.SameReport (program other : Program) : Prop where
  image_eq : other.image = program.image
  symbols_eq : other.symbols = program.symbols
  warnings_eq : other.warnings = program.warnings
  listing_eq : other.listing = program.listing

/-! ### The definition -/

theorem endsOpen_operand {text : List Char} {line : Line} (hread : Line.read text = .ok (some line))
    (hquoteless : line.Quoteless) : endsOpen line.operand = false := by
  obtain ⟨code, front, label, operation, operand, hcode, hsplits, hline⟩ :=
    Line.exists_splits_of_read hread
  have hclosed := (uncomment_eq_ok_iff.mp hcode).2
  rw [hsplits.code_eq, endsOpen_append, hline.endsOpen_front hsplits.front hquoteless,
    Bool.false_bne] at hclosed
  rw [hline.operand_eq, compact_trimEnd hclosed, compact_eq, endsOpen_compactFrom, hclosed]

/-- **Behind its definition a constant is known.** -/
theorem knows_of_addLine {layout : Layout} (hgo : layout.finished = false)
    (hcounter : layout.counter ≤ 0x10000) {text literal : List Char} {name : String}
    {number : Number} (hdefinition : IsDefinition text name literal number) {index : Nat}
    (h : (layout.addLine (text, index)).errors = #[]) :
    Constant name literal number ∧ Knows name number (layout.addLine (text, index)).symbols := by
  obtain ⟨line, hread, hlabel, hoperation, hoperand⟩ := hdefinition.read_eq
  rcases Layout.addLine_eq hgo hcounter h with ⟨hblank, -⟩ | ⟨_, body, hsome, hbody, -, e⟩
  · rw [hread] at hblank
    cases hblank
  rw [hread] at hsome
  cases hsome
  have hdefines := Layout.defines_of_errors hgo hread hbody h
  obtain ⟨hnamed, -, hnew⟩ := hdefines name hlabel
  have hquoteless := Line.quoteless_of_ofLine (fun name hname => (hdefines name hname).1) hbody
  have hclosed := endsOpen_operand hread hquoteless
  rw [hoperand] at hclosed
  refine ⟨⟨hnamed, hdefinition.number_eq, hclosed⟩, ?_⟩
  have hequate : body = .directive (.equate number) := by
    have hdot : ".EQU".toList.head? = some '.' := rfl
    simp only [Body.ofLine, hoperation, hdot, if_true, Directive.read, hlabel, Option.isSome_some,
      hoperand, knownValue, hdefinition.number_eq] at hbody
    exact (Except.ok.inj hbody).symm
  rw [SymbolTable.number?, Option.map_eq_none_iff] at hnew
  have hadded : layout.symbols.add ⟨name, number.value, number.zeroPage, index⟩ =
      .ok (layout.addLine (text, index)).symbols := by
    simp only [e, Layout.extend, Row.symbol?, hlabel, hequate, Option.map_some,
      Option.toList_some, Body.labelled, UInt16.ofNat_toNat, SymbolTable.add, hnew]
    rfl
  rw [Knows, SymbolTable.number?, SymbolTable.find?_add hadded, if_pos rfl]
  rfl

/-! ### Lines -/

variable {name : String} {literal : List Char} {number : Number}

/-- **With the literal written out a line is read as before.** -/
theorem WritesOut.readsAs (hconstant : Constant name literal number) {text other : List Char}
    (h : WritesOut name literal text other) : ReadsAs (Knows name number) text other := by
  obtain @⟨front, before, occurrence, written, after, comment, operation, label, hfront, hstart,
    hne, hcode, hcomment, hclosed, hoccurrence, hwritten, hslot⟩ := h
  have hwrittenCode : IsCode written := isCode_of_compact (hwritten ▸ hconstant.isCode_literal)
  have hoccurrenceClosed : endsOpen occurrence = false := by
    rw [← endsOpen_compactFrom false, ← compact_eq, hoccurrence, hconstant.isAtom_name.closed]
  -- the code before the name, and behind it
  have hparts := hcode
  rw [← List.append_assoc] at hparts
  obtain ⟨hlead, hrest⟩ := hparts.of_append hclosed
  obtain ⟨-, hafter⟩ := hrest.of_append hoccurrenceClosed
  have hotherCode : IsCode (front ++ (before ++ (written ++ after))) := by
    rw [← List.append_assoc]
    exact hlead.append (hwrittenCode.append hafter)
  have hsplits : ∀ rest, Splits (front ++ (before ++ rest)) front label (some operation)
      (before ++ rest) := fun rest => ⟨rfl, hfront, hstart.append hne, nofun⟩
  obtain ⟨line, hread, hline⟩ :=
    Line.read_of_splits (hcode.uncomment_append hcomment) (hsplits (occurrence ++ after))
  obtain ⟨otherLine, hother, hotherLine⟩ :=
    Line.read_of_splits (hotherCode.uncomment_append hcomment) (hsplits (written ++ after))
  refine ⟨fun hblank => ?_, fun {symbols _ body} hknows hsome hnamed hbody => ?_⟩
  · rw [hread] at hblank
    cases hblank
  rw [hread] at hsome
  cases hsome
  have hfrontClosed := hline.endsOpen_front hfront (Line.quoteless_of_ofLine hnamed hbody)
  have hbeforeClosed : endsOpen before = false := by
    rwa [endsOpen_append, hfrontClosed, Bool.false_bne] at hclosed
  have hoperand : ∀ piece, endsOpen piece = false →
      compact (trimEnd (before ++ (piece ++ after))) =
        compact before ++ (compact piece ++ compact after) := by
    intro piece hpiece
    have hwhole : endsOpen (before ++ (piece ++ after)) = false := by
      rw [endsOpen_append, endsOpen_append, hbeforeClosed, hpiece, hafter.endsOpen_eq]
      rfl
    rw [compact_trimEnd hwhole, compact_append hbeforeClosed, compact_append hpiece]
  have hlineOperand : line.operand = compact before ++ (name.toList ++ compact after) := by
    rw [hline.operand_eq, hoperand occurrence hoccurrenceClosed, hoccurrence]
  have hotherOperand : otherLine.operand = compact before ++ (literal ++ compact after) := by
    rw [hotherLine.operand_eq, hoperand written hwrittenCode.endsOpen_eq, hwritten]
  have hlabel : otherLine.label = line.label := hotherLine.label_eq.trans hline.label_eq.symm
  have hcompactClosed : endsOpen (compact before) = false := by
    rw [compact_eq, endsOpen_compactFrom, hbeforeClosed]
  obtain ⟨otherBody, hotherBody, hagrees⟩ := hconstant.exists_agrees hlineOperand hotherOperand
    hknows hslot hcompactClosed hlabel hline.operation_eq hotherLine.operation_eq hbody
  exact ⟨otherLine, otherBody, hother, hlabel, hotherBody, hagrees⟩

/-- Lines stand beside those in which the literal is written out. -/
theorem alongside_of_writesOut (hconstant : Constant name literal number)
    {texts others : List (List Char)}
    (h : List.Forall₂ (Relation.ReflTransGen (WritesOut name literal)) texts others) :
    ∀ index, Alongside Eq (Knows name number) (texts.zipIdx index) (others.zipIdx index) := by
  induction h with
  | nil => exact fun _ => .nil
  | cons hfirst _ ih =>
    intro index
    refine .both ?_ rfl (ih (index + 1))
    induction hfirst with
    | refl => exact .refl _
    | tail _ hstep hreads => exact hreads.trans (hstep.readsAs hconstant)

/-! ### Sources -/

theorem Knows.of_prefix {symbols extended : SymbolTable}
    (hinit : symbols.symbols <+: extended.symbols) (h : Knows name number symbols) :
    Knows name number extended := by
  rw [Knows, SymbolTable.number?, Option.map_eq_some_iff] at h ⊢
  obtain ⟨symbol, hfind, hnumber⟩ := h
  exact ⟨symbol, SymbolTable.find?_of_prefix hinit hfind, hnumber⟩

theorem Program.Agrees.sameReport {program other : Program} (h : program.Agrees Eq other) :
    program.SameReport other := by
  refine ⟨h.image_eq, ?_, ?_, ?_⟩
  · rw [← List.forall₂_eq_eq_eq]
    refine h.symbols.flip.imp fun ⟨_, _, _, _⟩ ⟨_, _, _, _⟩ ⟨hname, hvalue, hzeroPage, hline⟩ => ?_
    exact Symbol.mk.injEq .. ▸ ⟨hname, hvalue, hzeroPage, hline.symm⟩
  · rw [← List.forall₂_eq_eq_eq]
    refine h.warnings.flip.imp fun ⟨_, _⟩ ⟨_, _⟩ ⟨hline, haddress⟩ => ?_
    exact Warning.mk.injEq .. ▸ ⟨hline.symm, haddress⟩
  · rw [← List.forall₂_eq_eq_eq]
    refine h.listing.flip.imp fun ⟨_, _⟩ ⟨_, _⟩ ⟨hline, hfield⟩ => ?_
    exact Listing.Entry.mk.injEq .. ▸ ⟨hline.symm, hfield⟩

/-- Behind the definition of a constant, lines in which it is written out keep the layout. -/
theorem agrees_of_writesOut {layout : Layout} (hcounter : layout.counter ≤ 0x10000)
    {definition : List Char} (hdefinition : IsDefinition definition name literal number)
    {texts others : List (List Char)}
    (hlines : List.Forall₂ (Relation.ReflTransGen (WritesOut name literal)) texts others)
    {index : Nat}
    (herrors : (((definition :: texts).zipIdx index).foldl Layout.addLine layout).errors = #[]) :
    (((definition :: texts).zipIdx index).foldl Layout.addLine layout) =
        (((definition :: others).zipIdx index).foldl Layout.addLine layout) ∨
      Knows name number (((definition :: texts).zipIdx index).foldl Layout.addLine layout).symbols ∧
      (((definition :: texts).zipIdx index).foldl Layout.addLine layout).Agrees Eq
        (Knows name number) (((definition :: others).zipIdx index).foldl Layout.addLine layout) := by
  by_cases hgo : layout.finished = true
  · rw [Layout.foldl_addLine_finished hgo, Layout.foldl_addLine_finished hgo]
    exact .inl rfl
  rw [Bool.not_eq_true] at hgo
  rw [List.zipIdx_cons, List.foldl_cons] at herrors ⊢
  rw [List.zipIdx_cons, List.foldl_cons]
  have hfirst := Layout.errors_foldl_addLine herrors
  obtain ⟨hconstant, hknows⟩ := knows_of_addLine hgo hcounter hdefinition hfirst
  refine .inr ⟨hknows.of_prefix (Layout.symbols_prefix_foldl_addLine _ _), ?_⟩
  exact Layout.Agrees.foldl_addLine Knows.of_prefix (alongside_of_writesOut hconstant hlines _)
    (.refl (fun _ => rfl) hfirst) (Layout.counter_addLine_le hcounter _) hknows herrors

/-- **A constant can be written out.** Wherever the name of a constant is an expression
of its own on a line behind its definition, the literal can be written in its place. A
source that is accepted stays so, with the same image, symbols, warnings and listing. -/
theorem constants_can_be_written_out {source inlined : String} {program : Program}
    (h : assemble source = .ok program) (hwritten : WrittenOut source inlined) :
    ∃ other, assemble inlined = .ok other ∧ program.SameReport other := by
  obtain @⟨before, after, others, definition, literal, name, number, hsource, hinlined, hdefinition,
    hlines⟩ := hwritten
  have hcounter := Layout.counter_foldl_addLine_le (before.zipIdx 1) .empty (Nat.zero_le _)
  have hsplit : ∀ rest, ((before ++ rest).zipIdx 1).foldl Layout.addLine .empty =
      (rest.zipIdx (1 + before.length)).foldl Layout.addLine
        ((before.zipIdx 1).foldl Layout.addLine .empty) := fun rest => by
    rw [List.zipIdx_append, List.foldl_append]
  rw [assemble, Layout.ofSource, numberedLines, hsource, hsplit] at h
  rw [assemble, Layout.ofSource, numberedLines, hinlined, hsplit]
  rcases agrees_of_writesOut hcounter hdefinition hlines (Program.ofLayout_eq_ok h).1 with
    hsame | ⟨hknows, hagrees⟩
  · rw [← hsame]
    exact ⟨program, h, rfl, rfl, rfl, rfl⟩
  · obtain ⟨other, hother, hprogram⟩ := hagrees.ofLayout hknows h
    exact ⟨other, hother, hprogram.sameReport⟩

/-- A source with a quoted character as a constant, used on two lines. -/
def namedSource : String := "MARK .EQU 'x'\n LDA #MARK\nTEXT .DB 1, mark,';' ; end\n"

/-- The same with the character written out. -/
def inlinedSource : String := "MARK .EQU 'x'\n LDA #'x'\nTEXT .DB 1, 'x',';' ; end\n"

theorem writtenOut_namedSource : WrittenOut namedSource inlinedSource := by
  have hsource : lines namedSource.toList = [] ++ "MARK .EQU 'x'".toList ::
      [" LDA #MARK".toList, "TEXT .DB 1, mark,';' ; end".toList] := by
    decide +kernel
  have hinlined : lines inlinedSource.toList = [] ++ "MARK .EQU 'x'".toList ::
      [" LDA #'x'".toList, "TEXT .DB 1, 'x',';' ; end".toList] := by
    decide +kernel
  have hdefinition : IsDefinition "MARK .EQU 'x'".toList "MARK" "'x'".toList ⟨0x78, true⟩ :=
    ⟨⟨⟨some "MARK", some ".EQU", "'x'".toList, 0, 13⟩, by decide +kernel, rfl, rfl, rfl⟩,
      by decide +kernel⟩
  have hgap : IsGap " ".toList := List.forall_mem_singleton.mpr (by decide)
  have hstart : ∀ text : List Char, StartsBlank (' ' :: text) := fun _ c hc => by
    cases hc
    decide
  have hload : Front " LDA".toList none (some "LDA".toList) :=
    @Front.operation " ".toList "LDA".toList hgap (by decide) (by decide)
  have hdata : Front "TEXT .DB".toList (some "TEXT".toList) (some ".DB".toList) :=
    @Front.labelled [] "TEXT".toList " ".toList ".DB".toList nofun (by decide) (by decide) hgap
      (by decide) (by decide)
  have himmediate : Slot (operationName "LDA".toList) ['#'] [] :=
    @Slot.instruction _ .lda _ _ _ (by decide +kernel) .immediate
  have hfirst : WritesOut "MARK" "'x'".toList " LDA #MARK".toList " LDA #'x'".toList :=
    @WritesOut.intro _ _ " LDA".toList " #".toList "MARK".toList "'x'".toList [] [] _ _ hload
      (hstart _) (by decide) ⟨by decide, by decide⟩ (.inl rfl) (by decide) (by decide) (by decide)
      himmediate
  have hsecond : WritesOut "MARK" "'x'".toList "TEXT .DB 1, mark,';' ; end".toList
      "TEXT .DB 1, 'x',';' ; end".toList :=
    @WritesOut.intro _ _ "TEXT .DB".toList " 1, ".toList "mark".toList "'x'".toList ",';' ".toList
      "; end".toList _ _ hdata (hstart _) (by decide) ⟨by decide, by decide⟩ (.inr rfl) (by decide)
      (by decide) (by decide) (.data (.inr (by decide)) (.inr (by decide)))
  exact .intro hsource hinlined hdefinition (.cons (.single hfirst) (.cons (.single hsecond) .nil))

theorem namedSource_can_be_inlined :
    ∃ program other, assemble namedSource = .ok program ∧
      program.image.toList = [(0, 0xA9), (1, 0x78), (2, 1), (3, 0x78), (4, 0x3B)] ∧
      WrittenOut namedSource inlinedSource ∧ assemble inlinedSource = .ok other ∧
      program.SameReport other := by
  have hresult : (assemble namedSource).toOption.map (fun program => program.image.toList) =
      some [(0, 0xA9), (1, 0x78), (2, 1), (3, 0x78), (4, 0x3B)] := by
    decide +kernel
  obtain ⟨program, h, himage⟩ := Result.exists_of_map_toOption hresult
  obtain ⟨other, hother, hsame⟩ := constants_can_be_written_out h writtenOut_namedSource
  exact ⟨program, other, h, himage, writtenOut_namedSource, hother, hsame⟩

end Assembler
end Mos6502
