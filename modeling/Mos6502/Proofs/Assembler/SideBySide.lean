/-
# Two sources side by side

What a line asks for and what it comes to depend on the symbols only through their
values and widths (`Body.ofLine_congr`, `Statement.emit_congr`). So a source can be
read along with another one whose lines ask for bodies that agree with its own,
wherever enough is known of the symbols (`ReadsAs`): one line on both sides keeps
the layouts in agreement (`Layout.Agrees.addLine`), and so do all lines, of which
those without fields may be on one side only (`Layout.Agrees.foldl_addLine`). Where
the first source is accepted the other one is too, and the programs agree
(`Layout.Agrees.ofLayout`).

Which line numbers correspond, and what is known of the symbols, are parameters.

Key definitions: `SymbolTable.number?`, `Body.Agrees`, `ReadsAs`, `Alongside`,
`Layout.Agrees`, `Program.Agrees`.
Key theorems: `Body.ofLine_congr`, `Statement.emit_congr`, `Layout.Agrees.addLine`,
`Layout.Agrees.foldl_addLine`, `Layout.Agrees.ofLayout`.
-/
import Mos6502.Proofs.Assembler.Overwrite
import Mos6502.Proofs.Assembler.ZeroPage

namespace Mos6502
namespace Assembler

open Text

/-! ### What symbols are used for -/

/-- The value and width of a name. -/
def SymbolTable.number? (symbols : SymbolTable) (name : String) : Option Number :=
  (symbols.find? name).map fun symbol => ⟨symbol.value, symbol.zeroPage⟩

namespace Expression

theorem resolve_symbol (symbols : SymbolTable) (name : String) (offset : Int) :
    (symbol name offset).resolve symbols =
      match symbols.number? name with
      | none => .error (.undefinedSymbol name)
      | some number =>
        if 0 ≤ (number.value.toNat + offset : Int) ∧
            (number.value.toNat + offset : Int) ≤ 0xFFFF then
          .ok (UInt16.ofNat (number.value.toNat + offset : Int).toNat)
        else .error (.outsideMemory name offset) := by
  simp only [resolve, SymbolTable.number?]
  cases symbols.find? name <;> rfl

theorem isZeroPage_symbol (symbols : SymbolTable) (name : String) (offset : Int) :
    (symbol name offset).isZeroPage symbols =
      match symbols.number? name with
      | none => false
      | some number =>
        number.zeroPage && decide (0 ≤ (number.value.toNat + offset : Int)) &&
          decide ((number.value.toNat + offset : Int) ≤ 0xFF) := by
  simp only [isZeroPage, SymbolTable.number?]
  cases symbols.find? name <;> rfl

end Expression

section Congruence

variable {symbols other : SymbolTable} (h : symbols.number? = other.number?)

include h

theorem Expression.resolve_congr (value : Expression) :
    value.resolve symbols = value.resolve other := by
  cases value with
  | literal number => rfl
  | symbol name offset => rw [resolve_symbol, resolve_symbol, h]

theorem Expression.isZeroPage_congr (value : Expression) :
    value.isZeroPage symbols = value.isZeroPage other := by
  cases value with
  | literal number => rfl
  | symbol name offset => rw [isZeroPage_symbol, isZeroPage_symbol, h]

theorem selectMode_congr (m : Mnemonic) (operand : Operand) :
    selectMode m symbols operand = selectMode m other operand := by
  have hmode : requestedMode m symbols operand = requestedMode m other operand := by
    cases operand <;> simp only [requestedMode, Expression.isZeroPage_congr h]
  rw [selectMode, selectMode, hmode]

theorem knownValue_congr (text : List Char) : knownValue symbols text = knownValue other text := by
  have hwidth : ∀ table : SymbolTable, ∀ name,
      (table.find? name).any Symbol.zeroPage = (table.number? name).any Number.zeroPage := by
    intro table name
    rw [SymbolTable.number?]
    cases table.find? name <;> rfl
  simp only [knownValue, Expression.resolve_congr h, hwidth, h]

/-- **What a line asks for** depends on the values and widths of the symbols. -/
theorem Body.ofLine_congr {line otherLine : Line} (hlabel : line.label = otherLine.label)
    (hoperation : line.operation = otherLine.operation)
    (hoperand : line.operand = otherLine.operand) :
    Body.ofLine symbols line = Body.ofLine other otherLine := by
  simp only [Body.ofLine, hlabel, hoperation, hoperand, Directive.read, Body.readInstruction,
    knownValue_congr h, selectMode_congr h]

theorem encode_congr (m : Mnemonic) (mode : AddressingMode) (operand : Operand) (address : UInt16) :
    encode m mode operand address symbols = encode m mode operand address other := by
  have hoperand : encodeOperand mode address symbols operand =
      encodeOperand mode address other operand := by
    cases operand <;> simp only [encodeOperand, Expression.resolve_congr h]
  simp only [encode, hoperand]

theorem emitData_congr (items : List Datum) : emitData symbols items = emitData other items := by
  have hdatum : Datum.emit symbols = Datum.emit other := by
    funext datum
    cases datum <;> simp only [Datum.emit, Expression.resolve_congr h]
  simp only [emitData, hdatum]

/-- **What a statement comes to** depends on the values and widths of the symbols. -/
theorem Statement.emit_congr (s : Statement) : s.emit symbols = s.emit other := by
  simp only [Statement.emit, encode_congr h, emitData_congr h]

end Congruence

/-! ### Agreement -/

section Agreement

variable (lines : Nat → Nat → Prop) (knows : SymbolTable → Prop)

/-- A symbol is another one, defined on a line that corresponds. -/
structure Symbol.Agrees (symbol other : Symbol) : Prop where
  name_eq : other.name = symbol.name
  value_eq : other.value = symbol.value
  zeroPage_eq : other.zeroPage = symbol.zeroPage
  line : lines symbol.line other.line

/-- A body takes the same place as another one and comes to the same, whatever the
symbols are that have what is known of them. -/
structure Body.Agrees (body other : Body) : Prop where
  size_eq : other.size = body.size
  placement_eq : ∀ counter, Layout.placement counter other = Layout.placement counter body
  labelValue_eq : ∀ counter, Layout.labelValue counter other = Layout.labelValue counter body
  finish_iff : other = .directive .finish ↔ body = .directive .finish
  emit_eq : ∀ symbols, knows symbols → ∀ address location otherLocation,
    Statement.emit symbols ⟨address, otherLocation, other⟩ =
      Statement.emit symbols ⟨address, location, body⟩

/-- A statement stands at the same address as another one, and their bodies agree. -/
structure Statement.Agrees (s other : Statement) : Prop where
  address_eq : other.address = s.address
  line : lines s.location.line other.location.line
  body : s.body.Agrees knows other.body

/-- Whenever one text can be read, so can the other, which then has the same label
and a body that agrees. -/
structure ReadsAs (text other : List Char) : Prop where
  blank : Line.read text = .ok none → Line.read other = .ok none
  filled : ∀ {symbols line body}, knows symbols → Line.read text = .ok (some line) → line.Named →
    Body.ofLine symbols line = .ok body →
      ∃ otherLine otherBody, Line.read other = .ok (some otherLine) ∧
        otherLine.label = line.label ∧ Body.ofLine symbols otherLine = .ok otherBody ∧
        body.Agrees knows otherBody

/-- Lines stand beside others that can be read as they are, except that either side may
have further lines without fields. -/
inductive Alongside : List (List Char × Nat) → List (List Char × Nat) → Prop
  | nil : Alongside [] []
  | both {text other : List Char} {number otherNumber : Nat} {rest others : List (List Char × Nat)}
      (hreads : ReadsAs knows text other) (hlines : lines number otherNumber)
      (hrest : Alongside rest others) :
      Alongside ((text, number) :: rest) ((other, otherNumber) :: others)
  | left {text : List Char} {number : Nat} {rest others : List (List Char × Nat)}
      (hblank : Line.read text = .ok none) (hrest : Alongside rest others) :
      Alongside ((text, number) :: rest) others
  | right {other : List Char} {number : Nat} {rest others : List (List Char × Nat)}
      (hblank : Line.read other = .ok none) (hrest : Alongside rest others) :
      Alongside rest ((other, number) :: others)

/-- Layouts without errors that stand at the same place with the same symbols. -/
structure Layout.Agrees (layout other : Layout) : Prop where
  counter_eq : other.counter = layout.counter
  finished_eq : other.finished = layout.finished
  symbols : List.Forall₂ (Symbol.Agrees lines) layout.symbols.symbols other.symbols.symbols
  statements : List.Forall₂ (Statement.Agrees lines knows) layout.statements.toList
    other.statements.toList
  errors_eq : layout.errors = #[]
  otherErrors_eq : other.errors = #[]

/-- Programs that differ at most in line numbers, and in these as lines correspond. -/
structure Program.Agrees (program other : Program) : Prop where
  image_eq : other.image = program.image
  symbols : List.Forall₂ (Symbol.Agrees lines) program.symbols other.symbols
  listing : List.Forall₂ (fun entry other : Listing.Entry =>
    lines entry.line other.line ∧ other.field = entry.field) program.listing other.listing
  warnings : List.Forall₂ (fun warning other : Warning =>
    lines warning.line other.line ∧ other.address = warning.address) program.warnings other.warnings

end Agreement

variable {lines : Nat → Nat → Prop} {knows : SymbolTable → Prop}

theorem Body.Agrees.refl (body : Body) : body.Agrees knows body :=
  ⟨rfl, fun _ => rfl, fun _ => rfl, Iff.rfl, fun _ _ _ _ _ => rfl⟩

theorem Body.Agrees.trans {first second third : Body} (hfirst : first.Agrees knows second)
    (hsecond : second.Agrees knows third) : first.Agrees knows third where
  size_eq := hsecond.size_eq.trans hfirst.size_eq
  placement_eq counter := (hsecond.placement_eq counter).trans (hfirst.placement_eq counter)
  labelValue_eq counter := (hsecond.labelValue_eq counter).trans (hfirst.labelValue_eq counter)
  finish_iff := hsecond.finish_iff.trans hfirst.finish_iff
  emit_eq symbols hknows address location otherLocation :=
    (hsecond.emit_eq symbols hknows address location otherLocation).trans
      (hfirst.emit_eq symbols hknows address location location)

theorem ReadsAs.refl (text : List Char) : ReadsAs knows text text :=
  ⟨id, fun {_ line body} _ hread _ hbody => ⟨line, body, hread, rfl, hbody, .refl body⟩⟩

theorem ReadsAs.trans {first second third : List Char} (hfirst : ReadsAs knows first second)
    (hsecond : ReadsAs knows second third) : ReadsAs knows first third := by
  refine ⟨fun hblank => hsecond.blank (hfirst.blank hblank), fun hknows hread hnamed hbody => ?_⟩
  obtain ⟨line, body, hread, hlabel, hbody, hagrees⟩ := hfirst.filled hknows hread hnamed hbody
  obtain ⟨lastLine, lastBody, hlast, hlastLabel, hlastBody, hlastAgrees⟩ :=
    hsecond.filled hknows hread (fun name hname => hnamed name (hlabel ▸ hname)) hbody
  exact ⟨lastLine, lastBody, hlast, hlastLabel.trans hlabel, hlastBody, hagrees.trans hlastAgrees⟩

theorem Body.Agrees.advance_eq {body other : Body} (h : body.Agrees knows other) (counter : Nat) :
    other.advance counter = body.advance counter := by
  rw [Body.advance_eq, Body.advance_eq, h.size_eq, h.placement_eq]

theorem Body.Agrees.labelled_eq {body other : Body} (h : body.Agrees knows other) (counter : Nat) :
    other.labelled counter = body.labelled counter := by
  rw [Body.labelled_eq, Body.labelled_eq, h.labelValue_eq]

/-- Symbols that agree have the same names, values and widths. -/
theorem number?_eq_of_forall₂ {symbols other : SymbolTable}
    (h : List.Forall₂ (Symbol.Agrees lines) symbols.symbols other.symbols) :
    symbols.number? = other.number? := by
  obtain ⟨first⟩ := symbols
  obtain ⟨second⟩ := other
  funext name
  simp only [SymbolTable.number?, SymbolTable.find?]
  change List.Forall₂ (Symbol.Agrees lines) first second at h
  induction h with
  | nil => rfl
  | @cons symbol otherSymbol _ _ hsymbol _ ih =>
    rw [List.find?_cons, List.find?_cons, hsymbol.name_eq]
    cases symbol.name == name with
    | true => simp only [Option.map_some, hsymbol.value_eq, hsymbol.zeroPage_eq]
    | false => exact ih

/-! ### A line -/

namespace Layout

/-- The label of a line can be defined. -/
def Defines (layout : Layout) (line : Line) (body : Body) : Prop :=
  ∀ name ∈ line.label, validateLabel name.toList = .ok () ∧
    (labelValue layout.counter body).1 ≤ 0xFFFF ∧ layout.symbols.number? name = none

theorem addLine_of_defines {layout : Layout} (hgo : layout.finished = false) {text : List Char}
    {line : Line} {body : Body} (hread : Line.read text = .ok (some line))
    (hbody : Body.ofLine layout.symbols line = .ok body) (hdefines : layout.Defines line body)
    (hadvance : body.advance layout.counter ≤ 0x10000) (number : Nat) :
    layout.addLine (text, number) = layout.extend ⟨number, line, body, layout.counter⟩ := by
  rw [Body.advance_eq] at hadvance
  have hplace : ¬0x10000 < placement layout.counter body + body.size := Nat.not_lt.mpr hadvance
  simp only [addLine, hgo, Bool.false_eq_true, if_false, hread, hbody]
  cases hlabel : line.label with
  | none =>
    simp only [define, place, extend, Row.symbol?, hlabel, Option.map_none, Option.toList_none,
      List.append_nil, Body.advance_eq]
    exact if_neg hplace
  | some name =>
    obtain ⟨hname, hvalue, hnew⟩ := hdefines name hlabel
    have hdefine : defineLabel layout.symbols name (labelValue layout.counter body) number = _ :=
      defineLabel_eq_ok.mpr ⟨hname, hvalue, Option.map_eq_none_iff.mp hnew, rfl⟩
    simp only [define, hdefine, place, extend, Row.symbol?, hlabel, Option.map_some,
      Option.toList_some, Body.advance_eq, Body.labelled_eq]
    exact if_neg hplace

theorem defines_of_errors {layout : Layout} (hgo : layout.finished = false) {text : List Char}
    {line : Line} {body : Body} (hread : Line.read text = .ok (some line))
    (hbody : Body.ofLine layout.symbols line = .ok body) {number : Nat}
    (h : (layout.addLine (text, number)).errors = #[]) : layout.Defines line body := by
  intro name hlabel
  simp only [addLine, hgo, Bool.false_eq_true, if_false, hread, hbody] at h
  rcases define_cases layout line.label body number with
    ⟨hnone, -⟩ | ⟨_, symbols, hsome, hdefine, -⟩ | ⟨_, e⟩
  · rw [hnone] at hlabel
    cases hlabel
  · rw [hsome] at hlabel
    cases hlabel
    obtain ⟨hname, hvalue, hnew, -⟩ := defineLabel_eq_ok.mp hdefine
    exact ⟨hname, hvalue, Option.map_eq_none_iff.mpr hnew⟩
  · have herrors := errors_place h
    rw [e] at herrors
    exact absurd herrors (errors_fail_ne _ _ _)

namespace Agrees

variable {layout other : Layout}

theorem refl (hlines : ∀ number, lines number number) (h : layout.errors = #[]) :
    layout.Agrees lines knows layout :=
  ⟨rfl, rfl, List.forall₂_same.mpr fun _ _ => ⟨rfl, rfl, rfl, hlines _⟩,
    List.forall₂_same.mpr fun _ _ => ⟨rfl, hlines _, .refl _⟩, h, h⟩

/-- Rows whose lines have the same label and bodies that agree keep layouts in agreement. -/
theorem extend (h : layout.Agrees lines knows other) {line otherLine : Line} {body otherBody : Body}
    (hlabel : otherLine.label = line.label) (hbody : body.Agrees knows otherBody)
    {number otherNumber : Nat} (hlines : lines number otherNumber) :
    (layout.extend ⟨number, line, body, layout.counter⟩).Agrees lines knows
      (other.extend ⟨otherNumber, otherLine, otherBody, other.counter⟩) := by
  have hsymbol : List.Forall₂ (Symbol.Agrees lines)
      (Row.symbol? ⟨number, line, body, layout.counter⟩).toList
      (Row.symbol? ⟨otherNumber, otherLine, otherBody, other.counter⟩).toList := by
    simp only [Row.symbol?, hlabel, h.counter_eq]
    cases line.label with
    | none => exact .nil
    | some name =>
      refine .cons ⟨rfl, ?_, ?_, hlines⟩ .nil
      · simp only [hbody.labelled_eq]
      · simp only [hbody.labelValue_eq]
  refine ⟨?_, ?_, List.rel_append h.symbols hsymbol, ?_, h.errors_eq, h.otherErrors_eq⟩
  · simp only [Layout.extend, h.counter_eq, hbody.advance_eq]
  · simp only [Layout.extend, hbody.finish_iff]
  · simp only [Layout.extend, Array.toList_push]
    refine List.rel_append h.statements (.cons ⟨?_, hlines, hbody⟩ .nil)
    simp only [Row.statement, h.counter_eq, hbody.placement_eq]

/-- **A line keeps layouts in agreement** with one that can be read as it is. -/
theorem addLine (h : layout.Agrees lines knows other) (hcounter : layout.counter ≤ 0x10000)
    (hknows : knows layout.symbols) {text otherText : List Char} {number otherNumber : Nat}
    (herrors : (layout.addLine (text, number)).errors = #[]) (hreads : ReadsAs knows text otherText)
    (hlines : lines number otherNumber) :
    (layout.addLine (text, number)).Agrees lines knows
      (other.addLine (otherText, otherNumber)) := by
  by_cases hgo : layout.finished = true
  · rwa [addLine_finished hgo, addLine_finished (h.finished_eq.trans hgo)]
  rw [Bool.not_eq_true] at hgo
  have hother := h.finished_eq.trans hgo
  have hnumber := number?_eq_of_forall₂ h.symbols
  rcases addLine_eq hgo hcounter herrors with ⟨hread, e⟩ | ⟨line, body, hread, hbody, hfits, e⟩
  · have hblank := hreads.blank hread
    have hstay : other.addLine (otherText, otherNumber) = other := by
      simp only [Layout.addLine, hother, Bool.false_eq_true, if_false, hblank]
    rwa [e, hstay]
  · have hdefines := defines_of_errors hgo hread hbody herrors
    obtain ⟨otherLine, otherBody, hotherRead, hlabel, hotherBody, hagrees⟩ :=
      hreads.filled hknows hread (fun name hname => (hdefines name hname).1) hbody
    have hotherDefines : other.Defines otherLine otherBody := by
      intro name hname
      obtain ⟨hvalid, hvalue, hnew⟩ := hdefines name (hlabel ▸ hname)
      refine ⟨hvalid, ?_, ?_⟩
      · rwa [h.counter_eq, hagrees.labelValue_eq]
      · rwa [← hnumber]
    have hotherAdvance : otherBody.advance other.counter ≤ 0x10000 := by
      rw [h.counter_eq, hagrees.advance_eq]
      exact hfits.advance_le
    rw [Body.ofLine_congr hnumber rfl rfl rfl] at hotherBody
    rw [e, addLine_of_defines hother hotherRead hotherBody hotherDefines hotherAdvance]
    exact h.extend hlabel hagrees hlines

/-- **Lines keep layouts in agreement** with those that stand beside them. What is
known of the symbols has to stay so when others are added. -/
theorem foldl_addLine
    (hstays : ∀ {symbols extended : SymbolTable}, symbols.symbols <+: extended.symbols →
      knows symbols → knows extended)
    {entries others : List (List Char × Nat)} (hentries : Alongside lines knows entries others)
    (h : layout.Agrees lines knows other) (hcounter : layout.counter ≤ 0x10000)
    (hknows : knows layout.symbols)
    (herrors : (entries.foldl Layout.addLine layout).errors = #[]) :
    (entries.foldl Layout.addLine layout).Agrees lines knows
      (others.foldl Layout.addLine other) := by
  have hskip : ∀ {layout : Layout} {text : List Char} {number : Nat}, Line.read text = .ok none →
      layout.addLine (text, number) = layout := by
    intro layout text number hread
    simp only [Layout.addLine, hread, ite_self]
  induction hentries generalizing layout other with
  | nil => exact h
  | @both text otherText number otherNumber rest others hreads hlines _ ih =>
    have hfirst : (layout.addLine (text, number)).errors = #[] := errors_foldl_addLine herrors
    obtain ⟨added, hadded, -⟩ := addLine_symbols layout text number
    exact ih (h.addLine hcounter hknows hfirst hreads hlines) (counter_addLine_le hcounter _)
      (hstays ⟨added, hadded.symm⟩ hknows) herrors
  | left hblank _ ih =>
    rw [List.foldl_cons, hskip hblank] at herrors ⊢
    exact ih h hcounter hknows herrors
  | right hblank _ ih =>
    rw [List.foldl_cons, hskip hblank]
    exact ih h hcounter hknows herrors

end Agrees
end Layout

/-! ### Programs -/

namespace Program

/-- Bytes that go to the same addresses from lines that correspond leave warnings for
the same addresses. -/
theorem forall₂_overwrites {emitted others : List Emission}
    (h : List.Forall₂
      (fun e other : Emission => lines e.line other.line ∧ other.address = e.address)
      emitted others) (written : List UInt16) :
    List.Forall₂ (fun warning other : Warning =>
      lines warning.line other.line ∧ other.address = warning.address)
      (overwrites written emitted) (overwrites written others) := by
  induction h generalizing written with
  | nil => exact .nil
  | @cons e other _ _ hfirst _ ih =>
    unfold overwrites
    rw [hfirst.2]
    by_cases hwritten : e.address ∈ written
    · rw [if_pos hwritten, if_pos hwritten]
      exact .cons ⟨hfirst.1, rfl⟩ (ih _)
    · rw [if_neg hwritten, if_neg hwritten]
      exact ih _

/-- Entries with the same fields on lines that correspond show the same bytes. -/
theorem forall₂_emissions {listing others : List Listing.Entry}
    (h : List.Forall₂ (fun entry other : Listing.Entry =>
      lines entry.line other.line ∧ other.field = entry.field) listing others) :
    shown others = shown listing ∧
      List.Forall₂ (fun e other : Emission => lines e.line other.line ∧ other.address = e.address)
        (listing.flatMap emissions) (others.flatMap emissions) := by
  induction h with
  | nil => exact ⟨rfl, .nil⟩
  | @cons entry other listing others hfirst _ ih =>
    obtain ⟨hlines, hfield⟩ := hfirst
    rw [List.flatMap_cons, List.flatMap_cons]
    have hshown : shown [other] = shown [entry] := by
      simp only [shown, List.flatMap_singleton, emissions, hfield]
      cases entry.field <;> simp
    refine ⟨?_, List.rel_append ?_ ih.2⟩
    · have happend := shown_append [other] others
      rw [hshown, ih.1, ← shown_append] at happend
      exact happend
    · simp only [emissions, hfield]
      cases entry.field with
      | code address bytes =>
        rw [List.forall₂_map_left_iff, List.forall₂_map_right_iff, List.forall₂_same]
        exact fun _ _ => ⟨hlines, rfl⟩
      | origin | equate | reserve | position => exact .nil

/-- Statements that come to the same on lines that correspond make programs that agree. -/
theorem agrees_ofEmitted {symbols otherSymbols : SymbolTable}
    (hsymbols : List.Forall₂ (Symbol.Agrees lines) symbols.symbols otherSymbols.symbols)
    {emitted others : List (Statement × Listing.Field)}
    (h : List.Forall₂ (fun pair other : Statement × Listing.Field =>
      lines pair.1.location.line other.1.location.line ∧ other.2 = pair.2) emitted others) :
    (ofEmitted symbols emitted).Agrees lines (ofEmitted otherSymbols others) := by
  have hlisting : List.Forall₂ (fun entry other : Listing.Entry =>
      lines entry.line other.line ∧ other.field = entry.field)
      (ofEmitted symbols emitted).listing (ofEmitted otherSymbols others).listing := by
    show List.Forall₂ _ (List.map _ _) (List.map _ _)
    rwa [List.forall₂_map_left_iff, List.forall₂_map_right_iff]
  obtain ⟨hshown, hemissions⟩ := forall₂_emissions hlisting
  refine ⟨?_, hsymbols, hlisting, ?_⟩
  · rw [image_ofEmitted, image_ofEmitted, hshown]
  · rw [warnings_ofEmitted, warnings_ofEmitted]
    exact forall₂_overwrites hemissions []

end Program

theorem Statement.Agrees.emit_eq {s other : Statement} (h : s.Agrees lines knows other)
    {symbols otherSymbols : SymbolTable} (hnumber : symbols.number? = otherSymbols.number?)
    (hknows : knows symbols) : other.emit otherSymbols = s.emit symbols := by
  have hbody := h.body.emit_eq symbols hknows s.address s.location other.location
  rw [← h.address_eq] at hbody
  rw [← Statement.emit_congr hnumber, hbody, h.address_eq]

/-- Statements that agree with others which come to something come to the same. -/
theorem exists_emitted {symbols otherSymbols : SymbolTable}
    (hnumber : symbols.number? = otherSymbols.number?) (hknows : knows symbols)
    {emitted : List (Statement × Listing.Field)} {statements : List Statement}
    (h : List.Forall₂ (Statement.Agrees lines knows) (emitted.map Prod.fst) statements)
    (hemit : ∀ pair ∈ emitted, pair.1.emit symbols = .ok pair.2) :
    ∃ others : List (Statement × Listing.Field), statements = others.map Prod.fst ∧
      (∀ pair ∈ others, pair.1.emit otherSymbols = .ok pair.2) ∧
      List.Forall₂ (fun pair other : Statement × Listing.Field =>
        lines pair.1.location.line other.1.location.line ∧ other.2 = pair.2) emitted others := by
  induction emitted generalizing statements with
  | nil =>
    cases h
    exact ⟨[], rfl, List.forall_mem_nil _, .nil⟩
  | cons pair emitted ih =>
    obtain ⟨hpair, hemit⟩ := List.forall_mem_cons.mp hemit
    cases h with
    | @cons _ s _ statements hs hstatements =>
      obtain ⟨others, rfl, hothers, hagree⟩ := ih hstatements hemit
      have hfirst := hs.emit_eq hnumber hknows
      exact ⟨(s, pair.2) :: others, rfl,
        List.forall_mem_cons.mpr ⟨hfirst.trans hpair, hothers⟩, .cons ⟨hs.line, rfl⟩ hagree⟩

/-- **Layouts in agreement make programs that agree**, if they make any. -/
theorem Layout.Agrees.ofLayout {layout other : Layout} (h : layout.Agrees lines knows other)
    (hknows : knows layout.symbols) {program : Program}
    (hprogram : Program.ofLayout layout = .ok program) :
    ∃ otherProgram, Program.ofLayout other = .ok otherProgram ∧
      program.Agrees lines otherProgram := by
  obtain ⟨-, emitted, hfst, hemit, rfl⟩ := Program.ofLayout_eq_ok hprogram
  have hstatements := h.statements
  rw [← hfst] at hstatements
  obtain ⟨others, hotherFst, hotherEmit, hagree⟩ :=
    exists_emitted (number?_eq_of_forall₂ h.symbols) hknows hstatements hemit
  exact ⟨_, Program.ofLayout_of_emit h.otherErrors_eq hotherFst hotherEmit,
    Program.agrees_ofEmitted h.symbols hagree⟩

end Assembler
end Mos6502
