/-
# Images written as source

An image can be written as source: for each of its runs a line that sets the
origin, and behind it lines of data with up to sixteen bytes each (`Writes`).
Such a line is read alike whatever symbols there are (`Gives`), and what it
comes to is known as soon as it is read (`Layout.Emits`). The lines of a run
emit its bytes, and those of all runs each byte of the image once, so that the
source is assembled into the image and nothing is replaced.

Key definitions: `originText`, `dataText`, `Writes`, `IsSourceOf`, `sourceOf`,
`Gives`, `Layout.Emits`.
Key theorems: `isSourceOf_sourceOf`, `gives_of_isCode`, `gives_of_upper_eq`, `Layout.emits_addLine`,
`Layout.emits_of_writes`, `written_images_are_assembled`.
-/
import Mos6502.Proofs.Assembler.Fields
import Mos6502.Proofs.Assembler.Overwrite
import Mos6502.Proofs.Runs
import Mos6502.Proofs.Text.Lines

namespace Mos6502
namespace Assembler

open Text

/-! ### The source of an image -/

/-- The line that sets the origin, as in ` .ORG $80FE`. -/
def originText (address : UInt16) : List Char := plainText ".ORG".toList (hexAddress address)

/-- A line of data, as in ` .DB $A9,$01`. -/
def dataText (values : List UInt8) : List Char := plainText ".DB".toList (hexList values)

/-- The lines of a run: its origin, and its bytes in pieces. -/
def runTexts (start : UInt16) (pieces : List (List UInt8)) : List (List Char) :=
  originText start :: pieces.map dataText

/-- The pieces make up the bytes. Each has one to sixteen of them. -/
structure IsCutOf (pieces : List (List UInt8)) (bytes : List UInt8) : Prop where
  flatten_eq : pieces.flatten = bytes
  ne_nil : ∀ piece ∈ pieces, piece ≠ []
  length_le : ∀ piece ∈ pieces, piece.length ≤ 16

/-- The texts are the lines of runs, one after the other. -/
inductive Writes : List Image.Run → List (List Char) → Prop
  | nil : Writes [] []
  | cons {run : Image.Run} {pieces : List (List UInt8)} {runs : List Image.Run}
      {texts : List (List Char)} :
      IsCutOf pieces run.bytes → Writes runs texts →
      Writes (run :: runs) (runTexts run.start pieces ++ texts)

/-- The lines of the source are those of the runs of an image, in either case. -/
def IsSourceOf (source : String) (image : Image) : Prop :=
  Writes image.runs ((lines source.toList).map upper)

/-- Bytes in pieces of sixteen, but for the last. -/
def sixteens (bytes : List UInt8) : List (List UInt8) :=
  if bytes = [] then [] else bytes.take 16 :: sixteens (bytes.drop 16)
termination_by bytes.length
decreasing_by
  have := List.length_pos_iff.mpr ‹bytes ≠ []›
  rw [List.length_drop]
  omega

/-- The lines of an image, with as many bytes in each as there may be. -/
def textsOf (image : Image) : List (List Char) :=
  image.runs.flatMap fun run => runTexts run.start (sixteens run.bytes)

/-- The source of an image, with a line feed behind each line. -/
def sourceOf (image : Image) : String := String.ofList ((textsOf image).flatMap (· ++ ['\n']))

theorem isCutOf_sixteens (bytes : List UInt8) : IsCutOf (sixteens bytes) bytes := by
  induction bytes using sixteens.induct with
  | case1 =>
    rw [sixteens, if_pos rfl]
    exact ⟨rfl, List.forall_mem_nil _, List.forall_mem_nil _⟩
  | case2 bytes hne ih =>
    have hfirst : bytes.take 16 ≠ [] := by
      simpa only [ne_eq, List.take_eq_nil_iff, OfNat.ofNat_ne_zero, false_or] using hne
    rw [sixteens, if_neg hne]
    refine ⟨?_, List.forall_mem_cons.mpr ⟨hfirst, ih.ne_nil⟩,
      List.forall_mem_cons.mpr ⟨List.length_take_le _ _, ih.length_le⟩⟩
    rw [List.flatten_cons, ih.flatten_eq, List.take_append_drop]

theorem writes_sixteens (runs : List Image.Run) :
    Writes runs (runs.flatMap fun run => runTexts run.start (sixteens run.bytes)) := by
  induction runs with
  | nil => exact .nil
  | cons run runs ih => exact .cons (isCutOf_sixteens run.bytes) ih

/-- What holds of the marks, the letters and the digits holds of every character in
the lines of an image. -/
theorem forall_mem_textsOf {P : Char → Prop} [DecidablePred P] (hspace : P ' ')
    (horigin : (".ORG".toList.all fun c => P c) = true)
    (hdata : (".DB".toList.all fun c => P c) = true) (hcomma : P ',') (hmark : P '$')
    (hdigit : ∀ value : Fin 16, P (digit value.val)) (image : Image) :
    ∀ text ∈ textsOf image, ∀ c ∈ text, P c := by
  intro text htext
  obtain ⟨run, -, htext⟩ := List.mem_flatMap.mp htext
  rcases List.mem_cons.mp htext with rfl | htext
  · exact forall_mem_plainText hspace
      (fun c hc => of_decide_eq_true (List.all_eq_true.mp horigin c hc))
      (forall_mem_hexAddress hmark hdigit run.start)
  · obtain ⟨values, -, rfl⟩ := List.mem_map.mp htext
    exact forall_mem_plainText hspace
      (fun c hc => of_decide_eq_true (List.all_eq_true.mp hdata c hc))
      (forall_mem_hexList hcomma hmark hdigit values)

theorem lines_sourceOf (image : Image) : lines (sourceOf image).toList = textsOf image := by
  have hplain := forall_mem_textsOf (P := fun c => c ≠ '\n' ∧ c ≠ '\r') (by decide) (by decide)
    (by decide) (by decide) (by decide) (by decide) image
  rw [sourceOf, String.toList_ofList]
  refine lines_flatMap (fun text htext hmem => ?_) (fun text htext hlast => ?_)
  · exact (hplain text htext _ hmem).1 rfl
  · exact (hplain text htext _ (List.mem_of_getLast? hlast)).2 rfl

/-- The source of an image is one. -/
theorem isSourceOf_sourceOf (image : Image) : IsSourceOf (sourceOf image) image := by
  have hupper := forall_mem_textsOf (P := fun c => c.toUpper = c) (by decide) (by decide)
    (by decide) (by decide) (by decide) (by decide) image
  rw [IsSourceOf, lines_sourceOf,
    List.map_congr_left fun text htext => upper_eq_self (hupper text htext), List.map_id']
  exact writes_sixteens image.runs

/-! ### Lines -/

/-- The line has no label and asks for a directive, whatever symbols there are. -/
def Gives (text : List Char) (directive : Directive) : Prop :=
  ∃ line, Line.read text = .ok (some line) ∧ line.label = none ∧
    ∀ symbols, Body.ofLine symbols line = .ok (.directive directive)

/-- A line of a directive and its operand gives what is read of these. -/
theorem gives_of_isCode {operation operand : List Char} {directive : Directive}
    (hword : IsWord operation) (hdot : operation.head? = some '.')
    (hoperation : IsCode operation) (hoperand : IsCode operand)
    (hread : ∀ symbols, Directive.read symbols false (operationName operation)
      (compact operand) = .ok directive) :
    Gives (plainText operation operand) directive := by
  have hname : isOperation operation = true := by
    rw [isOperation, hdot]
    rfl
  obtain ⟨line, hline, hlabel, hfirst, hsecond⟩ :=
    Line.read_plainText hword hname hoperation hoperand
  refine ⟨line, hline, hlabel, fun symbols => ?_⟩
  have hupper : (operationName operation).toList.head? = some '.' := by
    rw [operationName, String.toList_ofList, upper, List.head?_map, hdot]
    rfl
  simp only [Body.ofLine, hfirst, hupper, if_true, hlabel, Option.isSome_none, hsecond, hread]
  rfl

theorem gives_of_upper_eq {text operation operand : List Char} {directive : Directive}
    (h : upper text = plainText operation operand)
    (hoperation : operation.all isPlain = true) (hoperand : ∀ c ∈ operand, isPlain c = true)
    (hdot : operation.head? = some '.')
    (hread : ∀ symbols,
      Directive.read symbols false (String.ofList operation) operand = .ok directive) :
    Gives text directive := by
  obtain ⟨first, second, rfl, rfl, rfl⟩ := exists_of_upper_eq_plainText h
  have hhead : first.head? = some '.' := by
    rw [upper, List.head?_map, Option.map_eq_some_iff] at hdot
    obtain ⟨c, hc, hupper⟩ := hdot
    rw [hc, eq_of_toUpper_eq hupper (by decide)]
  have hfirst := isPlain_of_upper (List.all_eq_true.mp hoperation)
  have hsecond := isPlain_of_upper hoperand
  have hword : IsWord first :=
    ⟨List.ne_nil_of_mem (List.mem_of_mem_head? hhead), fun c hc => isBlank_of_isPlain (hfirst c hc)⟩
  refine gives_of_isCode hword hhead (isCode_of_isPlain hfirst) (isCode_of_isPlain hsecond) ?_
  rwa [compact_of_isPlain hsecond]

theorem gives_origin {text : List Char} {address : UInt16} (h : upper text = originText address) :
    Gives text (.origin address) := by
  refine gives_of_upper_eq h (by decide)
    (forall_mem_hexAddress (P := fun c => isPlain c = true) (by decide) (by decide) address) rfl
    fun symbols => ?_
  have hread := Expression.read_hexadecimal (Number.ofDigits_hexWord address)
  have hknown : knownValue symbols (hexAddress address) = .ok ⟨address, false⟩ := by
    simp only [knownValue, hexAddress, hread]
  simp only [Directive.read, String.ofList_toList, hknown]
  rfl

theorem totalSize_dataOf (values : List UInt8) : Datum.totalSize (dataOf values) = values.length := by
  induction values with
  | nil => rfl
  | cons value values ih =>
    rw [List.length_cons, ← ih, Nat.add_comm]
    rfl

theorem emit_byte (symbols : SymbolTable) (value : UInt8) (zeroPage : Bool) :
    Datum.emit symbols (.byte (.literal ⟨value.toUInt16, zeroPage⟩)) = .ok [value] := by
  have hle : value.toUInt16 ≤ 0xFF := by
    rw [UInt16.le_iff_toNat_le, UInt8.toNat_toUInt16]
    exact Nat.le_of_lt_succ value.toNat_lt
  refine Result.bind_eq_ok.mpr ⟨value.toUInt16, rfl, ?_⟩
  rw [if_pos hle, UInt8.toUInt8_toUInt16]
  rfl

theorem emitData_dataOf (symbols : SymbolTable) (values : List UInt8) :
    emitData symbols (dataOf values) = .ok values := by
  have hall : (dataOf values).mapM (Datum.emit symbols) = .ok (values.map fun value => [value]) := by
    rw [dataOf, Result.mapM_eq_ok, List.forall₂_map_left_iff, List.forall₂_map_right_iff,
      List.forall₂_same]
    exact fun value _ => emit_byte symbols value true
  have hflatten : (values.map fun value => [value]).flatten = values := List.flatMap_singleton' values
  exact Result.bind_eq_ok.mpr ⟨_, hall, congrArg Except.ok hflatten⟩

theorem gives_data {text : List Char} {values : List UInt8} (h : upper text = dataText values)
    (hne : values ≠ []) (hle : values.length ≤ 0xFFFF) : Gives text (.data (dataOf values)) := by
  refine gives_of_upper_eq h (by decide)
    (forall_mem_hexList (P := fun c => isPlain c = true) (by decide) (by decide) (by decide) values)
    rfl fun symbols => ?_
  have hsize : Datum.totalSize (dataOf values) ≤ 0xFFFF := by rwa [totalSize_dataOf]
  have hread : readData (hexList values) = .ok (dataOf values) := by
    simp only [readData, Datum.readList_hexList hne, if_pos hsize]
  simp only [Directive.read, String.ofList_toList, hread]
  rfl

namespace Layout

/-! ### What lines come to -/

/-- A layout comes from another by statements that come to some bytes, whatever
symbols there are. -/
structure Emits (layout : Layout) (bytes : List (UInt16 × UInt8)) (final : Layout) : Prop where
  errors_eq : final.errors = layout.errors
  symbols_eq : final.symbols = layout.symbols
  finished_eq : final.finished = layout.finished
  emitted : ∃ emitted : List (Statement × Listing.Field),
    final.statements.toList = layout.statements.toList ++ emitted.map Prod.fst ∧
    (∀ pair ∈ emitted, ∀ symbols, pair.1.emit symbols = .ok pair.2) ∧
    Program.shown (emitted.map fun pair => ⟨pair.1.location.line, pair.2⟩) = bytes

theorem Emits.refl (layout : Layout) : layout.Emits [] layout :=
  ⟨rfl, rfl, rfl, [], (List.append_nil _).symm, List.forall_mem_nil _, rfl⟩

theorem Emits.trans {first second third : Layout} {bytes rest : List (UInt16 × UInt8)}
    (h : first.Emits bytes second) (hrest : second.Emits rest third) :
    first.Emits (bytes ++ rest) third := by
  obtain ⟨emitted, hstatements, hemit, rfl⟩ := h.emitted
  obtain ⟨others, hothers, hemitOthers, rfl⟩ := hrest.emitted
  refine ⟨hrest.errors_eq.trans h.errors_eq, hrest.symbols_eq.trans h.symbols_eq,
    hrest.finished_eq.trans h.finished_eq, emitted ++ others, ?_, ?_, ?_⟩
  · rw [hothers, hstatements, List.map_append, List.append_assoc]
  · exact List.forall_mem_append.mpr ⟨hemit, hemitOthers⟩
  · rw [List.map_append, Program.shown_append]

/-- A line emits what its directive comes to. -/
theorem emits_addLine {layout : Layout} (hgo : layout.finished = false) {text : List Char}
    {directive : Directive} (hgives : Gives text directive) (hnext : directive ≠ .finish)
    (hle : (Body.directive directive).advance layout.counter ≤ 0x10000) {field : Listing.Field}
    (hemit : ∀ location symbols, Statement.emit symbols
      ⟨UInt16.ofNat (placement layout.counter (.directive directive)), location,
        .directive directive⟩ = .ok field) (number : Nat) :
    layout.Emits (Program.shown [⟨number, field⟩]) (layout.addLine (text, number)) ∧
      (layout.addLine (text, number)).counter =
        (Body.directive directive).advance layout.counter := by
  obtain ⟨line, hread, hlabel, hbody⟩ := hgives
  rw [Body.advance_eq] at hle ⊢
  rw [addLine_of_unlabelled hgo hread hlabel (hbody _) hle]
  have hfinish : decide (Body.directive directive = .directive .finish) = layout.finished := by
    rw [hgo]
    exact decide_eq_false fun h => hnext (Body.directive.inj h)
  refine ⟨⟨rfl, rfl, hfinish, [(_, field)], Array.toList_push, ?_, rfl⟩, rfl⟩
  exact List.forall_mem_singleton.mpr fun symbols => hemit _ symbols

theorem emits_origin {layout : Layout} (hgo : layout.finished = false) {text : List Char}
    {address : UInt16} (hgives : Gives text (.origin address)) (number : Nat) :
    layout.Emits [] (layout.addLine (text, number)) ∧
      (layout.addLine (text, number)).counter = address.toNat :=
  emits_addLine hgo hgives nofun (Nat.le_of_lt address.toNat_lt) (fun _ _ => rfl) number

theorem emits_data {layout : Layout} (hgo : layout.finished = false) {text : List Char}
    {data : List Datum} {values : List UInt8} (hgives : Gives text (.data data))
    (hsize : Datum.totalSize data = values.length)
    (hemit : ∀ symbols, emitData symbols data = .ok values)
    (hle : layout.counter + values.length ≤ 0x10000) (number : Nat) :
    layout.Emits (Image.consecutive (UInt16.ofNat layout.counter) values)
        (layout.addLine (text, number)) ∧
      (layout.addLine (text, number)).counter = layout.counter + values.length := by
  have hadvance : (Body.directive (.data data)).advance layout.counter =
      layout.counter + values.length :=
    congrArg (layout.counter + ·) hsize
  have hcode : ∀ location symbols, Statement.emit symbols
      ⟨UInt16.ofNat layout.counter, location, .directive (.data data)⟩ =
        .ok (.code (UInt16.ofNat layout.counter) values) := fun _ symbols =>
    Result.map_eq_ok.mpr ⟨values, hemit symbols, rfl⟩
  have hemits := emits_addLine hgo hgives nofun (hadvance ▸ hle) hcode number
  rwa [Program.shown_code, hadvance] at hemits

/-- Lines of data emit their bytes from the location counter on. -/
theorem emits_of_map_upper_eq_data {texts : List (List Char)} {pieces : List (List UInt8)}
    {layout : Layout} (hgo : layout.finished = false) (h : texts.map upper = pieces.map dataText)
    (hne : ∀ piece ∈ pieces, piece ≠ []) (hlength : ∀ piece ∈ pieces, piece.length ≤ 16)
    (hle : layout.counter + pieces.flatten.length ≤ 0x10000) (number : Nat) :
    layout.Emits (Image.consecutive (UInt16.ofNat layout.counter) pieces.flatten)
      ((texts.zipIdx number).foldl addLine layout) := by
  induction pieces generalizing texts layout number with
  | nil =>
    obtain rfl := List.map_eq_nil_iff.mp h
    exact Emits.refl layout
  | cons piece pieces ih =>
    obtain ⟨text, texts, rfl, htext, htexts⟩ := List.map_eq_cons_iff.mp h
    obtain ⟨hpiece, hne⟩ := List.forall_mem_cons.mp hne
    obtain ⟨hsixteen, hlength⟩ := List.forall_mem_cons.mp hlength
    rw [List.flatten_cons, List.length_append] at hle
    obtain ⟨hfirst, hcounter⟩ := emits_data hgo (gives_data htext hpiece (by omega))
      (totalSize_dataOf piece) (emitData_dataOf · piece) (by omega) number
    have hrest := ih (hfirst.finished_eq.trans hgo) htexts hne hlength
      (by rw [hcounter]; omega) (number + 1)
    rw [hcounter, UInt16.ofNat_add] at hrest
    rw [List.flatten_cons, Image.consecutive_append]
    exact hfirst.trans hrest

/-- **The lines of a run emit its bytes.** -/
theorem emits_of_map_upper_eq_run {texts : List (List Char)} {run : Image.Run}
    {pieces : List (List UInt8)} {layout : Layout} (hgo : layout.finished = false)
    (h : texts.map upper = runTexts run.start pieces) (hcut : IsCutOf pieces run.bytes)
    (hwithin : run.Within) (number : Nat) :
    layout.Emits run.entries ((texts.zipIdx number).foldl addLine layout) := by
  obtain ⟨text, texts, rfl, htext, htexts⟩ := List.map_eq_cons_iff.mp h
  obtain ⟨horigin, hcounter⟩ := emits_origin hgo (gives_origin htext) number
  have hdata := emits_of_map_upper_eq_data (horigin.finished_eq.trans hgo) htexts hcut.ne_nil
    hcut.length_le (by rw [hcounter, hcut.flatten_eq]; exact hwithin) (number + 1)
  rw [hcounter, UInt16.ofNat_toNat, hcut.flatten_eq] at hdata
  exact horigin.trans hdata

/-- **The lines of runs emit the bytes of all of them.** -/
theorem emits_of_writes {runs : List Image.Run} {written : List (List Char)}
    (hwrites : Writes runs written) (hwithin : ∀ run ∈ runs, run.Within)
    {texts : List (List Char)} (h : texts.map upper = written) {layout : Layout}
    (hgo : layout.finished = false) (number : Nat) :
    layout.Emits (runs.flatMap Image.Run.entries) ((texts.zipIdx number).foldl addLine layout) := by
  induction hwrites generalizing texts layout number with
  | nil =>
    obtain rfl := List.map_eq_nil_iff.mp h
    exact Emits.refl layout
  | cons hcut _ ih =>
    obtain ⟨first, rest, rfl, hfirst, hrest⟩ := List.map_eq_append_iff.mp h
    obtain ⟨hrun, hruns⟩ := List.forall_mem_cons.mp hwithin
    have hemits := emits_of_map_upper_eq_run hgo hfirst hcut hrun number
    rw [List.zipIdx_append, List.foldl_append, List.flatMap_cons]
    exact hemits.trans (ih hruns hrest (hemits.finished_eq.trans hgo) _)

end Layout

theorem Program.exists_of_emits {layout : Layout} {bytes : List (UInt16 × UInt8)}
    (h : Layout.empty.Emits bytes layout) :
    ∃ emitted, ofLayout layout = .ok (ofEmitted layout.symbols emitted) ∧
      shown (ofEmitted layout.symbols emitted).listing = bytes ∧
      (ofEmitted layout.symbols emitted).image = Image.ofList bytes := by
  obtain ⟨emitted, hstatements, hemit, hshown⟩ := h.emitted
  refine ⟨emitted, ofLayout_of_emit h.errors_eq hstatements fun pair hpair => hemit pair hpair _,
    hshown, ?_⟩
  rw [image_ofEmitted]
  exact congrArg Image.ofList hshown

/-- Statements that come to each byte of an image once make this image. -/
theorem Program.ofLayout_of_emits {layout : Layout} {image : Image}
    (h : Layout.empty.Emits image.toList layout) :
    ∃ program, ofLayout layout = .ok program ∧ program.image = image ∧ program.warnings = [] ∧
      program.symbols = [] := by
  obtain ⟨emitted, hprogram, hshown, himage⟩ := Program.exists_of_emits h
  rw [image.ofList_toList] at himage
  have htotal := size_add_length_ofEmitted layout.symbols emitted
  rw [← length_shown, himage] at htotal
  have hlength : (shown (ofEmitted layout.symbols emitted).listing).length = image.size :=
    (congrArg List.length hshown).trans image.length_toList
  refine ⟨_, hprogram, himage, List.eq_nil_of_length_eq_zero (by omega), ?_⟩
  exact congrArg SymbolTable.symbols h.symbols_eq

/-- **An image that was written as source is assembled from it**, with nothing
replaced and without symbols. -/
theorem written_images_are_assembled (image : Image) :
    IsSourceOf (sourceOf image) image ∧ ∀ source, IsSourceOf source image →
      ∃ program, assemble source = .ok program ∧ program.image = image ∧ program.warnings = [] ∧
        program.symbols = [] := by
  refine ⟨isSourceOf_sourceOf image, fun source hsource => ?_⟩
  have hemits : Layout.empty.Emits (image.runs.flatMap Image.Run.entries) (Layout.ofSource source) :=
    Layout.emits_of_writes hsource image.within_of_mem_runs rfl rfl 1
  rw [image.flatMap_entries_runs] at hemits
  exact Program.ofLayout_of_emits hemits

/-- The image with a byte at every address. -/
def fullImage : Image := Image.empty.insertBytes 0 (List.replicate 0x10000 0xEA)

theorem get?_fullImage (address : UInt16) : fullImage.get? address = some 0xEA := by
  have hwithin : (0 : UInt16).toNat + (List.replicate 0x10000 (0xEA : UInt8)).length ≤ 0x10000 := by
    rw [List.length_replicate]
    decide
  rw [fullImage, Image.get?_insertBytes _ hwithin, UInt16.toNat_zero, if_pos (Nat.zero_le _),
    Nat.sub_zero, List.getElem?_replicate, if_pos address.toNat_lt]
  rfl

theorem fullImage_is_assembled :
    (∀ address, fullImage.get? address = some 0xEA) ∧
      ∃ program, assemble (sourceOf fullImage) = .ok program ∧ program.image = fullImage ∧
        program.warnings = [] ∧ program.symbols = [] :=
  ⟨get?_fullImage, (written_images_are_assembled fullImage).2 _
    (written_images_are_assembled fullImage).1⟩

end Assembler
end Mos6502
