/-
# Data is emitted as it is written

A data directive has items with commas between them and blanks round them: texts between
quote marks, and numerals of bytes (`IsItem`). What is quoted means itself in every
reading of the line: no comment begins in it, no blank or lower case is lost from it, and
no comma divides it. So the items are read one by one (`exists_data`), and they come to
the bytes of the texts and numerals, one behind the other.

Key definitions: `IsNumeral`, `IsItem`, `IsEntry`, `Image.HoldsFrom`.
Key theorems: `IsNumeral.exists_read`, `IsItem.exists_datum`, `exists_data`,
`exists_image_of_lines`, `quoted_text_is_emitted_verbatim`.
-/
import Mos6502.Proofs.Assembler.Literal
import Mos6502.Proofs.Assembler.Source

namespace Mos6502

namespace Text

theorem bytes_toList (text : String) : bytes text.toList = text.toUTF8.data.toList := by
  show _ = text.toByteArray.data.toList
  rw [← String.utf8Encode_toList, List.utf8Encode, List.data_toByteArray]
  rfl

end Text

/-- The image has these bytes from an address on, and no others. -/
def Image.HoldsFrom (image : Image) (start : Nat) (values : List UInt8) : Prop :=
  ∀ address, image.get? address =
    if start ≤ address.toNat then values[address.toNat - start]? else none

namespace Assembler

open Text

/-! ### Numerals -/

/-- The text is a numeral of a number: digits of a radix, in either case, behind its mark. -/
def IsNumeral (text : List Char) (number : Nat) : Prop :=
  ∃ (radix : Radix) (digits : List Char) (values : List Nat), text = radix.mark ++ digits ∧
    digits.mapM (digitValue? radix.base) = some values ∧ values ≠ [] ∧
    positional radix.base values = number

namespace IsNumeral

variable {text : List Char} {number : Nat}

theorem isPlain (h : IsNumeral text number) : ∀ c ∈ text, Assembler.isPlain c = true := by
  obtain ⟨radix, digits, values, rfl, hvalues, -, -⟩ := h
  refine List.forall_mem_append.mpr ⟨radix.isPlain_of_mem_mark, fun c hc => ?_⟩
  obtain ⟨value, hvalue⟩ := Option.isSome_iff_exists.mp (isSome_of_mapM hvalues c hc)
  exact isPlain_of_digitValue? hvalue

theorem comma_notMem (h : IsNumeral text number) : ',' ∉ text := by
  obtain ⟨radix, digits, values, rfl, hvalues, -, -⟩ := h
  rw [List.mem_append, not_or]
  refine ⟨by cases radix <;> decide, fun hmem => ?_⟩
  obtain ⟨value, hvalue⟩ := Option.isSome_iff_exists.mp (isSome_of_mapM hvalues ',' hmem)
  have hrange := (digitValue?_cases hvalue).imp id And.right
  revert hrange
  decide

/-- In upper case a numeral is one of the same number. -/
theorem compact (h : IsNumeral text number) : IsNumeral (Assembler.compact text) number := by
  rw [compact_of_isPlain h.isPlain]
  obtain ⟨radix, digits, values, rfl, hvalues, hne, hnumber⟩ := h
  refine ⟨radix, upper digits, values, ?_, ?_, hne, hnumber⟩
  · rw [upper, List.map_append]
    cases radix <;> rfl
  · have hsame : digitValue? radix.base ∘ Char.toUpper = digitValue? radix.base :=
      funext fun c => digitValue?_toUpper radix.base c
    rw [upper, List.mapM_map, hsame, hvalues]

/-- **A numeral is read as its number.** -/
theorem exists_read (h : IsNumeral text number) (hle : number ≤ 0xFFFF) :
    ∃ zeroPage, Expression.read text = .ok (.literal ⟨UInt16.ofNat number, zeroPage⟩) := by
  obtain ⟨radix, digits, values, rfl, hvalues, hne, rfl⟩ := h
  obtain ⟨first, rest, rfl⟩ := List.exists_cons_of_ne_nil hne
  have hnumber : Number.ofDigits radix digits =
      .ok ⟨UInt16.ofNat (positional radix.base (first :: rest)),
        radix.isZeroPage digits.length (positional radix.base (first :: rest))⟩ := by
    simp only [Number.ofDigits, hvalues, if_pos hle]
  exact ⟨_, Expression.read_ofDigits hnumber⟩

end IsNumeral

/-! ### Items -/

/-- A value of a data directive, and its bytes: a text between quote marks, or the numeral
of a byte. -/
inductive IsItem : List Char → List UInt8 → Prop
  | text {text : List Char} (hne : text ≠ []) (hquote : quote ∉ text) :
      IsItem (quote :: (text ++ [quote])) (bytes text)
  | number {numeral : List Char} {value : UInt8} (h : IsNumeral numeral value.toNat) :
      IsItem numeral [value]

/-- An item with blanks round it. -/
def IsEntry (text : List Char) (bytes : List UInt8) : Prop :=
  ∃ lead item trail, text = lead ++ item ++ trail ∧ IsGap lead ∧ IsGap trail ∧ IsItem item bytes

namespace IsItem

variable {item : List Char} {bytes : List UInt8}

theorem isCode (h : IsItem item bytes) : IsCode item := by
  cases h with
  | text _ hquote => exact isCode_quotation hquote
  | number hnumeral => exact isCode_of_isPlain hnumeral.isPlain

/-- No comma divides an item. -/
theorem quoted (h : IsItem item bytes) :
    ∀ entry ∈ marked false (compact item), entry.1 = ',' → entry.2 = true := by
  intro entry hentry hcomma
  cases h with
  | text _ hquote =>
    rw [compact_quotation hquote, marked_quotation hquote] at hentry
    rcases List.mem_cons.mp hentry with rfl | hentry
    · cases hcomma
    · rcases List.mem_append.mp hentry with hentry | hentry
      · obtain ⟨c, -, rfl⟩ := List.mem_map.mp hentry
        rfl
      · rw [List.mem_singleton.mp hentry]
  | number hnumeral =>
    have hmem := mem_of_mem_marked hentry
    rw [hcomma] at hmem
    exact absurd hmem hnumeral.compact.comma_notMem

/-- **An item is read as a datum that comes to its bytes.** -/
theorem exists_datum (h : IsItem item bytes) :
    ∃ datum, Datum.read (compact item) = .ok datum ∧ datum.size = bytes.length ∧
      ∀ symbols, datum.emit symbols = .ok bytes := by
  cases h with
  | @text text hne hquote =>
    have hstrip : strip? (quote :: (text ++ [quote])) = some text := by
      rw [strip?, if_pos ⟨rfl, List.getLast?_concat⟩, List.dropLast_concat]
    refine ⟨.text (bytes text), ?_, rfl, fun _ => rfl⟩
    rw [compact_quotation hquote, Datum.read, hstrip]
    obtain ⟨c, rest, rfl⟩ := List.exists_cons_of_ne_nil hne
    rfl
  | @number _ value hnumeral =>
    have hle : value.toNat ≤ 0xFFFF := Nat.le_trans (Nat.le_of_lt value.toNat_lt) (by decide)
    obtain ⟨zeroPage, hread⟩ := hnumeral.compact.exists_read hle
    have hstrip : strip? (compact item) = none := strip?_eq_none fun hmem =>
      ne_quote_of_isPlain (hnumeral.compact.isPlain quote hmem) rfl
    rw [UInt16.ofNat_uInt8ToNat] at hread
    refine ⟨.byte (.literal ⟨value.toUInt16, zeroPage⟩), ?_, rfl,
      fun symbols => emit_byte symbols value zeroPage⟩
    simp only [Datum.read, hstrip, hread]

end IsItem

namespace IsEntry

variable {text : List Char} {bytes : List UInt8}

theorem isCode (h : IsEntry text bytes) : IsCode text := by
  obtain ⟨lead, item, trail, rfl, hlead, htrail, hitem⟩ := h
  exact ((isCode_of_isGap hlead).append hitem.isCode).append (isCode_of_isGap htrail)

/-- The blanks round an item are lost, and nothing else is. -/
theorem exists_item (h : IsEntry text bytes) :
    ∃ item, IsItem item bytes ∧ compact text = compact item := by
  obtain ⟨lead, item, trail, rfl, hlead, htrail, hitem⟩ := h
  have hclosed := ((isCode_of_isGap hlead).append hitem.isCode).endsOpen_eq
  refine ⟨item, hitem, ?_⟩
  rw [compact_append hclosed, compact_append hlead.endsOpen, compact_of_isGap hlead,
    compact_of_isGap htrail, List.append_nil, List.nil_append]

end IsEntry

/-! ### Lists of items -/

theorem isCode_intercalate {pieces : List (List Char)} (h : ∀ piece ∈ pieces, IsCode piece) :
    IsCode ([','].intercalate pieces) ∧
      compact ([','].intercalate pieces) = [','].intercalate (pieces.map compact) := by
  induction pieces with
  | nil => exact ⟨isCode_of_notMem List.not_mem_nil List.not_mem_nil, rfl⟩
  | cons piece pieces ih =>
    obtain ⟨hpiece, hpieces⟩ := List.forall_mem_cons.mp h
    cases pieces with
    | nil =>
      rw [List.map_singleton, List.intercalate_singleton, List.intercalate_singleton]
      exact ⟨hpiece, rfl⟩
    | cons next pieces =>
      obtain ⟨hcode, hcompact⟩ := ih hpieces
      have hcomma : IsCode [','] := isCode_of_notMem (by decide) (by decide)
      have hfirst := hpiece.append hcomma
      rw [List.map_cons, List.map_cons, List.intercalate_cons_cons, List.intercalate_cons_cons,
        compact_append hfirst.endsOpen_eq, compact_append hpiece.endsOpen_eq, hcompact]
      exact ⟨hfirst.append hcode, rfl⟩

/-- The text of a list of items with their bytes. -/
def listText (entries : List (List Char × List UInt8)) : List Char :=
  [','].intercalate (entries.map Prod.fst)

/-- The bytes of a list of items, one behind the other. -/
def listBytes (entries : List (List Char × List UInt8)) : List UInt8 := entries.flatMap Prod.snd

section Lists

variable {entries : List (List Char × List UInt8)}
  (h : ∀ entry ∈ entries, IsEntry entry.1 entry.2)

include h

theorem isCode_listText : IsCode (listText entries) := by
  refine (isCode_intercalate fun piece hpiece => ?_).1
  obtain ⟨entry, hentry, rfl⟩ := List.mem_map.mp hpiece
  exact (h entry hentry).isCode

/-- **A list is cut into its items.** -/
theorem cutUnquoted_listText (hne : entries ≠ []) :
    cutUnquoted ',' (compact (listText entries)) = entries.map fun entry => compact entry.1 := by
  have hcompact : compact (listText entries) =
      [','].intercalate (entries.map fun entry => compact entry.1) := by
    rw [listText, (isCode_intercalate fun piece hpiece => ?_).2, List.map_map]
    · rfl
    · obtain ⟨entry, hentry, rfl⟩ := List.mem_map.mp hpiece
      exact (h entry hentry).isCode
  rw [hcompact]
  refine cutUnquoted_intercalate (by decide) (mt List.map_eq_nil_iff.mp hne) ?_ ?_
  · intro piece hpiece
    obtain ⟨entry, hentry, rfl⟩ := List.mem_map.mp hpiece
    rw [compact_eq, endsOpen_compactFrom]
    exact (h entry hentry).isCode.endsOpen_eq
  · intro piece hpiece
    obtain ⟨entry, hentry, rfl⟩ := List.mem_map.mp hpiece
    obtain ⟨item, hitem, heq⟩ := (h entry hentry).exists_item
    rw [heq]
    exact hitem.quoted

theorem exists_data : ∃ data, List.Forall₂ (fun entry datum =>
    Datum.read (compact entry.1) = .ok datum ∧ datum.size = entry.2.length ∧
      ∀ symbols, datum.emit symbols = .ok entry.2) entries data := by
  induction entries with
  | nil => exact ⟨[], .nil⟩
  | cons entry entries ih =>
    obtain ⟨hentry, hentries⟩ := List.forall_mem_cons.mp h
    obtain ⟨item, hitem, heq⟩ := hentry.exists_item
    obtain ⟨datum, hdatum⟩ := hitem.exists_datum
    obtain ⟨data, hdata⟩ := ih hentries
    rw [← heq] at hdatum
    exact ⟨datum :: data, .cons hdatum hdata⟩

/-- **A list is read as data that come to its bytes**, unless it is too long. -/
theorem exists_readData (hne : entries ≠ []) (hle : (listBytes entries).length ≤ 0xFFFF) :
    ∃ data, readData (compact (listText entries)) = .ok data ∧
      Datum.totalSize data = (listBytes entries).length ∧
      ∀ symbols, emitData symbols data = .ok (listBytes entries) := by
  obtain ⟨data, hdata⟩ := exists_data h
  have hcut := cutUnquoted_listText h hne
  have hread : (cutUnquoted ',' (compact (listText entries))).mapM Datum.read = .ok data := by
    rw [hcut, Result.mapM_eq_ok, List.forall₂_map_left_iff]
    exact hdata.imp fun _ _ hdatum => hdatum.1
  have htext : compact (listText entries) ≠ [] := by
    intro hnil
    rw [hnil] at hread
    cases hread
  have hsize : Datum.totalSize data = (listBytes entries).length := by
    clear hcut hread htext hle hne h
    induction hdata with
    | nil => rfl
    | cons hdatum _ ih =>
      rw [listBytes, List.flatMap_cons, List.length_append, ← hdatum.2.1, ← listBytes, ← ih]
      rfl
  refine ⟨data, ?_, hsize, fun symbols => ?_⟩
  · rw [← hsize] at hle
    exact readData_eq_ok.mpr ⟨by rw [Datum.readList, if_neg htext, hread], hle⟩
  · refine Result.bind_eq_ok.mpr ⟨entries.map Prod.snd, ?_, rfl⟩
    rw [Result.mapM_eq_ok, List.forall₂_map_right_iff]
    exact (hdata.imp fun _ _ hdatum => hdatum.2.2 symbols).flip

end Lists

/-! ### Lines -/

theorem gives_origin_of_isNumeral {numeral : List Char} {origin : Nat}
    (h : IsNumeral numeral origin) (hle : origin ≤ 0xFFFF) :
    Gives (plainText ".ORG".toList numeral) (.origin (UInt16.ofNat origin)) := by
  refine gives_of_isCode (by decide) rfl (isCode_of_notMem (by decide) (by decide))
    (isCode_of_isPlain h.isPlain) fun symbols => ?_
  obtain ⟨zeroPage, hvalue⟩ := h.compact.exists_read hle
  have hname : operationName ".ORG".toList = ".ORG" := by decide
  simp only [hname, Directive.read, knownValue, hvalue]
  rfl

/-- A list of items behind `.DB` gives data that come to its bytes. -/
theorem exists_gives_data {entries : List (List Char × List UInt8)} (hne : entries ≠ [])
    (h : ∀ entry ∈ entries, IsEntry entry.1 entry.2)
    (hle : (listBytes entries).length ≤ 0xFFFF) :
    ∃ data, Gives (plainText ".DB".toList (listText entries)) (.data data) ∧
      Datum.totalSize data = (listBytes entries).length ∧ 0 < Datum.totalSize data ∧
      ∀ symbols, emitData symbols data = .ok (listBytes entries) := by
  obtain ⟨data, hdata, hsize, hemit⟩ := exists_readData h hne hle
  have hname : operationName ".DB".toList = ".DB" := by decide
  refine ⟨data, gives_of_isCode (by decide) rfl (isCode_of_notMem (by decide) (by decide))
    (isCode_listText h) fun symbols => ?_, hsize, ?_, hemit⟩
  · simp only [hname, Directive.read, hdata]
    rfl
  · exact Datum.totalSize_pos (readData_eq_ok.mp hdata).1

/-- **A source of an origin and a list of data makes an image of the bytes of the list.** -/
theorem exists_image_of_lines {source : String} {numeral : List Char} {origin : Nat}
    {entries : List (List Char × List UInt8)}
    (hlines : lines source.toList =
      [plainText ".ORG".toList numeral, plainText ".DB".toList (listText entries)])
    (horigin : IsNumeral numeral origin) (hne : entries ≠ [])
    (h : ∀ entry ∈ entries, IsEntry entry.1 entry.2)
    (hlength : (listBytes entries).length ≤ 0xFFFF)
    (hwithin : origin + (listBytes entries).length ≤ 0x10000) :
    ∃ program, assemble source = .ok program ∧
      program.image.HoldsFrom origin (listBytes entries) := by
  obtain ⟨data, hdata, hsize, hpos, hemit⟩ := exists_gives_data hne h hlength
  have hstart : (UInt16.ofNat origin).toNat = origin :=
    UInt16.toNat_ofNat_of_lt' (show origin < 0x10000 by omega)
  have hgives := gives_origin_of_isNumeral horigin (by omega)
  obtain ⟨hfirst, hcounter⟩ := @Layout.emits_origin .empty rfl _ _ hgives 1
  rw [hstart] at hcounter
  obtain ⟨hsecond, -⟩ := Layout.emits_data (hfirst.finished_eq.trans rfl) hdata hsize hemit
    (hcounter ▸ hwithin) 2
  rw [hcounter] at hsecond
  have hsource : Layout.ofSource source = (Layout.empty.addLine (plainText ".ORG".toList numeral,
      1)).addLine (plainText ".DB".toList (listText entries), 2) := by
    rw [Layout.ofSource, numberedLines, hlines]
    rfl
  obtain ⟨emitted, hprogram, -, himage⟩ := Program.exists_of_emits (hfirst.trans hsecond)
  refine ⟨_, (congrArg Program.ofLayout hsource).trans hprogram, fun address => ?_⟩
  have hget := Image.get?_insertBytes .empty (hstart.symm ▸ hwithin) address
  rw [Image.get?_empty, Option.or_none, hstart] at hget
  rw [himage]
  exact hget

/-! ### Quoted text -/

/-- The source ` .ORG n` and ` .DB 't'`. -/
def quotedSource (numeral text : String) : String :=
  " .ORG " ++ numeral ++ "\n .DB '" ++ text ++ "'"

theorem lines_quotedSource {numeral text : String} {origin : Nat}
    (h : IsNumeral numeral.toList origin) (hfeed : '\n' ∉ text.toList) :
    lines (quotedSource numeral text).toList =
      [plainText ".ORG".toList numeral.toList,
        plainText ".DB".toList (quote :: (text.toList ++ [quote]))] := by
  have hsource : (quotedSource numeral text).toList = plainText ".ORG".toList numeral.toList ++
      '\n' :: plainText ".DB".toList (quote :: (text.toList ++ [quote])) := by
    simp [quotedSource, plainText, quote]
  have hends : ∀ c ∈ plainText ".ORG".toList numeral.toList, c ≠ '\n' ∧ c ≠ '\r' := by
    refine forall_mem_plainText (by decide) (fun c hc => ?_) fun c hc => ?_
    · exact ⟨ne_of_mem_of_not_mem hc (by decide), ne_of_mem_of_not_mem hc (by decide)⟩
    have hplain := isBlank_of_isPlain (h.isPlain c hc)
    constructor <;> rintro rfl <;> cases hplain
  rw [hsource, lines_pair]
  · exact fun hmem => (hends _ hmem).1 rfl
  · exact fun hlast => (hends _ (List.mem_of_getLast? hlast)).2 rfl
  · simpa [plainText, quote] using hfeed
  · exact List.cons_ne_nil _ _

theorem isEntry_quotation {text : List Char} (hne : text ≠ []) (hquote : quote ∉ text) :
    IsEntry (quote :: (text ++ [quote])) (bytes text) :=
  ⟨[], _, [], (List.append_nil _).symm, List.forall_mem_nil _, List.forall_mem_nil _,
    .text hne hquote⟩

/-- **Quoted text is emitted as it is written**, by itself and in a list with other texts
and numbers. -/
theorem quoted_text_is_emitted_verbatim :
    (∀ (numeral text : String) (origin : Nat), IsNumeral numeral.toList origin → text ≠ "" →
      quote ∉ text.toList → '\n' ∉ text.toList → text.utf8ByteSize ≤ 0xFFFF →
      origin + text.utf8ByteSize ≤ 0x10000 →
      ∃ program, assemble (quotedSource numeral text) = .ok program ∧
        program.image.HoldsFrom origin text.toUTF8.data.toList) ∧
    ∀ (source : String) (numeral : List Char) (origin : Nat)
      (entries : List (List Char × List UInt8)),
      lines source.toList =
        [plainText ".ORG".toList numeral, plainText ".DB".toList (listText entries)] →
      IsNumeral numeral origin → entries ≠ [] → (∀ entry ∈ entries, IsEntry entry.1 entry.2) →
      (listBytes entries).length ≤ 0xFFFF → origin + (listBytes entries).length ≤ 0x10000 →
      ∃ program, assemble source = .ok program ∧
        program.image.HoldsFrom origin (listBytes entries) := by
  refine ⟨fun numeral text origin horigin hne hquote hfeed hlength hwithin => ?_,
    fun _ _ _ _ => exists_image_of_lines⟩
  have hentries : ∀ entry ∈ [(quote :: (text.toList ++ [quote]), bytes text.toList)],
      IsEntry entry.1 entry.2 :=
    List.forall_mem_singleton.mpr (isEntry_quotation (mt String.toList_eq_nil_iff.mp hne) hquote)
  have htext : listText [(quote :: (text.toList ++ [quote]), bytes text.toList)] =
      quote :: (text.toList ++ [quote]) := List.intercalate_singleton
  have hbytes : listBytes [(quote :: (text.toList ++ [quote]), bytes text.toList)] =
      text.toUTF8.data.toList := (List.append_nil _).trans (bytes_toList text)
  have himage := exists_image_of_lines (htext ▸ lines_quotedSource horigin hfeed) horigin
    (List.cons_ne_nil _ _) hentries
  rw [hbytes] at himage
  exact himage hlength hwithin

/-- Items with blanks round them, as in ` 'a; B, c' , $41,%101`. -/
def mixedEntries : List (List Char × List UInt8) :=
  [("'a; B, c' ".toList, [0x61, 0x3B, 0x20, 0x42, 0x2C, 0x20, 0x63]), (" $41".toList, [0x41]),
    ("%101\t".toList, [5]), (" 'É'".toList, [0xC3, 0x89])]

theorem isEntry_of_mem_mixedEntries : ∀ entry ∈ mixedEntries, IsEntry entry.1 entry.2 := by
  have hblank : IsGap " ".toList := List.forall_mem_singleton.mpr (by decide)
  have htab : IsGap "\t".toList := List.forall_mem_singleton.mpr (by decide)
  have hnone : IsGap [] := List.forall_mem_nil _
  have hquoted : IsItem "'a; B, c'".toList [0x61, 0x3B, 0x20, 0x42, 0x2C, 0x20, 0x63] :=
    @IsItem.text "a; B, c".toList (by decide) (by decide)
  have haccent : IsItem "'É'".toList [0xC3, 0x89] :=
    @IsItem.text "É".toList (by decide) (by decide)
  have hhex : IsItem "$41".toList [0x41] :=
    .number ⟨.hexadecimal, "41".toList, [4, 1], rfl, by decide, by decide, by decide⟩
  have hbinary : IsItem "%101".toList [5] :=
    .number ⟨.binary, "101".toList, [1, 0, 1], rfl, by decide, by decide, by decide⟩
  intro entry hentry
  rcases hentry with _ | ⟨_, _ | ⟨_, _ | ⟨_, _ | ⟨_, ⟨⟩⟩⟩⟩⟩
  · exact ⟨[], _, _, by decide, hnone, hblank, hquoted⟩
  · exact ⟨_, _, [], by decide, hblank, hnone, hhex⟩
  · exact ⟨[], _, _, by decide, hnone, htab, hbinary⟩
  · exact ⟨_, _, [], by decide, hblank, hnone, haccent⟩

theorem mixedEntries_are_emitted :
    (∃ program, assemble (quotedSource "$FFF1" "no; Comment, É") = .ok program ∧
      program.image.HoldsFrom 0xFFF1 "no; Comment, É".toUTF8.data.toList) ∧
    ∃ program, assemble " .ORG 512\n .DB 'a; B, c' , $41,%101\t, 'É'\n" = .ok program ∧
      program.image.HoldsFrom 512
        [0x61, 0x3B, 0x20, 0x42, 0x2C, 0x20, 0x63, 0x41, 5, 0xC3, 0x89] :=
  ⟨quoted_text_is_emitted_verbatim.1 _ _ _
      ⟨.hexadecimal, "FFF1".toList, [15, 15, 15, 1], rfl, by decide, by decide, by decide⟩
      (by decide) (by decide) (by decide) (by decide) (by decide),
    quoted_text_is_emitted_verbatim.2 _ "512".toList 512 mixedEntries (by decide)
      ⟨.decimal, "512".toList, [5, 1, 2], rfl, by decide, by decide, by decide⟩ (by decide)
      isEntry_of_mem_mixedEntries (by decide) (by decide)⟩

end Assembler
end Mos6502
