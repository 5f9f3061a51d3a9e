/-
# The source map agrees with the listing

A mapping is recorded for every statement that emits bytes, and for no other. So
the mappings are those of the entries of the listing that show bytes, one for each
(`MadeOf.forall₂_records`). Both indexes of the map hold one entry for each of them, and
both are sorted in the end (`SourceMap.indexes_finalize`), so that a search misses none. As no
two entries are of one line, a line finds its own (`MadeOf.nodup_map_line`); an address finds
its line if no other line emits its first byte there. The place of a statement in its line is
counted in bytes; these are the bytes of the line without its comment and the blanks around
it (`Line.exists_content`).

Key definitions: `IsContent`, `Line.ofContent`, `Location.Cuts`, `Records`,
`SourceMap.Indexes`, `MapsListing`.
Key theorems: `Line.exists_content`, `SourceMap.indexes_finalize`, `MadeOf.forall₂_records`,
`MadeOf.nodup_map_line`, `source_map_is_complete_and_exact`.
-/
import Mos6502.Proofs.Assembler.Agreement
import Mos6502.Proofs.Assembler.Fields
import Mos6502.Proofs.Index
import Mathlib.Data.List.Nodup
import Mathlib.Data.List.Sort

namespace Mos6502

namespace Text

/-- The text is not empty, and has a blank at neither end. -/
structure IsTrimmed (text : List Char) : Prop where
  ne_nil : text ≠ []
  head : ∀ c ∈ text.head?, isBlank c = false
  last : ∀ c ∈ text.getLast?, isBlank c = false

theorem isTrimmed_trim {text : List Char} (h : trim text ≠ []) : IsTrimmed (trim text) := by
  refine ⟨h, fun c hc => ?_, fun c hc => ?_⟩
  · obtain ⟨gap, -, heq⟩ := exists_trimEnd (trimStart text)
    refine not_of_mem_head?_dropWhile isBlank text c ?_
    rw [← trimStart, heq]
    exact List.mem_head?_append_of_mem_head? hc
  · rw [trim, trimEnd, List.getLast?_reverse] at hc
    exact not_of_mem_head?_dropWhile isBlank _ c hc

theorem bytes_append (first second : List Char) :
    bytes (first ++ second) = bytes first ++ bytes second := List.flatMap_append

end Text

namespace Assembler

open Text

/-! ### The content of a line -/

/-- A line consists of blanks, its content, more blanks and a comment, of which
all but the content may be absent. The comment begins with the first semicolon that
is not quoted. -/
structure IsContent (text lead content : List Char) : Prop where
  gap : IsGap lead
  trimmed : IsTrimmed content
  parts : ∃ trail comment, text = lead ++ content ++ trail ++ comment ∧ IsGap trail ∧
    IsCode (lead ++ content ++ trail) ∧ (comment = [] ∨ comment.head? = some ';')

theorem exists_comment {text code : List Char} (h : uncomment text = .ok code) :
    IsCode code ∧ ∃ comment, text = code ++ comment ∧
      (comment = [] ∨ comment.head? = some ';') := by
  obtain ⟨hcode, hclosed⟩ := uncomment_eq_ok_iff.mp h
  subst hcode
  refine ⟨⟨?_, hclosed⟩, ((marked false text).dropWhile fun entry => !beginsComment entry).map
    Prod.fst, ?_, ?_⟩
  · rw [hasComment, marked_codeFrom, List.any_eq_false]
    intro entry hentry
    have hnot : (!beginsComment entry) = true :=
      List.mem_takeWhile_imp (p := fun entry => !beginsComment entry) hentry
    exact Bool.eq_false_iff.mp ((Bool.not_eq_true' _).mp hnot)
  · rw [codeFrom, ← List.map_append, List.takeWhile_append_dropWhile, map_fst_marked]
  · have hhead := List.head?_dropWhile_not (fun entry => !beginsComment entry) (marked false text)
    cases hrest : (marked false text).dropWhile fun entry => !beginsComment entry with
    | nil => exact .inl rfl
    | cons entry rest =>
      rw [hrest] at hhead
      simp only [List.head?_cons, Bool.not_eq_false', beginsComment, Bool.and_eq_true,
        beq_iff_eq] at hhead
      exact .inr (congrArg some hhead.1)

theorem IsContent.byteLength_le {text lead content : List Char} (h : IsContent text lead content) :
    byteLength lead + byteLength content ≤ byteLength text := by
  obtain ⟨trail, comment, rfl, -⟩ := h.parts
  simp only [byteLength_append]
  omega

/-- Nothing in a content begins a comment, and its quotations end. -/
theorem IsContent.isCode {text lead content : List Char} (h : IsContent text lead content) :
    IsCode content := by
  obtain ⟨trail, comment, -, htrail, hcode, -⟩ := h.parts
  have hclosed : endsOpen content = false := by
    have hends := hcode.endsOpen_eq
    rwa [endsOpen_append, endsOpen_append, h.gap.endsOpen, htrail.endsOpen, Bool.bne_false,
      Bool.false_bne] at hends
  rw [List.append_assoc] at hcode
  exact ((hcode.of_append h.gap.endsOpen).2.of_append hclosed).1

/-- The bytes of a content are found in those of the text by their place. -/
theorem IsContent.bytes_eq {text lead content : List Char} (h : IsContent text lead content) :
    ((bytes text).drop (bytes lead).length).take (bytes content).length = bytes content := by
  obtain ⟨trail, comment, rfl, -⟩ := h.parts
  simp only [bytes_append, List.append_assoc]
  rw [List.drop_left, List.take_left]

/-- The fields of a content that stands at a column. -/
def Line.ofContent (content : List Char) (column : Nat) : Line :=
  let (label, operation, rest) := words content
  { label := label.map fun word => String.ofList (upper word)
    operation := operation.map fun word => String.ofList (upper word)
    operand := compact rest
    column
    length := byteLength content }

theorem Line.read_eq_ofContent {text code : List Char} (hcode : uncomment text = .ok code)
    (hne : trim code ≠ []) :
    read text = .ok (some (ofContent (trim code) (byteLength (code.takeWhile isBlank)))) := by
  simp only [read, hcode, if_neg hne]
  rfl

/-- **A line that is read has a content**, whose fields are those of the line. -/
theorem Line.exists_content {text : List Char} {line : Line}
    (h : Line.read text = .ok (some line)) :
    ∃ lead content, IsContent text lead content ∧
      line = ofContent content (bytes lead).length := by
  obtain ⟨code, _, _, _, _, huncomment, hsplits, -⟩ := exists_splits_of_read h
  obtain ⟨hne, -⟩ := words_trim hsplits
  rw [read_eq_ofContent huncomment hne] at h
  cases h
  obtain ⟨hcode, comment, htext, hcomment⟩ := exists_comment huncomment
  obtain ⟨trail, htrail, hparts⟩ := exists_trim code
  rw [← List.append_assoc] at hparts
  refine ⟨code.takeWhile isBlank, trim code, ⟨isGap_takeWhile code, isTrimmed_trim hne, trail,
    comment, ?_, htrail, ?_, hcomment⟩, by rw [length_bytes]⟩
  · rw [hparts, htext]
  · rwa [hparts]

/-- A location cuts the content of a line out of the bytes of the line. -/
def Location.Cuts (location : Location) (text : List Char) : Prop :=
  ∃ lead content, IsContent text lead content ∧
    location.column = (bytes lead).length ∧ location.length = (bytes content).length ∧
    ((bytes text).drop location.column).take location.length = bytes content

theorem Location.cuts_of_read {text : List Char} {line : Line}
    (h : Line.read text = .ok (some line)) (number : Nat) :
    Location.Cuts ⟨number, line.column, line.length⟩ text := by
  obtain ⟨lead, content, hcontent, rfl⟩ := Line.exists_content h
  have hlength : byteLength content = (bytes content).length := (length_bytes content).symm
  refine ⟨lead, content, hcontent, rfl, hlength, ?_⟩
  exact (congrArg (List.take · _) hlength).trans hcontent.bytes_eq

/-! ### The entries that show bytes -/

namespace Listing.Entry

/-- The entry shows bytes. -/
def isCode (entry : Entry) : Bool :=
  match entry.field with
  | .code _ _ => true
  | _ => false

/-- The entry shows bytes from an address on. -/
def startsAt (address : UInt16) (entry : Entry) : Bool :=
  match entry.field with
  | .code start _ => start == address
  | _ => false

theorem isCode_of_startsAt {address : UInt16} {entry : Entry}
    (h : entry.startsAt address = true) : entry.isCode = true := by
  obtain ⟨line, field⟩ := entry
  cases field with
  | code => rfl
  | origin | equate | reserve | position => cases h

end Listing.Entry

/-- A location is where the line of an entry has its content. -/
structure Location.Locates (source : String) (entry : Listing.Entry) (location : Location) :
    Prop where
  line_eq : location.line = entry.line
  cuts : ∃ text, (text, entry.line) ∈ numberedLines source.toList ∧ location.Cuts text

/-- A mapping records an entry that shows bytes. -/
structure Records (source : String) (entry : Listing.Entry) (mapping : Mapping) : Prop where
  code : ∃ bytes, entry.field = .code mapping.range.start bytes ∧
    mapping.range.size.toNat = bytes.length
  locates : mapping.location.Locates source entry

theorem Records.isCode {source : String} {entry : Listing.Entry} {mapping : Mapping}
    (h : Records source entry mapping) : entry.isCode = true := by
  obtain ⟨bytes, hfield, -⟩ := h.code
  rw [Listing.Entry.isCode, hfield]

theorem Records.startsAt {source : String} {entry : Listing.Entry} {mapping : Mapping}
    (h : Records source entry mapping) (address : UInt16) :
    entry.startsAt address = (mapping.range.start == address) := by
  obtain ⟨bytes, hfield, -⟩ := h.code
  rw [Listing.Entry.startsAt, hfield]

theorem Records.map_line_eq {source : String} {entries : List Listing.Entry}
    {mappings : List Mapping} (h : List.Forall₂ (Records source) entries mappings) :
    mappings.map (fun mapping => mapping.location.line) = entries.map Listing.Entry.line := by
  induction h with
  | nil => rfl
  | cons hrecords _ ih => rw [List.map_cons, List.map_cons, ih, hrecords.locates.line_eq]

/-! ### The indexes -/

/-- What the index of the addresses holds of a statement. -/
def Mapping.place (mapping : Mapping) : UInt16 × Location := (mapping.range.start, mapping.location)

/-- What the index of the lines holds of it. -/
def Mapping.extent (mapping : Mapping) : Nat × Range := (mapping.location.line, mapping.range)

namespace SourceMap

/-- Both indexes hold an entry of each mapping, and are sorted. -/
structure Indexes (map : SourceMap) (mappings : List Mapping) : Prop where
  places_sorted : map.byAddress.IsSorted
  places_perm : map.byAddress.entries.toList.Perm (mappings.map Mapping.place)
  extents_sorted : map.byLine.IsSorted
  extents_perm : map.byLine.entries.toList.Perm (mappings.map Mapping.extent)

theorem places_ofMappings (mappings : List Mapping) :
    (ofMappings mappings).byAddress.entries.toList = mappings.map Mapping.place := by
  have hfold : (ofMappings mappings).byAddress = mappings.foldl (fun index mapping =>
      index.add mapping.range.start mapping.location) .empty :=
    (List.foldl_hom byAddress fun _ _ => rfl).symm
  rw [hfold, Index.toList_entries_foldl_add]
  rfl

theorem extents_ofMappings (mappings : List Mapping) :
    (ofMappings mappings).byLine.entries.toList = mappings.map Mapping.extent := by
  have hfold : (ofMappings mappings).byLine = mappings.foldl (fun index mapping =>
      index.add mapping.location.line mapping.range) .empty :=
    (List.foldl_hom byLine fun _ _ => rfl).symm
  rw [hfold, Index.toList_entries_foldl_add]
  rfl

/-- **A finalized map has sorted indexes of all that was recorded.** -/
theorem indexes_finalize (mappings : List Mapping) :
    (ofMappings mappings).finalize.Indexes mappings where
  places_sorted := Index.isSorted_sort _
  places_perm := (Index.perm_sort _).trans (.of_eq (places_ofMappings mappings))
  extents_sorted := Index.isSorted_sort _
  extents_perm := (Index.perm_sort _).trans (.of_eq (extents_ofMappings mappings))

namespace Indexes

variable {map : SourceMap} {mappings : List Mapping}

theorem mem_places_iff (h : map.Indexes mappings) {address : UInt16} {location : Location} :
    (address, location) ∈ map.byAddress.entries.toList ↔
      ∃ mapping ∈ mappings, mapping.range.start = address ∧ mapping.location = location := by
  rw [h.places_perm.mem_iff, List.mem_map]
  simp [Mapping.place]

theorem mem_extents_iff (h : map.Indexes mappings) {line : Nat} {range : Range} :
    (line, range) ∈ map.byLine.entries.toList ↔
      ∃ mapping ∈ mappings, mapping.location.line = line ∧ mapping.range = range := by
  rw [h.extents_perm.mem_iff, List.mem_map]
  simp [Mapping.extent]

end Indexes

end SourceMap

theorem Program.sourceMap_of_ofLayout {layout : Layout} {program : Program}
    (h : Program.ofLayout layout = .ok program) :
    program.sourceMap = (SourceMap.ofMappings (Program.mappings
      (layout.statements.toList.filterMap (Statement.emitted? layout.symbols)))).finalize := by
  unfold Program.ofLayout at h
  split at h
  · simp only at h
    split at h
    · cases h
      rfl
    · cases h
  · cases h

/-- The source map of a program says of the listing all there is to say. -/
structure MapsListing (source : String) (program : Program) : Prop where
  /-- It is gone through in the order of the addresses. -/
  ascending : program.sourceMap.toList.Pairwise fun place later => place.1 ≤ later.1
  /-- What it holds are the addresses and places of the entries that show bytes, one for
  each. By their lines it holds where the bytes begin and how many they are. -/
  perm : ∃ mappings,
    List.Forall₂ (Records source) (program.listing.filter Listing.Entry.isCode) mappings ∧
    program.sourceMap.toList.Perm (mappings.map Mapping.place) ∧
    program.sourceMap.byLine.entries.toList.Perm (mappings.map Mapping.extent)
  /-- No two of them are of one line. -/
  distinct : (program.sourceMap.toList.map fun place => place.2.line).Nodup
  /-- A line that shows bytes finds their address and number. -/
  range?_eq_some : ∀ entry ∈ program.listing, ∀ address bytes, entry.field = .code address bytes →
    ∃ size, program.sourceMap.range? entry.line = some ⟨address, size⟩ ∧
      size.toNat = bytes.length
  range?_eq_none : ∀ line, (∀ entry ∈ program.listing, entry.isCode = true → entry.line ≠ line) →
    program.sourceMap.range? line = none
  /-- An address from which one entry alone shows bytes finds its place, which is the only
  one of the address. -/
  location?_eq_some : ∀ address entry,
    program.listing.filter (Listing.Entry.startsAt address) = [entry] →
    ∃ location, program.sourceMap.location? address = some location ∧
      location.Locates source entry ∧
      ∀ other, (address, other) ∈ program.sourceMap.toList → other = location
  location?_eq_none : ∀ address,
    program.listing.filter (Listing.Entry.startsAt address) = [] →
    program.sourceMap.location? address = none

namespace MadeOf

variable {source : String} {program : Program} {rows : List Row}
  {emitted : List (Statement × Listing.Field)}

theorem indexes (h : MadeOf source program rows emitted) :
    program.sourceMap.Indexes (Program.mappings emitted) := by
  rw [h.program_eq]
  exact SourceMap.indexes_finalize _

/-- The mapping of a statement records its entry. -/
theorem records_of_mem (h : MadeOf source program rows emitted) {s : Statement} {address : UInt16}
    {bytes : List UInt8} (hpair : (s, .code address bytes) ∈ emitted) :
    Records source ⟨s.location.line, .code address bytes⟩
      ⟨⟨address, UInt16.ofNat bytes.length⟩, s.location⟩ := by
  obtain ⟨row, hrow, rfl⟩ := h.exists_row hpair
  have hshows := h.shows_of_statement_eq hrow hpair rfl
  have hcode : row.body.isCode = true := by
    by_contra hnot
    exact hshows.other (Bool.not_eq_true _ ▸ hnot) address bytes rfl
  have hlength : bytes.length = row.body.size := by
    obtain ⟨_, _, hfield, -, hlength⟩ := hshows.code hcode
    cases hfield
    exact hlength
  obtain ⟨text, hmem, hread⟩ := (h.reads hrow).text
  refine ⟨⟨bytes, rfl, ?_⟩, rfl, text, hmem, Location.cuts_of_read hread row.number⟩
  exact Word.toNat_ofNat (hlength ▸ Body.size_le (h.body_eq hrow) hcode)

/-- **The mappings are those of the entries that show bytes**, in the same order. -/
theorem forall₂_records (h : MadeOf source program rows emitted) :
    List.Forall₂ (Records source) (program.listing.filter Listing.Entry.isCode)
      (Program.mappings emitted) := by
  rw [h.listing_eq]
  have hrecords : ∀ {s address bytes}, (s, .code address bytes) ∈ emitted →
      Records source ⟨s.location.line, .code address bytes⟩
        ⟨⟨address, UInt16.ofNat bytes.length⟩, s.location⟩ := fun hpair => h.records_of_mem hpair
  clear h
  induction emitted with
  | nil => exact .nil
  | cons pair emitted ih =>
    have hrest := ih fun hpair => hrecords (List.mem_cons_of_mem _ hpair)
    obtain ⟨s, field⟩ := pair
    cases field with
    | code address bytes => exact .cons (hrecords List.mem_cons_self) hrest
    | origin | equate | reserve | position => exact hrest

theorem exists_entry (h : MadeOf source program rows emitted) {mapping : Mapping}
    (hmapping : mapping ∈ Program.mappings emitted) :
    ∃ entry ∈ program.listing, Records source entry mapping := by
  obtain ⟨⟨s, field⟩, hpair, hsome⟩ := List.mem_filterMap.mp hmapping
  cases field with
  | code address bytes =>
    cases hsome
    refine ⟨_, ?_, h.records_of_mem hpair⟩
    rw [h.listing_eq]
    exact List.mem_map_of_mem hpair
  | origin | equate | reserve | position => cases hsome

theorem exists_mapping (h : MadeOf source program rows emitted) {entry : Listing.Entry}
    (hentry : entry ∈ program.listing) (hcode : entry.isCode = true) :
    ∃ mapping ∈ Program.mappings emitted, Records source entry mapping := by
  rw [h.listing_eq] at hentry
  obtain ⟨⟨s, field⟩, hpair, rfl⟩ := List.mem_map.mp hentry
  cases field with
  | code address bytes =>
    exact ⟨_, List.mem_filterMap.mpr ⟨_, hpair, rfl⟩, h.records_of_mem hpair⟩
  | origin | equate | reserve | position => cases hcode

/-- No two mappings are of one line. -/
theorem nodup_map_line (h : MadeOf source program rows emitted) :
    ((Program.mappings emitted).map fun mapping => mapping.location.line).Nodup := by
  rw [Records.map_line_eq h.forall₂_records, List.Nodup, List.pairwise_map]
  exact (h.pairwise_line.imp Nat.ne_of_lt).filter _

theorem eq_of_line_eq (h : MadeOf source program rows emitted) {mapping other : Mapping}
    (hmapping : mapping ∈ Program.mappings emitted)
    (hother : other ∈ Program.mappings emitted)
    (heq : other.location.line = mapping.location.line) : other = mapping :=
  List.inj_on_of_nodup_map h.nodup_map_line hother hmapping heq

/-- A mapping with the address of an entry that is alone in showing bytes from there
on records it. -/
theorem records_of_filter_eq (h : MadeOf source program rows emitted) {address : UInt16}
    {entry : Listing.Entry}
    (hone : program.listing.filter (Listing.Entry.startsAt address) = [entry]) {mapping : Mapping}
    (hmapping : mapping ∈ Program.mappings emitted) (haddress : mapping.range.start = address) :
    Records source entry mapping := by
  obtain ⟨other, hother, hrecords⟩ := h.exists_entry hmapping
  have hmem : other ∈ program.listing.filter (Listing.Entry.startsAt address) :=
    List.mem_filter.mpr ⟨hother, by rw [hrecords.startsAt, haddress, beq_self_eq_true]⟩
  rw [hone, List.mem_singleton] at hmem
  rwa [← hmem]

/-! ### What is found -/

theorem range?_eq_some (h : MadeOf source program rows emitted) {entry : Listing.Entry}
    (hentry : entry ∈ program.listing) {address : UInt16} {bytes : List UInt8}
    (hfield : entry.field = .code address bytes) :
    ∃ size, program.sourceMap.range? entry.line = some ⟨address, size⟩ ∧
      size.toNat = bytes.length := by
  obtain ⟨mapping, hmapping, hrecords⟩ := h.exists_mapping hentry
    (by rw [Listing.Entry.isCode, hfield])
  obtain ⟨_, hfield', hsize⟩ := hrecords.code
  rw [hfield] at hfield'
  cases hfield'
  have hline := hrecords.locates.line_eq
  refine ⟨mapping.range.size, Index.search?_eq_some_of_mem h.indexes.extents_sorted ?_ ?_, hsize⟩
  · exact h.indexes.mem_extents_iff.mpr ⟨mapping, hmapping, hline, rfl⟩
  · intro range hrange
    obtain ⟨other, hother, hline', rfl⟩ := h.indexes.mem_extents_iff.mp hrange
    rw [h.eq_of_line_eq hmapping hother (hline'.trans hline.symm)]

theorem range?_eq_none (h : MadeOf source program rows emitted) {line : Nat}
    (hline : ∀ entry ∈ program.listing, entry.isCode = true → entry.line ≠ line) :
    program.sourceMap.range? line = none := by
  refine (Index.search?_eq_none_iff h.indexes.extents_sorted).mpr fun range hrange => ?_
  obtain ⟨mapping, hmapping, hmappingLine, -⟩ := h.indexes.mem_extents_iff.mp hrange
  obtain ⟨entry, hentry, hrecords⟩ := h.exists_entry hmapping
  exact hline entry hentry hrecords.isCode (hrecords.locates.line_eq.symm.trans hmappingLine)

theorem location?_eq_some (h : MadeOf source program rows emitted) {address : UInt16}
    {entry : Listing.Entry}
    (hone : program.listing.filter (Listing.Entry.startsAt address) = [entry]) :
    ∃ location, program.sourceMap.location? address = some location ∧
      location.Locates source entry ∧
      ∀ other, (address, other) ∈ program.sourceMap.toList → other = location := by
  have hentry : entry ∈ program.listing.filter (Listing.Entry.startsAt address) := by
    rw [hone]
    exact List.mem_singleton_self entry
  obtain ⟨hlisted, hstarts⟩ := List.mem_filter.mp hentry
  obtain ⟨mapping, hmapping, hrecords⟩ :=
    h.exists_mapping hlisted (Listing.Entry.isCode_of_startsAt hstarts)
  have hunique : ∀ other, (address, other) ∈ program.sourceMap.toList →
      other = mapping.location := by
    intro other hother
    obtain ⟨mapping', hmapping', haddress, rfl⟩ := h.indexes.mem_places_iff.mp hother
    have hrecords' := h.records_of_filter_eq hone hmapping' haddress
    rw [h.eq_of_line_eq hmapping hmapping'
      (hrecords'.locates.line_eq.trans hrecords.locates.line_eq.symm)]
  have haddress : mapping.range.start = address := by
    rw [hrecords.startsAt] at hstarts
    exact beq_iff_eq.mp hstarts
  refine ⟨mapping.location, ?_, hrecords.locates, hunique⟩
  refine Index.search?_eq_some_of_mem h.indexes.places_sorted ?_ hunique
  exact h.indexes.mem_places_iff.mpr ⟨mapping, hmapping, haddress, rfl⟩

theorem location?_eq_none (h : MadeOf source program rows emitted) {address : UInt16}
    (hnone : program.listing.filter (Listing.Entry.startsAt address) = []) :
    program.sourceMap.location? address = none := by
  refine (Index.search?_eq_none_iff h.indexes.places_sorted).mpr fun location hlocation => ?_
  obtain ⟨mapping, hmapping, haddress, -⟩ := h.indexes.mem_places_iff.mp hlocation
  obtain ⟨entry, hentry, hrecords⟩ := h.exists_entry hmapping
  have hstarts : entry.startsAt address = true := by
    rw [hrecords.startsAt, haddress, beq_self_eq_true]
  have hmem := List.mem_filter.mpr ⟨hentry, hstarts⟩
  rw [hnone] at hmem
  cases hmem

end MadeOf

/-- **The source map is complete and exact.** By address it is the list of the
entries that show bytes; each of their lines finds its bytes and no other line does;
an address finds the line whose first byte it has, if there is just one, and nothing
if there is none. -/
theorem source_map_is_complete_and_exact {source : String} {program : Program}
    (h : assemble source = .ok program) : MapsListing source program := by
  obtain ⟨rows, emitted, hmade⟩ := madeOf_of_assemble h
  exact {
    ascending := hmade.indexes.places_sorted
    perm := ⟨_, hmade.forall₂_records, hmade.indexes.places_perm, hmade.indexes.extents_perm⟩
    distinct := by
      rw [SourceMap.toList, (hmade.indexes.places_perm.map _).nodup_iff, List.map_map]
      exact hmade.nodup_map_line
    range?_eq_some := fun _ hentry _ _ hfield => hmade.range?_eq_some hentry hfield
    range?_eq_none := fun _ hline => hmade.range?_eq_none hline
    location?_eq_some := fun _ _ hone => hmade.location?_eq_some hone
    location?_eq_none := fun _ hnone => hmade.location?_eq_none hnone }

/-- A source that goes back, with labels, comments and a quoted semicolon. -/
def backwardSource : String :=
  " .ORG $0200 ; code\nLOOP:  LDX DATA+1\n\tBNE LOOP  ; again\n .ORG $0100\n" ++
    "\u00A0 DATA .DB 'É;',1 ; text\nROOM .DS 2\n"

/-- Its mappings, in the order of the lines. -/
def backwardMappings : List Mapping :=
  [⟨⟨0x0200, 3⟩, ⟨2, 0, 17⟩⟩, ⟨⟨0x0203, 2⟩, ⟨3, 1, 8⟩⟩, ⟨⟨0x0100, 4⟩, ⟨5, 3, 16⟩⟩]

theorem mappings_backwardSource : Program.mappings
    ((Layout.ofSource backwardSource).statements.toList.filterMap
      (Statement.emitted? (Layout.ofSource backwardSource).symbols)) = backwardMappings := by
  decide +kernel

/-- The line that comes last has the lowest address. -/
theorem backwardSource_is_mapped :
    ∃ program, assemble backwardSource = .ok program ∧
      program.sourceMap.toList =
        [(0x0100, ⟨5, 3, 16⟩), (0x0200, ⟨2, 0, 17⟩), (0x0203, ⟨3, 1, 8⟩)] ∧
      program.sourceMap.byLine.entries.toList =
        [(2, ⟨0x0200, 3⟩), (3, ⟨0x0203, 2⟩), (5, ⟨0x0100, 4⟩)] ∧
      MapsListing backwardSource program := by
  have hsome : (assemble backwardSource).toOption.map (fun program => program.warnings) =
      some [] := by
    decide +kernel
  obtain ⟨program, h, -⟩ := Result.exists_of_map_toOption hsome
  refine ⟨program, h, ?_, ?_, source_map_is_complete_and_exact h⟩ <;>
    rw [Program.sourceMap_of_ofLayout h, mappings_backwardSource] <;>
    simp [SourceMap.toList, SourceMap.finalize, SourceMap.ofMappings, SourceMap.add,
      SourceMap.empty, backwardMappings, Index.sort, Index.add, Index.empty, List.mergeSort]

end Assembler
end Mos6502
