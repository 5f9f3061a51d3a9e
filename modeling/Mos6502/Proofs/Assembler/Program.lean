/-
# What an accepted source comes to

A source is accepted when its lines leave no error and each of its statements
comes to something. The program is then made of its rows and of what their
statements came to (`MadeOf`): the listing has these in order, and the image
holds the bytes that the listing shows.

Key definition: `MadeOf`.
Key theorems: `madeOf_of_assemble`, `MadeOf.image_eq`, `MadeOf.forall₂_emit`,
`MadeOf.pairwise_line`.
-/
import Mos6502.Proofs.Assembler.Counter

namespace Mos6502
namespace Assembler

open Text

namespace Program

/-- A program is made of statements all of which come to something. -/
theorem ofLayout_eq_ok {layout : Layout} {program : Program}
    (h : ofLayout layout = .ok program) :
    layout.errors = #[] ∧ ∃ emitted : List (Statement × Listing.Field),
      emitted.map Prod.fst = layout.statements.toList ∧
      (∀ pair ∈ emitted, pair.1.emit layout.symbols = .ok pair.2) ∧
      program = ofEmitted layout.symbols emitted := by
  unfold ofLayout at h
  split at h
  · rename_i herrors
    refine ⟨Array.isEmpty_iff.mp herrors, ?_⟩
    simp only at h
    split at h
    · rename_i hnone
      rw [List.isEmpty_iff, List.filterMap_eq_nil_iff] at hnone
      refine ⟨layout.statements.toList.filterMap (Statement.emitted? layout.symbols), ?_, ?_,
        (Except.ok.inj h).symm⟩
      · rw [List.map_filterMap]
        refine (List.filterMap_congr fun s hs => ?_).trans List.filterMap_some
        have hok := hnone s hs
        unfold Statement.error? at hok
        unfold Statement.emitted?
        split at hok
        · rfl
        · cases hok
      · intro pair hpair
        obtain ⟨s, -, hs⟩ := List.mem_filterMap.mp hpair
        unfold Statement.emitted? at hs
        split at hs
        · cases hs
          assumption
        · cases hs
    · cases h
  · cases h

/-- Statements that all come to something make a program. -/
theorem ofLayout_of_emit {layout : Layout} {emitted : List (Statement × Listing.Field)}
    (herrors : layout.errors = #[]) (hstatements : layout.statements.toList = emitted.map Prod.fst)
    (hemit : ∀ pair ∈ emitted, pair.1.emit layout.symbols = .ok pair.2) :
    ofLayout layout = .ok (ofEmitted layout.symbols emitted) := by
  have hnone : (emitted.map Prod.fst).filterMap (Statement.error? layout.symbols) = [] := by
    rw [List.filterMap_map, List.filterMap_eq_nil_iff]
    intro pair hpair
    simp only [Function.comp_apply, Statement.error?, hemit pair hpair]
  have hall : (emitted.map Prod.fst).filterMap (Statement.emitted? layout.symbols) = emitted := by
    rw [List.filterMap_map]
    refine (List.filterMap_congr fun pair hpair => ?_).trans List.filterMap_some
    simp only [Function.comp_apply, Statement.emitted?, hemit pair hpair]
  simp only [ofLayout, herrors, hstatements, hnone, hall]
  rfl

/-! ### The image -/

/-- The bytes that a listing shows, in order, with their addresses. -/
def shown (listing : List Listing.Entry) : List (UInt16 × UInt8) :=
  (listing.flatMap emissions).map fun e => (e.address, e.value)

theorem fst_foldl_deposit (list : List Emission) (state : Image × Array Warning) :
    (list.foldl deposit state).1 =
      state.1.insertAll (list.map fun e => (e.address, e.value)) := by
  induction list generalizing state with
  | nil => rfl
  | cons e list ih => exact ih (deposit state e)

theorem image_ofEmitted (symbols : SymbolTable) (emitted : List (Statement × Listing.Field)) :
    (ofEmitted symbols emitted).image =
      Image.empty.insertAll (shown (ofEmitted symbols emitted).listing) :=
  fst_foldl_deposit _ _

end Program

/-! ### Rows and entries -/

/-- A row is one of the lines as it was read, with what it asks for. -/
structure Row.Reads (symbols : List Symbol) (lines : List (List Char × Nat)) (row : Row) : Prop where
  text : ∃ text, (text, row.number) ∈ lines ∧ Line.read text = .ok (some row.line)
  /-- It was read with the symbols of the lines before it. -/
  body : Body.ofLine (earlier row.number symbols) row.line = .ok row.body

theorem Row.Reads.cons {symbols : List Symbol} {lines : List (List Char × Nat)} {row : Row}
    (h : row.Reads symbols lines) (line : List Char × Nat) : row.Reads symbols (line :: lines) := by
  obtain ⟨text, hmem, hread⟩ := h.text
  exact ⟨⟨text, List.mem_cons_of_mem _ hmem, hread⟩, h.body⟩

theorem reads_of_mem_rows? {symbols : List Symbol} :
    ∀ {lines : List (List Char × Nat)} {counter : Nat} {rows : List Row},
      rows? symbols counter lines = some rows → ∀ row ∈ rows, row.Reads symbols lines
  | [], _, _, h => by
    cases h
    exact List.forall_mem_nil _
  | (text, number) :: lines, counter, rows, h => by
    unfold rows? at h
    split at h
    · cases h
    · exact fun row hrow => (reads_of_mem_rows? h row hrow).cons _
    · rename_i line hread
      split at h
      · cases h
      · rename_i body hbody
        have hfirst : Row.Reads symbols ((text, number) :: lines) ⟨number, line, body, counter⟩ :=
          ⟨⟨text, List.mem_cons_self, hread⟩, hbody⟩
        split at h
        · cases h
          exact List.forall_mem_singleton.mpr hfirst
        · obtain ⟨rest, hrest, rfl⟩ := Option.map_eq_some_iff.mp h
          exact List.forall_mem_cons.mpr
            ⟨hfirst, fun row hrow => (reads_of_mem_rows? hrest row hrow).cons _⟩

/-- The rows come in the order of their lines. -/
theorem numbers_sublist_of_rows? {symbols : List Symbol} :
    ∀ {lines : List (List Char × Nat)} {counter : Nat} {rows : List Row},
      rows? symbols counter lines = some rows →
      (rows.map Row.number).Sublist (lines.map Prod.snd)
  | [], _, _, h => by
    cases h
    exact List.Sublist.refl _
  | (text, number) :: lines, counter, rows, h => by
    unfold rows? at h
    split at h
    · cases h
    · exact (numbers_sublist_of_rows? h).cons _
    · split at h
      · cases h
      · split at h
        · cases h
          exact (List.nil_sublist _).cons_cons _
        · obtain ⟨rest, hrest, rfl⟩ := Option.map_eq_some_iff.mp h
          exact (numbers_sublist_of_rows? hrest).cons_cons _

theorem pairwise_number_of_rows? {symbols : List Symbol} {counter : Nat} {source : String}
    {rows : List Row} (h : rows? symbols counter (numberedLines source.toList) = some rows) :
    rows.Pairwise fun row later => row.number < later.number := by
  have hsublist := numbers_sublist_of_rows? h
  rw [numberedLines, List.zipIdx_map_snd] at hsublist
  exact List.pairwise_map.mp (List.Pairwise.sublist hsublist List.pairwise_lt_range')

/-- A program is made of the rows of a source and of what their statements came
to when all symbols were known. -/
structure MadeOf (source : String) (program : Program) (rows : List Row)
    (emitted : List (Statement × Listing.Field)) : Prop where
  /-- Every line up to the end directive is read. -/
  rows_eq : rows? program.symbols 0 (numberedLines source.toList) = some rows
  fits : ∀ row ∈ rows, row.Fits
  /-- The statements are those of the rows. -/
  statements_eq : (Layout.ofSource source).statements.toList = rows.map Row.statement
  symbols_eq : program.symbols = rows.filterMap Row.symbol?
  emitted_eq : rows.map Row.statement = emitted.map Prod.fst
  emit_eq : ∀ pair ∈ emitted, pair.1.emit ⟨program.symbols⟩ = .ok pair.2
  program_eq : program = Program.ofEmitted ⟨program.symbols⟩ emitted

/-- **An accepted source is that of its rows.** -/
theorem madeOf_of_assemble {source : String} {program : Program}
    (h : assemble source = .ok program) : ∃ rows emitted, MadeOf source program rows emitted := by
  obtain ⟨herrors, emitted, hfst, hemit, rfl⟩ := Program.ofLayout_eq_ok h
  obtain ⟨rows, hrows, hadds⟩ := Layout.ofSource_eq herrors
  exact ⟨rows, emitted, hrows, hadds.fits, hadds.statements_eq, hadds.symbols_eq,
    hadds.statements_eq.symm.trans hfst.symm, hemit, rfl⟩

namespace MadeOf

variable {source : String} {program : Program} {rows : List Row}
  {emitted : List (Statement × Listing.Field)}

theorem listing_eq (h : MadeOf source program rows emitted) :
    program.listing = emitted.map fun pair => ⟨pair.1.location.line, pair.2⟩ := by
  rw [h.program_eq]
  rfl

theorem image_eq (h : MadeOf source program rows emitted) :
    program.image = Image.empty.insertAll (Program.shown program.listing) := by
  rw [h.program_eq]
  exact Program.image_ofEmitted _ _

theorem reads (h : MadeOf source program rows emitted) {row : Row} (hrow : row ∈ rows) :
    row.Reads program.symbols (numberedLines source.toList) := reads_of_mem_rows? h.rows_eq row hrow

/-- A row was read with the symbols of the lines before it. -/
theorem body_eq (h : MadeOf source program rows emitted) {row : Row} (hrow : row ∈ rows) :
    Body.ofLine (earlier row.number program.symbols) row.line = .ok row.body := (h.reads hrow).body

theorem exists_row (h : MadeOf source program rows emitted) {pair : Statement × Listing.Field}
    (hpair : pair ∈ emitted) : ∃ row ∈ rows, row.statement = pair.1 := by
  have hmem : pair.1 ∈ rows.map Row.statement := by
    rw [h.emitted_eq]
    exact List.mem_map_of_mem hpair
  exact List.mem_map.mp hmem

/-- The listing has an entry for each row in order, with what its statement came to. -/
theorem forall₂_emit (h : MadeOf source program rows emitted) :
    List.Forall₂ (fun row entry => row ∈ rows ∧ entry.line = row.number ∧
      row.statement.emit ⟨program.symbols⟩ = .ok entry.field) rows program.listing := by
  have hmap := h.emitted_eq
  rw [← List.forall₂_eq_eq_eq, List.forall₂_map_left_iff, List.forall₂_map_right_iff,
    List.forall₂_iff_zip] at hmap
  rw [h.listing_eq, List.forall₂_map_right_iff, List.forall₂_iff_zip]
  refine ⟨hmap.1, fun {row pair} hzip => ?_⟩
  obtain ⟨hrow, hpair⟩ := List.of_mem_zip hzip
  have heq : row.statement = pair.1 := hmap.2 hzip
  have hline : pair.1.location.line = row.number := heq ▸ rfl
  exact ⟨hrow, hline, heq ▸ h.emit_eq pair hpair⟩

theorem map_line_eq (h : MadeOf source program rows emitted) :
    program.listing.map Listing.Entry.line = rows.map Row.number := by
  rw [h.listing_eq, List.map_map]
  show emitted.map ((fun s : Statement => s.location.line) ∘ Prod.fst) = _
  rw [← List.map_map, ← h.emitted_eq, List.map_map]
  rfl

/-- The entries of the listing ascend, one for each line. -/
theorem pairwise_line (h : MadeOf source program rows emitted) :
    program.listing.Pairwise fun entry later => entry.line < later.line := by
  rw [← List.pairwise_map, h.map_line_eq, List.pairwise_map]
  exact pairwise_number_of_rows? h.rows_eq

end MadeOf

end Assembler
end Mos6502
