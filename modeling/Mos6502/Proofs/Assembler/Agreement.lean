/-
# Both readings of a source agree on addresses

The first reading sizes every line and counts; the second makes bytes of what
was sized. The listing shows each row where the counter stood, with as many
bytes as the counter went on (`Row.Shows`), and each symbol has the value that
the counter gives its label (`Row.definition?`).

Key definitions: `Row.Shows`, `Row.definition?`.
Key theorems: `Row.shows_of_emit`, `listing_and_symbols_follow_counter`.
-/
import Mos6502.Proofs.Assembler.Program
import Mos6502.Proofs.Image
import Mos6502.Proofs.Word

namespace Mos6502
namespace Assembler

open Text

namespace Row

/-- An entry of the listing shows a row: a line that emits bytes emits as many
as it takes, from the location counter on and within memory. -/
structure Shows (row : Row) (entry : Listing.Entry) : Prop where
  line_eq : entry.line = row.number
  code : row.body.isCode = true → ∃ address bytes, entry.field = .code address bytes ∧
    address.toNat = row.counter ∧ bytes.length = row.body.size
  other : row.body.isCode = false → ∀ address bytes, entry.field ≠ .code address bytes
  within : ∀ address bytes, entry.field = .code address bytes →
    address.toNat + bytes.length ≤ 0x10000
  addresses : (Program.emissions entry).map (fun e => e.address.toNat) =
    List.range' row.counter (if row.body.isCode then row.body.size else 0)

/-- The name, value and line of the symbol that a row defines. -/
def definition? (row : Row) : Option (String × Nat × Nat) :=
  row.line.label.map fun name => (name, row.body.labelled row.counter, row.number)

end Row

namespace Row

/-- A row that emits bytes does so before the end of memory. -/
theorem counter_add_size_le {row : Row} (hfits : row.Fits) (hcode : row.body.isCode = true) :
    row.counter + row.body.size ≤ 0x10000 := by
  have h := hfits.advance_le
  rwa [Body.advance_eq, Body.placement_of_isPlaced (Body.isPlaced_of_isCode hcode)] at h

theorem toNat_address {row : Row} {symbols : SymbolTable} (hfits : row.Fits)
    (hbody : Body.ofLine symbols row.line = .ok row.body) (hcode : row.body.isCode = true) :
    row.statement.address.toNat = row.counter := by
  have hpos := Body.size_pos hbody hcode
  have hle := counter_add_size_le hfits hcode
  have hplaced := Body.isPlaced_of_isCode hcode
  rw [statement, Body.placement_of_isPlaced hplaced, Word.toNat_ofNat (by omega)]

theorem shows_of_emit {row : Row} {symbols final : SymbolTable} {field : Listing.Field}
    (hfits : row.Fits) (hbody : Body.ofLine symbols row.line = .ok row.body)
    (h : row.statement.emit final = .ok field) : row.Shows ⟨row.number, field⟩ := by
  rcases Statement.emit_eq_ok hbody h with ⟨hcode, bytes, rfl, hlength⟩ | ⟨hcode, hother⟩
  · have haddress := toNat_address hfits hbody hcode
    change row.body.isCode = true at hcode
    change bytes.length = row.body.size at hlength
    have hle := counter_add_size_le hfits hcode
    refine ⟨rfl, fun _ => ⟨_, bytes, rfl, haddress, hlength⟩, fun h => ?_, fun _ _ h => ?_, ?_⟩
    · rw [hcode] at h
      cases h
    · cases h
      rwa [haddress, hlength]
    · rw [if_pos hcode, ← haddress, ← hlength,
        ← Image.map_toNat_consecutive _ _ (by rw [haddress, hlength]; exact hle)]
      simp only [Program.emissions, List.map_map, Function.comp_def]
  · change row.body.isCode = false at hcode
    refine ⟨rfl, fun h => ?_, fun _ => hother, fun _ _ h => absurd h (hother _ _), ?_⟩
    · rw [hcode] at h
      cases h
    · simp only [hcode, Bool.false_eq_true, if_false, List.range'_zero, List.map_eq_nil_iff]
      cases field with
      | code address bytes => exact absurd rfl (hother address bytes)
      | origin | equate | reserve | position => rfl

theorem definition?_eq {row : Row} (hfits : row.Fits) :
    row.symbol?.map (fun symbol => (symbol.name, symbol.value.toNat, symbol.line)) =
      row.definition? := by
  cases hlabel : row.line.label with
  | none => simp only [symbol?, definition?, hlabel, Option.map_none]
  | some name =>
    have hle := hfits.labelled_le (by rw [hlabel]; rfl)
    simp only [symbol?, definition?, hlabel, Option.map_some, Word.toNat_ofNat hle]

end Row

namespace MadeOf

variable {source : String} {program : Program} {rows : List Row}
  {emitted : List (Statement × Listing.Field)}

/-- What the statement of a row came to shows the row. -/
theorem shows_of_statement_eq (h : MadeOf source program rows emitted) {row : Row}
    {pair : Statement × Listing.Field} (hrow : row ∈ rows) (hpair : pair ∈ emitted)
    (heq : row.statement = pair.1) : row.Shows ⟨pair.1.location.line, pair.2⟩ := by
  have hfield := h.emit_eq pair hpair
  rw [← heq] at hfield ⊢
  exact Row.shows_of_emit (h.fits row hrow) (h.body_eq hrow) hfield

/-- The entries of the listing show the rows, one for each in order. -/
theorem forall₂_shows (h : MadeOf source program rows emitted) :
    List.Forall₂ Row.Shows rows program.listing := by
  refine h.forall₂_emit.imp fun row entry ⟨hrow, hline, hemit⟩ => ?_
  have hshows := Row.shows_of_emit (h.fits row hrow) (h.body_eq hrow) hemit
  rwa [← hline] at hshows

theorem exists_shows (h : MadeOf source program rows emitted) {entry : Listing.Entry}
    (hentry : entry ∈ program.listing) : ∃ row ∈ rows, row.Shows entry := by
  rw [h.listing_eq] at hentry
  obtain ⟨pair, hpair, rfl⟩ := List.mem_map.mp hentry
  obtain ⟨row, hrow, heq⟩ := h.exists_row hpair
  exact ⟨row, hrow, h.shows_of_statement_eq hrow hpair heq⟩

end MadeOf

/-- **A label on a line that emits bytes names the address of the first of
them.** -/
theorem Row.first_address {row : Row} {symbols : SymbolTable} {entry : Listing.Entry}
    {symbol : Symbol} (hbody : Body.ofLine symbols row.line = .ok row.body)
    (hshows : row.Shows entry) (hcode : row.body.isCode = true)
    (hsymbol : row.symbol? = some symbol) :
    (Program.emissions entry).head?.map Program.Emission.address = some symbol.value := by
  obtain ⟨address, bytes, hfield, haddress, hlength⟩ := hshows.code hcode
  have hpos := Body.size_pos hbody hcode
  obtain ⟨value, bytes, rfl⟩ := List.exists_cons_of_length_pos (hlength ▸ hpos)
  obtain ⟨name, -, rfl⟩ := Option.map_eq_some_iff.mp hsymbol
  simp only [Program.emissions, hfield, Image.consecutive_cons, List.map_cons, List.head?_cons,
    Option.map_some, Option.some.injEq]
  rw [Body.labelled_of_isPlaced (Body.isPlaced_of_isCode hcode), ← haddress, UInt16.ofNat_toNat]

/-- A program is the one that the location counter of its rows tells. -/
structure FollowsCounter (rows : List Row) (program : Program) : Prop where
  listing : List.Forall₂ Row.Shows rows program.listing
  /-- The symbols are those that the labels of the rows define. -/
  symbols : program.symbols.map (fun symbol => (symbol.name, symbol.value.toNat, symbol.line)) =
    rows.filterMap Row.definition?
  /-- The label of a row that emits bytes names the address of the first. -/
  labels : List.Forall₂ (fun row entry => row.body.isCode = true →
    ∀ name, row.line.label = some name → ∃ symbol ∈ program.symbols, symbol.name = name ∧
      (Program.emissions entry).head?.map Program.Emission.address = some symbol.value)
    rows program.listing
  counter_le : ∀ row ∈ rows, row.counter ≤ 0x10000 ∧ row.body.advance row.counter ≤ 0x10000

/-- **The listing and the symbols follow the location counter.** Every line of
an accepted source up to the end directive is read. A line that emits bytes
emits as many as it takes, from the location counter on, and a label has the
value of the counter, the new origin or the constant. -/
theorem listing_and_symbols_follow_counter {source : String} {program : Program}
    (h : assemble source = .ok program) :
    ∃ rows, rows? program.symbols 0 (numberedLines source.toList) = some rows ∧
      FollowsCounter rows program := by
  obtain ⟨rows, emitted, hmade⟩ := madeOf_of_assemble h
  have hshows := hmade.forall₂_shows
  have hsymbols := hmade.symbols_eq
  refine ⟨rows, hmade.rows_eq, hshows, ?_, ?_, fun row hrow => ?_⟩
  · rw [hsymbols, List.map_filterMap]
    exact List.filterMap_congr fun row hrow => Row.definition?_eq (hmade.fits row hrow)
  · rw [List.forall₂_iff_zip] at hshows ⊢
    refine ⟨hshows.1, fun {row entry} hzip hcode name hlabel => ?_⟩
    have hrow := (List.of_mem_zip hzip).1
    obtain ⟨symbol, hsymbol⟩ : ∃ symbol, row.symbol? = some symbol := by
      rw [Row.symbol?, hlabel]
      exact ⟨_, rfl⟩
    have hname : symbol.name = name := by
      obtain ⟨_, hname, rfl⟩ := Option.map_eq_some_iff.mp hsymbol
      exact Option.some.inj (hname.symm.trans hlabel)
    refine ⟨symbol, ?_, hname, ?_⟩
    · rw [hsymbols]
      exact List.mem_filterMap.mpr ⟨row, hrow, hsymbol⟩
    · exact Row.first_address (hmade.body_eq hrow) (hshows.2 hzip) hcode hsymbol
  · exact ⟨(hmade.fits row hrow).counter_le, (hmade.fits row hrow).advance_le⟩

/-- A source with a forward reference, a branch back, a constant, data and a
line behind its end. -/
def sampleSource : String :=
  " .ORG $FFF0\nSTART LDA LATER\n BNE START\nZP .EQU $10\n LDX ZP\n" ++
    "LATER .DB 'AB',ZP ; text\nROOM .DS 2\n .END\nnothing more"

theorem sampleSource_follows_counter :
    ∃ program, assemble sampleSource = .ok program ∧
      program.symbols.map (fun symbol => (symbol.name, symbol.value.toNat)) =
        [("START", 0xFFF0), ("ZP", 0x10), ("LATER", 0xFFF7), ("ROOM", 0xFFFA)] ∧
      ∃ rows, rows? program.symbols 0 (numberedLines sampleSource.toList) = some rows ∧
        FollowsCounter rows program := by
  have hsymbols : (assemble sampleSource).toOption.map
      (fun program => program.symbols.map fun symbol => (symbol.name, symbol.value.toNat)) =
        some [("START", 0xFFF0), ("ZP", 0x10), ("LATER", 0xFFF7), ("ROOM", 0xFFFA)] := by
    decide +kernel
  obtain ⟨program, h, hvalues⟩ := Result.exists_of_map_toOption hsymbols
  exact ⟨program, h, hvalues, listing_and_symbols_follow_counter h⟩

end Assembler
end Mos6502
