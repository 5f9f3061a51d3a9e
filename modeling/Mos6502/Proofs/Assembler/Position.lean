/-
# Where the listing shows a line

The listing shows a line where the location counter stands before it, as a word. The
counter is a number that goes up to 0x10000, one past the last address, and the word of
that is zero. So a line is shown at its counter unless memory is full before it
(`Row.IsShown`). Such a line takes no byte and has no label: it is an end directive, or
reserves nothing (`Row.isIdle_of_counter_eq`).

Key definitions: `Listing.Field.address?`, `Row.IsIdle`, `Row.IsShown`.
Key theorems: `Statement.address?_of_emit`, `Row.isIdle_of_counter_eq`,
`Row.isShown_of_emit`, `listing_shows_the_counter_modulo`.
-/
import Mos6502.Proofs.Assembler.Fields
import Mos6502.Proofs.Assembler.Program

namespace Mos6502
namespace Assembler

open Text

namespace Listing

/-- The address of the line that a field shows. Origins and constants have none. -/
def Field.address? : Field → Option UInt16
  | .code address _ | .reserve address _ | .position address => some address
  | .origin _ | .equate _ => none

theorem Field.text_of_address? {field : Field} {address : UInt16}
    (h : field.address? = some address) : ∃ rest, field.text = hexWord address ++ rest := by
  cases field with
  | origin | equate => cases h
  | position =>
    cases h
    exact ⟨[], (List.append_nil _).symm⟩
  | code _ bytes =>
    cases h
    exact ⟨" :".toList ++ bytes.flatMap fun b => ' ' :: hexByte b, List.append_assoc _ _ _⟩
  | reserve _ size =>
    cases h
    refine ⟨" : Reserved ".toList ++ ((toString size.toNat).toList ++ " Bytes".toList), ?_⟩
    rw [Field.text, List.append_assoc, List.append_assoc]

/-- The text of a field shows its address: four digits that are read as it. -/
theorem Field.ofDigits_text {field : Field} {address : UInt16}
    (h : field.address? = some address) :
    Number.ofDigits .hexadecimal (field.text.take 4) = .ok ⟨address, false⟩ := by
  obtain ⟨rest, htext⟩ := field.text_of_address? h
  have hlength : (hexWord address).length = 4 := rfl
  rw [htext, List.take_left' hlength, Number.ofDigits_hexWord]

end Listing

theorem Statement.address?_of_emit {symbols : SymbolTable} {s : Statement} {field : Listing.Field}
    (h : s.emit symbols = .ok field) :
    field.address? = if s.body.isPlaced then some s.address else none := by
  obtain ⟨address, location, body⟩ := s
  cases body with
  | instruction m mode operand =>
    obtain ⟨bytes, -, rfl⟩ := Result.map_eq_ok.mp h
    rfl
  | nothing =>
    cases h
    rfl
  | directive directive =>
    cases directive with
    | data items =>
      obtain ⟨bytes, -, rfl⟩ := Result.map_eq_ok.mp h
      rfl
    | origin | reserve | equate | finish =>
      cases h
      rfl

namespace Row

/-- The row has no label, and is an end directive or reserves nothing. -/
structure IsIdle (row : Row) : Prop where
  label_eq : row.line.label = none
  body_eq : row.body = .directive .finish ∨ row.body = .directive (.reserve 0)

/-- **Behind the end of memory only idle rows stand.** Any other row takes a byte or has
a label, which is no address. -/
theorem isIdle_of_counter_eq {row : Row} {symbols : List Symbol} {lines : List (List Char × Nat)}
    (hfits : row.Fits) (hreads : row.Reads symbols lines) (hplaced : row.body.isPlaced = true)
    (hcounter : row.counter = 0x10000) : row.IsIdle := by
  have hlabel : row.line.label = none := by
    rw [← Option.not_isSome_iff_eq_none]
    intro hsome
    have hle := hfits.labelled_le hsome
    rw [Body.labelled_of_isPlaced hplaced, hcounter] at hle
    exact absurd hle (by decide)
  have hsize : row.body.size = 0 := by
    have hle := hfits.advance_le
    rw [Body.advance_eq, Body.placement_of_isPlaced hplaced, hcounter] at hle
    omega
  refine ⟨hlabel, ?_⟩
  cases hbody : row.body with
  | instruction m mode operand =>
    rw [hbody, Body.size] at hsize
    omega
  | nothing =>
    -- a line that asks for nothing has a label and nothing else
    obtain ⟨text, -, hread⟩ := hreads.text
    have hoperation := Body.ofLine_eq_nothing (hbody ▸ hreads.body)
    rcases Line.label_or_operation hread with hsome | hsome
    · rw [hlabel] at hsome
      cases hsome
    · rw [hoperation] at hsome
      cases hsome
  | directive directive =>
    cases directive with
    | finish => exact .inl rfl
    | reserve size =>
      rw [hbody] at hsize
      obtain rfl : size = 0 := UInt16.toNat.inj hsize
      exact .inr rfl
    | origin | equate =>
      rw [hbody] at hplaced
      cases hplaced
    | data items =>
      have hpos := Body.size_pos hreads.body (by rw [hbody]; rfl)
      omega

/-- An entry of the listing shows where the location counter stands before a row. -/
structure IsShown (row : Row) (entry : Listing.Entry) : Prop where
  line_eq : entry.line = row.number
  counter_le : row.counter ≤ 0x10000
  /-- Origins and constants are shown with their value, all else with an address. -/
  isSome_eq : entry.field.address?.isSome = row.body.isPlaced
  /-- The address is the counter, around the end of memory. -/
  toNat_eq : ∀ address ∈ entry.field.address?, address.toNat = row.counter % 0x10000
  /-- It is the counter itself just when memory is not full. -/
  toNat_eq_iff : ∀ address ∈ entry.field.address?,
    address.toNat = row.counter ↔ row.counter < 0x10000
  /-- Where memory is full, the row is idle. -/
  isIdle : entry.field.address?.isSome = true → row.counter = 0x10000 → row.IsIdle
  /-- The entry is displayed with the digits of the address before all else. -/
  digits : ∀ address ∈ entry.field.address?,
    Number.ofDigits .hexadecimal (entry.field.text.take 4) = .ok ⟨address, false⟩

theorem isShown_of_emit {row : Row} {symbols : List Symbol} {lines : List (List Char × Nat)}
    {final : SymbolTable} {entry : Listing.Entry} (hfits : row.Fits)
    (hreads : row.Reads symbols lines) (hline : entry.line = row.number)
    (h : row.statement.emit final = .ok entry.field) : row.IsShown entry := by
  have haddress : entry.field.address? =
      if row.body.isPlaced then some (UInt16.ofNat row.counter) else none := by
    rw [Statement.address?_of_emit h]
    cases hplaced : row.body.isPlaced with
    | true => simp only [statement, hplaced, Body.placement_of_isPlaced hplaced]
    | false => simp only [statement, hplaced]; rfl
  have hle := hfits.counter_le
  have hword : ∀ address ∈ entry.field.address?, address.toNat = row.counter % 0x10000 := by
    intro address hmem
    rw [haddress] at hmem
    obtain ⟨-, heq⟩ := Option.ite_none_right_eq_some.mp hmem
    rw [← Option.some.inj heq]
    exact UInt16.toNat_ofNat'
  have hisSome : entry.field.address?.isSome = row.body.isPlaced := by
    rw [haddress]
    cases row.body.isPlaced <;> rfl
  exact {
    line_eq := hline
    counter_le := hle
    isSome_eq := hisSome
    toNat_eq := hword
    toNat_eq_iff := fun address hmem => by
      rw [hword address hmem]
      omega
    isIdle := fun hsome => isIdle_of_counter_eq hfits hreads (hisSome.symm.trans hsome)
    digits := fun _ hmem => Listing.Field.ofDigits_text hmem }

end Row

/-- **The listing shows the location counter, around the end of memory.** The entries of
an accepted source show its lines up to the end directive, in order. Each shows the
counter before its line, or zero behind the last byte of memory. -/
theorem listing_shows_the_counter_modulo {source : String} {program : Program}
    (h : assemble source = .ok program) :
    ∃ rows, rows? program.symbols 0 (numberedLines source.toList) = some rows ∧
      List.Forall₂ Row.IsShown rows program.listing := by
  obtain ⟨rows, emitted, hmade⟩ := madeOf_of_assemble h
  refine ⟨rows, hmade.rows_eq, hmade.forall₂_emit.imp fun row entry ⟨hrow, hline, hemit⟩ => ?_⟩
  exact Row.isShown_of_emit (hmade.fits row hrow) (hmade.reads hrow) hline hemit

/-- A source that fills the last byte of memory and goes on behind it. -/
def filledSource : String := " .ORG $FFFF\n NOP\n .DS 0\n .END"

/-- Its lines, the counter before them and the addresses that they are shown at. -/
theorem listing_filledSource :
    ∃ program rows, assemble filledSource = .ok program ∧
      rows? program.symbols 0 (numberedLines filledSource.toList) = some rows ∧
      rows.map Row.counter = [0, 0xFFFF, 0x10000, 0x10000] ∧
      program.listing.map Listing.Entry.field =
        [.origin 0xFFFF, .code 0xFFFF [0xEA], .reserve 0 0, .position 0] := by
  have hlisting : (assemble filledSource).toOption.map
      (fun program => (program.symbols, program.listing.map Listing.Entry.field)) =
        some ([], [.origin 0xFFFF, .code 0xFFFF [0xEA], .reserve 0 0, .position 0]) := by
    decide +kernel
  have hcounters : (rows? [] 0 (numberedLines filledSource.toList)).map (List.map Row.counter) =
      some [0, 0xFFFF, 0x10000, 0x10000] := by
    decide +kernel
  obtain ⟨program, h, hprogram⟩ := Result.exists_of_map_toOption hlisting
  obtain ⟨hsymbols, hfields⟩ := Prod.mk.inj hprogram
  obtain ⟨rows, hrows, hcounter⟩ := Option.map_eq_some_iff.mp hcounters
  exact ⟨program, rows, h, by rw [hsymbols, hrows], hcounter, hfields⟩

theorem filledSource_is_shown_modulo :
    ∃ program rows, assemble filledSource = .ok program ∧
      rows? program.symbols 0 (numberedLines filledSource.toList) = some rows ∧
      rows.map Row.counter = [0, 0xFFFF, 0x10000, 0x10000] ∧
      program.listing.map Listing.Entry.field =
        [.origin 0xFFFF, .code 0xFFFF [0xEA], .reserve 0 0, .position 0] ∧
      List.Forall₂ Row.IsShown rows program.listing := by
  obtain ⟨program, rows, h, hrows, hcounters, hfields⟩ := listing_filledSource
  obtain ⟨others, hothers, hshown⟩ := listing_shows_the_counter_modulo h
  obtain rfl : rows = others := Option.some.inj (hrows.symm.trans hothers)
  exact ⟨program, rows, h, hrows, hcounters, hfields, hshown⟩

/-- Not every line is shown at its counter: behind the last byte it is shown at zero. -/
theorem filledSource_is_shown_at_zero :
    ¬ ∀ (source : String) (program : Program) (rows : List Row), assemble source = .ok program →
      rows? program.symbols 0 (numberedLines source.toList) = some rows →
      List.Forall₂ (fun row entry => ∀ address ∈ entry.field.address?, address.toNat = row.counter)
        rows program.listing := by
  intro hall
  obtain ⟨program, rows, h, hrows, hcounters, hfields⟩ := listing_filledSource
  have hexact : List.Forall₂ (fun (counter : Nat) (field : Listing.Field) =>
      ∀ address ∈ field.address?, address.toNat = counter)
        (rows.map Row.counter) (program.listing.map Listing.Entry.field) := by
    rw [List.forall₂_map_left_iff, List.forall₂_map_right_iff]
    exact hall filledSource program rows h hrows
  rw [hcounters, hfields] at hexact
  simp only [List.forall₂_cons] at hexact
  obtain ⟨-, -, hreserve, -⟩ := hexact
  exact absurd (hreserve 0 rfl) (by decide)

end Assembler
end Mos6502
