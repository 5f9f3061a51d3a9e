/-
# The image is what the listing shows

The bytes that the listing shows are put into the image one after the other, so
that an address has the byte of the last entry that covers it and nothing else
has a byte (`get?_insertAll_shown`). Each byte makes the image larger or leaves
a warning (`size_add_length_foldl_deposit`), and it leaves one just when another
has gone to its address before (`warnings_foldl_deposit`).

Key definitions: `Listing.Entry.bytes`, `Listing.Entry.byteAt?`,
`Program.overwrites`, `Program.IsListed`.
Key theorems: `get?_insertAll_shown`, `warnings_foldl_deposit`,
`size_add_length_foldl_deposit`, `image_is_what_the_listing_shows`.
-/
import Mos6502.Proofs.Assembler.Agreement
import Mathlib.Algebra.Ring.Nat

namespace Mos6502
namespace Assembler

open Text

/-! ### What an entry shows -/

namespace Listing.Entry

/-- The bytes that an entry shows. Only lines that emit bytes have any. -/
def bytes (entry : Entry) : List UInt8 :=
  match entry.field with
  | .code _ bytes => bytes
  | _ => []

/-- The byte that an entry shows for an address, if the address is one of those it
covers. -/
def byteAt? (entry : Entry) (address : UInt16) : Option UInt8 :=
  match entry.field with
  | .code start bytes =>
    if start.toNat ≤ address.toNat then bytes[address.toNat - start.toNat]? else none
  | _ => none

/-- The bytes of an entry end within memory. -/
def Within (entry : Entry) : Prop :=
  ∀ start bytes, entry.field = .code start bytes → start.toNat + bytes.length ≤ 0x10000

end Listing.Entry

namespace Program

/-- The warnings that bytes leave when bytes have gone to some addresses before:
one for each that goes where another has gone. -/
def overwrites (written : List UInt16) : List Emission → List Warning
  | [] => []
  | e :: rest =>
    if e.address ∈ written then ⟨e.line, e.address⟩ :: overwrites (e.address :: written) rest
    else overwrites (e.address :: written) rest

/-! ### The bytes of an image -/

theorem shown_append (first second : List Listing.Entry) :
    shown (first ++ second) = shown first ++ shown second := by
  simp only [shown, List.flatMap_append, List.map_append]

theorem shown_code (line : Nat) (start : UInt16) (bytes : List UInt8) :
    shown [⟨line, .code start bytes⟩] = Image.consecutive start bytes := by
  simp only [shown, emissions, List.flatMap_cons, List.flatMap_nil, List.append_nil, List.map_map,
    Function.comp_def, List.map_id']

/-- An entry puts its bytes where it covers an address, and leaves all else. -/
theorem get?_insertAll_shown_singleton (image : Image) {entry : Listing.Entry}
    (h : entry.Within) (address : UInt16) :
    (image.insertAll (shown [entry])).get? address =
      (entry.byteAt? address).or (image.get? address) := by
  obtain ⟨line, field⟩ := entry
  cases field with
  | code start bytes =>
    rw [shown_code]
    exact Image.get?_insertBytes image (h start bytes rfl) address
  | origin | equate | reserve | position => rfl

/-- **An address has the byte of the last entry that covers it.** -/
theorem get?_insertAll_shown (image : Image) {listing : List Listing.Entry}
    (h : ∀ entry ∈ listing, entry.Within) (address : UInt16) :
    (image.insertAll (shown listing)).get? address =
      (listing.reverse.findSome? fun entry => entry.byteAt? address).or (image.get? address) := by
  induction listing generalizing image with
  | nil => rfl
  | cons entry listing ih =>
    obtain ⟨hentry, hlisting⟩ := List.forall_mem_cons.mp h
    rw [← List.singleton_append, shown_append, Image.insertAll_append, ih _ hlisting,
      get?_insertAll_shown_singleton image hentry, List.reverse_append, List.findSome?_append,
      List.reverse_singleton, List.findSome?_singleton, Option.or_assoc]

/-! ### Warnings -/

/-- **A byte leaves a warning just when another has gone to its address before.** -/
theorem warnings_foldl_deposit (list : List Emission) (image : Image) (warnings : Array Warning)
    (written : List UInt16) (h : ∀ address, (image.get? address).isSome ↔ address ∈ written) :
    (list.foldl deposit (image, warnings)).2.toList =
      warnings.toList ++ overwrites written list := by
  induction list generalizing image warnings written with
  | nil => exact (List.append_nil _).symm
  | cons e list ih =>
    have hnext : ∀ address, ((image.insert e.address e.value).get? address).isSome ↔
        address ∈ e.address :: written := by
      intro address
      rw [Image.get?_insert, List.mem_cons, ← h address]
      by_cases heq : e.address = address
      · simp [heq]
      · simp [heq, Ne.symm heq]
    rw [List.foldl_cons, deposit, ih _ _ _ hnext, overwrites]
    by_cases hwritten : e.address ∈ written
    · rw [if_pos ((h e.address).mpr hwritten), if_pos hwritten, Array.toList_push,
        List.append_assoc]
      rfl
    · rw [if_neg fun hsome => hwritten ((h e.address).mp hsome), if_neg hwritten]

/-- Each byte makes the image larger or leaves a warning. -/
theorem size_add_length_foldl_deposit (list : List Emission) (image : Image)
    (warnings : Array Warning) :
    (list.foldl deposit (image, warnings)).1.size +
        (list.foldl deposit (image, warnings)).2.toList.length =
      image.size + warnings.toList.length + list.length := by
  induction list generalizing image warnings with
  | nil => rfl
  | cons e list ih =>
    rw [List.foldl_cons, deposit, ih, Image.size_insert, List.length_cons]
    by_cases hwritten : (image.get? e.address).isSome
    · rw [if_pos hwritten, if_pos hwritten, Array.toList_push, List.length_append,
        List.length_singleton]
      omega
    · rw [if_neg hwritten, if_neg hwritten]
      omega

theorem length_emissions (entry : Listing.Entry) :
    (emissions entry).length = entry.bytes.length := by
  obtain ⟨line, field⟩ := entry
  cases field with
  | code start bytes =>
    rw [emissions, List.length_map]
    exact Image.length_consecutive start bytes
  | origin | equate | reserve | position => rfl

/-- A listing shows as many bytes as its entries have. -/
theorem length_shown (listing : List Listing.Entry) :
    (shown listing).length = (listing.map fun entry => entry.bytes.length).sum := by
  simp only [shown, List.length_map, List.length_flatMap, length_emissions]

theorem warnings_ofEmitted (symbols : SymbolTable) (emitted : List (Statement × Listing.Field)) :
    (ofEmitted symbols emitted).warnings =
      overwrites [] ((ofEmitted symbols emitted).listing.flatMap emissions) :=
  warnings_foldl_deposit _ .empty #[] [] (by simp)

/-- Every byte of the listing is in the image or has left a warning. -/
theorem size_add_length_ofEmitted (symbols : SymbolTable)
    (emitted : List (Statement × Listing.Field)) :
    (ofEmitted symbols emitted).image.size + (ofEmitted symbols emitted).warnings.length =
      ((ofEmitted symbols emitted).listing.map fun entry => entry.bytes.length).sum := by
  have hfold := size_add_length_foldl_deposit
    ((ofEmitted symbols emitted).listing.flatMap emissions) .empty #[]
  rw [List.length_flatMap] at hfold
  simp only [length_emissions] at hfold
  exact hfold.trans (Nat.zero_add _)

theorem byteAt?_eq_none {entry : Listing.Entry}
    (h : ∀ start bytes, entry.field ≠ .code start bytes) (address : UInt16) :
    entry.byteAt? address = none := by
  obtain ⟨line, field⟩ := entry
  cases field with
  | code start bytes => exact absurd rfl (h start bytes)
  | origin | equate | reserve | position => rfl

/-- What a program shows is what it is made of. -/
structure IsListed (source : String) (program : Program) : Prop where
  ascending : program.listing.Pairwise fun entry later => entry.line < later.line
  /-- Writing the bytes of the entries to their addresses, in the order of the
  listing, makes the image. -/
  image_eq : program.image = Image.ofList (shown program.listing)
  /-- An address has the byte of the last entry that covers it. -/
  get?_eq : ∀ address, program.image.get? address =
    program.listing.reverse.findSome? fun entry => entry.byteAt? address
  /-- An address has a byte just when an entry covers it. -/
  covered : ∀ address, (program.image.get? address).isSome ↔
    ∃ entry ∈ program.listing, (entry.byteAt? address).isSome
  /-- Lines that are neither instructions nor data cover nothing. -/
  silent : ∃ rows, rows? program.symbols 0 (numberedLines source.toList) = some rows ∧
    List.Forall₂ (fun row entry => entry.line = row.number ∧
      (row.body.isCode = false → ∀ address, entry.byteAt? address = none)) rows program.listing
  /-- Each byte that goes where another has gone leaves a warning, in order. -/
  warnings_eq : program.warnings = overwrites [] (program.listing.flatMap emissions)
  /-- Every byte of an entry is in the image or has left a warning. -/
  total : (program.listing.map fun entry => entry.bytes.length).sum =
    program.image.size + program.warnings.length

end Program

namespace MadeOf

variable {source : String} {program : Program} {rows : List Row}
  {emitted : List (Statement × Listing.Field)}

theorem within (h : MadeOf source program rows emitted) :
    ∀ entry ∈ program.listing, entry.Within := by
  intro entry hentry
  obtain ⟨row, -, hshows⟩ := h.exists_shows hentry
  exact hshows.within

/-- An address has the byte of the last entry that covers it. -/
theorem get?_image (h : MadeOf source program rows emitted) (address : UInt16) :
    program.image.get? address =
      program.listing.reverse.findSome? fun entry => entry.byteAt? address := by
  rw [h.image_eq, Program.get?_insertAll_shown _ h.within, Image.get?_empty, Option.or_none]

theorem warnings_eq (h : MadeOf source program rows emitted) :
    program.warnings = Program.overwrites [] (program.listing.flatMap Program.emissions) := by
  rw [h.program_eq]
  exact Program.warnings_ofEmitted _ _

theorem size_add_length (h : MadeOf source program rows emitted) :
    program.image.size + program.warnings.length =
      (program.listing.map fun entry => entry.bytes.length).sum := by
  rw [h.program_eq]
  exact Program.size_add_length_ofEmitted _ _

end MadeOf

/-- **The image is what the listing shows**: at each address the byte of the last
entry that covers it. Every byte that another has replaced has left its warning. -/
theorem image_is_what_the_listing_shows {source : String} {program : Program}
    (h : assemble source = .ok program) : program.IsListed source := by
  obtain ⟨rows, emitted, hmade⟩ := madeOf_of_assemble h
  refine {
    ascending := hmade.pairwise_line
    image_eq := hmade.image_eq
    get?_eq := hmade.get?_image
    covered := fun address => ?_
    silent := ⟨rows, hmade.rows_eq, hmade.forall₂_shows.imp fun row entry hshows => ?_⟩
    warnings_eq := hmade.warnings_eq
    total := hmade.size_add_length.symm }
  · rw [hmade.get?_image, List.findSome?_isSome_iff]
    simp only [List.mem_reverse]
  · exact ⟨hshows.line_eq, fun hcode => Program.byteAt?_eq_none (hshows.other hcode)⟩

/-- A source that goes back twice, over its data and over what was reserved. -/
def overlappingSource : String :=
  " .ORG $FFF0
DATA .DB 1,2,3
ROOM .DS 2
 .ORG DATA+1
 LDA #$FF
" ++
    " .ORG ROOM
 .DB 'A',$10 ; where nothing was
 .ORG DATA
 .DB 9
 .END
"

theorem overlappingSource_is_listed :
    ∃ program, assemble overlappingSource = .ok program ∧
      program.warnings.map (fun warning => (warning.line, warning.address)) =
        [(5, 0xFFF1), (5, 0xFFF2), (9, 0xFFF0)] ∧
      program.image.toList =
        [(0xFFF0, 9), (0xFFF1, 0xA9), (0xFFF2, 0xFF), (0xFFF3, 0x41), (0xFFF4, 0x10)] ∧
      program.IsListed overlappingSource := by
  have hresult : (assemble overlappingSource).toOption.map (fun program =>
      (program.warnings.map (fun warning => (warning.line, warning.address)),
        program.image.toList)) =
      some ([(5, 0xFFF1), (5, 0xFFF2), (9, 0xFFF0)],
        [(0xFFF0, 9), (0xFFF1, 0xA9), (0xFFF2, 0xFF), (0xFFF3, 0x41), (0xFFF4, 0x10)]) := by
    decide +kernel
  obtain ⟨program, h, hvalues⟩ := Result.exists_of_map_toOption hresult
  obtain ⟨hwarnings, himage⟩ := Prod.mk.inj hvalues
  exact ⟨program, h, hwarnings, himage, image_is_what_the_listing_shows h⟩

end Assembler
end Mos6502
