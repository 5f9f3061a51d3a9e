/-
# The listing has a row for each line

A rendered listing takes the entries along with the lines: each line takes those up to
its number from the front. As the entries ascend, one for each line, a line takes its
own entry or none (`Listing.rows_eq_map`). A row has no line feed, and no blank at its
end, so that the rows are the lines of the rendered listing (`Listing.lines_render`),
as many as the source has. The lines without an entry are those with nothing but blanks
and a comment, and those behind the end directive.

Key definitions: `Listing.IsRow`, `RendersLines`.
Key theorems: `Listing.rows_eq_map`, `Listing.lines_render`, `isVoid_of_read`,
`MadeOf.forall_line_ne_iff`, `listings_have_a_row_for_each_line`.
-/
import Mos6502.Proofs.Assembler.Extent
import Mos6502.Proofs.Assembler.SourceMap
import Mos6502.Proofs.Assembler.Spelling
import Mos6502.Proofs.Text.Lines

namespace Mos6502
namespace Assembler

open Text

namespace Listing

/-! ### The remark on a line -/

theorem remark_of_mem {entries : List Entry} {entry : Entry}
    (hascending : entries.Pairwise fun entry later => entry.line < later.line)
    (h : entry ∈ entries) : remark entries entry.line = entry.field.text := by
  unfold remark
  split
  · rename_i found hfound
    have hmem : found ∈ entries := List.mem_reverse.mp (List.mem_of_find?_eq_some hfound)
    have hfits := List.find?_some hfound
    have hline : found.line = entry.line := beq_iff_eq.mp hfits
    rw [List.inj_on_of_nodup_map
      (List.pairwise_map.mpr (hascending.imp Nat.ne_of_lt)) hmem h hline]
  · rename_i hnone
    exact absurd (beq_self_eq_true _)
      (List.find?_eq_none.mp hnone entry (List.mem_reverse.mpr h))

theorem remark_of_forall_ne {entries : List Entry} {number : Nat}
    (h : ∀ entry ∈ entries, entry.line ≠ number) : remark entries number = [] := by
  have hnone : entries.reverse.find? (fun entry => entry.line == number) = none :=
    List.find?_eq_none.mpr fun entry hentry hline =>
      h entry (List.mem_reverse.mp hentry) (beq_iff_eq.mp hline)
  simp only [remark, hnone]

theorem remark_cons_of_ne {entry : Entry} {number : Nat} (h : entry.line ≠ number)
    (entries : List Entry) : remark (entry :: entries) number = remark entries number := by
  have hfind : (entry :: entries).reverse.find? (fun entry => entry.line == number) =
      entries.reverse.find? fun entry => entry.line == number := by
    rw [List.reverse_cons, List.find?_append, List.find?_singleton, if_neg (mt beq_iff_eq.mp h),
      Option.or_none]
  simp only [remark, hfind]

theorem takeWhile_eq_nil {entries : List Entry} {number : Nat}
    (h : ∀ entry ∈ entries, number < entry.line) :
    entries.takeWhile (fun entry => entry.line ≤ number) = [] ∧
      entries.dropWhile (fun entry => entry.line ≤ number) = entries := by
  cases entries with
  | nil => exact ⟨rfl, rfl⟩
  | cons entry entries =>
    have hnot : ¬ decide (entry.line ≤ number) = true := by
      have hlt := h entry List.mem_cons_self
      simp only [decide_eq_true_eq]
      omega
    rw [List.takeWhile_cons, List.dropWhile_cons, if_neg hnot, if_neg hnot]
    exact ⟨rfl, rfl⟩

/-- **Each line has the remark of its own entry**, if the entries ascend and none is of an
earlier line. -/
theorem rows_eq_map {entries : List Entry} {texts : List (List Char)} {number : Nat}
    (hascending : entries.Pairwise fun entry later => entry.line < later.line)
    (hlow : ∀ entry ∈ entries, number ≤ entry.line) :
    rows entries (texts.zipIdx number) =
      (texts.zipIdx number).map fun line => row (remark entries line.2) line.1 := by
  induction texts generalizing entries number with
  | nil => rfl
  | cons text texts ih =>
    rw [List.zipIdx_cons, rows, List.map_cons]
    by_cases hown : ∃ entry ∈ entries, entry.line = number
    · obtain ⟨entry, hentry, rfl⟩ := hown
      -- the entry of the line is the first one, and no other is taken with it
      obtain ⟨first, later, rfl⟩ := List.exists_cons_of_ne_nil (List.ne_nil_of_mem hentry)
      obtain ⟨hfirst, hlater⟩ := List.pairwise_cons.mp hascending
      obtain rfl : entry = first := by
        refine (List.mem_cons.mp hentry).resolve_right fun hmem => ?_
        exact absurd (hfirst entry hmem) (Nat.not_lt.mpr (hlow first List.mem_cons_self))
      obtain ⟨htake, hdrop⟩ := takeWhile_eq_nil hfirst
      have hle : decide (entry.line ≤ entry.line) = true := decide_eq_true (Nat.le_refl _)
      rw [List.takeWhile_cons, List.dropWhile_cons, if_pos hle, if_pos hle, htake, hdrop,
        remark_of_mem (List.pairwise_singleton _ _) (List.mem_singleton_self _),
        remark_of_mem hascending hentry, ih hlater hfirst]
      refine congrArg (_ :: ·) (List.map_congr_left fun line hline => ?_)
      have hbehind := List.le_snd_of_mem_zipIdx hline
      rw [remark_cons_of_ne (by omega)]
    · have hnone : ∀ entry ∈ entries, entry.line ≠ number := fun entry hentry heq =>
        hown ⟨entry, hentry, heq⟩
      have hlater : ∀ entry ∈ entries, number + 1 ≤ entry.line := fun entry hentry =>
        Nat.lt_of_le_of_ne (hlow entry hentry) (hnone entry hentry).symm
      obtain ⟨htake, hdrop⟩ := takeWhile_eq_nil hlater
      rw [htake, hdrop, remark_of_forall_ne hnone, ih hascending hlater]
      rfl

/-! ### Rows -/

/-- A row is a remark, spaces up to the column of 25 characters and one more, and the
line, without blanks at the end. -/
structure IsRow (remark line row : List Char) : Prop where
  parts : ∃ spaces trail, remark ++ spaces ++ ' ' :: line = row ++ trail ∧
    (∀ c ∈ spaces, c = ' ') ∧ spaces.length = 25 - remark.length ∧ IsGap trail
  last : ∀ c ∈ row.getLast?, isBlank c = false

theorem isRow_row (remark line : List Char) : IsRow remark line (row remark line) := by
  obtain ⟨trail, htrail, heq⟩ := exists_trimEnd (padded columnWidth remark ++ ' ' :: line)
  refine ⟨⟨_, trail, heq, fun c hc => List.eq_of_mem_replicate hc, List.length_replicate, htrail⟩,
    fun c hc => ?_⟩
  rw [row, trimEnd, List.getLast?_reverse] at hc
  exact not_of_mem_head?_dropWhile isBlank _ c hc

/-- There is one row of a remark and a line. -/
theorem IsRow.unique {remark line row other : List Char} (h : IsRow remark line row)
    (hother : IsRow remark line other) : other = row := by
  have htrim : ∀ {row}, IsRow remark line row →
      trimEnd (padded columnWidth remark ++ ' ' :: line) = row := by
    intro row hrow
    obtain ⟨spaces, trail, heq, hspaces, hlength, htrail⟩ := hrow.parts
    have hpadding : spaces = List.replicate (columnWidth - remark.length) ' ' :=
      List.eq_replicate_iff.mpr ⟨hlength, hspaces⟩
    rw [padded, ← hpadding, heq, trimEnd_append_of_isGap row htrail]
    cases hlast : row.getLast? with
    | none =>
      rw [List.getLast?_eq_none_iff.mp hlast]
      rfl
    | some c =>
      obtain ⟨front, rfl⟩ := List.getLast?_eq_some_iff.mp hlast
      exact trimEnd_append (List.cons_ne_nil _ _)
        (List.forall_mem_singleton.mpr (hrow.last c hlast))
  exact (htrim hother).symm.trans (htrim h)

theorem Field.notMem_text (field : Field) : '\n' ∉ field.text := by
  have hword : ∀ word, '\n' ∉ hexWord word := fun word hmem =>
    forall_mem_hexWord (P := fun c => c ≠ '\n') (by decide) word _ hmem rfl
  have hbyte : ∀ byte, '\n' ∉ hexByte byte := fun byte hmem =>
    forall_mem_hexByte (P := fun c => c ≠ '\n') (by decide) byte _ hmem rfl
  have hdigits : ∀ number : Nat, '\n' ∉ (toString number).toList := fun number hmem => by
    rw [Nat.toString_eq_repr, Nat.toList_repr] at hmem
    exact absurd (Nat.isDigit_of_mem_toDigits (by decide) (by decide) hmem) (by decide)
  cases field with
  | origin address =>
    rw [Field.text, List.mem_append, not_or]
    exact ⟨by decide, hword address⟩
  | equate value =>
    rw [Field.text, List.mem_append, not_or]
    refine ⟨by decide, ?_⟩
    split
    · exact hbyte _
    · exact hword value
  | code address bytes =>
    rw [Field.text, List.mem_append, List.mem_append, not_or, not_or]
    refine ⟨⟨hword address, by decide⟩, fun hmem => ?_⟩
    obtain ⟨byte, -, hmem⟩ := List.mem_flatMap.mp hmem
    rcases List.mem_cons.mp hmem with hspace | hmem
    · cases hspace
    · exact hbyte byte hmem
  | reserve address size =>
    rw [Field.text, List.mem_append, List.mem_append, List.mem_append, not_or, not_or, not_or]
    exact ⟨⟨⟨hword address, by decide⟩, hdigits _⟩, by decide⟩
  | position address => exact hword address

theorem notMem_remark (entries : List Entry) (number : Nat) : '\n' ∉ remark entries number := by
  unfold remark
  split
  · exact Field.notMem_text _
  · exact List.not_mem_nil

theorem notMem_row {remark line : List Char} (hremark : '\n' ∉ remark) (hline : '\n' ∉ line) :
    '\n' ∉ row remark line := by
  intro hmem
  obtain ⟨spaces, trail, heq, hspaces, -, -⟩ := (isRow_row remark line).parts
  have hwhole : '\n' ∈ remark ++ spaces ++ ' ' :: line := by
    rw [heq]
    exact List.mem_append_left _ hmem
  rcases List.mem_append.mp hwhole with hwhole | hwhole
  · rcases List.mem_append.mp hwhole with hwhole | hwhole
    · exact hremark hwhole
    · exact absurd (hspaces _ hwhole) (by decide)
  · rcases List.mem_cons.mp hwhole with hspace | hwhole
    · cases hspace
    · exact hline hwhole

/-- **The lines of a rendered listing are the rows of the lines of the source.** -/
theorem lines_render {entries : List Entry} (source : String)
    (hascending : entries.Pairwise fun entry later => entry.line < later.line)
    (hlow : ∀ entry ∈ entries, 1 ≤ entry.line) :
    lines (render entries source).toList =
      (numberedLines source.toList).map fun line => row (remark entries line.2) line.1 := by
  rw [render, String.toList_ofList, numberedLines, rows_eq_map hascending hlow]
  refine lines_flatMap (fun text htext => ?_) (fun text htext hlast => ?_)
  · obtain ⟨line, hline, rfl⟩ := List.mem_map.mp htext
    exact notMem_row (notMem_remark _ _)
      (notMem_of_mem_lines (List.fst_mem_of_mem_zipIdx hline))
  · obtain ⟨line, -, rfl⟩ := List.mem_map.mp htext
    exact absurd ((isRow_row _ _).last _ hlast) (by decide)

/-- The row with the number of a line is that of its remark and the line. -/
theorem mem_numberedLines_render {entries : List Entry} {source : String}
    (hascending : entries.Pairwise fun entry later => entry.line < later.line)
    (hlow : ∀ entry ∈ entries, 1 ≤ entry.line) {text : List Char} {number : Nat}
    (h : (text, number) ∈ numberedLines source.toList) (found : List Char) :
    (found, number) ∈ numberedLines (render entries source).toList ↔
      IsRow (remark entries number) text found := by
  have hmem : (row (remark entries number) text, number) ∈
      numberedLines (render entries source).toList := by
    rw [numberedLines, List.mem_zipIdx_iff_le_and_getElem?_sub] at h ⊢
    refine ⟨h.1, ?_⟩
    rw [lines_render source hascending hlow, List.getElem?_map, numberedLines,
      List.getElem?_zipIdx, h.2, Option.map_some, Option.map_some, Nat.add_sub_cancel' h.1]
  constructor
  · intro hfound
    rw [eq_of_mem_numberedLines hmem hfound]
    exact isRow_row _ _
  · intro hrow
    rwa [(isRow_row _ _).unique hrow]

end Listing

/-! ### Lines without an entry -/

/-- A line without fields has nothing but blanks and perhaps a comment. -/
theorem isVoid_of_read {text : List Char} (h : Line.read text = .ok none) : IsVoid text := by
  rcases Line.read_cases text with
    ⟨-, hfailed⟩ | ⟨code, hcode, ⟨hgap, -⟩ | ⟨_, _, _, _, _, -, hsome, -⟩⟩
  · rw [h] at hfailed
    cases hfailed
  · obtain ⟨-, comment, rfl, rfl | hhead⟩ := exists_comment hcode
    · rw [List.append_nil]
      exact .blank hgap
    · obtain ⟨rest, rfl⟩ := List.head?_eq_some_iff.mp hhead
      exact .comment hgap
  · rw [h] at hsome
    cases hsome

namespace MadeOf

variable {source : String} {program : Program} {rows : List Row}
  {emitted : List (Statement × Listing.Field)}

/-- Every entry is of a line that is reached. -/
theorem exists_readAt (h : MadeOf source program rows emitted) {entry : Listing.Entry}
    (hentry : entry ∈ program.listing) : ∃ text line, ReadAt source entry.line text line := by
  have hmem : entry.line ∈ rows.map Row.number := by
    rw [← h.map_line_eq]
    exact List.mem_map_of_mem hentry
  obtain ⟨row, hrow, hnumber⟩ := List.mem_map.mp hmem
  obtain ⟨text, hread⟩ := h.readAt_of_mem hrow
  exact ⟨text, row.line, hnumber ▸ hread⟩

/-- **The lines without an entry** are those with nothing to read and those behind an
end directive. -/
theorem forall_line_ne_iff (h : MadeOf source program rows emitted) {text : List Char}
    {number : Nat} (hmem : (text, number) ∈ numberedLines source.toList) :
    (∀ entry ∈ program.listing, entry.line ≠ number) ↔
      IsVoid text ∨ ∃ before < number, EndsAt source before := by
  constructor
  · intro hnone
    by_cases hreached : IsReached source number
    · rcases h.exists_row_of_isReached hmem hreached with hvoid | ⟨row, hrow, hnumber, -⟩
      · exact .inl (isVoid_of_read hvoid)
      · have hline : number ∈ program.listing.map Listing.Entry.line := by
          rw [h.map_line_eq, ← hnumber]
          exact List.mem_map_of_mem hrow
        obtain ⟨entry, hentry, heq⟩ := List.mem_map.mp hline
        exact absurd heq (hnone entry hentry)
    · simp only [IsReached, not_forall, not_not, exists_prop] at hreached
      exact .inr hreached
  · rintro hnone entry hentry rfl
    obtain ⟨other, line, hother, hread, hreached⟩ := h.exists_readAt hentry
    rcases hnone with hvoid | ⟨before, hlt, hends⟩
    · rw [eq_of_mem_numberedLines hmem hother, read_of_isVoid hvoid] at hread
      cases hread
    · exact hreached before hlt hends

end MadeOf

/-! ### Rendered listings -/

/-- The rendered listing of a program has a row for each line of the source, with what is
listed of that line. -/
structure RendersLines (source : String) (program : Program) : Prop where
  /-- There are as many rows as lines. -/
  length_eq : (lines (program.renderListing source).toList).length = (lines source.toList).length
  ascending : program.listing.Pairwise fun entry later => entry.line < later.line
  /-- Each entry is displayed in the row of its line. -/
  listed : ∀ entry ∈ program.listing, ∃ text, (text, entry.line) ∈ numberedLines source.toList ∧
    ∀ row, (row, entry.line) ∈ numberedLines (program.renderListing source).toList ↔
      Listing.IsRow entry.field.text text row
  /-- Any other row displays nothing but its line. -/
  unlisted : ∀ text number, (text, number) ∈ numberedLines source.toList →
    (∀ entry ∈ program.listing, entry.line ≠ number) →
    ∀ row, (row, number) ∈ numberedLines (program.renderListing source).toList ↔
      Listing.IsRow [] text row
  /-- These are the rows of blank lines and comments, and those behind the end. -/
  unlisted_iff : ∀ text number, (text, number) ∈ numberedLines source.toList →
    ((∀ entry ∈ program.listing, entry.line ≠ number) ↔
      IsVoid text ∨ ∃ before < number, EndsAt source before)

/-- **Listings have a row for each line.** The rendered listing of an accepted source has
as many lines as the source. Each displays what is listed of its own line, if anything
is, and the line itself. -/
theorem listings_have_a_row_for_each_line {source : String} {program : Program}
    (h : assemble source = .ok program) : RendersLines source program := by
  obtain ⟨rows, emitted, hmade⟩ := madeOf_of_assemble h
  have hascending := hmade.pairwise_line
  have hlow : ∀ entry ∈ program.listing, 1 ≤ entry.line := by
    intro entry hentry
    obtain ⟨text, line, hread⟩ := hmade.exists_readAt hentry
    exact List.le_snd_of_mem_zipIdx hread.mem
  refine ⟨?_, hascending, fun entry hentry => ?_, fun text number hmem hnone row => ?_,
    fun text number hmem => hmade.forall_line_ne_iff hmem⟩
  · rw [Program.renderListing, Listing.lines_render source hascending hlow, List.length_map,
      numberedLines, List.length_zipIdx]
  · obtain ⟨text, line, hread⟩ := hmade.exists_readAt hentry
    refine ⟨text, hread.mem, fun row => ?_⟩
    have hiff := Listing.mem_numberedLines_render hascending hlow hread.mem row
    rwa [Listing.remark_of_mem hascending hentry] at hiff
  · have hiff := Listing.mem_numberedLines_render hascending hlow hmem row
    rwa [Listing.remark_of_forall_ne hnone] at hiff

/-- A source with both ends of lines, a comment, a line of blanks, an entry wider than its
column, and a line behind the end. -/
def listedSource : String :=
  "; data\r\n .ORG $0200\n \t\nTEXT .DB 'É;   long'\r\nROOM .DS 300 ; \n .END\nunread 'É"

theorem listedSource_has_a_row_for_each_line :
    ∃ program, assemble listedSource = .ok program ∧
      program.listing.map Listing.Entry.line = [2, 4, 5, 6] ∧
      (lines (program.renderListing listedSource).toList).length = 7 ∧
      RendersLines listedSource program := by
  have hlisting : (assemble listedSource).toOption.map
      (fun program => program.listing.map Listing.Entry.line) = some [2, 4, 5, 6] := by
    decide +kernel
  have hlines : (lines listedSource.toList).length = 7 := by decide +kernel
  obtain ⟨program, h, hentries⟩ := Result.exists_of_map_toOption hlisting
  have hrenders := listings_have_a_row_for_each_line h
  exact ⟨program, h, hentries, hrenders.length_eq.trans hlines, hrenders⟩

end Assembler
end Mos6502
