/-
# Files put together

A part of a file goes on, ends the file or fails (`outcome`). Which of these does
not depend on the image that it begins with, nor on what stands before and behind
it. So a file to which another is added is read as it was up to its end record or
its first error, and if it has neither, the bytes of the other lie over its own.

Key definition: `Outcome`.
Key theorems: `Outcome.append`, `outcome`, `concatenated_files_overlay`.
-/
import Mos6502.Proofs.Image
import Mos6502.Proofs.IntelHex.Acceptance
import Mos6502.Proofs.Text.Lines

namespace Mos6502
namespace IntelHex

open Text

/-- What comes of a part of a file, whichever image it begins with, whatever the
number of its first line and whichever lines stand behind it. -/
inductive Outcome (part : List (List Char)) : Prop
  /-- It puts bytes into the image, and the file goes on behind it. -/
  | goesOn (bytes : List (UInt16 × UInt8)) (ends : ∀ line ∈ part, ¬Ends SignedDigit (trim line))
    (reads : ∀ image number behind, readLines image (part.zipIdx number ++ behind) =
      readLines (image.insertAll bytes) behind)
  /-- It puts bytes into the image, and the file ends in it. -/
  | stops (bytes : List (UInt16 × UInt8)) (ends : ∃ line ∈ part, Ends SignedDigit (trim line))
    (reads : ∀ image number behind, readLines image (part.zipIdx number ++ behind) =
      .ok (image.insertAll bytes))
  /-- A line that stands behind some others in it is rejected. -/
  | fails (before : Nat) (defect : Defect)
    (reads : ∀ image number behind, readLines image (part.zipIdx number ++ behind) =
      .error ⟨number + before, defect⟩)

/-- A part is read up to its own end, and then what is behind it. -/
theorem Outcome.append {first second : List (List Char)} (hfirst : Outcome first)
    (hsecond : Outcome second) : Outcome (first ++ second) := by
  have hsplit : ∀ image number behind,
      readLines image ((first ++ second).zipIdx number ++ behind) =
        readLines image (first.zipIdx number ++
          (second.zipIdx (number + first.length) ++ behind)) := by
    intro image number behind
    rw [List.zipIdx_append, List.append_assoc]
  cases hfirst with
  | goesOn bytes hends hreads =>
    cases hsecond with
    | goesOn others hothers hbehind =>
      refine .goesOn (bytes ++ others) (List.forall_mem_append.mpr ⟨hends, hothers⟩) ?_
      intro image number behind
      rw [hsplit, hreads, hbehind, Image.insertAll_append]
    | stops others hothers hbehind =>
      obtain ⟨line, hline, hends⟩ := hothers
      refine .stops (bytes ++ others) ⟨line, List.mem_append_right first hline, hends⟩ ?_
      intro image number behind
      rw [hsplit, hreads, hbehind, Image.insertAll_append]
    | fails before defect hbehind =>
      refine .fails (first.length + before) defect ?_
      intro image number behind
      rw [hsplit, hreads, hbehind, Nat.add_assoc]
  | stops bytes hends hreads =>
    obtain ⟨line, hline, hends⟩ := hends
    refine .stops bytes ⟨line, List.mem_append_left second hline, hends⟩ ?_
    intro image number behind
    rw [hsplit, hreads]
  | fails before defect hreads =>
    refine .fails before defect ?_
    intro image number behind
    rw [hsplit, hreads]

theorem outcome_singleton (raw : List Char) : Outcome [raw] := by
  have hagrees := agrees_signedDigit (trim raw)
  by_cases hblank : trim raw = []
  · refine .goesOn [] (List.forall_mem_singleton.mpr (hblank ▸ not_ends_nil)) ?_
    intro image number behind
    exact readLines_of_blank hblank image
  rcases rejected_or_ends_or_goesOn SignedDigit (trim raw) with ⟨defect, hline⟩ | hline | hline
  · refine .fails 0 defect fun image number behind => ?_
    show readLines image ((raw, number) :: behind) = .error ⟨number, defect⟩
    simp only [readLines_of_ne_nil hblank, effect_of_rejected hagrees hline]
  · refine .stops [] ⟨raw, List.mem_singleton_self raw, hline⟩ fun image number behind => ?_
    show readLines image ((raw, number) :: behind) = .ok image
    simp only [readLines_of_ne_nil hblank, effect_of_ends hagrees hline]
  · obtain ⟨bytes, hfills⟩ := effect_fills hagrees hline
    have hends : ∀ line ∈ [raw], ¬Ends SignedDigit (trim line) :=
      List.forall_mem_singleton.mpr (not_ends_of_goesOn hagrees hline)
    refine .goesOn bytes hends fun image number behind => ?_
    show readLines image ((raw, number) :: behind) = readLines (image.insertAll bytes) behind
    simp only [readLines_of_ne_nil hblank, hfills]

/-- **A part of a file does the same wherever it stands.** -/
theorem outcome (part : List (List Char)) : Outcome part := by
  induction part with
  | nil => exact .goesOn [] (List.forall_mem_nil _) fun image number behind => rfl
  | cons raw part ih => exact (outcome_singleton raw).append ih

/-! ### Two files -/

theorem read_eq (text : String) :
    read text = readLines .empty ((lines text.toList).zipIdx 1 ++ []) := by
  rw [List.append_nil]
  rfl

theorem read_append {first : String} (h : first = "" ∨ first.toList.getLast? = some '\n')
    (second : String) :
    read (first ++ second) = readLines .empty ((lines first.toList).zipIdx 1 ++
      ((lines second.toList).zipIdx (1 + (lines first.toList).length) ++ [])) := by
  have hclosed : first.toList = [] ∨ first.toList.getLast? = some '\n' :=
    h.imp_left fun hempty : first = "" => congrArg String.toList hempty
  rw [read_eq, String.toList_append, lines_append hclosed, List.zipIdx_append, List.append_assoc]

/-- **Files put together overlay their images.** An error in the first file is that of
both, and behind its end record nothing is read. If it has none, the image of both has
the bytes of the second where that has some and else those of the first, and an error
in the second is that of both, by as many lines later as the first has. -/
theorem concatenated_files_overlay {first second : String}
    (h : first = "" ∨ first.toList.getLast? = some '\n') :
    (∀ error, read first = .error error → read (first ++ second) = .error error) ∧
      ∀ image, read first = .ok image →
        ((∃ line ∈ lines first.toList, Ends SignedDigit (trim line)) →
          read (first ++ second) = .ok image) ∧
        ((∀ line ∈ lines first.toList, ¬Ends SignedDigit (trim line)) →
          (∀ other, read second = .ok other → ∃ both, read (first ++ second) = .ok both ∧
            ∀ address, both.get? address = (other.get? address).or (image.get? address)) ∧
          ∀ error, read second = .error error → read (first ++ second) =
            .error ⟨error.line + (lines first.toList).length, error.defect⟩) := by
  rw [read_append h, read_eq first, read_eq second]
  cases outcome (lines first.toList) with
  | fails before defect hreads =>
    simp only [hreads]
    refine ⟨fun error herror => herror, fun image himage => ?_⟩
    cases himage
  | stops bytes hends hreads =>
    simp only [hreads]
    refine ⟨fun error herror => herror, fun image himage => ⟨fun _ => himage, fun hnone => ?_⟩⟩
    obtain ⟨line, hline, hends⟩ := hends
    exact absurd hends (hnone line hline)
  | goesOn bytes hnone hreads =>
    simp only [hreads]
    refine ⟨fun error herror => ?_, fun image himage => ⟨fun hends => ?_, fun _ => ?_⟩⟩
    · cases herror
    · obtain ⟨line, hline, hends⟩ := hends
      exact absurd hends (hnone line hline)
    · cases himage
      cases outcome (lines second.toList) with
      | fails before defect hbehind =>
        simp only [hbehind]
        refine ⟨fun other hother => ?_, fun error herror => ?_⟩
        · cases hother
        · cases herror
          rw [Nat.add_right_comm]
      | stops others _ hbehind | goesOn others _ hbehind =>
        simp only [hbehind]
        refine ⟨fun other hother => ⟨_, rfl, fun address => ?_⟩, fun error herror => ?_⟩
        · cases hother
          exact Image.get?_insertAll _ others address
        · cases herror

theorem not_ends_firstLine : ¬Ends SignedDigit (trim ":0100000041BE".toList) := by
  have htrim : trim ":0100000041BE".toList = ":0100000041BE".toList := by decide +kernel
  rw [htrim]
  exact not_ends_of_goesOn (agrees_signedDigit _) goesOn_firstLine

/-- A record over another of the same address, and behind it a line that is rejected. -/
theorem overlappingFiles_overlay :
    (∃ both, read (":0100000041BE\n" ++ ":0100000042BD\n") = .ok both ∧
      both.get? 0x0000 = some 0x42) ∧
      read (":0100000041BE\n" ++ "\n:0G\n") = .error ⟨3, .invalidDigits⟩ := by
  have hclosed : (":0100000041BE\n" : String).toList.getLast? = some '\n' := by decide
  have hfirst : read ":0100000041BE\n" = .ok (Image.empty.insert 0x0000 0x41) := rfl
  have hnone : ∀ line ∈ lines ":0100000041BE\n".toList, ¬Ends SignedDigit (trim line) := by
    have hlines : lines ":0100000041BE\n".toList = [":0100000041BE".toList] := by decide
    rw [hlines, List.forall_mem_singleton]
    exact not_ends_firstLine
  have hover : read ":0100000042BD\n" = .ok (Image.empty.insert 0x0000 0x42) := rfl
  have herror : read "\n:0G\n" = .error ⟨2, .invalidDigits⟩ := rfl
  have hbehind := fun second =>
    ((@concatenated_files_overlay _ second (.inr hclosed)).2 _ hfirst).2 hnone
  obtain ⟨both, hboth, hget⟩ := (hbehind _).1 _ hover
  refine ⟨⟨both, hboth, ?_⟩, (hbehind _).2 _ herror⟩
  rw [hget, Image.get?_insert, if_pos rfl]
  rfl

end IntelHex
end Mos6502
