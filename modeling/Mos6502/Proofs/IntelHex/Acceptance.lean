/-
# Files that are accepted

The reader accepts and rejects files as a format says that agrees with it on
the lines that it reaches (`followsLines_of_agrees`). Its own has a plus sign
for a leading zero, so it follows the format of digits for just the texts in
which it comes to no line with one.

Key definition: `Signed`.
Key theorems: `followsLines_of_agrees`, `followsFormat_signedDigit`,
`not_followsFormat_hexDigit`, `read_follows_format`.
-/
import Mos6502.Proofs.IntelHex.Format

namespace Mos6502
namespace IntelHex

open Text

/-! ### What the reader makes of a file -/

section

variable {First : Char → Nat → Prop} {raw line : List Char} {number other : Nat}
  {lines : List (List Char × Nat)}

theorem allWellFormed_cons : AllWellFormed First ((raw, number) :: lines) ↔
    (trim raw ≠ [] → WellFormed First (trim raw)) ∧
      (¬Ends First (trim raw) → AllWellFormed First lines) := by
  constructor
  · intro h
    refine ⟨h [] (raw, number) lines rfl (List.forall_mem_nil _), fun hends => ?_⟩
    intro before entry after heq hbefore
    exact h ((raw, number) :: before) entry after (congrArg _ heq)
      (List.forall_mem_cons.mpr ⟨hends, hbefore⟩)
  · rintro ⟨hfirst, hrest⟩ before entry after heq hbefore
    rcases List.cons_eq_append_iff.mp heq with ⟨rfl, hentry⟩ | ⟨before, rfl, hlines⟩
    · cases hentry
      exact hfirst
    · obtain ⟨hends, hbefore⟩ := List.forall_mem_cons.mp hbefore
      exact hrest hends before entry after hlines hbefore

theorem reached_cons : Reached First ((raw, number) :: lines) line other ↔
    (trim raw = line ∧ line ≠ [] ∧ number = other) ∨
      ((trim raw = [] ∨ GoesOn First (trim raw)) ∧ Reached First lines line other) := by
  constructor
  · rintro ⟨before, text, after, heq, hbefore, hline⟩
    rcases List.cons_eq_append_iff.mp heq with ⟨rfl, hentry⟩ | ⟨before, rfl, hlines⟩
    · cases hentry
      exact .inl ⟨hline.1, hline.2, rfl⟩
    · obtain ⟨hfirst, hbefore⟩ := List.forall_mem_cons.mp hbefore
      exact .inr ⟨hfirst, before, text, after, hlines, hbefore, hline⟩
  · rintro (⟨hline, hne, rfl⟩ | ⟨hfirst, before, text, after, rfl, hbefore, hline⟩)
    · exact ⟨[], raw, lines, rfl, List.forall_mem_nil _, hline, hne⟩
    · exact ⟨(raw, number) :: before, text, after, rfl,
        List.forall_mem_cons.mpr ⟨hfirst, hbefore⟩, hline⟩

theorem not_ends_nil : ¬Ends First [] := by
  rintro ⟨_, ⟨⟩, -⟩

/-- What the format says of the lines behind one that is passed is what it says
with that line. -/
theorem FollowsLines.cons_of_passes {result : Except Error Image}
    (hpasses : trim raw = [] ∨ GoesOn First (trim raw)) (hends : ¬Ends First (trim raw))
    (hrejected : ∀ defect, trim raw ≠ [] → ¬Rejected First (trim raw) defect)
    (h : FollowsLines First lines result) : FollowsLines First ((raw, number) :: lines) result where
  ok_iff := by
    rw [h.ok_iff, allWellFormed_cons]
    constructor
    · intro hlines
      refine ⟨fun hne => ?_, fun _ => hlines⟩
      exact wellFormed_iff.mpr (.inr (hpasses.resolve_left hne))
    · rintro ⟨-, hlines⟩
      exact hlines hends
  error_iff := by
    intro number defect
    simp only [h.error_iff, reached_cons]
    constructor
    · rintro ⟨line, hreached, hline⟩
      exact ⟨line, .inr ⟨hpasses, hreached⟩, hline⟩
    · rintro ⟨line, ⟨rfl, hne, -⟩ | ⟨-, hreached⟩, hline⟩
      · exact absurd hline (hrejected defect hne)
      · exact ⟨line, hreached, hline⟩

theorem readLines_of_blank (h : trim raw = []) (image : Image) :
    readLines image ((raw, number) :: lines) = readLines image lines := by
  simp only [readLines, h, if_true]

theorem readLines_of_ne_nil (h : trim raw ≠ []) (image : Image) :
    readLines image ((raw, number) :: lines) =
      match effect (trim raw) image with
      | .error defect => .error ⟨number, defect⟩
      | .ok .stop => .ok image
      | .ok (.goOn image) => readLines image lines := by
  simp only [readLines, if_neg h]
  rfl

/-- A line that is rejected settles what comes of it and all behind it. -/
theorem followsLines_of_rejected (hagrees : Agrees First (trim raw)) (hne : trim raw ≠ [])
    {defect : Defect} (h : Rejected First (trim raw) defect) :
    FollowsLines First ((raw, number) :: lines) (.error ⟨number, defect⟩) := by
  have heffect := effect_of_rejected hagrees h
  have hwellFormed : ¬WellFormed First (trim raw) := by
    intro hline
    rcases wellFormed_iff.mp hline with hline | hline
    · cases (heffect .empty).symm.trans (effect_of_ends hagrees hline .empty)
    · obtain ⟨next, hnext⟩ := effect_of_goesOn hagrees hline .empty
      cases (heffect .empty).symm.trans hnext
  refine ⟨?_, ?_⟩
  · rw [allWellFormed_cons]
    constructor
    · rintro ⟨_, ⟨⟩⟩
    · rintro ⟨hline, -⟩
      exact absurd (hline hne) hwellFormed
  · intro other reason
    simp only [reached_cons]
    constructor
    · rintro ⟨⟩
      exact ⟨trim raw, .inl ⟨rfl, hne, rfl⟩, h⟩
    · rintro ⟨line, ⟨rfl, -, rfl⟩ | ⟨hpasses, -⟩, hline⟩
      · cases (heffect .empty).symm.trans (effect_of_rejected hagrees hline .empty)
        rfl
      · exact absurd (wellFormed_iff.mpr (.inr (hpasses.resolve_left hne))) hwellFormed

/-- So does a line that ends the file. -/
theorem followsLines_of_ends (hagrees : Agrees First (trim raw)) (h : Ends First (trim raw))
    (image : Image) : FollowsLines First ((raw, number) :: lines) (.ok image) := by
  have heffect := effect_of_ends hagrees h image
  refine ⟨?_, ?_⟩
  · rw [allWellFormed_cons]
    constructor
    · rintro -
      exact ⟨fun _ => wellFormed_iff.mpr (.inl h), fun hends => absurd h hends⟩
    · rintro -
      exact ⟨image, rfl⟩
  · intro other reason
    simp only [reached_cons]
    constructor
    · rintro ⟨⟩
    · rintro ⟨line, ⟨rfl, -, rfl⟩ | ⟨hblank | hline, -⟩, hrejected⟩
      · cases heffect.symm.trans (effect_of_rejected hagrees hrejected image)
      · exact absurd (hblank ▸ h) not_ends_nil
      · obtain ⟨next, hnext⟩ := effect_of_goesOn hagrees hline image
        cases heffect.symm.trans hnext

end

/-- **The reader follows a format that agrees with it** on the lines that it
reaches. -/
theorem followsLines_of_agrees {First : Char → Nat → Prop} (lines : List (List Char × Nat))
    (h : ∀ line number, Reached First lines line number → Agrees First line) (image : Image) :
    FollowsLines First lines (readLines image lines) := by
  induction lines generalizing image with
  | nil =>
    refine ⟨?_, ?_⟩
    · refine ⟨fun _ before entry after heq => ?_, fun _ => ⟨image, rfl⟩⟩
      cases List.nil_eq_append_iff.mp heq |>.2
    · intro number defect
      constructor
      · rintro ⟨⟩
      · rintro ⟨line, ⟨before, raw, after, heq, -⟩, -⟩
        cases List.nil_eq_append_iff.mp heq |>.2
  | cons entry lines ih =>
    obtain ⟨raw, number⟩ := entry
    have hbehind : trim raw = [] ∨ GoesOn First (trim raw) → ∀ line number,
        Reached First lines line number → Agrees First line := by
      intro hpasses line other hreached
      exact h line other (reached_cons.mpr (.inr ⟨hpasses, hreached⟩))
    by_cases hblank : trim raw = []
    · rw [readLines_of_blank hblank]
      refine (ih (hbehind (.inl hblank)) image).cons_of_passes (.inl hblank) ?_ ?_
      · rw [hblank]
        exact not_ends_nil
      · exact fun _ hne => absurd hblank hne
    have hagrees : Agrees First (trim raw) := h _ number (reached_cons.mpr (.inl ⟨rfl, hblank, rfl⟩))
    rw [readLines_of_ne_nil hblank]
    -- a line that is rejected or ends the file settles all; else the lines behind it do
    cases heffect : effect (trim raw) image with
    | error defect =>
      exact followsLines_of_rejected hagrees hblank ((effect_eq_error hagrees).mp heffect)
    | ok next =>
      cases next with
      | stop => exact followsLines_of_ends hagrees ((effect_eq_stop hagrees).mp heffect) image
      | goOn next =>
        have hline := (effect_eq_goOn hagrees).mp ⟨next, heffect⟩
        refine (ih (hbehind (.inr hline)) next).cons_of_passes (.inr hline)
          (not_ends_of_goesOn hagrees hline) fun defect _ hrejected => ?_
        cases heffect.symm.trans (effect_of_rejected hagrees hrejected image)

/-! ### Digits and plus signs -/

/-- A line spells bytes with a plus sign for a digit. -/
def Signed (line : List Char) : Prop :=
  ∃ digits bytes, line = ':' :: digits ∧ Spells SignedDigit digits bytes ∧ '+' ∈ digits

theorem agrees_signedDigit (line : List Char) : Agrees SignedDigit line :=
  fun digits _ bytes => pairs?_eq_some digits bytes

theorem followsFormat_signedDigit (text : String) : FollowsFormat SignedDigit text :=
  followsLines_of_agrees _ (fun line _ _ => agrees_signedDigit line) .empty

theorem agrees_hexDigit {line : List Char} (h : ¬Signed line) : Agrees HexDigit line := by
  intro digits hline bytes
  rw [pairs?_eq_some, spells_hexDigit_iff]
  refine ⟨fun hspells => ⟨hspells, fun hplus => ?_⟩, And.left⟩
  exact h ⟨digits, bytes, hline, hspells, hplus⟩

theorem Signed.misread {line : List Char} (h : Signed line) :
    Misread HexDigit line .invalidDigits := by
  obtain ⟨digits, bytes, rfl, -, hplus⟩ := h
  exact .invalidDigits fun _ hspells => (spells_hexDigit_iff.mp hspells).2 hplus

theorem Signed.not_rejected {line : List Char} (h : Signed line) :
    ¬Rejected SignedDigit line .invalidDigits := by
  obtain ⟨digits, bytes, rfl, hspells, -⟩ := h
  rintro (hmisread | ⟨record, -, ⟨⟩⟩)
  cases hmisread with
  | invalidDigits hnone => exact hnone bytes hspells

theorem Signed.ne_nil {line : List Char} (h : Signed line) : line ≠ [] := by
  obtain ⟨digits, bytes, rfl, -⟩ := h
  exact List.cons_ne_nil _ _

theorem Carries.signedDigit {line : List Char} {record : Record} (h : Carries HexDigit line record) :
    Carries SignedDigit line record := by
  cases h with
  | mk hspells hlength hbalanced => exact .mk (spells_hexDigit_iff.mp hspells).1 hlength hbalanced

theorem Carries.hexDigit {line : List Char} {record : Record} (h : Carries SignedDigit line record)
    (hline : ¬Signed line) : Carries HexDigit line record := by
  cases h with
  | mk hspells hlength hbalanced =>
    refine .mk (spells_hexDigit_iff.mpr ⟨hspells, fun hplus => ?_⟩) hlength hbalanced
    exact hline ⟨_, _, rfl, hspells, hplus⟩

theorem reached_signedDigit {lines : List (List Char × Nat)} {line : List Char} {number : Nat}
    (h : Reached HexDigit lines line number) : Reached SignedDigit lines line number := by
  obtain ⟨before, raw, after, heq, hbefore, hline⟩ := h
  refine ⟨before, raw, after, heq, fun earlier hearlier => ?_, hline⟩
  rcases hbefore earlier hearlier with hblank | ⟨record, hrecord, hgoesOn⟩
  · exact .inl hblank
  · exact .inr ⟨record, hrecord.signedDigit, hgoesOn⟩

/-- Behind lines without plus signs the first with one is reached in both formats. -/
theorem exists_reached_hexDigit {lines : List (List Char × Nat)} {line : List Char} {number : Nat}
    (h : Reached SignedDigit lines line number) (hsigned : Signed line) :
    ∃ first number, Reached HexDigit lines first number ∧ Signed first := by
  induction lines with
  | nil =>
    obtain ⟨before, raw, after, heq, -⟩ := h
    cases (List.nil_eq_append_iff.mp heq).2
  | cons entry lines ih =>
    obtain ⟨raw, own⟩ := entry
    -- the first line with a plus sign is the one, since what is passed before it has none
    by_cases hfirst : Signed (trim raw)
    · exact ⟨trim raw, own, reached_cons.mpr (.inl ⟨rfl, hfirst.ne_nil, rfl⟩), hfirst⟩
    rcases reached_cons.mp h with ⟨rfl, -, -⟩ | ⟨hpasses, hreached⟩
    · exact absurd hsigned hfirst
    · obtain ⟨first, number, hreached, hsigned⟩ := ih hreached
      refine ⟨first, number, reached_cons.mpr (.inr ⟨?_, hreached⟩), hsigned⟩
      rcases hpasses with hblank | ⟨record, hrecord, hgoesOn⟩
      · exact .inl hblank
      · exact .inr ⟨record, hrecord.hexDigit hfirst, hgoesOn⟩

theorem reached_unique {First Second : Char → Nat → Prop} {text : List Char} {line other : List Char}
    {number : Nat} (h : Reached First (numberedLines text) line number)
    (hother : Reached Second (numberedLines text) other number) : line = other := by
  have hmem : ∀ {F line}, Reached F (numberedLines text) line number →
      ∃ raw, (lines text)[number - 1]? = some raw ∧ trim raw = line := by
    rintro F line ⟨before, raw, after, heq, -, hline, -⟩
    have hraw : (raw, number) ∈ (lines text).zipIdx 1 := by
      rw [numberedLines] at heq
      rw [heq]
      exact List.mem_append_right _ List.mem_cons_self
    exact ⟨raw, (List.mk_mem_zipIdx_iff_le_and_getElem?_sub.mp hraw).2, hline⟩
  obtain ⟨raw, hraw, rfl⟩ := hmem h
  obtain ⟨raw', hraw', rfl⟩ := hmem hother
  rw [Option.some.inj (hraw.symm.trans hraw')]

theorem not_followsFormat_hexDigit {text : String} {line : List Char} {number : Nat}
    (h : Reached SignedDigit (numberedLines text.toList) line number) (hsigned : Signed line) :
    ¬FollowsFormat HexDigit text := by
  intro hfollows
  obtain ⟨first, number, hreached, hfirst⟩ := exists_reached_hexDigit h hsigned
  have hread : read text = .error ⟨number, .invalidDigits⟩ :=
    (hfollows.error_iff number _).mpr ⟨first, hreached, .inl hfirst.misread⟩
  obtain ⟨other, hother, hrejected⟩ :=
    ((followsFormat_signedDigit text).error_iff number _).mp hread
  rw [← reached_unique hreached hother] at hrejected
  exact hfirst.not_rejected hrejected

/-- **Files are read by their format.** The reader gives an image just when
all lines up to the end record are well formed, and else names the first that is
not and the first check that it fails, if a plus sign may stand for a leading
zero. With digits alone this is so for just those texts in which no line that is
reached spells bytes with a plus sign. Any other character behind the colon is
reported as no digit. -/
theorem read_follows_format (text : String) :
    FollowsFormat SignedDigit text ∧
    (FollowsFormat HexDigit text ↔
      ∀ line number, Reached SignedDigit (numberedLines text.toList) line number → ¬Signed line) ∧
    ∀ digits number c, Reached SignedDigit (numberedLines text.toList) (':' :: digits) number →
      c ∈ digits → c ≠ '+' → (∀ value, ¬HexDigit c value) →
      read text = .error ⟨number, .invalidDigits⟩ := by
  refine ⟨followsFormat_signedDigit text, ⟨?_, ?_⟩, ?_⟩
  · intro hfollows line number hreached hsigned
    exact not_followsFormat_hexDigit hreached hsigned hfollows
  · intro h
    refine followsLines_of_agrees _ (fun line number hreached => agrees_hexDigit ?_) .empty
    exact h line number (reached_signedDigit hreached)
  · intro digits number c hreached hmem hplus hdigit
    refine ((followsFormat_signedDigit text).error_iff number _).mpr ⟨_, hreached, .inl ?_⟩
    refine .invalidDigits fun bytes hspells => ?_
    rcases hspells.hexDigit_or_plus c hmem with ⟨value, hvalue⟩ | hc
    · exact hdigit value hvalue
    · exact hplus hc

theorem goesOn_firstLine : GoesOn SignedDigit ":0100000041BE".toList := by
  have hspells : Spells SignedDigit "0100000041BE".toList
      (0x01 :: 0x00 :: 0x00 :: 0x00 :: ([0x41] ++ [0xBE])) := by
    rw [← pairs?_eq_some]
    decide +kernel
  have hline : ":0100000041BE".toList = ':' :: "0100000041BE".toList := by decide +kernel
  rw [hline]
  exact ⟨_, .mk hspells rfl rfl, .data rfl (by decide), by decide⟩

/-- The third line of a file has a letter that is no digit. -/
theorem misspelledFile_rejected :
    read ":0100000041BE\n\n:0G\n" = .error ⟨3, .invalidDigits⟩ := by
  obtain ⟨-, -, hother⟩ := read_follows_format ":0100000041BE\n\n:0G\n"
  have htrim : trim ":0100000041BE".toList = ":0100000041BE".toList := by decide +kernel
  refine hother ['0', 'G'] 3 'G' ?_ (by decide) (by decide) ?_
  · refine ⟨[(":0100000041BE".toList, 1), ([], 2)], ":0G".toList, [], by decide +kernel, ?_,
      by decide +kernel, List.cons_ne_nil _ _⟩
    refine List.forall_mem_cons.mpr ⟨.inr ?_, List.forall_mem_singleton.mpr (.inl rfl)⟩
    rw [htrim]
    exact goesOn_firstLine
  · intro value h
    rw [← digitValue?_eq_some] at h
    cases h

theorem plusFile_reached :
    Reached SignedDigit (numberedLines ":+0000001FF\n".toList) ":+0000001FF".toList 1 := by
  refine ⟨[], ":+0000001FF".toList, [], by decide +kernel, List.forall_mem_nil _, ?_, ?_⟩
  · decide +kernel
  · decide +kernel

theorem plusFile_signed : Signed ":+0000001FF".toList := by
  refine ⟨"+0000001FF".toList, [0x00, 0x00, 0x00, 0x01, 0xFF], by decide +kernel, ?_, by decide +kernel⟩
  rw [← pairs?_eq_some]
  decide +kernel

/-- The line of an end record, with a plus sign for its first digit, is read as one. -/
theorem plusFile_not_followsFormat :
    (∃ image, read ":+0000001FF\n" = .ok image) ∧ ¬FollowsFormat HexDigit ":+0000001FF\n" :=
  ⟨⟨.empty, rfl⟩, not_followsFormat_hexDigit plusFile_reached plusFile_signed⟩

end IntelHex
end Mos6502
