/-
# The format of files

What the format says of a line and of a file, in its own words: which lines
carry which records, which records are permitted, and what is wrong with all
others. A line is rejected, ends the file or lets it go on, and the reader does
the same with it if it spells what the reader takes it for.

Key definitions: `Carries`, `Misread`, `Permitted`, `Refused`, `WellFormed`,
`Rejected`, `Reached`, `FollowsFormat`, `Agrees`.
Key theorems: `carries_or_misread`, `permitted_or_refused`,
`rejected_or_ends_or_goesOn`, `effect_eq_error`, `effect_eq_stop`,
`effect_eq_goOn`.
-/
import Mos6502.IntelHex.File
import Mos6502.Proofs.IntelHex.Record
import Mos6502.Proofs.IntelHex.Spelling
import Mathlib.Algebra.Ring.Nat

namespace Mos6502
namespace IntelHex

open Text

/-! ### What the format says of a line -/

/-- The bytes are as many as the first of them says, with five around the data. -/
def Sized (bytes : List UInt8) : Prop :=
  ∃ count rest, bytes = count :: rest ∧ bytes.length = count.toNat + 5

/-- The bytes add up to a multiple of 256. -/
def Balanced (bytes : List UInt8) : Prop := (bytes.map UInt8.toNat).sum % 256 = 0

/-- A line carries a record: behind a colon it spells how many data bytes there
are, the offset, the kind, the data and a byte that balances them. -/
inductive Carries (First : Char → Nat → Prop) : List Char → Record → Prop
  | mk {digits : List Char} {count high low kind check : UInt8} {data : List UInt8} :
    Spells First digits (count :: high :: low :: kind :: (data ++ [check])) →
      data.length = count.toNat → Balanced (count :: high :: low :: kind :: (data ++ [check])) →
      Carries First (':' :: digits) ⟨Word.ofBytes low high, kind, data⟩

/-- Why a line carries no record: the first of four checks that fails. -/
inductive Misread (First : Char → Nat → Prop) : List Char → Defect → Prop
  | missingStartCode {line : List Char} : (∀ digits, line ≠ ':' :: digits) →
    Misread First line .missingStartCode
  | invalidDigits {digits : List Char} : (∀ bytes, ¬Spells First digits bytes) →
    Misread First (':' :: digits) .invalidDigits
  | lengthMismatch {digits : List Char} {bytes : List UInt8} : Spells First digits bytes →
    ¬Sized bytes → Misread First (':' :: digits) .lengthMismatch
  | checksumMismatch {digits : List Char} {bytes : List UInt8} : Spells First digits bytes →
    Sized bytes → ¬Balanced bytes → Misread First (':' :: digits) .checksumMismatch

/-- A record may stand in a file. -/
inductive Permitted (record : Record) : Prop
  | data : record.kind = 0 → record.offset.toNat + record.data.length ≤ 0x10000 → Permitted record
  | endOfFile : record.kind = 1 → Permitted record
  | segment : record.kind = 2 ∨ record.kind = 4 → (∀ byte ∈ record.data, byte = 0) →
    Permitted record
  | start : record.kind = 3 ∨ record.kind = 5 → Permitted record

/-- Why a record may not stand in a file. -/
inductive Refused (record : Record) : Defect → Prop
  | addressOverflow : record.kind = 0 → 0x10000 < record.offset.toNat + record.data.length →
    Refused record (.addressOverflow 0x10000)
  | nonZeroOffset : record.kind = 2 ∨ record.kind = 4 → (∃ byte ∈ record.data, byte ≠ 0) →
    Refused record (.nonZeroOffset record.kind)
  | unsupportedKind : 5 < record.kind → Refused record (.unsupportedKind record.kind)

section

variable (First : Char → Nat → Prop)

/-- A line is a record that may stand in a file. -/
def WellFormed (line : List Char) : Prop := ∃ record, Carries First line record ∧ Permitted record

/-- A line is the record that ends a file. -/
def Ends (line : List Char) : Prop := ∃ record, Carries First line record ∧ record.kind = 1

/-- A line is a record that may stand in a file and does not end it. -/
def GoesOn (line : List Char) : Prop :=
  ∃ record, Carries First line record ∧ Permitted record ∧ record.kind ≠ 1

/-- What is wrong with a line. -/
def Rejected (line : List Char) (defect : Defect) : Prop :=
  Misread First line defect ∨ ∃ record, Carries First line record ∧ Refused record defect

/-! ### What the format says of a file -/

/-- Every line that is not blank, up to the first that ends the file, is well
formed. -/
def AllWellFormed (lines : List (List Char × Nat)) : Prop :=
  ∀ before entry after, lines = before ++ entry :: after →
    (∀ earlier ∈ before, ¬Ends First (trim earlier.1)) →
    trim entry.1 ≠ [] → WellFormed First (trim entry.1)

/-- Behind lines that are blank, or well formed and do not end the file, there
is one that is not blank. -/
def Reached (lines : List (List Char × Nat)) (line : List Char) (number : Nat) : Prop :=
  ∃ before raw after, lines = before ++ (raw, number) :: after ∧
    (∀ earlier ∈ before, trim earlier.1 = [] ∨ GoesOn First (trim earlier.1)) ∧
    trim raw = line ∧ line ≠ []

/-- What came of some lines is what the format says: an image if all are well
formed, and else what is wrong with the first that is not. -/
structure FollowsLines (lines : List (List Char × Nat)) (result : Except Error Image) : Prop where
  ok_iff : (∃ image, result = .ok image) ↔ AllWellFormed First lines
  error_iff (number : Nat) (defect : Defect) : result = .error ⟨number, defect⟩ ↔
    ∃ line, Reached First lines line number ∧ Rejected First line defect

/-- What is read from a text is what the format says. -/
def FollowsFormat (text : String) : Prop :=
  FollowsLines First (numberedLines text.toList) (read text)

end

/-! ### Records -/

theorem toNat_sum (bytes : List UInt8) :
    (sum bytes).toNat = (bytes.map UInt8.toNat).sum % 256 := by
  induction bytes with
  | nil => rfl
  | cons byte bytes ih =>
    have hcons : sum (byte :: bytes) = byte + sum bytes := by
      have happend := sum_append [byte] bytes
      rwa [List.singleton_append, show sum [byte] = byte from UInt8.zero_add byte] at happend
    rw [hcons, UInt8.toNat_add, ih, List.map_cons, List.sum_cons]
    exact Nat.add_mod_mod _ _ _

theorem sum_eq_zero_iff (bytes : List UInt8) : sum bytes = 0 ↔ Balanced bytes := by
  rw [Balanced, ← toNat_sum, ← UInt8.toNat_inj]
  rfl

theorem Sized.exists_eq {bytes : List UInt8} (h : Sized bytes) :
    ∃ count high low kind data check, bytes = count :: high :: low :: kind :: (data ++ [check]) ∧
      data.length = count.toNat := by
  obtain ⟨count, rest, rfl, hlength⟩ := h
  match rest, hlength with
  | high :: low :: kind :: data, hlength =>
    simp only [List.length_cons] at hlength
    have hne : data ≠ [] := by
      rintro rfl
      simp at hlength
    refine ⟨count, high, low, kind, data.dropLast, data.getLast hne, ?_, ?_⟩
    · rw [List.dropLast_concat_getLast]
    · rw [List.length_dropLast]
      omega

theorem carries_or_misread (First : Char → Nat → Prop) (line : List Char) :
    (∃ record, Carries First line record) ∨ ∃ defect, Misread First line defect := by
  by_cases hcolon : ∃ digits, line = ':' :: digits
  swap
  · exact .inr ⟨_, .missingStartCode (not_exists.mp hcolon)⟩
  obtain ⟨digits, rfl⟩ := hcolon
  by_cases hspells : ∃ bytes, Spells First digits bytes
  swap
  · exact .inr ⟨_, .invalidDigits (not_exists.mp hspells)⟩
  obtain ⟨bytes, hspells⟩ := hspells
  by_cases hsized : Sized bytes
  swap
  · exact .inr ⟨_, .lengthMismatch hspells hsized⟩
  by_cases hbalanced : Balanced bytes
  swap
  · exact .inr ⟨_, .checksumMismatch hspells hsized hbalanced⟩
  obtain ⟨count, high, low, kind, data, check, rfl, hlength⟩ := hsized.exists_eq
  exact .inl ⟨_, .mk hspells hlength hbalanced⟩

theorem permitted_or_refused (record : Record) :
    Permitted record ∨ ∃ defect, Refused record defect := by
  have hkind : record.kind = 0 ∨ record.kind = 1 ∨ (record.kind = 2 ∨ record.kind = 4) ∨
      (record.kind = 3 ∨ record.kind = 5) ∨ 5 < record.kind := by
    grind
  rcases hkind with h | h | h | h | h
  · rcases Nat.lt_or_ge 0x10000 (record.offset.toNat + record.data.length) with hend | hend
    · exact .inr ⟨_, .addressOverflow h hend⟩
    · exact .inl (.data h hend)
  · exact .inl (.endOfFile h)
  · by_cases hzero : ∀ byte ∈ record.data, byte = 0
    · exact .inl (.segment h hzero)
    · push Not at hzero
      exact .inr ⟨_, .nonZeroOffset h hzero⟩
  · exact .inl (.start h)
  · exact .inr ⟨_, .unsupportedKind h⟩

/-! ### What the reader makes of a line -/

namespace Record

theorem ofBytes_of_not_sized {bytes : List UInt8} (h : ¬Sized bytes) :
    ofBytes bytes = .error .lengthMismatch := by
  unfold ofBytes
  split
  · rename_i count high low kind rest
    refine if_neg fun hlength => h ⟨count, _, rfl, ?_⟩
    simp [hlength]
  · rfl

theorem ofBytes_of_length_eq {count high low kind check : UInt8} {data : List UInt8}
    (h : data.length = count.toNat) :
    ofBytes (count :: high :: low :: kind :: (data ++ [check])) =
      if sum (count :: high :: low :: kind :: (data ++ [check])) = 0 then
        .ok ⟨Word.ofBytes low high, kind, data⟩
      else .error .checksumMismatch := by
  simp only [ofBytes, List.length_append, List.length_singleton, h, if_true, List.dropLast_concat]

theorem apply_of_refused {record : Record} {defect : Defect} (h : Refused record defect)
    (image : Image) : record.apply image = .error defect := by
  cases h with
  | addressOverflow hkind hend =>
    simp only [apply, hkind, if_pos hend]
  | nonZeroOffset hkind hzero =>
    have hall : record.data.all (· == 0) = false := by
      simpa using hzero
    unfold apply
    rcases hkind with hkind | hkind <;> simp [hkind, hall]
  | unsupportedKind hkind =>
    have hne : record.kind ≠ 0 ∧ record.kind ≠ 1 ∧ record.kind ≠ 2 ∧ record.kind ≠ 3 ∧
        record.kind ≠ 4 ∧ record.kind ≠ 5 := by
      grind
    unfold apply
    split <;> first | rfl | simp_all

theorem apply_of_kind_eq_one {record : Record} (h : record.kind = 1) (image : Image) :
    record.apply image = .ok .stop := by
  simp only [apply, h]

/-- A record that may stand in a file and does not end it puts the same bytes into
whatever image there is. -/
theorem apply_of_permitted {record : Record} (h : Permitted record) (hkind : record.kind ≠ 1) :
    ∃ bytes, ∀ image, record.apply image = .ok (.goOn (image.insertAll bytes)) := by
  cases h with
  | data hdata hend =>
    refine ⟨Image.consecutive record.offset record.data, fun image => ?_⟩
    simp only [apply, hdata, if_neg (Nat.not_lt.mpr hend)]
    rfl
  | endOfFile hend => exact absurd hend hkind
  | segment hsegment hzero =>
    have hall : record.data.all (· == 0) = true := by
      simpa using hzero
    refine ⟨[], fun image => ?_⟩
    rcases hsegment with h | h <;> simp only [apply, h, hall, if_true] <;> rfl
  | start hstart =>
    refine ⟨[], fun image => ?_⟩
    rcases hstart with h | h <;> simp only [apply, h] <;> rfl

end Record

/-- A format spells behind the colon of a line what the reader takes it for. -/
def Agrees (First : Char → Nat → Prop) (line : List Char) : Prop :=
  ∀ digits, line = ':' :: digits → ∀ bytes, pairs? digits = some bytes ↔ Spells First digits bytes

section

variable {First : Char → Nat → Prop} {line : List Char}

theorem read_of_carries (h : Agrees First line) {record : Record} (hline : Carries First line record) :
    Record.read line = .ok record := by
  cases hline with
  | mk hspells hlength hbalanced =>
    have hpairs := (h _ rfl _).mpr hspells
    simp only [Record.read, hpairs, Record.ofBytes_of_length_eq hlength,
      if_pos ((sum_eq_zero_iff _).mpr hbalanced)]

theorem read_of_misread (h : Agrees First line) {defect : Defect}
    (hline : Misread First line defect) : Record.read line = .error defect := by
  cases hline with
  | missingStartCode hcolon =>
    unfold Record.read
    split
    · exact absurd rfl (hcolon _)
    · rfl
  | invalidDigits hspells =>
    have hpairs : pairs? _ = none := Option.eq_none_iff_forall_ne_some.mpr fun bytes hbytes =>
      hspells bytes ((h _ rfl bytes).mp hbytes)
    simp only [Record.read, hpairs]
  | lengthMismatch hspells hsized =>
    have hpairs := (h _ rfl _).mpr hspells
    simp only [Record.read, hpairs, Record.ofBytes_of_not_sized hsized]
  | checksumMismatch hspells hsized hbalanced =>
    obtain ⟨count, high, low, kind, data, check, rfl, hlength⟩ := hsized.exists_eq
    have hpairs := (h _ rfl _).mpr hspells
    simp only [Record.read, hpairs, Record.ofBytes_of_length_eq hlength,
      if_neg (mt (sum_eq_zero_iff _).mp hbalanced)]

/-- What the reader does with a line from an image on. -/
def effect (line : List Char) (image : Image) : Except Defect Effect :=
  Record.read line >>= fun record => record.apply image

theorem effect_of_carries (h : Agrees First line) {record : Record}
    (hline : Carries First line record) (image : Image) : effect line image = record.apply image := by
  rw [effect, read_of_carries h hline]
  rfl

theorem effect_of_rejected (h : Agrees First line) {defect : Defect}
    (hline : Rejected First line defect) (image : Image) : effect line image = .error defect := by
  rcases hline with hline | ⟨record, hline, hrefused⟩
  · rw [effect, read_of_misread h hline]
    rfl
  · rw [effect_of_carries h hline, Record.apply_of_refused hrefused]

theorem effect_of_ends (h : Agrees First line) (hline : Ends First line) (image : Image) :
    effect line image = .ok .stop := by
  obtain ⟨record, hline, hkind⟩ := hline
  rw [effect_of_carries h hline, Record.apply_of_kind_eq_one hkind]

theorem effect_fills (h : Agrees First line) (hline : GoesOn First line) :
    ∃ bytes, ∀ image, effect line image = .ok (.goOn (image.insertAll bytes)) := by
  obtain ⟨record, hline, hpermitted, hkind⟩ := hline
  obtain ⟨bytes, happly⟩ := Record.apply_of_permitted hpermitted hkind
  exact ⟨bytes, fun image => (effect_of_carries h hline image).trans (happly image)⟩

theorem effect_of_goesOn (h : Agrees First line) (hline : GoesOn First line) (image : Image) :
    ∃ next, effect line image = .ok (.goOn next) := by
  obtain ⟨bytes, heffect⟩ := effect_fills h hline
  exact ⟨_, heffect image⟩

theorem not_ends_of_goesOn (h : Agrees First line) (hline : GoesOn First line) :
    ¬Ends First line := by
  intro hends
  obtain ⟨next, hnext⟩ := effect_of_goesOn h hline .empty
  cases hnext.symm.trans (effect_of_ends h hends .empty)

theorem rejected_or_ends_or_goesOn (First : Char → Nat → Prop) (line : List Char) :
    (∃ defect, Rejected First line defect) ∨ Ends First line ∨ GoesOn First line := by
  rcases carries_or_misread First line with ⟨record, hline⟩ | ⟨defect, hline⟩
  · rcases permitted_or_refused record with hrecord | ⟨defect, hrecord⟩
    · by_cases hkind : record.kind = 1
      · exact .inr (.inl ⟨record, hline, hkind⟩)
      · exact .inr (.inr ⟨record, hline, hrecord, hkind⟩)
    · exact .inl ⟨defect, .inr ⟨record, hline, hrecord⟩⟩
  · exact .inl ⟨defect, .inl hline⟩

theorem effect_cases (h : Agrees First line) (image : Image) :
    (∃ defect, Rejected First line defect ∧ effect line image = .error defect) ∨
      (Ends First line ∧ effect line image = .ok .stop) ∨
      (GoesOn First line ∧ ∃ next, effect line image = .ok (.goOn next)) := by
  rcases rejected_or_ends_or_goesOn First line with ⟨defect, hline⟩ | hline | hline
  · exact .inl ⟨defect, hline, effect_of_rejected h hline image⟩
  · exact .inr (.inl ⟨hline, effect_of_ends h hline image⟩)
  · exact .inr (.inr ⟨hline, effect_of_goesOn h hline image⟩)

theorem effect_eq_error (h : Agrees First line) {image : Image} {defect : Defect} :
    effect line image = .error defect ↔ Rejected First line defect := by
  refine ⟨fun heffect => ?_, fun hline => effect_of_rejected h hline image⟩
  rcases effect_cases h image with ⟨other, hline, hother⟩ | ⟨-, hother⟩ | ⟨-, next, hother⟩
  · cases heffect.symm.trans hother
    exact hline
  · cases heffect.symm.trans hother
  · cases heffect.symm.trans hother

theorem effect_eq_stop (h : Agrees First line) {image : Image} :
    effect line image = .ok .stop ↔ Ends First line := by
  refine ⟨fun heffect => ?_, fun hline => effect_of_ends h hline image⟩
  rcases effect_cases h image with ⟨other, -, hother⟩ | ⟨hline, -⟩ | ⟨-, next, hother⟩
  · cases heffect.symm.trans hother
  · exact hline
  · cases heffect.symm.trans hother

theorem effect_eq_goOn (h : Agrees First line) {image : Image} :
    (∃ next, effect line image = .ok (.goOn next)) ↔ GoesOn First line := by
  refine ⟨fun ⟨next, heffect⟩ => ?_, fun hline => effect_of_goesOn h hline image⟩
  rcases effect_cases h image with ⟨other, -, hother⟩ | ⟨-, hother⟩ | ⟨hline, -⟩
  · cases heffect.symm.trans hother
  · cases heffect.symm.trans hother
  · exact hline

theorem wellFormed_iff : WellFormed First line ↔ Ends First line ∨ GoesOn First line := by
  constructor
  · rintro ⟨record, hline, hpermitted⟩
    by_cases hkind : record.kind = 1
    · exact .inl ⟨record, hline, hkind⟩
    · exact .inr ⟨record, hline, hpermitted, hkind⟩
  · rintro (⟨record, hline, hkind⟩ | ⟨record, hline, hpermitted, -⟩)
    · exact ⟨record, hline, .endOfFile hkind⟩
    · exact ⟨record, hline, hpermitted⟩

end

end IntelHex
end Mos6502
