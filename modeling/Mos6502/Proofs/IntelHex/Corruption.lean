/-
# Wrong digits

A digit of another value changes one byte, and by less than 256. If that is the first
byte, the line is no longer as long as it says; in any case its bytes no longer add
up to zero (`misread_of_wrong`). No other line is touched, so the reader comes to the
line as before, and rejects it there. A written file has nothing but records that the
reader comes to.

Key definitions: `Miswritten`, `Noticed`.
Key theorems: `exists_spells_of_wrong`, `misread_of_wrong`, `readLines_of_wrong`,
`wrong_digits_are_noticed`.
-/
import Mos6502.Proofs.IntelHex.Concatenation
import Mos6502.Proofs.IntelHex.RoundTrip

namespace Mos6502
namespace IntelHex

open Text

/-- One text is another but for a digit of another value, which stands on the line of
a number. -/
inductive Miswritten (text other : String) (number : Nat) : Prop
  | mk {before after : List Char} {right wrong : Char} {value error : Nat} :
    text.toList = before ++ right :: after → other.toList = before ++ wrong :: after →
      HexDigit right value → HexDigit wrong error → value ≠ error →
      number = before.count '\n' + 1 → Miswritten text other number

/-- A text is rejected for how long the line of a number is, or for what its bytes add
up to. -/
def Noticed (text : String) (number : Nat) : Prop :=
  read text = .error ⟨number, .lengthMismatch⟩ ∨ read text = .error ⟨number, .checksumMismatch⟩

section

variable {right wrong : Char} {value error : Nat}

/-! ### Bytes -/

theorem byte_ne {high low high' low' : Nat} (hhigh : high < 16) (hlow : low < 16)
    (hhigh' : high' < 16) (hlow' : low' < 16) (h : high ≠ high' ∨ low ≠ low') :
    UInt8.ofNat (16 * high + low) ≠ UInt8.ofNat (16 * high' + low') := by
  intro heq
  have hnat := congrArg UInt8.toNat heq
  rw [UInt8.toNat_ofNat', UInt8.toNat_ofNat'] at hnat
  omega

theorem SignedDigit.lt {c : Char} (h : SignedDigit c value) : value < 16 := by
  cases h with
  | digit h => exact h.lt
  | plus => decide

theorem SignedDigit.value_eq {c : Char} {other : Nat} (h : SignedDigit c other)
    (hdigit : HexDigit c value) : other = value := by
  cases h with
  | digit h => exact h.value_eq hdigit
  | plus => exact absurd hdigit (plus_not_hexDigit value)

/-- A wrong digit makes one byte another, wherever it stands. -/
theorem exists_spells_of_wrong (hright : HexDigit right value) (hwrong : HexDigit wrong error)
    (hne : value ≠ error) : ∀ {before after : List Char} {bytes : List UInt8},
      Spells SignedDigit (before ++ right :: after) bytes →
      ∃ front byte other back, bytes = front ++ byte :: back ∧ byte ≠ other ∧
        Spells SignedDigit (before ++ wrong :: after) (front ++ other :: back)
  | [], _, _, h => by
    cases h with
    | cons hfirst hsecond hrest =>
      refine ⟨[], _, _, _, rfl, ?_, .cons (.digit hwrong) hsecond hrest⟩
      rw [hfirst.value_eq hright]
      exact byte_ne hright.lt hsecond.lt hwrong.lt hsecond.lt (.inl hne)
  | [first], _, _, h => by
    cases h with
    | cons hfirst hsecond hrest =>
      refine ⟨[], _, _, _, rfl, ?_, .cons hfirst hwrong hrest⟩
      rw [hsecond.value_eq hright]
      exact byte_ne hfirst.lt hright.lt hfirst.lt hwrong.lt (.inr hne)
  | first :: second :: before, after, _, h => by
    cases h with
    | cons hfirst hsecond hrest =>
      obtain ⟨front, byte, other, back, rfl, hother, hspells⟩ :=
        exists_spells_of_wrong hright hwrong hne hrest
      exact ⟨_ :: front, byte, other, back, rfl, hother, .cons hfirst hsecond hspells⟩

theorem not_balanced_of_ne {front back : List UInt8} {byte other : UInt8} (hne : byte ≠ other)
    (h : Balanced (front ++ byte :: back)) : ¬Balanced (front ++ other :: back) := by
  intro hother
  have hbyte := byte.toNat_lt
  have hlt := other.toNat_lt
  simp only [Balanced, List.map_append, List.map_cons, List.sum_append, List.sum_cons] at h hother
  exact hne (UInt8.toNat.inj (by omega))

/-! ### Lines -/

/-- **A line with a wrong digit carries no record**: it is not as long as its first byte
says, or its bytes do not add up. -/
theorem misread_of_wrong {start tail : List Char} {record : Record}
    (hline : Carries SignedDigit (start ++ right :: tail) record) (hright : HexDigit right value)
    (hwrong : HexDigit wrong error) (hne : value ≠ error) :
    ∃ defect, (defect = .lengthMismatch ∨ defect = .checksumMismatch) ∧
      Misread SignedDigit (start ++ wrong :: tail) defect := by
  generalize htext : start ++ right :: tail = line at hline
  cases hline with
  | mk hspells _ hbalanced =>
    cases start with
    | nil =>
      -- the colon is no digit
      obtain ⟨rfl, -⟩ := List.cons.inj htext
      cases digitValue?_of_hexDigit hright
    | cons colon start =>
      obtain ⟨rfl, rfl⟩ := List.cons.inj htext
      obtain ⟨front, byte, other, back, heq, hother, hspells'⟩ :=
        exists_spells_of_wrong hright hwrong hne hspells
      rw [heq] at hbalanced
      by_cases hsized : Sized (front ++ other :: back)
      · exact ⟨_, .inr rfl, .checksumMismatch hspells' hsized
          (not_balanced_of_ne hother hbalanced)⟩
      · exact ⟨_, .inl rfl, .lengthMismatch hspells' hsized⟩

/-! ### Files -/

theorem exists_carries_of_not_rejected {line : List Char}
    (h : ∀ defect, ¬Rejected SignedDigit line defect) :
    ∃ record, Carries SignedDigit line record := by
  rcases rejected_or_ends_or_goesOn SignedDigit line with ⟨defect, hline⟩ | hline | hline
  · exact absurd hline (h defect)
  · obtain ⟨record, hline, -⟩ := hline
    exact ⟨record, hline⟩
  · obtain ⟨record, hline, -⟩ := hline
    exact ⟨record, hline⟩

/-- Behind lines that do not end the file a wrong digit is noticed. -/
theorem readLines_of_wrong {front back : List (List Char)} {start tail : List Char} {image : Image}
    (hread : readLines .empty ((front ++ (start ++ right :: tail) :: back).zipIdx 1) = .ok image)
    (hends : ∀ line ∈ front, ¬Ends SignedDigit (trim line)) (hright : HexDigit right value)
    (hwrong : HexDigit wrong error) (hne : value ≠ error) :
    ∃ defect, (defect = .lengthMismatch ∨ defect = .checksumMismatch) ∧
      readLines .empty ((front ++ (start ++ wrong :: tail) :: back).zipIdx 1) =
        .error ⟨front.length + 1, defect⟩ := by
  have htrim : ∀ {c value}, HexDigit c value →
      trim (start ++ c :: tail) = trimStart start ++ c :: trimEnd tail := fun hc =>
    trim_append_cons start hc.isBlank_eq tail
  have hsolid : ∀ {c value}, HexDigit c value → trim (start ++ c :: tail) ≠ [] := fun hc => by
    rw [htrim hc]
    exact List.append_ne_nil_of_right_ne_nil _ (List.cons_ne_nil _ _)
  rw [List.zipIdx_append, List.zipIdx_cons] at hread ⊢
  cases outcome front with
  | fails before defect hreads =>
    rw [hreads] at hread
    cases hread
  | stops bytes hstops hreads =>
    obtain ⟨line, hline, hstops⟩ := hstops
    exact absurd hstops (hends line hline)
  | goesOn bytes _ hreads =>
    rw [hreads, readLines_of_ne_nil (hsolid hright)] at hread
    rw [hreads, readLines_of_ne_nil (hsolid hwrong), Nat.add_comm front.length]
    obtain ⟨record, hline⟩ :
        ∃ record, Carries SignedDigit (trim (start ++ right :: tail)) record := by
      refine exists_carries_of_not_rejected fun defect hrejected => ?_
      rw [effect_of_rejected (agrees_signedDigit _) hrejected] at hread
      cases hread
    rw [htrim hright] at hline
    obtain ⟨defect, hdefect, hmisread⟩ := misread_of_wrong hline hright hwrong hne
    refine ⟨defect, hdefect, ?_⟩
    rw [htrim hwrong, effect_of_rejected (agrees_signedDigit _) (.inl hmisread)]

end

theorem noticed_of_miswritten {text other : String} {number : Nat} {image : Image}
    (hread : read text = .ok image) (h : Miswritten text other number)
    (hends : ∀ line ∈ (lines text.toList).take (number - 1), ¬Ends SignedDigit (trim line)) :
    Noticed other number := by
  cases h with
  | @mk before after right wrong value error htext hother hright hwrong hne hnumber =>
    obtain ⟨front, start, tail, back, hlength, hlines⟩ := exists_lines_append_cons before after
    have hline := hlines right hright.isBlank_eq
    have hline' := hlines wrong hwrong.isBlank_eq
    rw [hnumber, Nat.add_sub_cancel, htext, hline, List.take_left' hlength] at hends
    rw [read, numberedLines, htext, hline] at hread
    obtain ⟨defect, hdefect, herror⟩ := readLines_of_wrong hread hends hright hwrong hne
    rw [Noticed, read, numberedLines, hother, hline', herror, hlength, ← hnumber]
    rcases hdefect with rfl | rfl
    · exact .inl rfl
    · exact .inr rfl

/-! ### Written files -/

theorem not_ends_of_isData {record : Record} (h : record.IsData) :
    ¬Ends SignedDigit (trim record.text) := by
  intro hends
  have heffect := effect_of_ends (agrees_signedDigit _) hends .empty
  rw [Record.trim_text] at heffect
  have happly := (read_text_bind_apply h.length_le .empty).trans (h.apply_eq .empty)
  cases heffect.symm.trans happly

theorem not_ends_of_mem_take (image : Image) {count : Nat}
    (h : count < (lines (write image).toList).length) :
    ∀ line ∈ (lines (write image).toList).take count, ¬Ends SignedDigit (trim line) := by
  rw [lines_write, List.map_append] at h ⊢
  have hle : count ≤ ((records image).map Record.text).length := by
    rw [List.length_append] at h
    exact Nat.le_of_lt_succ h
  rw [List.take_append_of_le_length hle]
  intro line hline
  obtain ⟨record, hrecord, rfl⟩ := List.mem_map.mp (List.mem_of_mem_take hline)
  exact not_ends_of_isData (isData_of_mem_records image record hrecord)

theorem Miswritten.lt {text other : String} {number : Nat} (h : Miswritten text other number) :
    number - 1 < (lines text.toList).length := by
  cases h with
  | @mk before after right wrong value error htext _ hright _ _ hnumber =>
    obtain ⟨front, start, tail, back, hlength, hlines⟩ := exists_lines_append_cons before after
    rw [htext, hlines right hright.isBlank_eq, List.length_append, List.length_cons, hlength]
    omega

/-- **Wrong digits are noticed.** If any digit of a record that counts, up to the end
record, is replaced by one of another value, the reader rejects the line of the record,
for its length or for its sum. In a written file every digit counts. -/
theorem wrong_digits_are_noticed {other : String} {number : Nat} :
    (∀ text image, read text = .ok image → Miswritten text other number →
      (∀ line ∈ (lines text.toList).take (number - 1), ¬Ends SignedDigit (trim line)) →
        Noticed other number) ∧
      ∀ image, Miswritten (write image) other number → Noticed other number := by
  refine ⟨fun text image => noticed_of_miswritten, fun image h => ?_⟩
  have hfile := readLines_text (records image) .empty 1 (isData_of_mem_records image)
  rw [← numberedLines_write] at hfile
  exact noticed_of_miswritten hfile h (not_ends_of_mem_take image h.lt)

/-- The second digit of an end record behind another, and of one that was written. -/
theorem wrongCounts_are_noticed :
    Noticed ":0100000041BE\n:01000001FF\n" 2 ∧ Noticed ":01000001FF\n" 1 := by
  have hright : HexDigit '0' 0 := .decimal (by decide) (by decide)
  have hwrong : HexDigit '1' 1 := .decimal (by decide) (by decide)
  constructor
  · refine wrong_digits_are_noticed.1 ":0100000041BE\n:00000001FF\n"
      (Image.empty.insert 0x0000 0x41) rfl ?_ ?_
    · exact @Miswritten.mk _ _ _ ":0100000041BE\n:0".toList "000001FF\n".toList _ _ _ _
        (by decide) (by decide) hright hwrong (by decide) (by decide)
    · have hlines : (lines ":0100000041BE\n:00000001FF\n".toList).take 1 =
          [":0100000041BE".toList] := by decide
      rw [hlines, List.forall_mem_singleton]
      exact not_ends_firstLine
  · refine wrong_digits_are_noticed.2 .empty ?_
    exact @Miswritten.mk _ _ _ ":0".toList "000001FF\n".toList _ _ _ _
      (by decide +kernel) (by decide) hright hwrong (by decide) (by decide)

end IntelHex
end Mos6502
