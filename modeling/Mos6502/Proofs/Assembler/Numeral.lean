/-
# What a numeral stands for

A text is read as a number just when it is a numeral with blanks round it (`IsWritten`):
one or more digits behind the mark of their radix. The number is the positional value of
the digits, however many zeros they begin with, and has to fit in a word. Whether it is
one byte wide is told by the number of the digits, or in decimal by the value.

Key definitions: `Radix.Digits`, `Radix.valueOf`, `Radix.IsByteWide`, `IsWritten`.
Key theorems: `Text.positional_eq_ofDigits`, `Text.digitValue?_eq_some_iff`,
`Number.ofDigits_eq_ok_iff`, `Number.read_eq_ok_iff`, `numerals_stand_for_their_values`.
-/
import Mos6502.Proofs.Assembler.Fields
import Mos6502.Proofs.IntelHex.Spelling
import Mathlib.Data.Nat.Digits.Defs

namespace Mos6502

namespace Text

open IntelHex (HexDigit)

/-- The value of digits has the last of them at its lowest place. -/
theorem positional_eq_ofDigits (radix : Nat) (values : List Nat) :
    positional radix values = Nat.ofDigits radix values.reverse := by
  rw [Nat.ofDigits_eq_foldr, List.foldr_reverse, positional]
  simp only [Nat.cast_id, Nat.add_comm]

/-- The digits of a radix are the hexadecimal digits that are below it. -/
theorem digitValue?_eq_some_iff {radix : Nat} (hradix : radix ≤ 16) {c : Char} {value : Nat} :
    digitValue? radix c = some value ↔ HexDigit c value ∧ value < radix := by
  rw [← IntelHex.digitValue?_eq_some, digitValue?_eq, digitValue?_eq]
  simp only
  split_ifs <;> grind

theorem trim_of_isWord {lead word trail : List Char} (hlead : IsGap lead) (hword : IsWord word)
    (htrail : IsGap trail) : trim (lead ++ word ++ trail) = word := by
  rw [trim, List.append_assoc, trimStart_append_of_isGap hlead, trimStart_append_of_isWord hword,
    trimEnd_append_of_isGap word htrail]
  exact @trimEnd_append [] word hword.ne_nil hword.solid

end Text

namespace Assembler

open Text
open IntelHex (HexDigit)

/-! ### What a numeral is -/

/-- The characters are digits of a radix, in either case, with these values. -/
def Radix.Digits (radix : Radix) (digits : List Char) (values : List Nat) : Prop :=
  List.Forall₂ (fun c value => HexDigit c value ∧ value < radix.base) digits values

/-- The positional value of digits, the first being the highest. -/
def Radix.valueOf (radix : Radix) (values : List Nat) : Nat :=
  Nat.ofDigits radix.base values.reverse

/-- A numeral is one byte wide: it has up to two hexadecimal or eight binary digits, or its
decimal value is that of a byte. -/
def Radix.IsByteWide (radix : Radix) (values : List Nat) : Prop :=
  match radix with
  | .hexadecimal => values.length ≤ 2
  | .binary => values.length ≤ 8
  | .decimal => radix.valueOf values ≤ 0xFF

/-- The text is a numeral with blanks round it, of digits with these values. -/
structure IsWritten (text : List Char) (radix : Radix) (values : List Nat) : Prop where
  /-- The digits stand behind the mark of the radix. -/
  parts : ∃ lead digits trail, text = lead ++ (radix.mark ++ digits) ++ trail ∧ IsGap lead ∧
    IsGap trail ∧ radix.Digits digits values
  ne_nil : values ≠ []

/-! ### Digits -/

theorem Radix.base_le (radix : Radix) : radix.base ≤ 16 := by
  cases radix <;> decide

theorem Radix.mapM_digitValue?_eq_some_iff {radix : Radix} {digits : List Char}
    {values : List Nat} :
    digits.mapM (digitValue? radix.base) = some values ↔ radix.Digits digits values := by
  unfold Digits
  induction digits generalizing values with
  | nil => cases values <;> simp
  | cons c digits ih =>
    simp only [List.mapM_cons, bind, Option.bind_eq_some_iff, ih,
      digitValue?_eq_some_iff radix.base_le]
    cases values with
    | nil => simp
    | cons value values => simp [and_assoc]

theorem Radix.isZeroPage_iff {radix : Radix} {digits : List Char} {values : List Nat}
    (h : radix.Digits digits values) :
    radix.isZeroPage digits.length (radix.valueOf values) = true ↔ radix.IsByteWide values := by
  have hlength : digits.length = values.length := List.Forall₂.length_eq h
  rw [hlength]
  cases radix <;> exact decide_eq_true_iff

/-- The number of digits of a radix, where there are any. -/
def Radix.numberOf (radix : Radix) (digits : List Char) (values : List Nat) : Number :=
  ⟨UInt16.ofNat (radix.valueOf values), radix.isZeroPage digits.length (radix.valueOf values)⟩

namespace Number

/-- **Digits are read as their positional value**, if there are any and it fits in a word. -/
theorem ofDigits_eq_ok_iff {radix : Radix} {digits : List Char} {number : Number} :
    ofDigits radix digits = .ok number ↔
      ∃ values, radix.Digits digits values ∧ values ≠ [] ∧ radix.valueOf values ≤ 0xFFFF ∧
        number = radix.numberOf digits values := by
  simp only [← Radix.mapM_digitValue?_eq_some_iff, Radix.numberOf, Radix.valueOf,
    ← positional_eq_ofDigits]
  unfold ofDigits
  cases hvalues : digits.mapM (digitValue? radix.base) with
  | none => simp
  | some values =>
    cases values with
    | nil => simp
    | cons first rest =>
      by_cases hle : positional radix.base (first :: rest) ≤ 0xFFFF
      · simp [hle, eq_comm]
      · simp [hle]

/-- A text is read as a number just when it is trimmed to digits behind a mark. -/
theorem read_eq_ok_iff {text : List Char} {number : Number} :
    read text = .ok number ↔
      ∃ (radix : Radix) (digits : List Char), trim text = radix.mark ++ digits ∧
        ofDigits radix digits = .ok number := by
  constructor
  · intro h
    unfold read at h
    split at h
    · cases h
    · rename_i digits htrim
      exact ⟨.hexadecimal, digits, htrim, h⟩
    · rename_i digits htrim
      exact ⟨.binary, digits, htrim, h⟩
    · exact ⟨.decimal, trim text, rfl, h⟩
  · rintro ⟨radix, digits, htrim, h⟩
    have hblank : ∀ c ∈ radix.mark ++ digits, isBlank c = false :=
      List.forall_mem_append.mpr ⟨fun c hc => isBlank_of_isPlain (radix.isPlain_of_mem_mark c hc),
        (digits_of_ofDigits h).1⟩
    have hread := read_ofDigits h
    rw [read, trim_eq_self hblank] at hread
    rwa [read, htrim]

end Number

theorem isWritten_iff {text : List Char} {radix : Radix} {values : List Nat} :
    IsWritten text radix values ↔
      ∃ digits, trim text = radix.mark ++ digits ∧ radix.Digits digits values ∧ values ≠ [] := by
  constructor
  · rintro ⟨⟨lead, digits, trail, rfl, hlead, htrail, hdigits⟩, hne⟩
    refine ⟨digits, trim_of_isWord hlead ⟨?_, ?_⟩ htrail, hdigits, hne⟩
    · rintro hnil
      obtain ⟨-, rfl⟩ := List.append_eq_nil_iff.mp hnil
      cases hdigits
      exact hne rfl
    · refine List.forall_mem_append.mpr
        ⟨fun c hc => isBlank_of_isPlain (radix.isPlain_of_mem_mark c hc), fun c hc => ?_⟩
      have hsome := isSome_of_mapM (Radix.mapM_digitValue?_eq_some_iff.mpr hdigits) c hc
      obtain ⟨value, hvalue⟩ := Option.isSome_iff_exists.mp hsome
      exact isBlank_of_isPlain (isPlain_of_digitValue? hvalue)
  · rintro ⟨digits, htrim, hdigits, hne⟩
    obtain ⟨trail, htrail, heq⟩ := exists_trim text
    refine ⟨⟨text.takeWhile isBlank, digits, trail, ?_, isGap_takeWhile text, htrail, hdigits⟩, hne⟩
    rw [← htrim, List.append_assoc, heq]

theorem Radix.eq_numberOf_iff {radix : Radix} {digits : List Char} {values : List Nat}
    (h : radix.Digits digits values) (hle : radix.valueOf values ≤ 0xFFFF) {number : Number} :
    number = radix.numberOf digits values ↔
      number.value.toNat = radix.valueOf values ∧
        (number.zeroPage = true ↔ radix.IsByteWide values) := by
  have hword : (UInt16.ofNat (radix.valueOf values)).toNat = radix.valueOf values :=
    Word.toNat_ofNat hle
  rw [← isZeroPage_iff h, ← Bool.eq_iff_iff]
  obtain ⟨value, zeroPage⟩ := number
  rw [numberOf, Number.mk.injEq, ← UInt16.toNat_inj, hword]

/-- **A text is read as the number of the numeral that it is**, if that fits in a word. -/
theorem Number.read_eq_ok_iff_isWritten {text : List Char} {number : Number} :
    read text = .ok number ↔
      ∃ radix values, IsWritten text radix values ∧ radix.valueOf values ≤ 0xFFFF ∧
        number.value.toNat = radix.valueOf values ∧
        (number.zeroPage = true ↔ radix.IsByteWide values) := by
  simp only [read_eq_ok_iff, ofDigits_eq_ok_iff, isWritten_iff]
  constructor
  · rintro ⟨radix, digits, htrim, values, hdigits, hne, hle, hnumber⟩
    exact ⟨radix, values, ⟨digits, htrim, hdigits, hne⟩, hle,
      (Radix.eq_numberOf_iff hdigits hle).mp hnumber⟩
  · rintro ⟨radix, values, ⟨digits, htrim, hdigits, hne⟩, hle, hnumber⟩
    exact ⟨radix, digits, htrim, values, hdigits, hne, hle,
      (Radix.eq_numberOf_iff hdigits hle).mpr hnumber⟩

theorem Radix.digits_toDigits (n : Nat) :
    Radix.decimal.Digits (Nat.toDigits 10 n)
      ((Nat.toDigits 10 n).map fun c => c.toNat - '0'.toNat) := by
  rw [Radix.Digits, List.forall₂_map_right_iff, List.forall₂_same]
  intro c hc
  have hrange : 48 ≤ c.toNat ∧ c.toNat ≤ 57 :=
    Char.isDigit_iff_toNat.mp (Nat.isDigit_of_mem_toDigits (by decide) (by decide) hc)
  refine ⟨.decimal hrange.1 hrange.2, ?_⟩
  change c.toNat - 48 < 10
  omega

/-- The value of the decimal digits of a number is the number. -/
theorem Radix.valueOf_toDigits (n : Nat) :
    Radix.decimal.valueOf ((Nat.toDigits 10 n).map fun c => c.toNat - '0'.toNat) = n := by
  calc
    _ = Nat.ofDigitChars 10 (Nat.toDigits 10 n) 0 := by
      rw [valueOf, ← positional_eq_ofDigits, positional, List.foldl_map,
        Nat.ofDigitChars_eq_foldl]
      simp only [base, Nat.mul_comm 10]
    _ = n := Nat.ofDigitChars_toDigits (by decide) (by decide)

theorem Number.exists_read_toDigits {n : Nat} (h : n ≤ 0xFFFF) :
    ∃ number, read (Nat.toDigits 10 n) = .ok number ∧ number.value.toNat = n := by
  have hdigits := Radix.digits_toDigits n
  have hvalue := Radix.valueOf_toDigits n
  refine ⟨Radix.decimal.numberOf _ _, read_ofDigits (ofDigits_eq_ok_iff.mpr
    ⟨_, hdigits, by simp, hvalue.trans_le h, rfl⟩), ?_⟩
  rw [Radix.numberOf, hvalue]
  exact Word.toNat_ofNat h

/-- **Numerals stand for their values.** A text is read as a number just when it is one or
more digits of a radix behind its mark, with blanks round them, and their positional value
fits in a word. That is the number, and it is one byte wide just when the numeral is. -/
theorem numerals_stand_for_their_values (text : List Char) :
    ((∃ number, Number.read text = .ok number) ↔
      ∃ radix values, IsWritten text radix values ∧ radix.valueOf values ≤ 0xFFFF) ∧
    ∀ number, Number.read text = .ok number ↔
      ∃ radix values, IsWritten text radix values ∧
        number.value.toNat = radix.valueOf values ∧
        (number.zeroPage = true ↔ radix.IsByteWide values) := by
  refine ⟨⟨fun ⟨number, hread⟩ => ?_, fun ⟨radix, values, hwritten, hle⟩ => ?_⟩, fun number => ?_⟩
  · obtain ⟨radix, values, hwritten, hle, -⟩ := Number.read_eq_ok_iff_isWritten.mp hread
    exact ⟨radix, values, hwritten, hle⟩
  · obtain ⟨digits, -, hdigits, -⟩ := isWritten_iff.mp hwritten
    exact ⟨radix.numberOf digits values, Number.read_eq_ok_iff_isWritten.mpr
      ⟨radix, values, hwritten, hle, (Radix.eq_numberOf_iff hdigits hle).mp rfl⟩⟩
  · rw [Number.read_eq_ok_iff_isWritten]
    constructor
    · rintro ⟨radix, values, hwritten, -, hnumber⟩
      exact ⟨radix, values, hwritten, hnumber⟩
    · -- a number is a word, so that the value fits in one
      rintro ⟨radix, values, hwritten, hvalue, hwidth⟩
      have hle : radix.valueOf values ≤ 0xFFFF :=
        hvalue ▸ Nat.le_of_lt_succ number.value.toNat_lt
      exact ⟨radix, values, hwritten, hle, hvalue, hwidth⟩

/-- Zeros in front make a numeral wider and its number no larger. -/
example : Number.read "\t$000010 ".toList = .ok ⟨0x10, false⟩ ∧
    Number.read "00000000000010".toList = .ok ⟨10, true⟩ := by decide

end Assembler
end Mos6502
