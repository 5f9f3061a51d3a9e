/-
# Records read back

A written record has an even number of digits, as many bytes as its first byte
says and a checksum that brings their sum to zero, so it is read as it was
(`Record.read_text`). Its line has no blanks.

Key theorems: `pairs?_hexBytes`, `sum_append_neg`, `Record.read_text`.
-/
import Mos6502.IntelHex.Record
import Mos6502.Proofs.Text.Digit

namespace Mos6502
namespace IntelHex

open Text

/-! ### Digits -/

theorem pairValue?_hexByte (byte : UInt8) :
    pairValue? (digit (byte.toNat / 16)) (digit (byte.toNat % 16)) = some byte := by
  have hlt := byte.toNat_lt
  have hhigh : byte.toNat / 16 < 16 := by omega
  have hlow : byte.toNat % 16 < 16 := by omega
  have hsign : ∀ v : Fin 16, digit v.val ≠ '+' := by decide
  have hbyte : 16 * (byte.toNat / 16) + byte.toNat % 16 = byte.toNat := by omega
  simp only [pairValue?, if_neg (hsign ⟨_, hhigh⟩), digitValue?_digit hhigh, digitValue?_digit hlow,
    hbyte, UInt8.ofNat_toNat]

theorem pairs?_hexBytes (bytes : List UInt8) : pairs? (hexBytes bytes) = some bytes := by
  induction bytes with
  | nil => rfl
  | cons byte bytes ih =>
    show pairs? (digit (byte.toNat / 16) :: digit (byte.toNat % 16) :: hexBytes bytes) = _
    simp only [pairs?, pairValue?_hexByte, ih]

/-! ### Checksums -/

theorem foldl_add_eq (bytes : List UInt8) (start : UInt8) :
    bytes.foldl (· + ·) start = start + sum bytes := by
  unfold sum
  induction bytes generalizing start with
  | nil => exact (UInt8.add_zero start).symm
  | cons byte bytes ih =>
    rw [List.foldl_cons, List.foldl_cons, ih, ih (0 + byte), UInt8.zero_add, UInt8.add_assoc]

theorem sum_append (first second : List UInt8) : sum (first ++ second) = sum first + sum second := by
  unfold sum
  rw [List.foldl_append, foldl_add_eq second]
  rfl

theorem sum_append_neg (bytes : List UInt8) : sum (bytes ++ [-sum bytes]) = 0 := by
  have hlast : sum [-sum bytes] = -sum bytes := UInt8.zero_add _
  rw [sum_append, hlast, UInt8.add_right_neg]

/-! ### Lines -/

namespace Record

theorem ofBytes_body {record : Record} (h : record.data.length ≤ 0xFF) :
    ofBytes (record.body ++ [-sum record.body]) = .ok record := by
  have hcount : (UInt8.ofNat record.data.length).toNat = record.data.length :=
    UInt8.toNat_ofNat_of_lt' (Nat.lt_succ_of_le h)
  have hsum := sum_append_neg record.body
  generalize -sum record.body = check at hsum ⊢
  simp only [body, List.cons_append] at hsum ⊢
  simp only [ofBytes, hsum, hcount, List.length_append, List.length_singleton, if_true,
    List.dropLast_concat, Word.ofBytes_low_high]

/-- **A written record is read as it was.** -/
theorem read_text {record : Record} (h : record.data.length ≤ 0xFF) :
    read record.text = .ok record := by
  unfold read text
  simp only [pairs?_hexBytes, ofBytes_body h]

theorem isBlank_of_mem_text {record : Record} {c : Char} (h : c ∈ record.text) :
    isBlank c = false := by
  rcases List.mem_cons.mp h with rfl | h
  · decide
  · exact isBlank_of_mem_hexBytes h

theorem trim_text (record : Record) : trim record.text = record.text :=
  trim_eq_self fun _ => isBlank_of_mem_text

theorem lineFeed_notMem_text (record : Record) : '\n' ∉ record.text := by
  intro h
  have hblank := isBlank_of_mem_text h
  revert hblank
  decide

theorem getLast?_text_ne (record : Record) : record.text.getLast? ≠ some '\r' := by
  intro h
  have hblank := isBlank_of_mem_text (List.mem_of_getLast? h)
  revert hblank
  decide

theorem text_ne_nil (record : Record) : record.text ≠ [] := List.cons_ne_nil _ _

end Record
end IntelHex
end Mos6502
