/-
# Words as numbers

Key theorems: `Word.toNat_ofNat`, `Word.toNat_succ`, `Word.toInt_toInt8_ofInt`,
`Word.forall_byte`, `Word.isNegative_iff`, `Word.toNat_displace`.
-/
import Mos6502.Word

namespace Mos6502
namespace Word

theorem toNat_ofNat {number : Nat} (h : number ≤ 0xFFFF) : (UInt16.ofNat number).toNat = number :=
  UInt16.toNat_ofNat_of_lt' (Nat.lt_succ_of_le h)

/-- The word after another has the number after its, unless that is the last. -/
theorem toNat_succ {word : UInt16} (h : word.toNat + 1 ≤ 0xFFFF) :
    (word + 1).toNat = word.toNat + 1 := by
  rw [UInt16.toNat_add, UInt16.toNat_one, Nat.mod_eq_of_lt (Nat.lt_succ_of_le h)]

/-- A byte made from a signed number reads as that number. -/
theorem toInt_toInt8_ofInt {number : Int} (low : -128 ≤ number) (high : number ≤ 127) :
    (UInt8.ofInt number).toInt8.toInt = number := by
  rw [UInt8.ofInt, UInt8.toInt8_ofNat', Int8.toInt_ofNat', Int.bmod_def, Int8.size]
  omega

/-- What holds of the 256 bytes holds of every byte. -/
theorem forall_byte {P : UInt8 → Prop} (h : ∀ n : Fin 256, P (.ofFin n)) (byte : UInt8) : P byte :=
  h byte.toFin

theorem toInt_toInt8 (byte : UInt8) :
    byte.toInt8.toInt = if isNegative byte then (byte.toNat : Int) - 256 else byte.toNat := by
  revert byte
  exact forall_byte (by decide +kernel)

theorem isNegative_iff (byte : UInt8) : isNegative byte = true ↔ 128 ≤ byte.toNat := by
  simp only [isNegative, decide_eq_true_eq, UInt8.le_iff_toNat_le]
  rfl

theorem isNegative_iff_toInt_lt (byte : UInt8) :
    isNegative byte = true ↔ byte.toInt8.toInt < 0 := by
  have hbyte := byte.toNat_lt
  rw [toInt_toInt8]
  split
  case isTrue hnegative =>
    refine iff_of_true hnegative ?_
    omega
  case isFalse hpositive =>
    refine iff_of_false hpositive ?_
    omega

theorem toInt_toInt8_not (byte : UInt8) : (~~~byte).toInt8.toInt = -1 - byte.toInt8.toInt := by
  have hbyte := byte.toNat_lt
  simp only [toInt_toInt8, isNegative_iff, UInt8.toNat_not, UInt8.size]
  omega

/-- A displacement adds a signed number, around the end of the address space. -/
theorem toNat_displace (word : UInt16) (distance : UInt8) :
    ((displace word distance).toNat : Int) = (word.toNat + distance.toInt8.toInt) % 65536 := by
  have hword := word.toNat_lt
  have hdistance := distance.toNat_lt
  rw [toInt_toInt8, displace]
  split
  · simp only [UInt16.toNat_sub, UInt16.toNat_add, UInt8.toNat_toUInt16, UInt16.reduceToNat]
    omega
  · rw [UInt16.toNat_add, UInt8.toNat_toUInt16]
    omega

end Word
end Mos6502
