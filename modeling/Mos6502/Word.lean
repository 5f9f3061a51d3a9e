/-
# Bytes and address words

An address is a 16-bit word made of a low and a high byte, and lies on the
page its high byte names. A byte read as a signed number is a displacement.
All sums wrap at the end of the address space.

Key definitions: `Word.ofBytes`, `Word.low`, `Word.high`, `Word.page`,
`Word.displace`.
Key theorem: `Word.ofBytes_low_high`.
-/

namespace Mos6502

/-- A byte is negative when its top bit is set. -/
def isNegative (byte : UInt8) : Bool := 0x80 ≤ byte

namespace Word

/-- The word with the given low and high byte. -/
def ofBytes (low high : UInt8) : UInt16 := low.toUInt16 + high.toUInt16 * 256

def low (word : UInt16) : UInt8 := word.toUInt8

def high (word : UInt16) : UInt8 := (word / 256).toUInt8

/-- The number of the 256-byte page an address lies on. -/
def page (address : UInt16) : UInt16 := address / 256

/-- The word at the distance that a byte gives when read as a signed number. -/
def displace (word : UInt16) (distance : UInt8) : UInt16 :=
  if isNegative distance then word + distance.toUInt16 - 256 else word + distance.toUInt16

theorem toNat_ofBytes (lo hi : UInt8) : (ofBytes lo hi).toNat = lo.toNat + 256 * hi.toNat := by
  have h1 := lo.toNat_lt
  have h2 := hi.toNat_lt
  simp only [ofBytes, UInt16.toNat_add, UInt16.toNat_mul, UInt8.toNat_toUInt16,
    UInt16.reduceToNat]
  omega

theorem toNat_low (word : UInt16) : (low word).toNat = word.toNat % 256 := by
  simp [low]

theorem toNat_high (word : UInt16) : (high word).toNat = word.toNat / 256 := by
  have := word.toNat_lt
  simp only [high, UInt16.toNat_toUInt8, UInt16.toNat_div, UInt16.reduceToNat]
  omega

theorem toNat_page (address : UInt16) : (page address).toNat = address.toNat / 256 := by
  simp [page]

@[simp]
theorem ofBytes_low_high (word : UInt16) : ofBytes (low word) (high word) = word := by
  apply UInt16.toNat.inj
  rw [toNat_ofBytes, toNat_low, toNat_high]
  omega

@[simp]
theorem low_ofBytes (lo hi : UInt8) : low (ofBytes lo hi) = lo := by
  apply UInt8.toNat.inj
  rw [toNat_low, toNat_ofBytes]
  have := lo.toNat_lt
  omega

@[simp]
theorem high_ofBytes (lo hi : UInt8) : high (ofBytes lo hi) = hi := by
  apply UInt8.toNat.inj
  rw [toNat_high, toNat_ofBytes]
  have := lo.toNat_lt
  omega

end Word
end Mos6502
