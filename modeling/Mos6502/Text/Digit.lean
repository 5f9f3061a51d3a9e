/-
# Digits

Numbers are read in any radix up to sixteen, in either case, and written in
upper-case hexadecimal.

Key definitions: `digitValue?`, `positional`, `hexByte`, `hexWord`,
`hexPadded`.
Key theorem: `digitValue?_digit`.
-/
import Mos6502.Word

namespace Mos6502
namespace Text

/-- The digit of a value below sixteen. -/
def digit (value : Nat) : Char :=
  if value < 10 then Char.ofNat (0x30 + value) else Char.ofNat (0x41 + (value - 10))

/-- The value of a digit in a radix, if the character is one. -/
def digitValue? (radix : Nat) (c : Char) : Option Nat :=
  let value :=
    if '0' ≤ c ∧ c ≤ '9' then c.toNat - 0x30
    else if 'A' ≤ c ∧ c ≤ 'Z' then c.toNat - 0x41 + 10
    else if 'a' ≤ c ∧ c ≤ 'z' then c.toNat - 0x61 + 10
    else radix
  if value < radix then some value else none

/-- The number that digits stand for, the first being the highest. -/
def positional (radix : Nat) (digits : List Nat) : Nat :=
  digits.foldl (fun number digit => radix * number + digit) 0

/-- A byte in two hexadecimal digits. -/
def hexByte (byte : UInt8) : List Char := [digit (byte.toNat / 16), digit (byte.toNat % 16)]

/-- A word in four hexadecimal digits. -/
def hexWord (word : UInt16) : List Char := hexByte (Word.high word) ++ hexByte (Word.low word)

/-- Bytes in two hexadecimal digits each. -/
def hexBytes (bytes : List UInt8) : List Char := bytes.flatMap hexByte

/-- A number in hexadecimal, with zeros before it up to a width. -/
def hexPadded (width number : Nat) : List Char :=
  let digits := (Nat.toDigits 16 number).map Char.toUpper
  List.replicate (width - digits.length) '0' ++ digits

/-- A number with its sign, which zero has too. -/
def signed (number : Int) : String :=
  if number < 0 then toString number else "+" ++ toString number

theorem digitValue?_digit {value : Nat} (h : value < 16) :
    digitValue? 16 (digit value) = some value := by
  have : ∀ v : Fin 16, digitValue? 16 (digit v.val) = some v.val := by decide
  exact this ⟨value, h⟩

end Text
end Mos6502
