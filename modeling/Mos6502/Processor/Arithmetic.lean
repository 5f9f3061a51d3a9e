/-
# Arithmetic of the accumulator

Sums and differences of bytes with carry, in binary and in decimal. A
decimal byte holds two digits of four bits each. Sums of bytes that are no
decimal numbers come out as the digit adders leave them.

Key definitions: `Sum`, `addBinary`, `subtractBinary`, `addDecimal`,
`subtractDecimal`, `Shift.apply`.
-/
import Mos6502.Word

namespace Mos6502

/-- What an adder puts out. -/
structure Sum where
  value : UInt8
  /-- The carry out, which is the inverse of a borrow. -/
  carry : Bool
  /-- The sum of the operands as signed numbers left the signed range. -/
  overflow : Bool
  deriving DecidableEq

/-- The sum of two bytes and the carry in. The signed sum overflows when both
operands have one sign and the sum has the other. -/
def addBinary (a m : UInt8) (carry : Bool) : Sum :=
  let total := a.toNat + m.toNat + carry.toNat
  let value := UInt8.ofNat total
  { value
    carry := decide (255 < total)
    overflow := isNegative a == isNegative m && isNegative value != isNegative a }

/-- The difference of two bytes is the sum with the complement. -/
def subtractBinary (a m : UInt8) (carry : Bool) : Sum := addBinary a (~~~m) carry

/-- The sum of two decimal bytes and the carry in. A digit sum above nine is
corrected by six, the high one after the overflow was taken. -/
def addDecimal (a m : UInt8) (carry : Bool) : Sum :=
  let units := a.toNat % 16 + m.toNat % 16 + carry.toNat
  let low := if 9 < units then units + 6 else units
  let tens := a.toNat / 16 + m.toNat / 16 + (if 15 < low then 1 else 0)
  let high := if 9 < tens then tens + 6 else tens
  let half := UInt8.ofNat (16 * tens + low % 16)
  { value := UInt8.ofNat (16 * high + low % 16)
    carry := decide (15 < high)
    overflow := isNegative a == isNegative m && isNegative half != isNegative a }

/-- The difference of two decimal bytes less the borrow in. A negative digit
is corrected by six. Carry and overflow are those of the binary difference. -/
def subtractDecimal (a m : UInt8) (carry : Bool) : Sum :=
  let borrow : Int := if carry then 0 else 1
  let binary := subtractBinary a m carry
  let units := (a.toNat % 16 : Int) - (m.toNat % 16 : Int) - borrow
  let tens := (a.toNat / 16 : Int) - (m.toNat / 16 : Int)
  let low := if units < 0 then units - 6 else units
  let high := if units < 0 then tens - 1 else tens
  let high := if high < 0 then high - 6 else high
  { binary with value := UInt8.ofInt (16 * high + low % 16) }

/-- A way to move the bits of a byte by one place. -/
inductive Shift
  /-- Up, with a zero coming in. -/
  | asl
  /-- Down, with a zero coming in. -/
  | lsr
  /-- Up, with the carry coming in. -/
  | rol
  /-- Down, with the carry coming in. -/
  | ror
  deriving DecidableEq

/-- The moved byte, and the bit that fell out. -/
def Shift.apply (shift : Shift) (value : UInt8) (carry : Bool) : UInt8 × Bool :=
  match shift with
  | .asl => (value * 2, isNegative value)
  | .lsr => (value / 2, value % 2 == 1)
  | .rol => (value * 2 + (if carry then 1 else 0), isNegative value)
  | .ror => (value / 2 + (if carry then 0x80 else 0), value % 2 == 1)

/-- A way to combine two bytes bit by bit. -/
inductive Logic
  | and
  | or
  | exclusiveOr
  deriving DecidableEq

/-- The combined byte. -/
def Logic.apply : Logic → UInt8 → UInt8 → UInt8
  | .and, a, m => a &&& m
  | .or, a, m => a ||| m
  | .exclusiveOr, a, m => a ^^^ m

/-- A way to count by one. -/
inductive Count
  | up
  | down
  deriving DecidableEq

/-- The next byte, around the end. -/
def Count.apply : Count → UInt8 → UInt8
  | .up, value => value + 1
  | .down, value => value - 1

end Mos6502
