/-
# The status register

Seven flags, packed into a byte as `NV-BDIZC`. Bit 5 stores nothing and reads
as one.

Key definitions: `Flag`, `Flag.mask`, `Status`, `Status.toByte`,
`Status.ofByte`, `Status.ofResult`.
Key theorems: `Status.ofByte_toByte`, `Status.get_set`.
-/
import Mos6502.Word

namespace Mos6502

/-- A flag of the status register. -/
inductive Flag
  /-- Carry. -/
  | c
  /-- Zero. -/
  | z
  /-- Interrupt disable. -/
  | i
  /-- Decimal mode. -/
  | d
  /-- Break. -/
  | b
  /-- Overflow. -/
  | v
  /-- Negative. -/
  | n
  deriving DecidableEq

namespace Flag

/-- Every flag, from the lowest bit of the status byte to the highest. -/
def all : List Flag := [.c, .z, .i, .d, .b, .v, .n]

/-- The bit of the status byte that holds a flag. -/
def mask : Flag → UInt8
  | .c => 0x01
  | .z => 0x02
  | .i => 0x04
  | .d => 0x08
  | .b => 0x10
  | .v => 0x40
  | .n => 0x80

/-- The letter a flag goes by. -/
def name : Flag → String
  | .c => "C"
  | .z => "Z"
  | .i => "I"
  | .d => "D"
  | .b => "B"
  | .v => "V"
  | .n => "N"

end Flag

/-- The flags of a processor. -/
@[ext]
structure Status where
  /-- The last result was negative. -/
  n : Bool
  /-- The last sum left the signed range. -/
  v : Bool
  /-- A break instruction is being served. -/
  b : Bool
  /-- Sums are decimal. -/
  d : Bool
  /-- Interrupt requests are masked. -/
  i : Bool
  /-- The last result was zero. -/
  z : Bool
  /-- Carry out of the last sum or shift. -/
  c : Bool
  deriving DecidableEq

namespace Status

/-- Bit 5 of the status byte, which reads as one. -/
def unusedMask : UInt8 := 0x20

/-- The flags after a reset: interrupts are masked, all else is clear. -/
def reset : Status := ⟨false, false, false, false, true, false, false⟩

/-- The value of a flag. -/
def get (s : Status) : Flag → Bool
  | .c => s.c
  | .z => s.z
  | .i => s.i
  | .d => s.d
  | .b => s.b
  | .v => s.v
  | .n => s.n

/-- The status with one flag changed. -/
def set (s : Status) (flag : Flag) (value : Bool) : Status :=
  match flag with
  | .c => { s with c := value }
  | .z => { s with z := value }
  | .i => { s with i := value }
  | .d => { s with d := value }
  | .b => { s with b := value }
  | .v => { s with v := value }
  | .n => { s with n := value }

/-- The packed status byte. -/
def toByte (s : Status) : UInt8 :=
  Flag.all.foldl (fun byte flag => if s.get flag then byte ||| flag.mask else byte) unusedMask

/-- The flags that a status byte holds. -/
def ofByte (byte : UInt8) : Status where
  n := byte &&& Flag.n.mask != 0
  v := byte &&& Flag.v.mask != 0
  b := byte &&& Flag.b.mask != 0
  d := byte &&& Flag.d.mask != 0
  i := byte &&& Flag.i.mask != 0
  z := byte &&& Flag.z.mask != 0
  c := byte &&& Flag.c.mask != 0

/-- The status after a result: Z and N describe it, the other flags stay. -/
def ofResult (s : Status) (result : UInt8) : Status :=
  { s with z := result == 0, n := isNegative result }

/-- A byte pulled from the stack sets every flag but B, which has no storage
on the chip and stays as it is. -/
def restore (s : Status) (byte : UInt8) : Status := { ofByte byte with b := s.b }

/-- The byte an interrupt stacks: B reads as zero. -/
def interruptByte (s : Status) : UInt8 := { s with b := false }.toByte

/-- The byte that BRK and PHP stack: B reads as one. -/
def breakByte (s : Status) : UInt8 := { s with b := true }.toByte

@[simp]
theorem get_set (s : Status) (f g : Flag) (value : Bool) :
    (s.set f value).get g = if f = g then value else s.get g := by
  cases f <;> cases g <;> rfl

/-- Packing and unpacking the flags gives them back. -/
@[simp]
theorem ofByte_toByte (s : Status) : ofByte s.toByte = s := by
  obtain ⟨n, v, b, d, i, z, c⟩ := s
  revert n v b d i z c
  decide

end Status
end Mos6502
