/-
# The processor

Registers, flags, the cycle counter, the two interrupt lines and the bus.
A reset loads the program counter from the reset vector and brings all else
but the bus to its power-on value.

Key definitions: `Processor`, `Processor.powerOn`, `Processor.reset`,
`Processor.setRegister`.
Key theorem: `Processor.byte_setByte`.
-/
import Mos6502.Bus
import Mos6502.Register
import Mos6502.Status

namespace Mos6502

universe u

/-- Where the address of the handler of a non-maskable interrupt is stored. -/
def nmiVector : UInt16 := 0xFFFA

/-- Where the address of the first instruction is stored. -/
def resetVector : UInt16 := 0xFFFC

/-- Where the address of the handler of interrupt requests and breaks is stored. -/
def irqVector : UInt16 := 0xFFFE

/-- The state of a processor on a bus. -/
structure Processor (β : Type u) where
  a : UInt8
  x : UInt8
  y : UInt8
  /-- The stack pointer, an offset into page one. -/
  sp : UInt8
  /-- The address of the next instruction. -/
  pc : UInt16
  status : Status
  /-- The cycles spent since the reset. -/
  cycles : Nat
  /-- An interrupt request waits for the next step. -/
  irqPending : Bool
  /-- A non-maskable interrupt waits for the next step. -/
  nmiPending : Bool
  bus : β

/-- A value was given to a register that cannot hold it. -/
structure RegisterError where
  register : Register
  value : UInt16
  deriving DecidableEq

namespace Processor

variable {β : Type u}

def byte (p : Processor β) : ByteRegister → UInt8
  | .a => p.a
  | .x => p.x
  | .y => p.y
  | .sp => p.sp

/-- The processor with one byte register changed. -/
def setByte (p : Processor β) (register : ByteRegister) (value : UInt8) : Processor β :=
  match register with
  | .a => { p with a := value }
  | .x => { p with x := value }
  | .y => { p with y := value }
  | .sp => { p with sp := value }

def register (p : Processor β) : Register → UInt16
  | .byte r => (p.byte r).toUInt16
  | .pc => p.pc

/-- Gives a register a value, unless it is too large. -/
def setRegister (p : Processor β) (register : Register) (value : UInt16) :
    Except RegisterError (Processor β) :=
  if register.limit < value then .error ⟨register, value⟩
  else
    match register with
    | .byte r => .ok (p.setByte r value.toUInt8)
    | .pc => .ok { p with pc := value }

/-- The processor with one flag changed. -/
def setFlag (p : Processor β) (flag : Flag) (value : Bool) : Processor β :=
  { p with status := p.status.set flag value }

/-- Z and N describe a result. -/
def note (p : Processor β) (result : UInt8) : Processor β :=
  { p with status := p.status.ofResult result }

/-- Raises the interrupt request line. -/
def requestIrq (p : Processor β) : Processor β := { p with irqPending := true }

/-- Drops an interrupt request that waits. -/
def clearIrq (p : Processor β) : Processor β := { p with irqPending := false }

/-- Latches a non-maskable interrupt. -/
def requestNmi (p : Processor β) : Processor β := { p with nmiPending := true }

@[simp]
theorem byte_setByte (p : Processor β) (r s : ByteRegister) (value : UInt8) :
    (p.setByte r value).byte s = if r = s then value else p.byte s := by
  cases r <;> cases s <;> rfl

@[simp]
theorem cycles_setByte (p : Processor β) (r : ByteRegister) (value : UInt8) :
    (p.setByte r value).cycles = p.cycles := by
  cases r <;> rfl

@[simp]
theorem bus_setByte (p : Processor β) (r : ByteRegister) (value : UInt8) :
    (p.setByte r value).bus = p.bus := by
  cases r <;> rfl

@[simp]
theorem cycles_note (p : Processor β) (result : UInt8) : (p.note result).cycles = p.cycles := rfl

@[simp]
theorem cycles_setFlag (p : Processor β) (flag : Flag) (value : Bool) :
    (p.setFlag flag value).cycles = p.cycles := rfl

/-! ### Reset -/

variable [Bus β]

/-- Starts over on the same bus: power-on registers and flags, no waiting
interrupt, no cycles spent, and the address from the reset vector. -/
def reset (p : Processor β) : Processor β where
  a := 0
  x := 0
  y := 0
  sp := 0xFD
  pc := Word.ofBytes (Bus.read p.bus resetVector) (Bus.read p.bus (resetVector + 1))
  status := .reset
  cycles := 0
  irqPending := false
  nmiPending := false
  bus := p.bus

/-- A processor that has just been reset on a bus. -/
def powerOn (bus : β) : Processor β :=
  reset ⟨0, 0, 0, 0xFD, 0, .reset, 0, false, false, bus⟩

end Processor
end Mos6502
