/-
# Bus cycles

The processor does one thing a cycle: it reads a byte, writes a byte or works
inside. Instructions are made of these, so their time is the number of cycles
they are made of and is written down nowhere.

Key definitions: `Processor.tick`, `Processor.readByte`,
`Processor.writeByte`, `Processor.fetchByte`, `Processor.push`,
`Processor.pull`.
Key theorem: `Processor.cycles_readByte`.
-/
import Mos6502.Processor.Basic

namespace Mos6502
namespace Processor

universe u

variable {β : Type u}

/-- A cycle without an access. -/
@[inline]
def tick (p : Processor β) : Processor β := { p with cycles := p.cycles + 1 }

@[simp]
theorem cycles_tick (p : Processor β) : p.tick.cycles = p.cycles + 1 := rfl

variable [Bus β]

/-- A cycle that reads a byte. -/
@[inline]
def readByte (p : Processor β) (address : UInt16) : UInt8 × Processor β :=
  (Bus.read p.bus address, p.tick)

/-- A cycle that writes a byte. -/
@[inline]
def writeByte (p : Processor β) (address : UInt16) (value : UInt8) : Processor β :=
  { p.tick with bus := Bus.write p.bus address value }

/-- Reads a word, low byte first. -/
@[inline]
def readWord (p : Processor β) (address : UInt16) : UInt16 × Processor β :=
  let (low, p) := p.readByte address
  let (high, p) := p.readByte (address + 1)
  (Word.ofBytes low high, p)

/-- Reads the byte at the program counter and moves past it. -/
@[inline]
def fetchByte (p : Processor β) : UInt8 × Processor β :=
  let (value, p) := p.readByte p.pc
  (value, { p with pc := p.pc + 1 })

/-- Reads the word at the program counter and moves past it. -/
def fetchWord (p : Processor β) : UInt16 × Processor β :=
  let (low, p) := p.fetchByte
  let (high, p) := p.fetchByte
  (Word.ofBytes low high, p)

/-- The address in page one that a stack pointer stands for. -/
def stackAddress (sp : UInt8) : UInt16 := 0x0100 + sp.toUInt16

/-- Writes a byte to the stack; the stack pointer then goes down. -/
@[inline]
def push (p : Processor β) (value : UInt8) : Processor β :=
  let p := p.writeByte (stackAddress p.sp) value
  { p with sp := p.sp - 1 }

/-- Pushes a word, high byte first, so that it lies in memory low byte first. -/
def pushWord (p : Processor β) (value : UInt16) : Processor β :=
  (p.push (Word.high value)).push (Word.low value)

/-- The stack pointer goes up; a byte is then read from the stack. -/
@[inline]
def pull (p : Processor β) : UInt8 × Processor β :=
  let p := { p with sp := p.sp + 1 }
  p.readByte (stackAddress p.sp)

/-- Pulls a word, low byte first. -/
def pullWord (p : Processor β) : UInt16 × Processor β :=
  let (low, p) := p.pull
  let (high, p) := p.pull
  (Word.ofBytes low high, p)

/-! ### Time -/

@[simp]
theorem cycles_readByte (p : Processor β) (address : UInt16) :
    (p.readByte address).2.cycles = p.cycles + 1 := rfl

@[simp]
theorem cycles_writeByte (p : Processor β) (address : UInt16) (value : UInt8) :
    (p.writeByte address value).cycles = p.cycles + 1 := rfl

@[simp]
theorem cycles_readWord (p : Processor β) (address : UInt16) :
    (p.readWord address).2.cycles = p.cycles + 2 := rfl

@[simp]
theorem cycles_fetchByte (p : Processor β) : p.fetchByte.2.cycles = p.cycles + 1 := rfl

@[simp]
theorem cycles_fetchWord (p : Processor β) : p.fetchWord.2.cycles = p.cycles + 2 := rfl

@[simp]
theorem cycles_push (p : Processor β) (value : UInt8) : (p.push value).cycles = p.cycles + 1 := rfl

@[simp]
theorem cycles_pushWord (p : Processor β) (value : UInt16) :
    (p.pushWord value).cycles = p.cycles + 2 := rfl

@[simp]
theorem cycles_pull (p : Processor β) : p.pull.2.cycles = p.cycles + 1 := rfl

@[simp]
theorem cycles_pullWord (p : Processor β) : p.pullWord.2.cycles = p.cycles + 2 := rfl

end Processor
end Mos6502
