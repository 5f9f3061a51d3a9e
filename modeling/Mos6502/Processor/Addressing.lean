/-
# Operand addresses

From the bytes after an opcode, an addressing mode makes the address of the
operand. Addresses in page zero stay there. Adding an index to a word takes a
cycle when the sum lies on another page, and takes it in any case when the
instruction goes on to write.

Key definitions: `Access`, `Processor.effectiveAddress`, `Processor.operand`.
Key theorem: `Processor.le_cycles_effectiveAddress`.
-/
import Mos6502.AddressingMode
import Mos6502.Processor.Cycle

namespace Mos6502

/-- What an instruction does at its operand's address. -/
inductive Access
  /-- It only reads there. -/
  | read
  /-- It only writes there. -/
  | write
  /-- It reads there and writes the result back. -/
  | modify
  deriving DecidableEq

namespace Processor

universe u

variable {β : Type u}

/-- Two addresses lie on different pages. -/
def crossesPage (start target : UInt16) : Bool := Word.page start != Word.page target

/-- Adds an index to an address. -/
def indexed (p : Processor β) (base : UInt16) (index : UInt8) (access : Access) :
    UInt16 × Processor β :=
  let address := base + index.toUInt16
  (address, if access != .read || crossesPage base address then p.tick else p)

theorem le_cycles_indexed (p : Processor β) (base : UInt16) (index : UInt8) (access : Access) :
    p.cycles ≤ (p.indexed base index access).2.cycles := by
  simp only [indexed]
  split <;> simp

variable [Bus β]

/-- Reads a word from page zero. Its high byte lies in page zero too. -/
def readZeroPageWord (p : Processor β) (pointer : UInt8) : UInt16 × Processor β :=
  let (low, p) := p.readByte pointer.toUInt16
  let (high, p) := p.readByte (pointer + 1).toUInt16
  (Word.ofBytes low high, p)

/-- Reads a word within one page: the byte after the last of a page is the
first of the same page. -/
def readWordInPage (p : Processor β) (pointer : UInt16) : UInt16 × Processor β :=
  let (low, p) := p.readByte pointer
  let (high, p) := p.readByte (Word.ofBytes (Word.low pointer + 1) (Word.high pointer))
  (Word.ofBytes low high, p)

/-- Fetches the bytes after the opcode and makes the operand's address of
them. An immediate operand is its own location. Modes without an operand in
memory take nothing and give the program counter. -/
def effectiveAddress (p : Processor β) (mode : AddressingMode) (access : Access) :
    UInt16 × Processor β :=
  match mode with
  | .immediate => (p.pc, { p with pc := p.pc + 1 })
  | .zeroPage =>
    let (base, p) := p.fetchByte
    (base.toUInt16, p)
  | .zeroPageX =>
    let (base, p) := p.fetchByte
    ((base + p.x).toUInt16, p.tick)
  | .zeroPageY =>
    let (base, p) := p.fetchByte
    ((base + p.y).toUInt16, p.tick)
  | .absolute => p.fetchWord
  | .absoluteX =>
    let (base, p) := p.fetchWord
    p.indexed base p.x access
  | .absoluteY =>
    let (base, p) := p.fetchWord
    p.indexed base p.y access
  | .indirect =>
    let (pointer, p) := p.fetchWord
    p.readWordInPage pointer
  | .indirectX =>
    let (pointer, p) := p.fetchByte
    p.tick.readZeroPageWord (pointer + p.x)
  | .indirectY =>
    let (pointer, p) := p.fetchByte
    let (base, p) := p.readZeroPageWord pointer
    p.indexed base p.y access
  | .implicit | .accumulator | .relative => (p.pc, p)

/-- Reads the operand. -/
def operand (p : Processor β) (mode : AddressingMode) : UInt8 × Processor β :=
  let (address, p) := p.effectiveAddress mode .read
  p.readByte address

/-! ### Time -/

theorem le_cycles_effectiveAddress (p : Processor β) (mode : AddressingMode) (access : Access) :
    p.cycles ≤ (p.effectiveAddress mode access).2.cycles := by
  cases mode with
  | absoluteX =>
    exact Nat.le_trans (Nat.le_add_right _ 2)
      (le_cycles_indexed p.fetchWord.2 p.fetchWord.1 p.x access)
  | absoluteY =>
    exact Nat.le_trans (Nat.le_add_right _ 2)
      (le_cycles_indexed p.fetchWord.2 p.fetchWord.1 p.y access)
  | indirectY => exact Nat.le_trans (Nat.le_add_right _ 3) (le_cycles_indexed
      (p.fetchByte.2.readZeroPageWord p.fetchByte.1).2
      (p.fetchByte.2.readZeroPageWord p.fetchByte.1).1 p.y access)
  | immediate | implicit | accumulator | relative => exact Nat.le_refl _
  | zeroPage => exact Nat.le_add_right _ 1
  | zeroPageX | zeroPageY | absolute => exact Nat.le_add_right _ 2
  | indirect | indirectX => exact Nat.le_add_right _ 4

theorem le_cycles_operand (p : Processor β) (mode : AddressingMode) :
    p.cycles ≤ (p.operand mode).2.cycles :=
  Nat.le_trans (le_cycles_effectiveAddress p mode .read) (Nat.le_add_right _ 1)

end Processor
end Mos6502
