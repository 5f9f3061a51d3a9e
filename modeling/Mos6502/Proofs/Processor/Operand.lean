/-
# Where an operand lies

An addressing mode is a function of the index registers and of what the bus reads
as; it needs no cycles to be told (`operandAddress`). To make the address the
processor fetches the bytes that the mode takes, spends cycles and does nothing
else (`effectiveAddress_eq`). The operand of a branch is a distance
(`branch_eq`).

Key definitions: `Bus.word`, `operandAddress`, `AddressingMode.fetchedBytes`.
Key theorems: `effectiveAddress_eq`, `operand_eq`, `branch_eq`.
-/
import Mos6502.Processor.Instruction

namespace Mos6502

universe u

namespace Bus

variable {β : Type u} [Bus β]

/-- The word at an address, low byte first. -/
def word (bus : β) (address : UInt16) : UInt16 :=
  Word.ofBytes (read bus address) (read bus (address + 1))

/-- The word at a place in page zero. The byte after the last of the page is its
first. -/
def zeroPageWord (bus : β) (pointer : UInt8) : UInt16 :=
  Word.ofBytes (read bus pointer.toUInt16) (read bus (pointer + 1).toUInt16)

/-- The word at an address, both bytes of which lie on one page. The byte after
the last of the page is its first. -/
def wordInPage (bus : β) (address : UInt16) : UInt16 :=
  Word.ofBytes (read bus address)
    (read bus (Word.ofBytes (Word.low address + 1) (Word.high address)))

end Bus

/-- The bytes that are fetched to make the address of an operand. A distance is
left for the branch to fetch. -/
def AddressingMode.fetchedBytes : AddressingMode → UInt16
  | .implicit | .accumulator | .relative => 0
  | .immediate | .zeroPage | .zeroPageX | .zeroPageY | .indirectX | .indirectY => 1
  | .absolute | .absoluteX | .absoluteY | .indirect => 2

namespace Processor

variable {β : Type u}

theorem indexed_eq (p : Processor β) (base : UInt16) (index : UInt8) (access : Access) :
    p.indexed base index access = (base + index.toUInt16,
      { p with cycles := (p.indexed base index access).2.cycles }) := by
  unfold indexed
  by_cases h : (access != .read || crossesPage base (base + index.toUInt16)) = true
  · simp only [h, if_true]
    rfl
  · simp only [h, if_false, Bool.false_eq_true]

variable [Bus β]

/-- The address of the operand in a mode, where the bytes after the opcode begin at
an address. An immediate operand lies there itself. -/
def operandAddress (p : Processor β) (operand : UInt16) : AddressingMode → UInt16
  | .implicit | .accumulator | .relative | .immediate => operand
  | .zeroPage => (Bus.read p.bus operand).toUInt16
  | .zeroPageX => (Bus.read p.bus operand + p.x).toUInt16
  | .zeroPageY => (Bus.read p.bus operand + p.y).toUInt16
  | .absolute => Bus.word p.bus operand
  | .absoluteX => Bus.word p.bus operand + p.x.toUInt16
  | .absoluteY => Bus.word p.bus operand + p.y.toUInt16
  | .indirect => Bus.wordInPage p.bus (Bus.word p.bus operand)
  | .indirectX => Bus.zeroPageWord p.bus (Bus.read p.bus operand + p.x)
  | .indirectY => Bus.zeroPageWord p.bus (Bus.read p.bus operand) + p.y.toUInt16

theorem fetchWord_eq (p : Processor β) :
    p.fetchWord = (Bus.word p.bus p.pc, { p with pc := p.pc + 2, cycles := p.cycles + 2 }) := by
  have hpc : p.pc + 1 + 1 = p.pc + 2 := by grind
  simp only [fetchWord, fetchByte, readByte, tick, hpc, Bus.word]

/-- **Making an address fetches the bytes of its mode**, takes time and does
nothing else. -/
theorem effectiveAddress_eq (p : Processor β) (mode : AddressingMode) (access : Access) :
    p.effectiveAddress mode access = (p.operandAddress p.pc mode,
      { p with
        pc := p.pc + mode.fetchedBytes
        cycles := (p.effectiveAddress mode access).2.cycles }) := by
  cases mode with
  | implicit | accumulator | relative =>
    have hpc : p.pc + 0 = p.pc := by grind
    simp only [effectiveAddress, operandAddress, AddressingMode.fetchedBytes, hpc]
  | immediate | zeroPage | zeroPageX | zeroPageY | indirectX => rfl
  | absolute =>
    simp only [effectiveAddress, fetchWord_eq]
    rfl
  | absoluteX | absoluteY =>
    simp only [effectiveAddress, fetchWord_eq]
    rw [indexed_eq]
    rfl
  | indirect =>
    simp only [effectiveAddress, fetchWord_eq]
    rfl
  | indirectY =>
    simp only [effectiveAddress]
    rw [indexed_eq]
    rfl

theorem fst_effectiveAddress (p : Processor β) (mode : AddressingMode) (access : Access) :
    (p.effectiveAddress mode access).1 = p.operandAddress p.pc mode :=
  congrArg Prod.fst (effectiveAddress_eq p mode access)

theorem operandAddress_fetchByte (p : Processor β) (operand : UInt16) (mode : AddressingMode) :
    p.fetchByte.2.operandAddress operand mode = p.operandAddress operand mode := by
  cases mode <;> rfl

/-- Reading an operand does no more than to make its address, but for a cycle. -/
theorem operand_eq (p : Processor β) (mode : AddressingMode) :
    p.operand mode = (Bus.read p.bus (p.operandAddress p.pc mode),
      { p with
        pc := p.pc + mode.fetchedBytes
        cycles := (p.operand mode).2.cycles }) := by
  simp only [operand]
  rw [effectiveAddress_eq]
  rfl

theorem branch_eq (p : Processor β) (flag : Flag) (value : Bool) :
    p.branch flag value = { p with
      pc :=
        if p.status.get flag = value then Word.displace (p.pc + 1) (Bus.read p.bus p.pc)
        else p.pc + 1
      cycles := (p.branch flag value).cycles } := by
  have hstatus : p.fetchByte.2.status = p.status := rfl
  simp only [branch, hstatus]
  by_cases hflag : p.status.get flag = value
  · simp only [hflag, if_true]
    split <;> rfl
  · simp only [hflag, if_false]
    rfl

end Processor
end Mos6502
