/-
# The time of an instruction

The processor counts a cycle for whatever it does, and the table of opcodes
gives each instruction its cycles. The two agree: an instruction takes the
cycles of its row, one or two more for a branch that is taken, and one more
when an instruction that reads adds an index across the end of a page.

The cycles of an addressing mode and of an operation are found first, from
what the processor does (`addressCycles`, `Operation.cycles`), and then
compared with the table (`baseCycles_eq`).

Key definitions: `indexing?`, `branchCycles`, `extraCycles`,
`AddressingMode.addressCycles`, `Operation.cycles`.
Key theorems: `cycles_effectiveAddress_read`, `cycles_perform`, `cycles_step`.
-/
import Mos6502.Memory
import Mos6502.Proofs.Processor.Step
import Mos6502.Proofs.Table

namespace Mos6502

universe u

/-! ### What the law says -/

namespace Mnemonic

/-- The flag that a conditional branch looks at, and the value it looks for. -/
def condition? : Mnemonic → Option (Flag × Bool)
  | .bcc => some (.c, false)
  | .bcs => some (.c, true)
  | .bne => some (.z, false)
  | .beq => some (.z, true)
  | .bpl => some (.n, false)
  | .bmi => some (.n, true)
  | .bvc => some (.v, false)
  | .bvs => some (.v, true)
  | _ => none

/-- The instructions that read an operand which may be indexed by a word. -/
def reading : List Mnemonic := [.adc, .and, .cmp, .eor, .lda, .ldx, .ldy, .ora, .sbc]

end Mnemonic

namespace Processor

variable {β : Type u} [Bus β]

/-- The base and the indexed address in a mode that adds an index to a word,
where the bytes after the opcode begin at an address. -/
def indexing? (p : Processor β) (operand : UInt16) : AddressingMode → Option (UInt16 × UInt16)
  | .absoluteX =>
    let base := Word.ofBytes (Bus.read p.bus operand) (Bus.read p.bus (operand + 1))
    some (base, base + p.x.toUInt16)
  | .absoluteY =>
    let base := Word.ofBytes (Bus.read p.bus operand) (Bus.read p.bus (operand + 1))
    some (base, base + p.y.toUInt16)
  | .indirectY =>
    let pointer := Bus.read p.bus operand
    let base := Word.ofBytes (Bus.read p.bus pointer.toUInt16) (Bus.read p.bus (pointer + 1).toUInt16)
    some (base, base + p.y.toUInt16)
  | _ => none

/-- Cycles for an index across the end of a page. -/
def crossingCycles (p : Processor β) (operand : UInt16) (mode : AddressingMode) : Nat :=
  match p.indexing? operand mode with
  | none => 0
  | some (base, address) => if Word.page base = Word.page address then 0 else 1

/-- Cycles for a branch that is taken: one within the page of the instruction
after it, two to another page. -/
def branchCycles (p : Processor β) (operand : UInt16) (flag : Flag) (value : Bool) : Nat :=
  let next := operand + 1
  let target := Word.displace next (Bus.read p.bus operand)
  if p.status.get flag ≠ value then 0
  else if Word.page next = Word.page target then 1 else 2

/-- The cycles that the instruction at the program counter takes beyond those
of its opcode. -/
def extraCycles (p : Processor β) (op : Opcode) : Nat :=
  match op.mnemonic.condition? with
  | some (flag, value) => p.branchCycles (p.pc + 1) flag value
  | none => if op.mnemonic ∈ Mnemonic.reading then p.crossingCycles (p.pc + 1) op.mode else 0

end Processor

/-! ### Addressing -/

namespace AddressingMode

/-- The cycles in which a mode makes its address, up to the sum with an index. -/
def addressCycles : AddressingMode → Nat
  | .implicit | .accumulator | .relative | .immediate => 0
  | .zeroPage => 1
  | .zeroPageX | .zeroPageY | .absolute | .absoluteX | .absoluteY => 2
  | .indirectY => 3
  | .indirect | .indirectX => 4

/-- The cycle that a mode with an index takes in any case when the instruction
writes. -/
def indexCycles : AddressingMode → Nat
  | .absoluteX | .absoluteY | .indirectY => 1
  | _ => 0

end AddressingMode

namespace Processor

variable {β : Type u}

theorem cycles_indexed_read (p : Processor β) (base : UInt16) (index : UInt8) :
    (p.indexed base index .read).2.cycles =
      p.cycles + if Word.page base = Word.page (base + index.toUInt16) then 0 else 1 := by
  unfold indexed crossesPage
  by_cases h : Word.page base = Word.page (base + index.toUInt16)
  · simp [h]
  · simp [h]

theorem cycles_indexed_of_ne (p : Processor β) (base : UInt16) (index : UInt8) {access : Access}
    (h : access ≠ .read) : (p.indexed base index access).2.cycles = p.cycles + 1 := by
  unfold indexed
  simp [h]

theorem cycles_transfer (p : Processor β) (source target : ByteRegister) :
    (p.transfer source target).cycles = p.cycles + 1 := by
  unfold transfer
  by_cases h : target = .sp
  · simp [h]
  · simp [h]

variable [Bus β]

/-- An address that is read is made in the cycles of its mode, and one more
when the index crosses the end of a page. -/
theorem cycles_effectiveAddress_read (p : Processor β) (mode : AddressingMode) :
    (p.effectiveAddress mode .read).2.cycles =
      p.cycles + mode.addressCycles + p.crossingCycles p.pc mode := by
  cases mode with
  | absoluteX => exact cycles_indexed_read p.fetchWord.2 p.fetchWord.1 p.x
  | absoluteY => exact cycles_indexed_read p.fetchWord.2 p.fetchWord.1 p.y
  | indirectY =>
    have hbase := cycles_indexed_read (p.fetchByte.2.readZeroPageWord p.fetchByte.1).2
      (p.fetchByte.2.readZeroPageWord p.fetchByte.1).1 p.y
    exact hbase
  | implicit | accumulator | relative | immediate | zeroPage | zeroPageX | zeroPageY | absolute
  | indirect | indirectX => rfl

/-- An address that is written is made in the cycles of its mode and one for
the index, whether or not that crosses the end of a page. -/
theorem cycles_effectiveAddress_of_ne (p : Processor β) (mode : AddressingMode) {access : Access}
    (h : access ≠ .read) :
    (p.effectiveAddress mode access).2.cycles = p.cycles + mode.addressCycles + mode.indexCycles := by
  cases mode with
  | absoluteX => exact cycles_indexed_of_ne p.fetchWord.2 p.fetchWord.1 p.x h
  | absoluteY => exact cycles_indexed_of_ne p.fetchWord.2 p.fetchWord.1 p.y h
  | indirectY =>
    have hbase := cycles_indexed_of_ne (p.fetchByte.2.readZeroPageWord p.fetchByte.1).2
      (p.fetchByte.2.readZeroPageWord p.fetchByte.1).1 p.y h
    exact hbase
  | implicit | accumulator | relative | immediate | zeroPage | zeroPageX | zeroPageY | absolute
  | indirect | indirectX => rfl

theorem cycles_operand (p : Processor β) (mode : AddressingMode) :
    (p.operand mode).2.cycles =
      p.cycles + (mode.addressCycles + 1) + p.crossingCycles p.pc mode := by
  have haddress := cycles_effectiveAddress_read p mode
  unfold operand
  rw [cycles_readByte, haddress]
  omega

end Processor

/-! ### Operations -/

namespace Operation

/-- The cycles of an operation after its opcode, without those of a crossed page
or a taken branch. -/
def cycles (mode : AddressingMode) : Operation → Nat
  | .add | .subtract | .combine _ | .compare _ | .testBits | .load _ => mode.addressCycles + 1
  | .store _ => mode.addressCycles + mode.indexCycles + 1
  | .countMemory _ => mode.addressCycles + mode.indexCycles + 3
  | .shift _ => if mode = .accumulator then 1 else mode.addressCycles + mode.indexCycles + 3
  | .jump => mode.addressCycles
  | .call | .returnFromCall | .returnFromInterrupt => 5
  | .break => 6
  | .branch _ _ | .idle | .setFlag _ _ | .transfer _ _ | .countRegister _ _ => 1
  | .pushAccumulator | .pushStatus => 2
  | .pullAccumulator | .pullStatus => 3

/-- The operation reads at the address that its mode makes. -/
def reads : Operation → Bool
  | .add | .subtract | .combine _ | .compare _ | .testBits | .load _ | .jump => true
  | _ => false

end Operation

namespace Processor

variable {β : Type u} [Bus β]

/-- The cycles that an operation takes beyond its own, where the bytes after the
opcode begin at an address. -/
def operationExtra (p : Processor β) (operand : UInt16) (mode : AddressingMode) :
    Operation → Nat
  | .branch flag value => p.branchCycles operand flag value
  | operation => if operation.reads then p.crossingCycles operand mode else 0

theorem cycles_branch (p : Processor β) (flag : Flag) (value : Bool) :
    (p.branch flag value).cycles = p.cycles + 1 + p.branchCycles p.pc flag value := by
  have hget : p.fetchByte.2.status.get flag = p.status.get flag := rfl
  simp only [branch, branchCycles, hget]
  by_cases hflag : p.status.get flag = value
  · by_cases hpage : Word.page (p.pc + 1) = Word.page (Word.displace (p.pc + 1) (Bus.read p.bus p.pc))
    · have hcross : crossesPage p.fetchByte.2.pc (Word.displace p.fetchByte.2.pc p.fetchByte.1) =
          false := bne_eq_false_iff_eq.mpr hpage
      simp [hflag, hpage, hcross]
    · have hcross : crossesPage p.fetchByte.2.pc (Word.displace p.fetchByte.2.pc p.fetchByte.1) =
          true := bne_iff_ne.mpr hpage
      simp [hflag, hpage, hcross]
  · simp [hflag]

theorem cycles_shift (p : Processor β) (s : Shift) (mode : AddressingMode) :
    (p.shift s mode).cycles = p.cycles + (Operation.shift s).cycles mode := by
  by_cases hmode : mode = .accumulator
  · simp only [shift, hmode, if_true, Operation.cycles]
    rfl
  · have haddress := cycles_effectiveAddress_of_ne p mode (show Access.modify ≠ .read by decide)
    simp only [shift, hmode, if_false, Operation.cycles]
    show (p.effectiveAddress mode .modify).2.cycles + 3 = _
    omega

theorem cycles_breakOff (p : Processor β) : p.breakOff.cycles = p.cycles + 6 := by
  unfold breakOff
  show ((p.fetchByte.2.pushWord p.fetchByte.2.pc).push p.fetchByte.2.status.breakByte).cycles + 2 = _
  rw [cycles_push, cycles_pushWord, cycles_fetchByte]

/-- **The time of an operation** is its own and what the page or the branch adds. -/
theorem cycles_perform (p : Processor β) (operation : Operation) (mode : AddressingMode) :
    (p.perform operation mode).cycles =
      p.cycles + operation.cycles mode + p.operationExtra p.pc mode operation := by
  cases operation with
  | add | subtract | combine | compare | testBits => exact cycles_operand p mode
  | load register =>
    simp only [perform, load, cycles_note, cycles_setByte]
    exact cycles_operand p mode
  | branch flag value => exact cycles_branch p flag value
  | shift s => exact cycles_shift p s mode
  | store register =>
    have haddress := cycles_effectiveAddress_of_ne p mode (show Access.write ≠ .read by decide)
    show (p.effectiveAddress mode .write).2.cycles + 1 = _
    rw [haddress]
    simp only [Operation.cycles, operationExtra, Operation.reads, Bool.false_eq_true, if_false]
    omega
  | countMemory count =>
    have haddress := cycles_effectiveAddress_of_ne p mode (show Access.modify ≠ .read by decide)
    show (p.effectiveAddress mode .modify).2.cycles + 3 = _
    rw [haddress]
    simp only [Operation.cycles, operationExtra, Operation.reads, Bool.false_eq_true, if_false]
    omega
  | countRegister register count =>
    simp only [perform, countRegister, cycles_note, cycles_setByte]
    rfl
  | jump => exact cycles_effectiveAddress_read p mode
  | transfer source target => exact cycles_transfer p source target
  | «break» => exact cycles_breakOff p
  | call | returnFromCall | returnFromInterrupt | idle | setFlag | pushAccumulator | pushStatus
  | pullAccumulator | pullStatus => rfl

end Processor

/-! ### The table -/

/-- A row of the table has a cycle for its byte and those of its operation. -/
theorem Opcode.baseCycles_eq :
    ∀ op ∈ Opcode.documented, op.baseCycles = 1 + op.mnemonic.operation.cycles op.mode := by
  decide +kernel

/-- The table has no mode with an index for an instruction that reads and is not
among those that may cross a page. -/
theorem Opcode.indexCycles_eq_zero_or : ∀ op ∈ Opcode.documented,
    op.mode.indexCycles = 0 ∨ op.mnemonic.operation.reads = decide (op.mnemonic ∈ Mnemonic.reading) := by
  decide +kernel

theorem Mnemonic.operation_of_condition? {m : Mnemonic} {flag : Flag} {value : Bool}
    (h : m.condition? = some (flag, value)) : m.operation = .branch flag value := by
  cases m <;> cases h <;> rfl

namespace Processor

variable {β : Type u} [Bus β]

theorem crossingCycles_of_indexCycles (p : Processor β) (operand : UInt16) {mode : AddressingMode}
    (h : mode.indexCycles = 0) : p.crossingCycles operand mode = 0 := by
  cases mode with
  | absoluteX | absoluteY | indirectY => cases h
  | implicit | accumulator | relative | immediate | zeroPage | zeroPageX | zeroPageY | absolute
  | indirect | indirectX => rfl

theorem operationExtra_of_condition? (p : Processor β) (operand : UInt16) (mode : AddressingMode)
    {m : Mnemonic} (h : m.condition? = none) :
    p.operationExtra operand mode m.operation =
      if m.operation.reads then p.crossingCycles operand mode else 0 := by
  cases m <;> first | rfl | cases h

/-- What the law adds to the cycles of an opcode is what its operation takes
beyond its own. -/
theorem extraCycles_eq (p : Processor β) {op : Opcode} (hop : op ∈ Opcode.documented) :
    p.extraCycles op =
      p.fetchByte.2.operationExtra p.fetchByte.2.pc op.mode op.mnemonic.operation := by
  unfold extraCycles
  cases hcondition : op.mnemonic.condition? with
  | some condition =>
    obtain ⟨flag, value⟩ := condition
    rw [Mnemonic.operation_of_condition? hcondition]
    rfl
  | none =>
    rw [operationExtra_of_condition? _ _ _ hcondition]
    show (if op.mnemonic ∈ Mnemonic.reading then p.crossingCycles (p.pc + 1) op.mode else 0) =
      if op.mnemonic.operation.reads then p.crossingCycles (p.pc + 1) op.mode else 0
    rcases Opcode.indexCycles_eq_zero_or op hop with hindex | hreads
    · rw [crossingCycles_of_indexCycles p _ hindex, ite_self, ite_self]
    · simp only [hreads, decide_eq_true_eq]

/-- **The time of an instruction is that of its row in the table**, and what a
branch that is taken or a page that is crossed adds. Stores and instructions
that write back what they read take the same time in every case. -/
theorem cycles_step {p : Processor β} {op : Opcode} (hirq : p.irqPending = false)
    (hnmi : p.nmiPending = false) (hop : Opcode.decode? (Bus.read p.bus p.pc) = some op) :
    p.step.fault = none ∧ p.step.after.cycles = p.cycles + op.baseCycles + p.extraCycles op := by
  have hmem := (Opcode.mem_of_decode? hop).1
  have hbase := Opcode.baseCycles_eq op hmem
  have hextra := extraCycles_eq p hmem
  have hperform := cycles_perform p.fetchByte.2 op.mnemonic.operation op.mode
  rw [cycles_fetchByte] at hperform
  rw [step_eq_perform hirq hnmi hop]
  refine ⟨rfl, ?_⟩
  show (p.fetchByte.2.perform op.mnemonic.operation op.mode).cycles = _
  omega

/-- A load at 0x0200 from 0x10FF indexed by one, which lies on the next page. -/
def crossingLoad : Processor Memory :=
  { powerOn (((Memory.zero.write 0x0200 0xBD).write 0x0201 0xFF).write 0x0202 0x10) with
    x := 1
    pc := 0x0200 }

theorem cycles_step_crossingLoad :
    crossingLoad.step.fault = none ∧ crossingLoad.step.after.cycles = 0 + 4 + 1 := by
  have hcode : Bus.read crossingLoad.bus crossingLoad.pc = 0xBD := by
    simp [crossingLoad, powerOn, reset]
  have hop : Opcode.decode? (Bus.read crossingLoad.bus crossingLoad.pc) =
      some ⟨0xBD, .lda, .absoluteX, 4⟩ := by
    rw [hcode]
    exact Opcode.decode?_code ⟨0xBD, .lda, .absoluteX, 4⟩ (by decide)
  have hextra : crossingLoad.extraCycles ⟨0xBD, .lda, .absoluteX, 4⟩ = 1 := by
    have hlow : Bus.read crossingLoad.bus (crossingLoad.pc + 1) = 0xFF := by
      simp [crossingLoad, powerOn, reset]
    have hhigh : Bus.read crossingLoad.bus (crossingLoad.pc + 1 + 1) = 0x10 := by
      simp [crossingLoad, powerOn, reset]
    simp only [extraCycles, Mnemonic.condition?, crossingCycles, indexing?, hlow, hhigh]
    decide
  have htime := cycles_step (p := crossingLoad) rfl rfl hop
  rw [hextra] at htime
  exact htime

end Processor
end Mos6502
