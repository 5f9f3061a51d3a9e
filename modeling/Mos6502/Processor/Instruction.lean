/-
# Instructions

Every instruction fetches its own operand and spends its own cycles; the
opcode has been fetched before.

Key definitions: `Processor.perform` and the functions it names, one for each
operation.
Key theorem: `Processor.le_cycles_perform`.
-/
import Mos6502.Processor.Addressing
import Mos6502.Processor.Operation

namespace Mos6502
namespace Processor

universe u

variable {β : Type u}

/-- Takes over a sum: the accumulator, C, V, Z and N. -/
def takeSum (p : Processor β) (sum : Sum) : Processor β :=
  { p with
    a := sum.value
    status := { p.status with c := sum.carry, v := sum.overflow }.ofResult sum.value }

@[simp]
theorem cycles_takeSum (p : Processor β) (sum : Sum) : (p.takeSum sum).cycles = p.cycles := rfl

def countRegister (p : Processor β) (register : ByteRegister) (count : Count) : Processor β :=
  let result := count.apply (p.byte register)
  (p.tick.setByte register result).note result

/-- Copies a register. The copy is noted in Z and N, but not when it goes to
the stack pointer. -/
def transfer (p : Processor β) (source target : ByteRegister) : Processor β :=
  let value := p.byte source
  let p := p.tick.setByte target value
  if target = .sp then p else p.note value

theorem le_cycles_transfer (p : Processor β) (source target : ByteRegister) :
    p.cycles ≤ (p.transfer source target).cycles := by
  simp only [transfer]
  split <;> simp

variable [Bus β]

/-! ### Arithmetic and logic -/

/-- Adds the operand and C to the accumulator, in decimal when D is set. -/
def add (p : Processor β) (mode : AddressingMode) : Processor β :=
  let (m, p) := p.operand mode
  p.takeSum ((if p.status.d then addDecimal else addBinary) p.a m p.status.c)

/-- Subtracts the operand and the inverse of C from the accumulator, in
decimal when D is set. -/
def subtract (p : Processor β) (mode : AddressingMode) : Processor β :=
  let (m, p) := p.operand mode
  p.takeSum ((if p.status.d then subtractDecimal else subtractBinary) p.a m p.status.c)

def combine (p : Processor β) (logic : Logic) (mode : AddressingMode) : Processor β :=
  let (m, p) := p.operand mode
  let result := logic.apply p.a m
  { p with a := result }.note result

/-- Compares a register with the operand: C tells that it is at least as
large, Z and N describe the difference. -/
def compare (p : Processor β) (register : ByteRegister) (mode : AddressingMode) : Processor β :=
  let (m, p) := p.operand mode
  let value := p.byte register
  { p with status := { p.status with c := decide (m ≤ value) } }.note (value - m)

/-- Tests the operand: Z tells that it has no bit in common with the
accumulator, N and V are its two top bits. -/
def testBits (p : Processor β) (mode : AddressingMode) : Processor β :=
  let (m, p) := p.operand mode
  { p with
    status := { p.status with
      z := p.a &&& m == 0
      n := m &&& Flag.n.mask != 0
      v := m &&& Flag.v.mask != 0 } }

/-! ### Memory and registers -/

def load (p : Processor β) (register : ByteRegister) (mode : AddressingMode) : Processor β :=
  let (value, p) := p.operand mode
  (p.setByte register value).note value

def store (p : Processor β) (register : ByteRegister) (mode : AddressingMode) : Processor β :=
  let (address, p) := p.effectiveAddress mode .write
  p.writeByte address (p.byte register)

/-- Reads a byte of memory, works on it for a cycle and writes it back. -/
def countMemory (p : Processor β) (count : Count) (mode : AddressingMode) : Processor β :=
  let (address, p) := p.effectiveAddress mode .modify
  let (value, p) := p.readByte address
  let result := count.apply value
  (p.tick.writeByte address result).note result

/-- Moves the bits of the accumulator or of a byte of memory. C takes part
and takes the bit that falls out. -/
def shift (p : Processor β) (shift : Shift) (mode : AddressingMode) : Processor β :=
  if mode = .accumulator then
    let (result, carry) := shift.apply p.a p.status.c
    { p.tick with a := result, status := { p.status with c := carry } }.note result
  else
    let (address, p) := p.effectiveAddress mode .modify
    let (value, p) := p.readByte address
    let (result, carry) := shift.apply value p.status.c
    let p := { p.tick with status := { p.status with c := carry } }
    (p.writeByte address result).note result

/-! ### Control -/

/-- Goes on at a distance when a flag has a value. A branch that is taken
costs a cycle, and one more when it leaves the page. -/
def branch (p : Processor β) (flag : Flag) (value : Bool) : Processor β :=
  let (distance, p) := p.fetchByte
  if p.status.get flag = value then
    let target := Word.displace p.pc distance
    let q := if crossesPage p.pc target then p.tick.tick else p.tick
    { q with pc := target }
  else p

/-- Goes on at the operand's address. -/
def jump (p : Processor β) (mode : AddressingMode) : Processor β :=
  let (address, p) := p.effectiveAddress mode .read
  { p with pc := address }

/-- Calls a subroutine. The high byte of its address is read after the return
address, that of the call's last byte, has been pushed. -/
def call (p : Processor β) : Processor β :=
  let (low, p) := p.fetchByte
  let p := p.tick
  let p := p.pushWord p.pc
  let (high, p) := p.readByte p.pc
  { p with pc := Word.ofBytes low high }

/-- Goes on after the address on the stack. -/
def returnFromCall (p : Processor β) : Processor β :=
  let (address, p) := p.tick.tick.pullWord
  { p.tick with pc := address + 1 }

/-- Skips a byte, stacks the program counter and the status byte with B set,
and goes on at the interrupt request vector with B and I set. -/
def breakOff (p : Processor β) : Processor β :=
  let (_, p) := p.fetchByte
  let p := (p.pushWord p.pc).push p.status.breakByte
  let p := { p with status := { p.status with b := true, i := true } }
  let (address, p) := p.readWord irqVector
  { p with pc := address }

/-- Restores the status and the program counter from the stack and clears B. -/
def returnFromInterrupt (p : Processor β) : Processor β :=
  let (byte, p) := p.tick.tick.pull
  let p := { p with status := { p.status.restore byte with b := false } }
  let (address, p) := p.pullWord
  { p with pc := address }

/-! ### The stack -/

def pushAccumulator (p : Processor β) : Processor β := p.tick.push p.a

/-- Pushes the status byte with B set. -/
def pushStatus (p : Processor β) : Processor β := p.tick.push p.status.breakByte

def pullAccumulator (p : Processor β) : Processor β :=
  let (value, p) := p.tick.tick.pull
  { p with a := value }.note value

/-- Pulls the status byte. B stays as it is. -/
def pullStatus (p : Processor β) : Processor β :=
  let (byte, p) := p.tick.tick.pull
  { p with status := p.status.restore byte }

/-- Carries out an operation. -/
def perform (p : Processor β) (operation : Operation) (mode : AddressingMode) : Processor β :=
  match operation with
  | .add => p.add mode
  | .subtract => p.subtract mode
  | .combine logic => p.combine logic mode
  | .compare register => p.compare register mode
  | .testBits => p.testBits mode
  | .branch flag value => p.branch flag value
  | .shift shift => p.shift shift mode
  | .load register => p.load register mode
  | .store register => p.store register mode
  | .countMemory count => p.countMemory count mode
  | .countRegister register count => p.countRegister register count
  | .jump => p.jump mode
  | .call => p.call
  | .returnFromCall => p.returnFromCall
  | .break => p.breakOff
  | .returnFromInterrupt => p.returnFromInterrupt
  | .idle => p.tick
  | .pushAccumulator => p.pushAccumulator
  | .pushStatus => p.pushStatus
  | .pullAccumulator => p.pullAccumulator
  | .pullStatus => p.pullStatus
  | .setFlag flag value => p.tick.setFlag flag value
  | .transfer source target => p.transfer source target

/-! ### Time -/

theorem le_cycles_shift (p : Processor β) (s : Shift) (mode : AddressingMode) :
    p.cycles ≤ (p.shift s mode).cycles := by
  by_cases h : mode = .accumulator
  · simp only [shift, h, if_true]
    exact Nat.le_add_right _ 1
  · simp only [shift, h, if_false]
    exact Nat.le_trans (le_cycles_effectiveAddress p mode .modify) (Nat.le_add_right _ 3)

theorem le_cycles_branch (p : Processor β) (flag : Flag) (value : Bool) :
    p.cycles ≤ (p.branch flag value).cycles := by
  simp only [branch]
  split
  · split
    · exact Nat.le_add_right _ 3
    · exact Nat.le_add_right _ 2
  · exact Nat.le_add_right _ 1

theorem le_cycles_perform (p : Processor β) (operation : Operation) (mode : AddressingMode) :
    p.cycles ≤ (p.perform operation mode).cycles := by
  cases operation with
  | add | subtract | combine | compare | testBits => exact le_cycles_operand p mode
  | load register =>
    simp only [perform, load, cycles_note, cycles_setByte]
    exact le_cycles_operand p mode
  | branch flag value => exact le_cycles_branch p flag value
  | shift s => exact le_cycles_shift p s mode
  | store =>
    exact Nat.le_trans (le_cycles_effectiveAddress p mode .write) (Nat.le_add_right _ 1)
  | countMemory =>
    exact Nat.le_trans (le_cycles_effectiveAddress p mode .modify) (Nat.le_add_right _ 3)
  | countRegister register count =>
    simp only [perform, countRegister, cycles_note, cycles_setByte]
    exact Nat.le_add_right _ 1
  | jump => exact le_cycles_effectiveAddress p mode .read
  | call => exact Nat.le_add_right _ 5
  | returnFromCall | returnFromInterrupt => exact Nat.le_add_right _ 5
  | «break» => exact Nat.le_add_right _ 6
  | idle | setFlag => exact Nat.le_add_right _ 1
  | pushAccumulator | pushStatus => exact Nat.le_add_right _ 2
  | pullAccumulator | pullStatus => exact Nat.le_add_right _ 3
  | transfer source target => exact le_cycles_transfer p source target

end Processor
end Mos6502
