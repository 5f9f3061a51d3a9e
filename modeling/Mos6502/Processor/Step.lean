/-
# Steps

A step takes the interrupts that wait and then executes one instruction. An
interrupt request is taken when I is clear and dropped when it is set. It is
entered before a non-maskable interrupt, whose handler therefore runs first.
A byte that is no opcode ends the step after its fetch.

Key definitions: `Processor.step`, `Processor.interrupts`, `Step`, `Record`,
`UndefinedInstruction`.
Key theorem: `Processor.cycles_lt_step`.
-/
import Mos6502.Opcode
import Mos6502.Processor.Instruction

namespace Mos6502

universe u

/-- A byte was fetched that is no documented opcode. -/
structure UndefinedInstruction where
  opcode : UInt8
  address : UInt16
  deriving DecidableEq

/-- What happened. -/
inductive Event
  | instruction (opcode : Opcode)
  | interrupt (vector : UInt16)
  deriving DecidableEq

/-- The account of an event: where it happened, how long it took, and the
registers after it. -/
structure Record where
  /-- The program counter before the event. -/
  address : UInt16
  event : Event
  cycles : Nat
  a : UInt8
  x : UInt8
  y : UInt8
  sp : UInt8
  pc : UInt16
  status : UInt8
  deriving DecidableEq

/-- What came of a step. -/
structure Step (β : Type u) where
  records : List Record
  /-- Why no instruction was executed, if none was. -/
  fault : Option UndefinedInstruction
  after : Processor β

namespace Processor

variable {β : Type u}

/-- The account of an event that began at an address when some cycles had been
spent. -/
@[inline]
def record (address : UInt16) (start : Nat) (event : Event) (after : Processor β) : Record where
  address := address
  event := event
  cycles := after.cycles - start
  a := after.a
  x := after.x
  y := after.y
  sp := after.sp
  pc := after.pc
  status := after.status.toByte

/-- The vectors of the interrupts that the next step takes, in order. -/
@[inline]
def interrupts (p : Processor β) : List UInt16 :=
  (if p.irqPending && !p.status.i then [irqVector] else []) ++
    (if p.nmiPending then [nmiVector] else [])

/-- Both lines are low. -/
@[inline]
def lowerLines (p : Processor β) : Processor β :=
  { p with irqPending := false, nmiPending := false }

variable [Bus β]

/-- Enters an interrupt: stacks the program counter and the status byte with B
clear, sets I and goes on at the vector. -/
def enter (p : Processor β) (vector : UInt16) : Processor β :=
  let p := p.tick.tick
  let p := (p.pushWord p.pc).push p.status.interruptByte
  let p := { p with status := { p.status with i := true } }
  let (address, p) := p.readWord vector
  { p with pc := address }

/-- Enters interrupts one after the other. -/
def enterAll (p : Processor β) : List UInt16 → List Record × Processor β
  | [] => ([], p)
  | vector :: vectors =>
    let address := p.pc
    let start := p.cycles
    let q := p.enter vector
    let entry := record address start (.interrupt vector) q
    let (records, r) := q.enterAll vectors
    (entry :: records, r)

/-- Fetches an opcode and executes its instruction. -/
@[inline]
def execute (p : Processor β) : Step β :=
  let address := p.pc
  let start := p.cycles
  let (code, p) := p.fetchByte
  match Opcode.decode? code with
  | none => { records := [], fault := some ⟨code, address⟩, after := p }
  | some opcode =>
    let p := p.perform opcode.mnemonic.operation opcode.mode
    { records := [record address start (.instruction opcode) p], fault := none, after := p }

/-- Takes the waiting interrupts, then executes an instruction. -/
@[inline]
def step (p : Processor β) : Step β :=
  let (records, q) := p.lowerLines.enterAll p.interrupts
  let last := q.execute
  { last with records := records ++ last.records }

/-! ### Time -/

@[simp]
theorem cycles_enter (p : Processor β) (vector : UInt16) :
    (p.enter vector).cycles = p.cycles + 7 := rfl

theorem cycles_enterAll (vectors : List UInt16) (p : Processor β) :
    (p.enterAll vectors).2.cycles = p.cycles + 7 * vectors.length := by
  induction vectors generalizing p with
  | nil => rfl
  | cons vector vectors ih =>
    simp only [enterAll, ih, cycles_enter, List.length_cons]
    omega

theorem cycles_lt_execute (p : Processor β) : p.cycles < p.execute.after.cycles := by
  simp only [execute]
  cases Opcode.decode? p.fetchByte.1 with
  | none => exact Nat.lt_add_one _
  | some opcode => exact le_cycles_perform p.fetchByte.2 opcode.mnemonic.operation opcode.mode

theorem cycles_lt_step (p : Processor β) : p.cycles < p.step.after.cycles := by
  refine Nat.lt_of_le_of_lt ?_ (cycles_lt_execute (p.lowerLines.enterAll p.interrupts).2)
  rw [cycles_enterAll]
  exact Nat.le_add_right _ _

end Processor
end Mos6502
