/-
# What the records of a step tell

A step leaves a record of every interrupt it enters and of the instruction it
executes, in this order. Each record begins where the one before it ended, and
the last one shows the registers as they are left. Together they account for all
the time of the step, but for the fetch of a byte that is no opcode.

An instruction takes from two to seven cycles and an interrupt seven, which
bounds the time of a step (`cycles_step_mem`).

Key definitions: `Linked`, `Record.Shows`, `Step.Tells`.
Key theorems: `cycles_execute_mem`, `cycles_step_mem`, `cycles_step_le`,
`records_tell_all_of_a_step`.
-/
import Mos6502.Proofs.Processor.Requests
import Mos6502.Proofs.Processor.Time
import Mathlib.Algebra.Ring.Nat
import Mathlib.Tactic.Set

namespace Mos6502

universe u

/-! ### What records say -/

/-- The first record begins at an address, and each other one where the record
before it ended. -/
def Linked (address : UInt16) : List Record → Prop
  | [] => True
  | record :: records => record.address = address ∧ Linked record.pc records

/-- The cycles that records account for. -/
def recordedCycles (records : List Record) : Nat := (records.map Record.cycles).sum

/-- A record shows the registers of a processor. -/
structure Record.Shows {β : Type u} (record : Record) (p : Processor β) : Prop where
  a_eq : record.a = p.a
  x_eq : record.x = p.x
  y_eq : record.y = p.y
  sp_eq : record.sp = p.sp
  pc_eq : record.pc = p.pc
  status_eq : record.status = p.status.toByte

/-- The records of a step tell all that it did to a processor. -/
structure Step.Tells {β : Type u} (s : Step β) (p : Processor β) : Prop where
  /-- An interrupt request is told of if one waits and I is clear, then a
  non-maskable interrupt if one waits, then one instruction just when the step
  does not fail. -/
  events : ∃ executed : List Opcode,
    s.records.map Record.event =
      (if p.irqPending = true ∧ p.status.i = false then [.interrupt 0xFFFE] else []) ++
        (if p.nmiPending = true then [.interrupt 0xFFFA] else []) ++
        executed.map Event.instruction ∧
      executed.length = if s.fault = none then 1 else 0
  interrupt_cycles : ∀ record ∈ s.records, ∀ vector, record.event = .interrupt vector →
    record.cycles = 7
  /-- Each record begins where the one before it ended, the first at the program
  counter. -/
  linked : Linked p.pc s.records
  /-- The last record of a step that does not fail shows what is left. -/
  last : s.fault = none → ∃ record, s.records.getLast? = some record ∧ record.Shows s.after
  /-- All time is accounted for, but for the fetch of a byte that is no opcode. -/
  cycles : s.after.cycles = p.cycles + recordedCycles s.records + if s.fault = none then 0 else 1
  /-- A step that does not fail takes from 2 to 21 cycles. -/
  bounds : s.fault = none → p.cycles + 2 ≤ s.after.cycles ∧ s.after.cycles ≤ p.cycles + 21

@[simp]
theorem recordedCycles_nil : recordedCycles [] = 0 := rfl

@[simp]
theorem recordedCycles_cons (record : Record) (records : List Record) :
    recordedCycles (record :: records) = record.cycles + recordedCycles records :=
  List.sum_cons

@[simp]
theorem recordedCycles_append (first second : List Record) :
    recordedCycles (first ++ second) = recordedCycles first + recordedCycles second := by
  simp only [recordedCycles, List.map_append, List.sum_append]

/-! ### The time of an instruction -/

namespace Operation

/-- The most that a crossed page or a taken branch adds to the cycles of an
operation. -/
def mostExtra : Operation → Nat
  | .branch _ _ => 2
  | operation => if operation.reads then 1 else 0

end Operation

/-- With the cycle of its byte, every row of the table takes from two to seven
cycles. -/
theorem Opcode.cycles_mem : ∀ op ∈ Opcode.documented,
    1 ≤ op.mnemonic.operation.cycles op.mode ∧
      op.mnemonic.operation.cycles op.mode + op.mnemonic.operation.mostExtra ≤ 6 := by
  decide +kernel

namespace Processor

variable {β : Type u}

theorem shows_record (address : UInt16) (start : Nat) (event : Event) (p : Processor β) :
    (record address start event p).Shows p := ⟨rfl, rfl, rfl, rfl, rfl, rfl⟩

theorem length_interrupts_le (p : Processor β) : p.interrupts.length ≤ 2 :=
  p.interrupts_sublist.length_le

theorem map_interrupts (p : Processor β) :
    p.interrupts.map Event.interrupt =
      (if p.irqPending = true ∧ p.status.i = false then [.interrupt 0xFFFE] else []) ++
        (if p.nmiPending = true then [.interrupt 0xFFFA] else []) := by
  unfold interrupts
  cases p.irqPending <;> cases p.status.i <;> cases p.nmiPending <;> rfl

variable [Bus β]

theorem crossingCycles_le (p : Processor β) (operand : UInt16) (mode : AddressingMode) :
    p.crossingCycles operand mode ≤ 1 := by
  unfold crossingCycles
  split
  · exact Nat.zero_le 1
  · split
    · exact Nat.zero_le 1
    · exact Nat.le_refl 1

theorem branchCycles_le (p : Processor β) (operand : UInt16) (flag : Flag) (value : Bool) :
    p.branchCycles operand flag value ≤ 2 := by
  simp only [branchCycles]
  split
  · exact Nat.zero_le 2
  · split
    · exact Nat.le_succ 1
    · exact Nat.le_refl 2

theorem operationExtra_le (p : Processor β) (operand : UInt16) (mode : AddressingMode)
    (operation : Operation) : p.operationExtra operand mode operation ≤ operation.mostExtra := by
  have hcrossing := crossingCycles_le p operand mode
  cases operation with
  | branch flag value => exact branchCycles_le p operand flag value
  | add | subtract | combine | compare | testBits | load | jump => exact hcrossing
  | shift | store | countMemory | countRegister | call | returnFromCall | «break»
  | returnFromInterrupt | idle | pushAccumulator | pushStatus | pullAccumulator | pullStatus
  | setFlag | transfer => exact Nat.le_refl 0

/-- **An instruction takes from two to seven cycles**, whatever the state. -/
theorem cycles_execute_mem {p : Processor β} (h : p.execute.fault = none) :
    p.cycles + 2 ≤ p.execute.after.cycles ∧ p.execute.after.cycles ≤ p.cycles + 7 := by
  cases hop : Opcode.decode? (Bus.read p.bus p.pc) with
  | none =>
    rw [execute_of_undefined hop] at h
    cases h
  | some op =>
    obtain ⟨hleast, hmost⟩ := Opcode.cycles_mem op (Opcode.mem_of_decode? hop).1
    have hperform := cycles_perform p.fetchByte.2 op.mnemonic.operation op.mode
    have hextra := operationExtra_le p.fetchByte.2 p.fetchByte.2.pc op.mode op.mnemonic.operation
    rw [cycles_fetchByte] at hperform
    rw [execute_eq_perform hop]
    show p.cycles + 2 ≤ (p.fetchByte.2.perform op.mnemonic.operation op.mode).cycles ∧
      (p.fetchByte.2.perform op.mnemonic.operation op.mode).cycles ≤ p.cycles + 7
    omega

theorem cycles_execute_of_fault {p : Processor β} (h : p.execute.fault ≠ none) :
    p.execute.after.cycles = p.cycles + 1 := by
  cases hop : Opcode.decode? (Bus.read p.bus p.pc) with
  | none =>
    rw [execute_of_undefined hop]
    rfl
  | some op =>
    rw [execute_eq_perform hop] at h
    exact absurd rfl h

/-- A step begins its instruction when the interrupts have been entered. -/
theorem cycles_interrupted (p : Processor β) :
    (p.lowerLines.enterAll p.interrupts).2.cycles = p.cycles + 7 * p.interrupts.length :=
  cycles_enterAll p.interrupts p.lowerLines

/-- **A step that does not fail takes from 2 to 21 cycles.** -/
theorem cycles_step_mem {p : Processor β} (h : p.step.fault = none) :
    p.cycles + 2 ≤ p.step.after.cycles ∧ p.step.after.cycles ≤ p.cycles + 21 := by
  have hinterrupts := length_interrupts_le p
  have hstart := cycles_interrupted p
  obtain ⟨hleast, hmost⟩ := cycles_execute_mem (p := (p.lowerLines.enterAll p.interrupts).2) h
  show p.cycles + 2 ≤ (p.lowerLines.enterAll p.interrupts).2.execute.after.cycles ∧
    (p.lowerLines.enterAll p.interrupts).2.execute.after.cycles ≤ p.cycles + 21
  omega

/-- No step takes more than 21 cycles. -/
theorem cycles_step_le (p : Processor β) : p.step.after.cycles ≤ p.cycles + 21 := by
  by_cases h : p.step.fault = none
  · exact (cycles_step_mem h).2
  · have hinterrupts := length_interrupts_le p
    have hstart := cycles_interrupted p
    have hfetch := cycles_execute_of_fault (p := (p.lowerLines.enterAll p.interrupts).2) h
    show (p.lowerLines.enterAll p.interrupts).2.execute.after.cycles ≤ p.cycles + 21
    omega

/-! ### The records of interrupts -/

theorem events_enterAll (vectors : List UInt16) (p : Processor β) :
    (p.enterAll vectors).1.map Record.event = vectors.map Event.interrupt := by
  induction vectors generalizing p with
  | nil => rfl
  | cons vector vectors ih =>
    simp only [enterAll, List.map_cons, ih]
    rfl

theorem cycles_of_mem_enterAll {vectors : List UInt16} {p : Processor β} {r : Record}
    (h : r ∈ (p.enterAll vectors).1) : r.cycles = 7 := by
  induction vectors generalizing p with
  | nil => cases h
  | cons vector vectors ih =>
    simp only [enterAll, List.mem_cons] at h
    rcases h with rfl | h
    · exact Nat.add_sub_cancel_left p.cycles 7
    · exact ih h

/-- The records of interrupts account for all the time of entering them. -/
theorem cycles_add_recordedCycles_enterAll (vectors : List UInt16) (p : Processor β) :
    (p.enterAll vectors).2.cycles = p.cycles + recordedCycles (p.enterAll vectors).1 := by
  induction vectors generalizing p with
  | nil => rfl
  | cons vector vectors ih =>
    have hfirst : (record p.pc p.cycles (.interrupt vector) (p.enter vector)).cycles = 7 :=
      Nat.add_sub_cancel_left p.cycles 7
    rw [enterAll_cons, ih, cycles_enter]
    simp only [enterAll, recordedCycles_cons, hfirst]
    omega

theorem linked_enterAll_append {vectors : List UInt16} {p : Processor β} {later : List Record}
    (h : Linked (p.enterAll vectors).2.pc later) :
    Linked p.pc ((p.enterAll vectors).1 ++ later) := by
  induction vectors generalizing p with
  | nil => exact h
  | cons vector vectors ih =>
    rw [enterAll_cons] at h
    exact ⟨rfl, ih h⟩

/-! ### The record of an instruction -/

/-- An instruction is told of by one record, and a byte that is no opcode by
none. -/
theorem execute_cases (p : Processor β) :
    (p.execute.fault = none ∧ ∃ op,
      p.execute.records = [record p.pc p.cycles (.instruction op) p.execute.after]) ∨
    (p.execute.fault ≠ none ∧ p.execute.records = []) := by
  cases hop : Opcode.decode? (Bus.read p.bus p.pc) with
  | none =>
    rw [execute_of_undefined hop]
    exact .inr ⟨Option.some_ne_none _, rfl⟩
  | some op =>
    rw [execute_eq_perform hop]
    exact .inl ⟨rfl, op, rfl⟩

theorem events_execute (p : Processor β) :
    ∃ executed : List Opcode, p.execute.records.map Record.event = executed.map Event.instruction ∧
      executed.length = if p.execute.fault = none then 1 else 0 := by
  rcases execute_cases p with ⟨hok, op, hrecords⟩ | ⟨herror, hrecords⟩
  · exact ⟨[op], by rw [hrecords]; rfl, by rw [if_pos hok]; rfl⟩
  · exact ⟨[], by rw [hrecords]; rfl, by rw [if_neg herror]; rfl⟩

theorem event_of_mem_execute {p : Processor β} {r : Record} (h : r ∈ p.execute.records)
    (vector : UInt16) : r.event ≠ .interrupt vector := by
  rcases execute_cases p with ⟨-, op, hrecords⟩ | ⟨-, hrecords⟩ <;> rw [hrecords] at h
  · rw [List.mem_singleton.mp h]
    exact Event.noConfusion
  · cases h

theorem linked_execute (p : Processor β) : Linked p.pc p.execute.records := by
  rcases execute_cases p with ⟨-, op, hrecords⟩ | ⟨-, hrecords⟩ <;> rw [hrecords]
  · exact ⟨rfl, trivial⟩
  · trivial

theorem cycles_execute (p : Processor β) :
    p.execute.after.cycles =
      p.cycles + recordedCycles p.execute.records + if p.execute.fault = none then 0 else 1 := by
  rcases execute_cases p with ⟨hok, op, hrecords⟩ | ⟨herror, hrecords⟩ <;> rw [hrecords]
  · have hlt := cycles_lt_execute p
    rw [if_pos hok, recordedCycles_cons, recordedCycles_nil]
    show p.execute.after.cycles = p.cycles + (p.execute.after.cycles - p.cycles + 0) + 0
    omega
  · rw [if_neg herror, recordedCycles_nil, Nat.add_zero]
    exact cycles_execute_of_fault herror

theorem last_execute {p : Processor β} (h : p.execute.fault = none) :
    ∃ r, p.execute.records.getLast? = some r ∧ r.Shows p.execute.after := by
  rcases execute_cases p with ⟨-, op, hrecords⟩ | ⟨herror, -⟩
  · rw [hrecords]
    exact ⟨_, rfl, shows_record _ _ _ _⟩
  · exact absurd h herror

/-! ### The records of a step -/

theorem events_step (p : Processor β) :
    ∃ executed : List Opcode, p.step.records.map Record.event =
        p.interrupts.map Event.interrupt ++ executed.map Event.instruction ∧
      executed.length = if p.step.fault = none then 1 else 0 := by
  obtain ⟨executed, hevents, hlength⟩ :=
    events_execute (p.lowerLines.enterAll p.interrupts).2
  refine ⟨executed, ?_, hlength⟩
  simp only [step, List.map_append, events_enterAll, hevents]

theorem cycles_of_mem_step {p : Processor β} {r : Record} {vector : UInt16}
    (h : r ∈ p.step.records) (hevent : r.event = .interrupt vector) : r.cycles = 7 := by
  rcases List.mem_append.mp h with h | h
  · exact cycles_of_mem_enterAll h
  · exact absurd hevent (event_of_mem_execute h vector)

/-- **Each record of a step begins where the one before it ended.** -/
theorem linked_step (p : Processor β) : Linked p.pc p.step.records :=
  linked_enterAll_append (p := p.lowerLines) (linked_execute _)

theorem last_step {p : Processor β} (h : p.step.fault = none) :
    ∃ r, p.step.records.getLast? = some r ∧ r.Shows p.step.after := by
  obtain ⟨r, hlast, hshows⟩ := last_execute (p := (p.lowerLines.enterAll p.interrupts).2) h
  refine ⟨r, ?_, hshows⟩
  show ((p.lowerLines.enterAll p.interrupts).1 ++ _).getLast? = some r
  rw [List.getLast?_append, hlast]
  rfl

/-- **The records of a step account for its time**, but for the fetch of a byte
that is no opcode. -/
theorem cycles_step_records (p : Processor β) :
    p.step.after.cycles =
      p.cycles + recordedCycles p.step.records + if p.step.fault = none then 0 else 1 := by
  set q := (p.lowerLines.enterAll p.interrupts).2
  have hentered : q.cycles = p.cycles + recordedCycles (p.lowerLines.enterAll p.interrupts).1 :=
    cycles_add_recordedCycles_enterAll p.interrupts p.lowerLines
  have hrecords : recordedCycles p.step.records =
      recordedCycles (p.lowerLines.enterAll p.interrupts).1 + recordedCycles q.execute.records :=
    recordedCycles_append _ _
  show q.execute.after.cycles =
    p.cycles + recordedCycles p.step.records + if q.execute.fault = none then 0 else 1
  rw [cycles_execute q, hentered, hrecords, Nat.add_assoc p.cycles]

/-- **The records of a step tell all of it**: which interrupts it entered and
which instruction it executed, where each began, how long it took, and what the
last one left. -/
theorem records_tell_all_of_a_step (p : Processor β) : p.step.Tells p := by
  obtain ⟨executed, hevents, hlength⟩ := events_step p
  rw [map_interrupts] at hevents
  exact {
    events := ⟨executed, hevents, hlength⟩
    interrupt_cycles := fun _ h _ hevent => cycles_of_mem_step h hevent
    linked := linked_step p
    last := fun h => last_step h
    cycles := cycles_step_records p
    bounds := fun h => cycles_step_mem h }

end Processor
end Mos6502
