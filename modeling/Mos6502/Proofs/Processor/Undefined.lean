/-
# Bytes that are no opcode

A step fails just when the byte that it comes to behind its interrupts is none of the table,
since no instruction fails. The fetch of that byte is then all that it has done, and the next
step goes on at the byte behind it. It does what it would have done had the byte never been
there, because no step depends on the time at which it is made (`step_delayed`): an
instruction and the records of it count the cycles from where they begin.

Key definitions: `delayed`, `afterEntries`, `OnlyFetches`.
Key theorems: `perform_delayed`, `step_delayed`, `steps_delayed`, `step_fault_ne_none_iff`,
`undefined_opcodes_are_only_fetched`.
-/
import Mos6502.Proofs.Processor.Trace
import Mos6502.Proofs.Processor.Writes

namespace Mos6502

universe u

namespace Processor

variable {β : Type u}

/-- The processor when more cycles have been spent before. -/
def delayed (count : Nat) (p : Processor β) : Processor β :=
  { p with cycles := p.cycles + count }

end Processor

/-- The step when more cycles have been spent before. -/
def Step.delayed {β : Type u} (count : Nat) (s : Step β) : Step β :=
  { s with after := s.after.delayed count }

/-- The steps when more cycles have been spent before. -/
def Processor.Steps.delayed {β : Type u} (count : Nat) (s : Processor.Steps β) :
    Processor.Steps β :=
  { s with after := s.after.delayed count }

theorem Opcode.decode?_eq_none_iff {code : UInt8} :
    Opcode.decode? code = none ↔ code ∉ Opcode.documented.map Opcode.code := by
  rw [Opcode.decode?_eq_find?, List.find?_eq_none]
  simp

namespace Processor

variable {β : Type u}

/-! ### What the law says -/

/-- The processor that has entered the interrupts that wait: a request if I is clear, and then
a non-maskable interrupt. -/
def afterEntries [Bus β] (p : Processor β) : Processor β :=
  let requested :=
    if p.irqPending && !p.status.i then p.lowerLines.enter irqVector else p.lowerLines
  if p.nmiPending then requested.enter nmiVector else requested

/-- The processor at the byte behind the one that it is at. -/
def behind (p : Processor β) : Processor β := { p with pc := p.pc + 1 }

@[simp]
theorem pc_behind (p : Processor β) : p.behind.pc = p.pc + 1 := rfl

@[simp]
theorem bus_behind (p : Processor β) : p.behind.bus = p.bus := rfl

/-- The step of a processor failed, when it had come to another one by its interrupts, and did
nothing more than fetch a byte. -/
structure OnlyFetches [Bus β] (p q : Processor β) : Prop where
  /-- The error tells the byte and where it was. -/
  fault_eq : p.step.fault = some ⟨Bus.read q.bus q.pc, q.pc⟩
  /-- The program counter has gone on by one and so have the cycles, all else is as it was. -/
  after_eq : p.step.after = { q with pc := q.pc + 1, cycles := q.cycles + 1 }
  events_eq : p.step.records.map Record.event = p.interrupts.map Event.interrupt
  /-- The next step executes the byte behind it, as it would if it had come to that one. -/
  next_eq : p.step.after.step = q.behind.execute.delayed 1
  /-- So do steps in any number. -/
  steps_eq : ∀ limit, p.step.after.steps limit = (q.behind.steps limit).delayed 1

/-! ### Steps at another time -/

theorem interrupts_delayed (count : Nat) (p : Processor β) :
    (p.delayed count).interrupts = p.interrupts := rfl

theorem lowerLines_delayed (count : Nat) (p : Processor β) :
    (p.delayed count).lowerLines = p.lowerLines.delayed count := rfl

/-- A record counts the cycles from its beginning. -/
theorem record_delayed (count : Nat) (address : UInt16) (start : Nat) (event : Event)
    (p : Processor β) :
    record address (start + count) event (p.delayed count) = record address start event p := by
  simp only [record, delayed, Nat.add_sub_add_right]

variable [Bus β]

theorem operandAddress_delayed (count : Nat) (p : Processor β) (operand : UInt16)
    (mode : AddressingMode) :
    (p.delayed count).operandAddress operand mode = p.operandAddress operand mode := by
  cases mode <;> rfl

theorem operationExtra_delayed (count : Nat) (p : Processor β) (operand : UInt16)
    (mode : AddressingMode) (operation : Operation) :
    (p.delayed count).operationExtra operand mode operation =
      p.operationExtra operand mode operation := by
  cases operation <;> rfl

theorem fetchByte_delayed (count : Nat) (p : Processor β) :
    (p.delayed count).fetchByte = (p.fetchByte.1, p.fetchByte.2.delayed count) := by
  simp only [fetchByte, readByte, tick, delayed, Nat.add_right_comm]

/-- What an operation does but for its time does not depend on the time. -/
theorem perform_delayed_eq (count : Nat) (p : Processor β) (operation : Operation)
    (mode : AddressingMode) :
    (p.delayed count).perform operation mode = { p.perform operation mode with
      cycles := ((p.delayed count).perform operation mode).cycles } := by
  cases operation with
  | add | subtract | combine | compare | testBits =>
    simp only [perform, add, subtract, combine, compare, testBits]
    rw [operand_eq, operand_eq p, operandAddress_delayed]
    rfl
  | load register =>
    simp only [perform, load]
    rw [operand_eq, operand_eq p, operandAddress_delayed]
    cases register <;> rfl
  | store register =>
    simp only [perform, store]
    rw [effectiveAddress_eq, effectiveAddress_eq p, operandAddress_delayed]
    cases register <;> rfl
  | countMemory count =>
    simp only [perform, countMemory]
    rw [effectiveAddress_eq, effectiveAddress_eq p, operandAddress_delayed]
    rfl
  | jump =>
    simp only [perform, jump]
    rw [effectiveAddress_eq, effectiveAddress_eq p, operandAddress_delayed]
    rfl
  | shift s =>
    simp only [perform, shift]
    split
    · rfl
    · rw [effectiveAddress_eq, effectiveAddress_eq p, operandAddress_delayed]
      rfl
  | branch flag value =>
    simp only [perform]
    rw [branch_eq, branch_eq p]
    rfl
  | countRegister register count => cases register <;> rfl
  | transfer source target =>
    cases source <;> cases target <;> rfl
  | call | returnFromCall | «break» | returnFromInterrupt | idle | pushAccumulator | pushStatus
  | pullAccumulator | pullStatus | setFlag => rfl

/-- **An operation takes the same time at any time**, and does the same. -/
theorem perform_delayed (count : Nat) (p : Processor β) (operation : Operation)
    (mode : AddressingMode) :
    (p.delayed count).perform operation mode = (p.perform operation mode).delayed count := by
  have hcycles : ((p.delayed count).perform operation mode).cycles =
      (p.perform operation mode).cycles + count := by
    have hspent : (p.delayed count).cycles = p.cycles + count := rfl
    have hpc : (p.delayed count).pc = p.pc := rfl
    rw [cycles_perform, cycles_perform, operationExtra_delayed, hspent, hpc]
    omega
  rw [perform_delayed_eq, hcycles]
  rfl

theorem execute_delayed (count : Nat) (p : Processor β) :
    (p.delayed count).execute = p.execute.delayed count := by
  have hread : Bus.read (p.delayed count).bus (p.delayed count).pc = Bus.read p.bus p.pc := rfl
  have hfetch := congrArg Prod.snd (fetchByte_delayed count p)
  cases hop : Opcode.decode? (Bus.read p.bus p.pc) with
  | none =>
    rw [execute_of_undefined hop, execute_of_undefined (hread ▸ hop), hfetch]
    rfl
  | some op =>
    rw [execute_eq_perform hop, execute_eq_perform (hread ▸ hop), hfetch]
    simp only [perform_delayed]
    refine congrArg (Step.mk · none _) (congrArg (· :: []) ?_)
    exact record_delayed count p.pc p.cycles _ _

theorem enter_delayed (count : Nat) (p : Processor β) (vector : UInt16) :
    (p.delayed count).enter vector = (p.enter vector).delayed count := by
  have hcycles := cycles_enter (p.delayed count) vector
  have hspent : (p.delayed count).cycles + 7 = (p.enter vector).cycles + count := by
    rw [cycles_enter]
    exact Nat.add_right_comm ..
  have hrest : (p.delayed count).enter vector =
      { p.enter vector with cycles := ((p.delayed count).enter vector).cycles } := rfl
  rw [hrest, hcycles, hspent]
  rfl

theorem enterAll_delayed (count : Nat) (vectors : List UInt16) (p : Processor β) :
    (p.delayed count).enterAll vectors =
      ((p.enterAll vectors).1, (p.enterAll vectors).2.delayed count) := by
  induction vectors generalizing p with
  | nil => rfl
  | cons vector vectors ih =>
    simp only [enterAll, enter_delayed, ih]
    exact Prod.ext (congrArg (· :: _) (record_delayed count p.pc p.cycles _ _)) rfl

/-- **A step is the same at any time.** -/
theorem step_delayed (count : Nat) (p : Processor β) :
    (p.delayed count).step = p.step.delayed count := by
  simp only [step, interrupts_delayed, lowerLines_delayed, enterAll_delayed, execute_delayed]
  rfl

theorem steps_delayed (limit count : Nat) (p : Processor β) :
    (p.delayed count).steps limit = (p.steps limit).delayed count := by
  induction limit generalizing p with
  | zero => rfl
  | succ limit ih =>
    have hstep := step_delayed count p
    cases hfault : p.step.fault with
    | some fault =>
      have hfault' : (p.delayed count).step.fault = some fault := by rw [hstep]; exact hfault
      rw [steps_of_fault hfault, steps_of_fault hfault', hstep]
      rfl
    | none =>
      have hfault' : (p.delayed count).step.fault = none := by rw [hstep]; exact hfault
      have hafter : (p.delayed count).step.after = p.step.after.delayed count := by rw [hstep]; rfl
      rw [steps_of_step hfault, steps_of_step hfault', hafter, ih]
      rfl

/-! ### Steps that fail -/

theorem enterAll_interrupts (p : Processor β) :
    (p.lowerLines.enterAll p.interrupts).2 = p.afterEntries := by
  unfold interrupts afterEntries
  cases p.irqPending <;> cases p.status.i <;> cases p.nmiPending <;> rfl

theorem lines_afterEntries (p : Processor β) : p.afterEntries.lines = (false, false) := by
  rw [← enterAll_interrupts]
  exact lines_enterAll p.interrupts p.lowerLines

/-- Behind its interrupts a step executes an instruction. -/
theorem step_eq_execute_afterEntries (p : Processor β) :
    p.step.fault = p.afterEntries.execute.fault ∧ p.step.after = p.afterEntries.execute.after ∧
      p.step.records = (p.lowerLines.enterAll p.interrupts).1 ++ p.afterEntries.execute.records := by
  rw [← enterAll_interrupts]
  exact ⟨rfl, rfl, rfl⟩

/-- **A step fails just when it comes to a byte that is no opcode.** -/
theorem step_fault_ne_none_iff (p : Processor β) :
    p.step.fault ≠ none ↔
      Opcode.decode? (Bus.read p.afterEntries.bus p.afterEntries.pc) = none := by
  rw [(step_eq_execute_afterEntries p).1]
  cases hop : Opcode.decode? (Bus.read p.afterEntries.bus p.afterEntries.pc) with
  | none =>
    rw [execute_of_undefined hop]
    exact iff_of_true (Option.some_ne_none _) rfl
  | some op =>
    rw [execute_eq_perform hop]
    exact iff_of_false (not_not_intro rfl) (Option.some_ne_none _)

theorem onlyFetches_of_undefined {p : Processor β}
    (h : Opcode.decode? (Bus.read p.afterEntries.bus p.afterEntries.pc) = none) :
    p.OnlyFetches p.afterEntries := by
  obtain ⟨hfault, hafter, hrecords⟩ := step_eq_execute_afterEntries p
  obtain ⟨hirq, hnmi⟩ := Prod.mk.inj (lines_afterEntries p)
  rw [execute_of_undefined h] at hfault hafter hrecords
  -- the byte behind is met a cycle later than it would be without this one
  have hdelayed : p.step.after = p.afterEntries.behind.delayed 1 := hafter
  refine ⟨hfault, hafter, ?_, ?_, fun limit => ?_⟩
  · rw [hrecords, List.append_nil, events_enterAll]
  · rw [hdelayed, step_delayed]
    exact congrArg (Step.delayed 1) (step_eq_execute hirq hnmi)
  · rw [hdelayed, steps_delayed]

/-- **A byte that is no opcode is only fetched.** A step fails just when the byte that it comes
to behind its interrupts is none of the table. It then tells the byte and where it was, has
moved nothing but the program counter and the cycles, each by one, and has recorded no
instruction. Further steps do what they would do had the byte never been there. -/
theorem undefined_opcodes_are_only_fetched (p : Processor β) :
    let q := p.afterEntries
    (p.step.fault ≠ none ↔ Bus.read q.bus q.pc ∉ Opcode.documented.map Opcode.code) ∧
      (p.step.fault ≠ none → p.OnlyFetches q) :=
  ⟨(step_fault_ne_none_iff p).trans Opcode.decode?_eq_none_iff,
    fun h => onlyFetches_of_undefined ((step_fault_ne_none_iff p).mp h)⟩

/-- Both lines are raised, and the handler of the non-maskable interrupt lies where its entry
stacks. -/
def stackedOver : Processor Memory :=
  { powerOn (Bus.writeAll .zero [(0xFFFA, 0xF8), (0xFFFB, 0x01), (0xFFFE, 0xEA), (0xFFFF, 0x80)]) with
    pc := 0x4000
    status := ⟨false, false, false, false, false, true, true⟩
    irqPending := true
    nmiPending := true }

/-- The processor at the handler of the interrupt request. -/
def inRequest : Processor Memory := stackedOver.lowerLines.enter irqVector

theorem bus_inRequest : inRequest.bus = Bus.writeAll stackedOver.bus
    [(0x01FD, 0x40), (0x01FC, 0x00), (0x01FB, 0x23)] := by
  have hframe : frameWrites 0xFD 0x4000 ((0x23 ||| 0x20) &&& ~~~0x10) =
      [(0x01FD, 0x40), (0x01FC, 0x00), (0x01FB, 0x23)] := by decide
  rw [← hframe]
  exact bus_enter stackedOver.lowerLines irqVector

theorem pc_inRequest : inRequest.pc = 0x80EA := by
  have hpc : inRequest.pc = Bus.word inRequest.bus irqVector := rfl
  have hlow : Bus.read inRequest.bus irqVector = 0xEA := by
    simp [bus_inRequest, stackedOver, powerOn, reset, irqVector]
  have hhigh : Bus.read inRequest.bus (irqVector + 1) = 0x80 := by
    simp [bus_inRequest, stackedOver, powerOn, reset, irqVector]
  rw [hpc, Bus.word, hlow, hhigh]
  decide

/-- The processor at the handler of the non-maskable interrupt. -/
def inHandler : Processor Memory := inRequest.enter nmiVector

theorem bus_inHandler : inHandler.bus = Bus.writeAll inRequest.bus
    [(0x01FA, 0x80), (0x01F9, 0xEA), (0x01F8, 0x27)] := by
  have hframe : frameWrites 0xFA 0x80EA ((0x27 ||| 0x20) &&& ~~~0x10) =
      [(0x01FA, 0x80), (0x01F9, 0xEA), (0x01F8, 0x27)] := by decide
  rw [← hframe, ← pc_inRequest]
  exact bus_enter inRequest nmiVector

theorem pc_inHandler : inHandler.pc = 0x01F8 := by
  have hpc : inHandler.pc = Bus.word inHandler.bus nmiVector := rfl
  have hlow : Bus.read inHandler.bus nmiVector = 0xF8 := by
    simp [bus_inHandler, bus_inRequest, stackedOver, powerOn, reset, nmiVector]
  have hhigh : Bus.read inHandler.bus (nmiVector + 1) = 0x01 := by
    simp [bus_inHandler, bus_inRequest, stackedOver, powerOn, reset, nmiVector]
  rw [hpc, Bus.word, hlow, hhigh]
  decide

/-- The handler begins with the stacked status byte, which is no opcode, and goes on with a
stacked byte of the address, which is one. -/
theorem stackedOver_is_only_fetched :
    stackedOver.step.fault = some ⟨0x27, 0x01F8⟩ ∧ stackedOver.step.after.pc = 0x01F9 ∧
      stackedOver.step.after.cycles = 15 ∧ stackedOver.step.after.step.fault = none ∧
      stackedOver.step.after.step.after.pc = 0x01FA := by
  have hentered : stackedOver.afterEntries = inHandler := rfl
  have hcode : Bus.read inHandler.bus inHandler.pc = 0x27 := by
    rw [pc_inHandler]
    simp [bus_inHandler]
  have hnext : Bus.read inHandler.behind.bus inHandler.behind.pc = 0xEA := by
    rw [bus_behind, pc_behind, pc_inHandler]
    simp [bus_inHandler]
  have hnop : Opcode.decode? (Bus.read inHandler.behind.bus inHandler.behind.pc) =
      some ⟨0xEA, .nop, .implicit, 2⟩ := by
    rw [hnext]
    exact Opcode.decode?_code ⟨0xEA, .nop, .implicit, 2⟩ (by decide)
  obtain ⟨hiff, honly⟩ := undefined_opcodes_are_only_fetched stackedOver
  rw [hentered] at hiff honly
  have hfails : stackedOver.step.fault ≠ none := by
    rw [hiff, hcode]
    decide +kernel
  obtain ⟨hfault, hafter, -, hagain, -⟩ := honly hfails
  rw [execute_eq_perform hnop] at hagain
  rw [hcode, pc_inHandler] at hfault
  refine ⟨hfault, ?_, ?_, ?_, ?_⟩
  · rw [hafter, pc_inHandler]
    rfl
  · rw [hafter]
    rfl
  · rw [hagain]
    rfl
  · rw [hagain]
    show inHandler.pc + 1 + 1 = 0x01FA
    rw [pc_inHandler]
    rfl

end Processor
end Mos6502
