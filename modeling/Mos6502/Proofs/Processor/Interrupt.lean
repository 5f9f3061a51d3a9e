/-
# Interrupts are transparent

An entry stacks the address to go on at and the flags; a return takes them from
the stack. So whatever a handler did, the program goes on where it was
interrupted and with its flags, if the frame is still there when the handler
returns (`resumes_interrupted`). Entries and breaks differ in the address and
in the byte that they stack, not in what is resumed.

Key definitions: `interrupted`, `returned`, `Resumes`, `ReturnsAtOnce`,
`ServesBoth`.
Key theorems: `enter_eq`, `execute_break`, `execute_return`,
`resumes_interrupted`, `interrupts_are_transparent`.
-/
import Mos6502.Proofs.Memory
import Mos6502.Proofs.Processor.Requests
import Mos6502.Proofs.Processor.Stack
import Mos6502.Proofs.Table

namespace Mos6502
namespace Processor

/-! ### Entries -/

/-- A processor that was interrupted: the address to go on at and a status byte
are stacked, and the handler is that of a vector. -/
def interrupted (p : Processor Memory) (address : UInt16) (byte : UInt8) (vector : UInt16)
    (status : Status) : Processor Memory :=
  { p with
    sp := p.sp - 3
    pc := wordAt (stacked p.bus p.sp address byte) vector
    status := status
    cycles := p.cycles + 7
    bus := stacked p.bus p.sp address byte }

theorem enter_eq (p : Processor Memory) (vector : UInt16) :
    p.enter vector =
      p.interrupted p.pc p.status.interruptByte vector { p.status with i := true } := by
  simp only [enter, push_pushWord]
  rfl

theorem execute_break {p : Processor Memory} (hcode : p.bus.read p.pc = 0x00) :
    p.execute.fault = none ∧ p.execute.after =
      p.interrupted (p.pc + 2) p.status.breakByte irqVector { p.status with b := true, i := true } := by
  have hop : Opcode.decode? (Bus.read p.bus p.pc) = some ⟨0x00, .brk, .implicit, 7⟩ := by
    rw [Memory.bus_read, hcode]
    exact Opcode.decode?_code ⟨0x00, .brk, .implicit, 7⟩ (by decide)
  have hpc : p.pc + 1 + 1 = p.pc + 2 := by grind
  rw [execute_eq_perform hop]
  refine ⟨rfl, ?_⟩
  show p.fetchByte.2.breakOff = _
  simp only [breakOff, push_pushWord, fetchByte, readByte, tick, hpc]
  rfl

/-- A processor that returned from an interrupt. -/
def returned (p : Processor Memory) (address : UInt16) (byte : UInt8) : Processor Memory :=
  { p with
    sp := p.sp + 3
    pc := address
    status := { Status.ofByte byte with b := false }
    cycles := p.cycles + 6 }

@[simp]
theorem bus_returned (p : Processor Memory) (address : UInt16) (byte : UInt8) :
    (p.returned address byte).bus = p.bus := rfl

@[simp]
theorem sp_returned (p : Processor Memory) (address : UInt16) (byte : UInt8) :
    (p.returned address byte).sp = p.sp + 3 := rfl

@[simp]
theorem pc_returned (p : Processor Memory) (address : UInt16) (byte : UInt8) :
    (p.returned address byte).pc = address := rfl

@[simp]
theorem lines_returned (p : Processor Memory) (address : UInt16) (byte : UInt8) :
    (p.returned address byte).lines = p.lines := rfl

/-- The return from an interrupt, as the table has it. -/
def returnOpcode : Opcode := ⟨0x40, .rti, .implicit, 6⟩

/-- A return from an interrupt restores what the stack holds. -/
theorem execute_return {p : Processor Memory} {address : UInt16} {byte : UInt8}
    (hcode : p.bus.read p.pc = 0x40) (hframe : Frame p.bus p.sp address byte) :
    p.execute =
      { records := [record p.pc p.cycles (.instruction returnOpcode) (p.returned address byte)]
        fault := none
        after := p.returned address byte } := by
  have hop : Opcode.decode? (Bus.read p.bus p.pc) = some returnOpcode := by
    rw [Memory.bus_read, hcode]
    exact Opcode.decode?_code returnOpcode (by decide)
  have htwo : p.sp + 1 + 1 = p.sp + 2 := by grind
  have hthree : p.sp + 2 + 1 = p.sp + 3 := by grind
  have hafter : p.fetchByte.2.returnFromInterrupt = p.returned address byte := by
    simp only [returnFromInterrupt, fetchByte, pull, pullWord, tick, readByte, htwo, hthree,
      Memory.bus_read, hframe.status_eq, hframe.low_eq, hframe.high_eq, Word.ofBytes_low_high]
    rfl
  rw [execute_eq_perform hop]
  show Step.mk [record p.pc p.cycles _ p.fetchByte.2.returnFromInterrupt] none
    p.fetchByte.2.returnFromInterrupt = _
  rw [hafter]

/-! ### Transparency -/

/-- A handler was entered and can be left again. From whatever it comes to in
between, when the stack pointer is where it was, the three stacked bytes are
what they were and a return from the interrupt is next, the processor goes on
where it is to resume, with the stack pointer and the flags from before and B
clear. -/
def Resumes (before : Processor Memory) (resume : UInt16) (entered : Processor Memory) : Prop :=
  ∀ q : Processor Memory, q.irqPending = false → q.nmiPending = false → q.sp = entered.sp →
    (∀ k ∈ [1, 2, 3], q.bus.read (stackAddress (entered.sp + k)) =
      entered.bus.read (stackAddress (entered.sp + k))) →
    q.bus.read q.pc = 0x40 →
    q.step = q.execute ∧ q.step.fault = none ∧ q.step.after.pc = resume ∧
      q.step.after.sp = before.sp ∧ q.step.after.status = { before.status with b := false }

/-- What was interrupted is resumed, if the stacked byte holds its flags. -/
theorem resumes_interrupted (p : Processor Memory) (address : UInt16) {byte : UInt8}
    (vector : UInt16) (status : Status)
    (hbyte : { Status.ofByte byte with b := false } = { p.status with b := false }) :
    Resumes p address (p.interrupted address byte vector status) := by
  intro q hirq hnmi hsp hbytes hcode
  have hpushed : Frame (stacked p.bus p.sp address byte) (p.sp - 3) address byte :=
    frame_stacked p.bus p.sp address byte
  have hsp' : q.sp = p.sp - 3 := hsp
  have hframe : Frame q.bus q.sp address byte := by
    rw [hsp']
    exact frame_of_eq hbytes hpushed
  have hback : q.sp + 3 = p.sp := by
    rw [hsp']
    grind
  rw [step_eq_execute hirq hnmi, execute_return hcode hframe]
  exact ⟨rfl, rfl, rfl, hback, hbyte⟩

theorem ofByte_interruptByte (s : Status) :
    { Status.ofByte s.interruptByte with b := false } = { s with b := false } := by
  rw [Status.interruptByte, Status.ofByte_toByte]

theorem ofByte_breakByte (s : Status) :
    { Status.ofByte s.breakByte with b := false } = { s with b := false } := by
  rw [Status.breakByte, Status.ofByte_toByte]

/-! ### Both lines -/

theorem pc_enter (p : Processor Memory) {vector : UInt16} (hlow : Word.page vector ≠ 1)
    (hhigh : Word.page (vector + 1) ≠ 1) : (p.enter vector).pc = wordAt p.bus vector := by
  rw [enter_eq]
  exact wordAt_stacked_of_page hlow hhigh _ _ _ _

theorem interrupts_eq_of_both {p : Processor Memory} (hirq : p.irqPending = true)
    (hnmi : p.nmiPending = true) (hi : p.status.i = false) :
    p.interrupts = [irqVector, nmiVector] := by
  rw [interrupts, hirq, hnmi, hi]
  rfl

/-- The handler of a vector lies outside page one and does nothing but return. -/
structure ReturnsAtOnce (m : Memory) (vector : UInt16) : Prop where
  page_ne : Word.page (wordAt m vector) ≠ 1
  code_eq : m.read (wordAt m vector) = 0x40

/-- The processor that was interrupted by a request. -/
def inIrq (p : Processor Memory) : Processor Memory := p.lowerLines.enter irqVector

/-- The processor that was interrupted by a request and then by the other line. -/
def inNmi (p : Processor Memory) : Processor Memory := p.inIrq.enter nmiVector

theorem inIrq_eq (p : Processor Memory) :
    p.inIrq = p.lowerLines.interrupted p.pc p.status.interruptByte irqVector
      { p.status with i := true } := enter_eq p.lowerLines irqVector

theorem inNmi_eq (p : Processor Memory) :
    p.inNmi = p.inIrq.interrupted p.inIrq.pc p.inIrq.status.interruptByte nmiVector
      { p.inIrq.status with i := true } := enter_eq p.inIrq nmiVector

theorem bus_inNmi (p : Processor Memory) :
    p.inNmi.bus = stacked (stacked p.bus p.sp p.pc p.status.interruptByte) (p.sp - 3) p.inIrq.pc
      p.inIrq.status.interruptByte := by
  rw [inNmi_eq, inIrq_eq]
  rfl

theorem pc_inIrq (p : Processor Memory) : p.inIrq.pc = wordAt p.bus irqVector :=
  pc_enter p.lowerLines (by decide) (by decide)

theorem pc_inNmi (p : Processor Memory) : p.inNmi.pc = wordAt p.bus nmiVector := by
  have hlow : Word.page nmiVector ≠ 1 := by decide
  have hhigh : Word.page (nmiVector + 1) ≠ 1 := by decide
  rw [inNmi, pc_enter p.inIrq hlow hhigh, inIrq_eq]
  exact wordAt_stacked_of_page hlow hhigh _ _ _ _

theorem read_bus_inNmi (p : Processor Memory) {address : UInt16} (h : Word.page address ≠ 1) :
    p.inNmi.bus.read address = p.bus.read address := by
  rw [bus_inNmi, read_stacked_of_page h, read_stacked_of_page h]

/-- The processor that then came back to the handler of the request. -/
def backInIrq (p : Processor Memory) : Processor Memory :=
  p.inNmi.returned p.inIrq.pc p.inIrq.status.interruptByte

theorem bus_backInIrq (p : Processor Memory) : p.backInIrq.bus = p.inNmi.bus := bus_returned _ _ _

theorem pc_backInIrq (p : Processor Memory) : p.backInIrq.pc = wordAt p.bus irqVector := by
  rw [backInIrq, pc_returned, pc_inIrq]

theorem sp_backInIrq (p : Processor Memory) : p.backInIrq.sp = p.sp - 3 := by
  have hback : p.sp - 3 - 3 + 3 = p.sp - 3 := by grind
  rw [backInIrq, sp_returned, inNmi_eq, inIrq_eq]
  exact hback

theorem lines_backInIrq (p : Processor Memory) : p.backInIrq.lines = (false, false) := by
  rw [backInIrq, lines_returned, inNmi, inIrq, lines_enter, lines_enter]
  rfl

/-- The first step enters both interrupts and runs the handler of the second. -/
theorem step_of_both {p : Processor Memory} (hirq : p.irqPending = true)
    (hnmi : p.nmiPending = true) (hi : p.status.i = false) (h : ReturnsAtOnce p.bus nmiVector) :
    p.step =
      { records :=
          [record p.pc p.cycles (.interrupt irqVector) p.inIrq,
            record p.inIrq.pc p.inIrq.cycles (.interrupt nmiVector) p.inNmi,
            record p.inNmi.pc p.inNmi.cycles (.instruction returnOpcode) p.backInIrq]
        fault := none
        after := p.backInIrq } := by
  have hcode : p.inNmi.bus.read p.inNmi.pc = 0x40 := by
    rw [pc_inNmi, read_bus_inNmi p h.page_ne, h.code_eq]
  have hframe : Frame p.inNmi.bus p.inNmi.sp p.inIrq.pc p.inIrq.status.interruptByte := by
    rw [inNmi_eq]
    exact frame_stacked _ _ _ _
  rw [step, interrupts_eq_of_both hirq hnmi hi]
  show Step.mk ([_, _] ++ p.inNmi.execute.records) p.inNmi.execute.fault p.inNmi.execute.after = _
  rw [execute_return hcode hframe]
  rfl

theorem step_backInIrq {p : Processor Memory} (h : ReturnsAtOnce p.bus irqVector) :
    p.backInIrq.step.fault = none ∧
      p.backInIrq.step.after = p.backInIrq.returned p.pc p.status.interruptByte := by
  have hcode : p.backInIrq.bus.read p.backInIrq.pc = 0x40 := by
    rw [bus_backInIrq, pc_backInIrq, read_bus_inNmi p h.page_ne, h.code_eq]
  have hframe : Frame p.backInIrq.bus p.backInIrq.sp p.pc p.status.interruptByte := by
    have hpushed := frame_stacked p.bus p.sp p.pc p.status.interruptByte
    rw [bus_backInIrq, sp_backInIrq, bus_inNmi]
    exact frame_stacked_of_frame hpushed _ _
  obtain ⟨hirq, hnmi⟩ := Prod.mk.inj (lines_backInIrq p)
  rw [step_eq_execute hirq hnmi, execute_return hcode hframe]
  exact ⟨rfl, rfl⟩

/-- After both steps all is as before, but for B, the lines and what was stacked. -/
theorem returned_backInIrq (p : Processor Memory) :
    p.backInIrq.returned p.pc p.status.interruptByte =
      { p with
        status := { p.status with b := false }
        cycles := p.cycles + 26
        irqPending := false
        nmiPending := false
        bus := p.inNmi.bus } := by
  have hsp : p.backInIrq.sp + 3 = p.sp := by
    rw [sp_backInIrq]
    grind
  have hstatus := ofByte_interruptByte p.status
  have hcycles : p.backInIrq.cycles = p.cycles + 20 := rfl
  obtain ⟨hirq, hnmi⟩ := Prod.mk.inj (lines_backInIrq p)
  rw [returned, hsp, hstatus, bus_backInIrq, hcycles, hirq, hnmi, backInIrq, inNmi_eq, inIrq_eq]
  rfl

/-- At most six bytes change, all on the stack. -/
theorem read_bus_inNmi_of_notMem (p : Processor Memory) {address : UInt16}
    (h : address ∉ frameAddresses p.sp ++ frameAddresses (p.sp - 3)) :
    p.inNmi.bus.read address = p.bus.read address := by
  rw [List.mem_append, not_or] at h
  rw [bus_inNmi, read_stacked_of_notMem h.2, read_stacked_of_notMem h.1]

/-- Two steps that serve both lines and leave no trace but in the flag B and
below the stack pointer. -/
structure ServesBoth (p : Processor Memory) : Prop where
  /-- The first step enters both handlers and runs the second. -/
  records_eq : p.step.records.map (fun r => (r.address, r.event)) =
    [(p.pc, .interrupt irqVector), (wordAt p.bus irqVector, .interrupt nmiVector),
      (wordAt p.bus nmiVector, .instruction returnOpcode)]
  fault_eq : p.step.fault = none
  /-- It leaves off at the handler of the request. -/
  pc_eq : p.step.after.pc = wordAt p.bus irqVector
  fault_second_eq : p.step.after.step.fault = none
  /-- It goes back with all registers, and all flags but B, as before. -/
  after_eq : p.step.after.step.after =
    { p with
      status := { p.status with b := false }
      cycles := p.cycles + 26
      irqPending := false
      nmiPending := false
      bus := p.step.after.step.after.bus }
  length_changes_le : (p.bus.changes p.step.after.step.after.bus).length ≤ 6
  page_changes_eq : ∀ entry ∈ p.bus.changes p.step.after.step.after.bus, Word.page entry.1 = 1

/-- Handlers that do nothing but return serve both lines. -/
theorem servesBoth_of_returnsAtOnce {p : Processor Memory} (hirq : p.irqPending = true)
    (hnmi : p.nmiPending = true) (hi : p.status.i = false) (hfirst : ReturnsAtOnce p.bus irqVector)
    (hsecond : ReturnsAtOnce p.bus nmiVector) : ServesBoth p := by
  have hstep := step_of_both hirq hnmi hi hsecond
  have hafter : p.step.after = p.backInIrq := by rw [hstep]
  obtain ⟨hfault, hreturned⟩ := step_backInIrq hfirst
  have hend := hreturned.trans (returned_backInIrq p)
  have hbus : p.backInIrq.step.after.bus = p.inNmi.bus := by rw [hend]
  refine ⟨?_, ?_, ?_, ?_, ?_, ?_, ?_⟩
  · have hsecondAddress : p.inIrq.pc = wordAt p.bus irqVector := pc_inIrq p
    have hthirdAddress : p.inNmi.pc = wordAt p.bus nmiVector := pc_inNmi p
    rw [hstep, ← hsecondAddress, ← hthirdAddress]
    rfl
  · rw [hstep]
  · rw [hafter, pc_backInIrq]
  · rw [hafter, hfault]
  · rw [hafter, hbus, hend]
  · rw [hafter, hbus]
    exact Memory.length_changes_le fun address => read_bus_inNmi_of_notMem p
  · rw [hafter, hbus]
    intro entry hentry
    by_contra hpage
    exact (Memory.mem_changes.mp hentry).1 (read_bus_inNmi p hpage).symm

/-- **Interrupts are transparent.** Every interrupt that a step enters, at
whatever stack pointer, is resumed where it was entered, and every break two
bytes on. If both lines are raised and both handlers return at once, two steps
lead back. -/
theorem interrupts_are_transparent (p : Processor Memory) :
    (∀ before vector after, p.interrupts = before ++ vector :: after →
      let q := (p.lowerLines.enterAll before).2
      p.step.after = ((q.enter vector).enterAll after).2.execute.after ∧
        Resumes q q.pc (q.enter vector)) ∧
    (p.bus.read p.pc = 0x00 →
      p.execute.fault = none ∧ Resumes p (p.pc + 2) p.execute.after) ∧
    (p.irqPending = true → p.nmiPending = true → p.status.i = false →
      ReturnsAtOnce p.bus irqVector → ReturnsAtOnce p.bus nmiVector → ServesBoth p) := by
  refine ⟨fun before vector after hvectors => ⟨?_, ?_⟩, fun hcode => ?_,
    servesBoth_of_returnsAtOnce⟩
  · have hstep : p.step.after = (p.lowerLines.enterAll p.interrupts).2.execute.after := rfl
    rw [hstep, hvectors, enterAll_append, enterAll_cons]
  · rw [enter_eq]
    exact resumes_interrupted _ _ _ _ (ofByte_interruptByte _)
  · obtain ⟨hfault, hafter⟩ := execute_break hcode
    rw [hafter]
    exact ⟨hfault, resumes_interrupted _ _ _ _ (ofByte_breakByte _)⟩

/-- Both lines are raised at a break, with handlers at 9000 and A000 that return
at once, and a stack that is about to wrap. -/
def breakUnderBothLines : Processor Memory where
  a := 0x12
  x := 0x34
  y := 0x56
  sp := 0x01
  pc := 0x8000
  status := ⟨true, false, false, true, false, true, true⟩
  cycles := 100
  irqPending := true
  nmiPending := true
  bus := Bus.writeAll .zero
    [(0xFFFB, 0xA0), (0xFFFF, 0x90), (0xA000, 0x40), (0x9000, 0x40)]

theorem wordAt_breakUnderBothLines :
    wordAt breakUnderBothLines.bus irqVector = 0x9000 ∧
      wordAt breakUnderBothLines.bus nmiVector = 0xA000 := by
  have hirq : breakUnderBothLines.bus.read irqVector = 0x00 ∧
      breakUnderBothLines.bus.read (irqVector + 1) = 0x90 := by
    simp [breakUnderBothLines, irqVector]
  have hnmi : breakUnderBothLines.bus.read nmiVector = 0x00 ∧
      breakUnderBothLines.bus.read (nmiVector + 1) = 0xA0 := by
    simp [breakUnderBothLines, nmiVector]
  rw [wordAt, wordAt, hirq.1, hirq.2, hnmi.1, hnmi.2]
  decide

theorem returnsAtOnce_breakUnderBothLines :
    ReturnsAtOnce breakUnderBothLines.bus irqVector ∧
      ReturnsAtOnce breakUnderBothLines.bus nmiVector := by
  obtain ⟨hirq, hnmi⟩ := wordAt_breakUnderBothLines
  have hcodes : breakUnderBothLines.bus.read 0x9000 = 0x40 ∧
      breakUnderBothLines.bus.read 0xA000 = 0x40 := by
    simp [breakUnderBothLines]
  refine ⟨⟨?_, ?_⟩, ⟨?_, ?_⟩⟩
  · rw [hirq]
    decide
  · rw [hirq, hcodes.1]
  · rw [hnmi]
    decide
  · rw [hnmi, hcodes.2]

/-- A processor that has used a register and a byte of memory. -/
def worked (p : Processor Memory) (a : UInt8) (address : UInt16) (value : UInt8) :
    Processor Memory :=
  { p with a := a, irqPending := false, nmiPending := false, bus := p.bus.write address value }

/-- A handler that leaves the stack as it is goes back when it returns. -/
theorem Resumes.of_worked {before entered : Processor Memory} {resume : UInt16}
    (h : Resumes before resume entered) (a : UInt8) {address : UInt16} (value : UInt8)
    (hpage : Word.page address ≠ 1) (hne : address ≠ entered.pc)
    (hcode : entered.bus.read entered.pc = 0x40) :
    (entered.worked a address value).step.after.pc = resume ∧
      (entered.worked a address value).step.after.sp = before.sp := by
  have hframe : ∀ k ∈ ([1, 2, 3] : List UInt8),
      (entered.bus.write address value).read (stackAddress (entered.sp + k)) =
        entered.bus.read (stackAddress (entered.sp + k)) := by
    intro k _
    rw [Memory.read_write, if_neg (stackAddress_ne hpage _).symm]
  have hreturn : (entered.bus.write address value).read entered.pc = 0x40 := by
    rw [Memory.read_write, if_neg hne, hcode]
  obtain ⟨-, -, hpc, hsp, -⟩ := h (entered.worked a address value) rfl rfl rfl hframe hreturn
  exact ⟨hpc, hsp⟩

/-- Handlers may use memory and registers: the second interrupt goes back to the
first, a break two bytes on, and two steps serve both lines. -/
theorem breakUnderBothLines_is_transparent :
    let p := breakUnderBothLines
    let inSecond := p.inNmi.worked 0x07 0x0300 0x55
    let inBreak := p.execute.after.worked 0x08 0x0300 0x66
    (inSecond.step.after.pc = p.inIrq.pc ∧ inSecond.step.after.sp = p.inIrq.sp) ∧
      (inBreak.step.after.pc = 0x8002 ∧ inBreak.step.after.sp = 0x01) ∧ ServesBoth p := by
  intro p inSecond inBreak
  obtain ⟨hinterrupt, hbreak, hboth⟩ := interrupts_are_transparent p
  obtain ⟨hfirst, hsecond⟩ := returnsAtOnce_breakUnderBothLines
  obtain ⟨hirqAddress, hnmiAddress⟩ := wordAt_breakUnderBothLines
  have hoff : Word.page 0x0300 ≠ 1 := by decide
  refine ⟨?_, ?_, hboth rfl rfl rfl hfirst hsecond⟩
  · obtain ⟨-, hresumes⟩ := hinterrupt [irqVector] nmiVector [] rfl
    have hpc : p.inNmi.pc = 0xA000 := (pc_inNmi p).trans hnmiAddress
    have hne : 0x0300 ≠ p.inNmi.pc := by
      rw [hpc]
      decide
    have hcode : p.inNmi.bus.read p.inNmi.pc = 0x40 := by
      rw [pc_inNmi, read_bus_inNmi p hsecond.page_ne, hsecond.code_eq]
    rw [enterAll_cons] at hresumes
    exact Resumes.of_worked hresumes 0x07 0x55 hoff hne hcode
  · have hbrk : p.bus.read p.pc = 0x00 := by
      simp [p, breakUnderBothLines]
    obtain ⟨-, hresumes⟩ := hbreak hbrk
    have hpc : p.execute.after.pc = wordAt p.bus irqVector := by
      rw [(execute_break hbrk).2]
      exact wordAt_stacked_of_page (by decide) (by decide) _ _ _ _
    have hne : 0x0300 ≠ p.execute.after.pc := by
      rw [hpc, hirqAddress]
      decide
    have hcode : p.execute.after.bus.read p.execute.after.pc = 0x40 := by
      rw [hpc, (execute_break hbrk).2]
      exact (read_stacked_of_page hfirst.page_ne _ _ _ _).trans hfirst.code_eq
    exact Resumes.of_worked hresumes 0x08 0x66 hoff hne hcode

end Processor
end Mos6502
