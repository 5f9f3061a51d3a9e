/-
# What a step writes

A step stacks a frame for each interrupt that it enters; its instruction then
writes what its opcode says and nothing else (`stepWrites`). The writes are a
list, in order, so that none is stray, doubled or out of place on a bus that
minds. An instruction that is in no such list leaves its bus alone, and so does a
run of them (`bus_of_quietly`).

Key definitions: `frameWrites`, `opcodeWrites`, `stepWrites`, `Quiet`, `Quietly`.
Key theorems: `bus_perform`, `bus_execute`, `bus_step`, `bus_of_quietly`,
`steps_write_what_they_say`.
-/
import Mos6502.Bus.Recorder
import Mos6502.Proofs.Processor.Operand
import Mos6502.Proofs.Processor.Requests
import Mos6502.Proofs.Processor.Time
import Mos6502.Proofs.Word

namespace Mos6502

universe u

/-! ### What the law says -/

/-- The instruction is one of those that write, in a mode in which it does. -/
def Opcode.writes (op : Opcode) : Bool :=
  op.mnemonic ∈ [.sta, .stx, .sty, .inc, .dec, .pha, .php, .jsr, .brk] ||
    op.mnemonic ∈ [.asl, .lsr, .rol, .ror] && op.mode != .accumulator

namespace Processor

/-- The writes that stack an address, high byte first. -/
def addressWrites (sp : UInt8) (address : UInt16) : List (UInt16 × UInt8) :=
  [(0x0100 ||| sp.toUInt16, Word.high address), (0x0100 ||| (sp - 1).toUInt16, Word.low address)]

/-- The writes that stack an address and then a status byte. -/
def frameWrites (sp : UInt8) (address : UInt16) (byte : UInt8) : List (UInt16 × UInt8) :=
  addressWrites sp address ++ [(0x0100 ||| (sp - 2).toUInt16, byte)]

variable {β : Type u} [Bus β]

/-- The writes of an instruction whose opcode is at the program counter. -/
def opcodeWrites (p : Processor β) (op : Opcode) : List (UInt16 × UInt8) :=
  let address := p.operandAddress (p.pc + 1) op.mode
  let value := Bus.read p.bus address
  let carry : UInt8 := if p.status.c then 1 else 0
  let inMemory result := if op.mode = .accumulator then [] else [(address, result)]
  match op.mnemonic with
  | .sta => [(address, p.a)]
  | .stx => [(address, p.x)]
  | .sty => [(address, p.y)]
  | .inc => [(address, value + 1)]
  | .dec => [(address, value - 1)]
  | .asl => inMemory (value <<< 1)
  | .lsr => inMemory (value >>> 1)
  | .rol => inMemory (value <<< 1 ||| carry)
  | .ror => inMemory (value >>> 1 ||| carry <<< 7)
  | .pha => [(0x0100 ||| p.sp.toUInt16, p.a)]
  | .php => [(0x0100 ||| p.sp.toUInt16, p.status.toByte ||| 0x30)]
  | .jsr => addressWrites p.sp (p.pc + 2)
  | .brk => frameWrites p.sp (p.pc + 2) (p.status.toByte ||| 0x30)
  | _ => []

/-- The writes of the instruction at the program counter. A byte that is no
opcode writes nothing. -/
def instructionWrites (p : Processor β) : List (UInt16 × UInt8) :=
  match Opcode.decode? (Bus.read p.bus p.pc) with
  | none => []
  | some op => p.opcodeWrites op

/-- The writes of interrupts that are entered one after the other. -/
def entryWrites (p : Processor β) : List UInt16 → List (UInt16 × UInt8)
  | [] => []
  | vector :: vectors =>
    frameWrites p.sp p.pc ((p.status.toByte ||| 0x20) &&& ~~~0x10) ++
      (p.enter vector).entryWrites vectors

/-- The writes of a step. -/
def stepWrites (p : Processor β) : List (UInt16 × UInt8) :=
  p.lowerLines.entryWrites p.interrupts ++
    (p.lowerLines.enterAll p.interrupts).2.instructionWrites

/-- The next step enters no interrupt and executes no instruction that writes. -/
structure Quiet (p : Processor β) : Prop where
  /-- No interrupt waits, or it is masked. -/
  interrupts_eq : p.interrupts = []
  /-- The byte at the program counter is no opcode that writes. -/
  writes_eq : ∀ op, Opcode.decode? (Bus.read p.bus p.pc) = some op → op.writes = false

/-- All steps among the calls are quiet. -/
def Quietly (p : Processor β) : List Call → Prop
  | [] => True
  | call :: calls => (call = .step → p.Quiet) ∧ (call.apply p).Quietly calls

end Processor

/-! ### Bytes -/

theorem Status.interruptByte_eq (s : Status) :
    s.interruptByte = (s.toByte ||| 0x20) &&& ~~~0x10 := by
  obtain ⟨n, v, b, d, i, z, c⟩ := s
  revert n v b d i z c
  decide

theorem Status.breakByte_eq (s : Status) : s.breakByte = s.toByte ||| 0x30 := by
  obtain ⟨n, v, b, d, i, z, c⟩ := s
  revert n v b d i z c
  decide

theorem Status.stacked_bits (s : Status) :
    ((s.toByte ||| 0x20) &&& ~~~0x10) &&& 0x30 = 0x20 ∧ (s.toByte ||| 0x30) &&& 0x30 = 0x30 := by
  obtain ⟨n, v, b, d, i, z, c⟩ := s
  revert n v b d i z c
  decide

theorem Shift.fst_apply (value : UInt8) (carry : Bool) :
    let bit : UInt8 := if carry then 1 else 0
    (Shift.asl.apply value carry).1 = value <<< 1 ∧
      (Shift.lsr.apply value carry).1 = value >>> 1 ∧
      (Shift.rol.apply value carry).1 = value <<< 1 ||| bit ∧
      (Shift.ror.apply value carry).1 = value >>> 1 ||| bit <<< 7 := by
  revert value
  cases carry with
  | false => exact Word.forall_byte (by decide +kernel)
  | true => exact Word.forall_byte (by decide +kernel)

namespace Processor

theorem stackAddress_eq_or (sp : UInt8) : stackAddress sp = 0x0100 ||| sp.toUInt16 := by
  revert sp
  exact Word.forall_byte (by decide +kernel)

variable {β : Type u}

theorem bus_transfer (p : Processor β) (source target : ByteRegister) :
    (p.transfer source target).bus = p.bus := by
  cases target <;> rfl

variable [Bus β]

/-! ### The stack -/

theorem bus_push (p : Processor β) (value : UInt8) :
    (p.push value).bus = Bus.writeAll p.bus [(0x0100 ||| p.sp.toUInt16, value)] := by
  rw [← stackAddress_eq_or]
  rfl

theorem bus_pushWord (p : Processor β) (address : UInt16) :
    (p.pushWord address).bus = Bus.writeAll p.bus (addressWrites p.sp address) := by
  simp only [addressWrites, ← stackAddress_eq_or]
  rfl

theorem bus_frame (p : Processor β) (address : UInt16) (byte : UInt8) :
    ((p.pushWord address).push byte).bus =
      Bus.writeAll p.bus (frameWrites p.sp address byte) := by
  have hsp : p.sp - 2 = p.sp - 1 - 1 := by grind
  rw [frameWrites, Bus.writeAll_append, ← bus_pushWord, hsp]
  exact bus_push (p.pushWord address) byte

/-! ### Instructions -/

/-- The writes of an operation, where the bytes after the opcode come next. -/
def operationWrites (p : Processor β) (mode : AddressingMode) :
    Operation → List (UInt16 × UInt8)
  | .store register => [(p.operandAddress p.pc mode, p.byte register)]
  | .countMemory count =>
    let address := p.operandAddress p.pc mode
    [(address, count.apply (Bus.read p.bus address))]
  | .shift shift =>
    let address := p.operandAddress p.pc mode
    if mode = .accumulator then []
    else [(address, (shift.apply (Bus.read p.bus address) p.status.c).1)]
  | .pushAccumulator => [(0x0100 ||| p.sp.toUInt16, p.a)]
  | .pushStatus => [(0x0100 ||| p.sp.toUInt16, p.status.breakByte)]
  | .call => addressWrites p.sp (p.pc + 1)
  | .break => frameWrites p.sp (p.pc + 1) p.status.breakByte
  | _ => []

theorem bus_operand (p : Processor β) (mode : AddressingMode) : (p.operand mode).2.bus = p.bus := by
  rw [operand_eq]

theorem bus_shift (p : Processor β) (s : Shift) (mode : AddressingMode) :
    (p.shift s mode).bus = Bus.writeAll p.bus (p.operationWrites mode (.shift s)) := by
  by_cases hmode : mode = .accumulator
  · simp only [shift, operationWrites, hmode, if_true]
    rfl
  · simp only [shift, operationWrites, hmode, if_false]
    rw [effectiveAddress_eq]
    rfl

/-- **What an operation writes.** -/
theorem bus_perform (p : Processor β) (operation : Operation) (mode : AddressingMode) :
    (p.perform operation mode).bus = Bus.writeAll p.bus (p.operationWrites mode operation) := by
  cases operation with
  | add | subtract | combine | compare | testBits => exact bus_operand p mode
  | load register => exact (bus_setByte _ register _).trans (bus_operand p mode)
  | store register =>
    simp only [perform, store]
    rw [effectiveAddress_eq]
    cases register <;> rfl
  | countMemory count =>
    simp only [perform, countMemory]
    rw [effectiveAddress_eq]
    rfl
  | countRegister register count => exact bus_setByte p.tick register _
  | branch flag value =>
    simp only [perform]
    rw [branch_eq]
    rfl
  | shift s => exact bus_shift p s mode
  | jump =>
    simp only [perform, jump]
    rw [effectiveAddress_eq]
    rfl
  | transfer source target => exact bus_transfer p source target
  | call =>
    have hbus : p.call.bus = (p.fetchByte.2.tick.pushWord (p.pc + 1)).bus := rfl
    rw [perform, hbus, bus_pushWord]
    rfl
  | «break» =>
    have hbus : p.breakOff.bus =
        ((p.fetchByte.2.pushWord (p.pc + 1)).push p.status.breakByte).bus := rfl
    rw [perform, hbus, bus_frame]
    rfl
  | pushAccumulator => exact bus_push p.tick p.a
  | pushStatus => exact bus_push p.tick p.status.breakByte
  | returnFromCall | returnFromInterrupt | idle | setFlag | pullAccumulator | pullStatus => rfl

/-- What an operation writes after the fetch of its opcode is what the law says of
the opcode. -/
theorem operationWrites_fetchByte (p : Processor β) (op : Opcode) :
    p.fetchByte.2.operationWrites op.mode op.mnemonic.operation = p.opcodeWrites op := by
  have hbus : p.fetchByte.2.bus = p.bus := rfl
  have hstatus : p.fetchByte.2.status = p.status := rfl
  have hpc : p.fetchByte.2.pc = p.pc + 1 := rfl
  have hnext : p.pc + 1 + 1 = p.pc + 2 := by grind
  obtain ⟨code, m, mode, base⟩ := op
  cases m with
  | asl | lsr | rol | ror =>
    simp only [Mnemonic.operation, operationWrites, opcodeWrites, hbus, hstatus, hpc,
      operandAddress_fetchByte, Shift.fst_apply]
  | jsr | brk | php =>
    simp only [Mnemonic.operation, operationWrites, opcodeWrites, hstatus, hpc, hnext,
      Status.breakByte_eq]
    rfl
  | _ => rfl

theorem opcodeWrites_of_not (p : Processor β) {op : Opcode} (h : op.writes = false) :
    p.opcodeWrites op = [] := by
  obtain ⟨code, m, mode, base⟩ := op
  cases m with
  | asl | lsr | rol | ror =>
    have hmode : mode = .accumulator := by simpa [Opcode.writes] using h
    simp only [opcodeWrites, hmode, if_true]
  | sta | stx | sty | inc | dec | pha | php | jsr | brk => cases h
  | _ => rfl

/-! ### Steps -/

theorem bus_enter (p : Processor β) (vector : UInt16) :
    (p.enter vector).bus =
      Bus.writeAll p.bus (frameWrites p.sp p.pc ((p.status.toByte ||| 0x20) &&& ~~~0x10)) := by
  rw [← Status.interruptByte_eq]
  exact bus_frame p.tick.tick p.pc p.status.interruptByte

theorem bus_enterAll (vectors : List UInt16) (p : Processor β) :
    (p.enterAll vectors).2.bus = Bus.writeAll p.bus (p.entryWrites vectors) := by
  induction vectors generalizing p with
  | nil => rfl
  | cons vector vectors ih =>
    rw [enterAll_cons, ih, bus_enter, entryWrites, Bus.writeAll_append]

theorem bus_execute (p : Processor β) :
    p.execute.after.bus = Bus.writeAll p.bus p.instructionWrites := by
  unfold instructionWrites
  cases hop : Opcode.decode? (Bus.read p.bus p.pc) with
  | none =>
    have hfetch : Opcode.decode? p.fetchByte.1 = none := hop
    simp only [execute, hfetch]
    rfl
  | some op =>
    rw [execute_eq_perform hop]
    simp only [bus_perform, operationWrites_fetchByte]
    rfl

/-- **What a step writes.** -/
theorem bus_step (p : Processor β) : p.step.after.bus = Bus.writeAll p.bus p.stepWrites := by
  have hstep : p.step.after = (p.lowerLines.enterAll p.interrupts).2.execute.after := rfl
  rw [hstep, bus_execute, bus_enterAll, stepWrites, Bus.writeAll_append]
  rfl

theorem stepWrites_of_quiet {p : Processor β} (h : p.Quiet) : p.stepWrites = [] := by
  have hinstruction : p.lowerLines.instructionWrites = [] := by
    unfold instructionWrites
    cases hop : Opcode.decode? (Bus.read p.lowerLines.bus p.lowerLines.pc) with
    | none => rfl
    | some op => exact opcodeWrites_of_not _ (h.writes_eq op hop)
  rw [stepWrites, h.interrupts_eq]
  exact hinstruction

/-- A quiet run leaves its bus as it is. -/
theorem bus_of_quietly (calls : List Call) {p : Processor β} (h : p.Quietly calls) :
    (calls.foldl Call.apply p).bus = p.bus := by
  -- only a step can write, and those of a quiet run do not
  induction calls generalizing p with
  | nil => rfl
  | cons call calls ih =>
    obtain ⟨hquiet, hcalls⟩ := h
    have hcall : (call.apply p).bus = p.bus := by
      cases call with
      | step => rw [Call.apply, bus_step, stepWrites_of_quiet (hquiet rfl), Bus.writeAll_nil]
      | requestIrq | clearIrq | requestNmi | reset => rfl
    rw [List.foldl_cons, ih hcalls, hcall]

end Processor

/-! ### Recorded writes -/

/-- A recorder records what is written, in order. -/
theorem Recorder.toList_writes_writeAll {β : Type u} [Bus β] (bytes : List (UInt16 × UInt8))
    (r : Recorder β) : (Bus.writeAll r bytes).writes.toList = r.writes.toList ++ bytes := by
  induction bytes generalizing r with
  | nil => exact (List.append_nil _).symm
  | cons entry bytes ih =>
    rw [Bus.writeAll_cons, ih, writes_write, Array.toList_push, List.append_assoc,
      List.singleton_append]

namespace Processor

variable {β : Type u} [Bus β]

/-- **A step writes what it says and nothing else**: a frame for each interrupt that
it enters, then what its opcode calls for, in order and on any bus. A stacked status
tells an interrupt from a break whatever B is, and a run that enters no interrupt and
executes no instruction that writes leaves its bus as it is. -/
theorem steps_write_what_they_say :
    (∀ p : Processor β, p.step.after.bus = Bus.writeAll p.bus p.stepWrites) ∧
      (∀ p : Processor (Recorder β),
        p.step.after.bus.writes.toList = p.bus.writes.toList ++ p.stepWrites) ∧
      (∀ s : Status, ((s.toByte ||| 0x20) &&& ~~~0x10) &&& 0x30 = 0x20 ∧
        (s.toByte ||| 0x30) &&& 0x30 = 0x30) ∧
      ∀ (p : Processor β) (calls : List Call), p.Quietly calls →
        (calls.foldl Call.apply p).bus = p.bus := by
  refine ⟨bus_step, fun p => ?_, Status.stacked_bits, fun p calls => bus_of_quietly calls⟩
  rw [bus_step, Recorder.toList_writes_writeAll]

/-- A non-maskable interrupt waits while B is set; its handler begins by stacking the
status byte. -/
def pushingHandler : Processor (Recorder Memory) :=
  { powerOn (Recorder.start (Bus.writeAll .zero [(0xFFFB, 0x90), (0x9000, 0x08)])) with
    pc := 0x8000
    status := ⟨false, false, true, false, false, false, false⟩
    nmiPending := true }

/-- The processor at the handler. -/
def atHandler : Processor (Recorder Memory) := pushingHandler.lowerLines.enter nmiVector

theorem bus_atHandler : atHandler.bus = Bus.writeAll pushingHandler.bus
    [(0x01FD, 0x80), (0x01FC, 0x00), (0x01FB, 0x20)] := by
  have hframe : frameWrites 0xFD 0x8000 ((0x30 ||| 0x20) &&& ~~~0x10) =
      [(0x01FD, 0x80), (0x01FC, 0x00), (0x01FB, 0x20)] := by decide
  rw [← hframe]
  exact bus_enter pushingHandler.lowerLines nmiVector

theorem pc_atHandler : atHandler.pc = 0x9000 := by
  have hpc : atHandler.pc = Bus.word atHandler.bus nmiVector := rfl
  have hlow : Bus.read atHandler.bus nmiVector = 0x00 := by
    simp [bus_atHandler, pushingHandler, powerOn, reset, Recorder.start, nmiVector]
  have hhigh : Bus.read atHandler.bus (nmiVector + 1) = 0x90 := by
    simp [bus_atHandler, pushingHandler, powerOn, reset, Recorder.start, nmiVector]
  rw [hpc, Bus.word, hlow, hhigh]
  decide

theorem stepWrites_pushingHandler : pushingHandler.stepWrites =
    [(0x01FD, 0x80), (0x01FC, 0x00), (0x01FB, 0x20), (0x01FA, 0x34)] := by
  have hcode : Bus.read atHandler.bus 0x9000 = 0x08 := by
    simp [bus_atHandler, pushingHandler, powerOn, reset, Recorder.start]
  have hop : Opcode.decode? (Bus.read atHandler.bus atHandler.pc) =
      some ⟨0x08, .php, .implicit, 3⟩ := by
    rw [pc_atHandler, hcode]
    exact Opcode.decode?_code ⟨0x08, .php, .implicit, 3⟩ (by decide)
  have hstep : pushingHandler.stepWrites =
      frameWrites 0xFD 0x8000 ((0x30 ||| 0x20) &&& ~~~0x10) ++ atHandler.instructionWrites := rfl
  rw [hstep, instructionWrites, hop]
  rfl

/-- The interrupt stacks B as clear and its handler stacks it as set. A step with a
request that is masked, at an instruction that loads, is quiet. -/
theorem pushingHandler_writes_what_it_says :
    let calls := [Call.requestIrq, .step]
    pushingHandler.step.after.bus.writes.toList =
        [(0x01FD, 0x80), (0x01FC, 0x00), (0x01FB, 0x20), (0x01FA, 0x34)] ∧
      crossingLoad.Quietly calls ∧
      (calls.foldl Call.apply crossingLoad).bus = crossingLoad.bus := by
  intro calls
  have hcode : Bus.read crossingLoad.bus crossingLoad.pc = 0xBD := by
    simp [crossingLoad, powerOn, reset]
  have hquiet : crossingLoad.requestIrq.Quiet := by
    refine ⟨rfl, fun op hop => ?_⟩
    have hread : Bus.read crossingLoad.requestIrq.bus crossingLoad.requestIrq.pc = 0xBD := hcode
    rw [hread, Opcode.decode?_code ⟨0xBD, .lda, .absoluteX, 4⟩ (by decide)] at hop
    cases hop
    rfl
  have hquietly : crossingLoad.Quietly calls :=
    ⟨fun h => absurd h (by decide), fun _ => hquiet, trivial⟩
  obtain ⟨-, hrecorded, -, hkept⟩ := @steps_write_what_they_say Memory _
  refine ⟨?_, hquietly, hkept crossingLoad calls hquietly⟩
  have hnothing : pushingHandler.bus.writes.toList = [] := rfl
  rw [hrecorded, stepWrites_pushingHandler, hnothing, List.nil_append]

end Processor
end Mos6502
