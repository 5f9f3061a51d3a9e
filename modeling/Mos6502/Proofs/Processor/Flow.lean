/-
# Where a step goes on

The table gives each instruction its size, and the processor comes to it by
fetching one byte after the other. The two agree: an instruction that does not
leave its place goes on behind itself, a branch that is taken goes on at a distance
from there, and a jump or a call at its operand. All sums wrap, so an instruction
may lie across the end of memory.

Key definitions: `Operation.fetchedBytes?`, `Mnemonic.leaving`, `KeepsOperand`.
Key theorems: `pc_perform`, `pc_call`, `call_eq`, `returnFromCall_eq`,
`keepsOperand_of_ne`, `steps_go_on_behind_themselves`.
-/
import Mos6502.Proofs.Memory
import Mos6502.Proofs.Processor.Writes

namespace Mos6502

universe u

/-! ### What the law says -/

/-- The instructions that go on at an address that they are given. -/
def Mnemonic.leaving : List Mnemonic := [.jmp, .jsr, .rts, .rti, .brk]

namespace Processor

variable {β : Type u} [Bus β]

/-- The return address that a call stacks does not overwrite the byte of its operand
that has not been fetched by then. -/
def KeepsOperand (p : Processor β) : Prop :=
  Bus.read (Bus.writeAll p.bus (addressWrites p.sp (p.pc + 2))) (p.pc + 2) =
    Bus.read p.bus (p.pc + 2)

theorem keepsOperand_of_ne {p : Processor Memory} (hhigh : 0x0100 ||| p.sp.toUInt16 ≠ p.pc + 2)
    (hlow : 0x0100 ||| (p.sp - 1).toUInt16 ≠ p.pc + 2) : p.KeepsOperand := by
  refine Memory.read_writeAll_of_notMem _ _ fun entry hentry => ?_
  simp only [addressWrites, List.mem_cons, List.not_mem_nil, or_false] at hentry
  rcases hentry with rfl | rfl
  · exact hhigh
  · exact hlow

end Processor

/-! ### Operations -/

/-- The bytes after the opcode that an operation fetches, if it then goes on behind
them. -/
def Operation.fetchedBytes? (mode : AddressingMode) : Operation → Option UInt16
  | .add | .subtract | .combine _ | .compare _ | .testBits | .load _ | .store _
  | .countMemory _ | .shift _ => some mode.fetchedBytes
  | .countRegister _ _ | .idle | .pushAccumulator | .pushStatus | .pullAccumulator | .pullStatus
  | .setFlag _ _ | .transfer _ _ => some 0
  | .branch _ _ | .jump | .call | .returnFromCall | .break | .returnFromInterrupt => none

theorem Opcode.fetchedBytes?_eq : ∀ op ∈ Opcode.documented,
    op.mnemonic ∉ Mnemonic.leaving → op.mnemonic.condition? = none →
      op.mnemonic.operation.fetchedBytes? op.mode = some (UInt16.ofNat op.mode.operandBytes) := by
  decide +kernel

theorem Opcode.size_of_condition? : ∀ op ∈ Opcode.documented,
    op.mnemonic.condition? ≠ none → op.size = 2 := by
  decide +kernel

namespace Processor

variable {β : Type u}

theorem pc_setByte (p : Processor β) (register : ByteRegister) (value : UInt8) :
    (p.setByte register value).pc = p.pc := by
  cases register <;> rfl

theorem pc_transfer (p : Processor β) (source target : ByteRegister) :
    (p.transfer source target).pc = p.pc := by
  cases target <;> rfl

variable [Bus β]

theorem pc_operand (p : Processor β) (mode : AddressingMode) :
    (p.operand mode).2.pc = p.pc + mode.fetchedBytes := by
  rw [operand_eq]

theorem pc_shift (p : Processor β) (s : Shift) (mode : AddressingMode) :
    (p.shift s mode).pc = p.pc + mode.fetchedBytes := by
  by_cases hmode : mode = .accumulator
  · simp only [shift, hmode, if_true, AddressingMode.fetchedBytes, UInt16.add_zero]
    rfl
  · simp only [shift, hmode, if_false]
    rw [effectiveAddress_eq]
    rfl

/-- An operation that does not leave its place goes on behind what it fetched. -/
theorem pc_perform (p : Processor β) {operation : Operation} {mode : AddressingMode}
    {count : UInt16} (h : operation.fetchedBytes? mode = some count) :
    (p.perform operation mode).pc = p.pc + count := by
  cases operation with
  | add | subtract | combine | compare | testBits =>
    cases h
    exact pc_operand p mode
  | load register =>
    cases h
    exact (pc_setByte _ register _).trans (pc_operand p mode)
  | store =>
    cases h
    simp only [perform, store]
    rw [effectiveAddress_eq]
    rfl
  | countMemory =>
    cases h
    simp only [perform, countMemory]
    rw [effectiveAddress_eq]
    rfl
  | shift s =>
    cases h
    exact pc_shift p s mode
  | countRegister register count =>
    cases h
    rw [UInt16.add_zero]
    exact pc_setByte p.tick register _
  | transfer source target =>
    cases h
    rw [UInt16.add_zero]
    exact pc_transfer p source target
  | idle | pushAccumulator | pushStatus | pullAccumulator | pullStatus | setFlag =>
    cases h
    rw [UInt16.add_zero]
    rfl
  | branch | jump | call | returnFromCall | «break» | returnFromInterrupt => cases h

/-- A call goes on at its operand, if that is still there when it has stacked the
return address. -/
theorem pc_call {p : Processor β} (h : p.KeepsOperand) :
    p.fetchByte.2.call.pc = Bus.word p.bus (p.pc + 1) := by
  have hnext : p.pc + 1 + 1 = p.pc + 2 := by grind
  -- the processor when the first byte of the operand has been fetched
  let q := p.fetchByte.2.fetchByte.2.tick
  have hpc : q.pc = p.pc + 2 := hnext
  have hsp : q.sp = p.sp := rfl
  have hbus : q.bus = p.bus := rfl
  have hhigh : Bus.read (q.pushWord q.pc).bus q.pc = Bus.read p.bus (p.pc + 1 + 1) := by
    rw [bus_pushWord, hpc, hsp, hbus, hnext]
    exact h
  exact congrArg (Word.ofBytes (Bus.read p.bus (p.pc + 1))) hhigh

/-- A call pushes the address of its last byte, and does nothing else. -/
theorem call_eq {p : Processor β} (h : p.KeepsOperand) :
    p.fetchByte.2.call = { p with
      pc := Bus.word p.bus (p.pc + 1)
      sp := (p.pushWord (p.pc + 2)).sp
      cycles := p.cycles + 6
      bus := (p.pushWord (p.pc + 2)).bus } := by
  have hnext : p.pc + 2 = p.pc + 1 + 1 := by grind
  rw [← pc_call h, hnext]
  simp only [call, fetchByte, readByte, tick, pushWord, push, writeByte]

/-- A return pulls an address and goes on behind it. -/
theorem returnFromCall_eq (p : Processor β) :
    p.fetchByte.2.returnFromCall = { p with
      pc := p.pullWord.1 + 1
      sp := p.pullWord.2.sp
      cycles := p.cycles + 6 } := by
  simp only [returnFromCall, fetchByte, readByte, tick, pullWord, pull]

theorem toNat_add_size (address : UInt16) (op : Opcode) :
    (address + 1 + UInt16.ofNat op.mode.operandBytes).toNat =
      (address.toNat + op.size) % 65536 := by
  rw [Opcode.size, UInt16.toNat_add, UInt16.toNat_add, UInt16.toNat_ofNat', UInt16.toNat_one]
  omega

/-- **An instruction goes on behind as many bytes as the table gives it**, wherever
it lies, unless it leaves its place. A branch that looks for a value of a flag is
taken just when the flag has it, and then goes on at the signed distance from behind
itself. A jump and a call go on at their operand. -/
theorem steps_go_on_behind_themselves {p : Processor β} {op : Opcode} (hirq : p.irqPending = false)
    (hnmi : p.nmiPending = false) (hop : Opcode.decode? (Bus.read p.bus p.pc) = some op) :
    let q := p.step.after
    p.step.fault = none ∧
      (op.mnemonic ∉ Mnemonic.leaving → op.mnemonic.condition? = none →
        q.pc.toNat = (p.pc.toNat + op.size) % 65536) ∧
      (∀ flag value, op.mnemonic.condition? = some (flag, value) →
        (p.status.get flag = value → (q.pc.toNat : Int) =
          (p.pc.toNat + 2 + (Bus.read p.bus (p.pc + 1)).toInt8.toInt) % 65536) ∧
        (p.status.get flag ≠ value → q.pc.toNat = (p.pc.toNat + op.size) % 65536)) ∧
      (op.mnemonic = .jmp → op.mode = .absolute → q.pc = Bus.word p.bus (p.pc + 1)) ∧
      (op.mnemonic = .jsr → p.KeepsOperand → q.pc = Bus.word p.bus (p.pc + 1)) := by
  intro q
  have hmem := (Opcode.mem_of_decode? hop).1
  have hstep := step_eq_perform hirq hnmi hop
  have hq : q = p.fetchByte.2.perform op.mnemonic.operation op.mode := congrArg Step.after hstep
  refine ⟨congrArg Step.fault hstep, fun hstays hnone => ?_, fun flag value hcondition => ?_,
    fun hjmp hmode => ?_, fun hjsr hkeeps => ?_⟩
  · have hfetched := Opcode.fetchedBytes?_eq op hmem hstays hnone
    have hpc : p.fetchByte.2.pc = p.pc + 1 := rfl
    rw [hq, pc_perform _ hfetched, hpc, toNat_add_size]
  · have hsize : op.size = 2 := Opcode.size_of_condition? op hmem (by simp [hcondition])
    have hbranch : q.pc = if p.status.get flag = value then
        Word.displace (p.pc + 1 + 1) (Bus.read p.bus (p.pc + 1)) else p.pc + 1 + 1 := by
      rw [hq, Mnemonic.operation_of_condition? hcondition, perform, branch_eq]
      rfl
    have hnext : (p.pc + 1 + 1).toNat = (p.pc.toNat + op.size) % 65536 := by
      rw [hsize, UInt16.toNat_add, UInt16.toNat_add, UInt16.toNat_one]
      omega
    refine ⟨fun htaken => ?_, fun hpassed => ?_⟩
    · rw [hbranch, if_pos htaken, Word.toNat_displace, hnext, hsize]
      omega
    · rw [hbranch, if_neg hpassed, hnext]
  · rw [hq, hjmp, hmode]
    exact fst_effectiveAddress p.fetchByte.2 .absolute .read
  · rw [hq, hjsr]
    exact pc_call hkeeps

/-- An instruction whose opcode is the last byte of memory. -/
def acrossTheEnd (code first second : UInt8) : Processor Memory :=
  { powerOn (Bus.writeAll .zero [(0xFFFF, code), (0x0000, first), (0x0001, second)]) with
    pc := 0xFFFF }

theorem read_acrossTheEnd (code first second : UInt8) :
    let p := acrossTheEnd code first second
    Bus.read p.bus p.pc = code ∧ Bus.read p.bus (p.pc + 1) = first ∧
      Bus.read p.bus (p.pc + 1 + 1) = second := by
  refine ⟨?_, ?_, ?_⟩ <;> simp [acrossTheEnd, powerOn, reset]

theorem decode?_acrossTheEnd {op : Opcode} (hop : op ∈ Opcode.documented) (first second : UInt8) :
    let p := acrossTheEnd op.code first second
    Opcode.decode? (Bus.read p.bus p.pc) = some op := by
  intro p
  rw [(read_acrossTheEnd op.code first second).1]
  exact Opcode.decode?_code op hop

/-- A load, a branch back and a call, each across the end of memory. -/
theorem acrossTheEnd_goes_on_behind :
    (acrossTheEnd 0xAD 0x34 0x12).step.after.pc.toNat = (0xFFFF + 3) % 65536 ∧
      ((acrossTheEnd 0xD0 0x80 0x00).step.after.pc.toNat : Int) = (0xFFFF + 2 + -128) % 65536 ∧
      (acrossTheEnd 0x20 0x34 0x12).step.after.pc = 0x1234 := by
  refine ⟨?_, ?_, ?_⟩
  · have hload : ⟨0xAD, .lda, .absolute, 4⟩ ∈ Opcode.documented := by decide
    obtain ⟨-, hsize, -⟩ :=
      steps_go_on_behind_themselves rfl rfl (decode?_acrossTheEnd hload 0x34 0x12)
    exact hsize (by decide) rfl
  · have hback : ⟨0xD0, .bne, .relative, 2⟩ ∈ Opcode.documented := by decide
    obtain ⟨-, -, hbranch, -⟩ :=
      steps_go_on_behind_themselves rfl rfl (decode?_acrossTheEnd hback 0x80 0x00)
    have htaken := (hbranch .z false rfl).1 rfl
    rw [(read_acrossTheEnd 0xD0 0x80 0x00).2.1] at htaken
    exact htaken
  · obtain ⟨-, hlow, hhigh⟩ := read_acrossTheEnd 0x20 0x34 0x12
    have hcall : ⟨0x20, .jsr, .absolute, 6⟩ ∈ Opcode.documented := by decide
    have hkeeps : (acrossTheEnd 0x20 0x34 0x12).KeepsOperand :=
      keepsOperand_of_ne (by decide) (by decide)
    obtain ⟨-, -, -, -, hoperand⟩ :=
      steps_go_on_behind_themselves rfl rfl (decode?_acrossTheEnd hcall 0x34 0x12)
    rw [hoperand rfl hkeeps, Bus.word, hlow, hhigh]
    decide

end Processor
end Mos6502
