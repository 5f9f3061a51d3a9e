/-
# What an instruction may change

Each register and each flag has instructions that may change it, and all others leave
it as it is. An operation changes the registers it delivers to (`byte_perform`) and
the flags it sets (`get_perform`), whatever it reads and wherever; the table says
which instructions these are. Only BRK sets B and only RTI clears it: a status byte
that PLP pulls does not reach it.

Key definitions: `Opcode.mayChange`, `Opcode.mayChangeFlag`, `Operation.targets`,
`Operation.flags`.
Key theorems: `byte_perform`, `get_perform`, `instructions_change_what_they_name`.
-/
import Mos6502.Proofs.Processor.Flow
import Mos6502.Proofs.Table

namespace Mos6502

universe u

/-! ### What the law says -/

/-- The instructions that leave Z and N alone. -/
def Mnemonic.unnoted : List Mnemonic :=
  [.sta, .stx, .sty, .bcc, .bcs, .bne, .beq, .bpl, .bmi, .bvc, .bvs, .jmp, .jsr, .rts, .brk,
    .nop, .pha, .php, .txs, .clc, .sec, .cli, .sei, .cld, .sed, .clv]

namespace Opcode

/-- The instruction is one of those that may change a register, in a mode in which it
does. -/
def mayChange (op : Opcode) : ByteRegister → Bool
  | .a => op.mnemonic ∈ [.lda, .adc, .sbc, .and, .ora, .eor, .pla, .txa, .tya] ||
      op.mnemonic ∈ [.asl, .lsr, .rol, .ror] && op.mode == .accumulator
  | .x => op.mnemonic ∈ [.ldx, .inx, .dex, .tax, .tsx]
  | .y => op.mnemonic ∈ [.ldy, .iny, .dey, .tay]
  | .sp => op.mnemonic ∈ [.pha, .php, .pla, .plp, .jsr, .rts, .brk, .rti, .txs]

/-- The instruction is one of those that may change a flag. -/
def mayChangeFlag (op : Opcode) : Flag → Bool
  | .v => op.mnemonic ∈ [.adc, .sbc, .bit, .clv, .plp, .rti]
  | .d => op.mnemonic ∈ [.sed, .cld, .plp, .rti]
  | .i => op.mnemonic ∈ [.sei, .cli, .brk, .plp, .rti]
  | .c => op.mnemonic ∈ [.adc, .sbc, .cmp, .cpx, .cpy, .asl, .lsr, .rol, .ror, .sec, .clc,
      .plp, .rti]
  | .b => op.mnemonic ∈ [.brk, .rti]
  | .z | .n => op.mnemonic ∉ Mnemonic.unnoted

end Opcode

/-! ### Operations -/

namespace Operation

/-- The registers that an operation delivers to. -/
def targets (mode : AddressingMode) : Operation → List ByteRegister
  | .add | .subtract | .combine _ => [.a]
  | .shift _ => if mode = .accumulator then [.a] else []
  | .load register | .countRegister register _ | .transfer _ register => [register]
  | .pullAccumulator => [.a, .sp]
  | .call | .returnFromCall | .break | .returnFromInterrupt | .pushAccumulator | .pushStatus
  | .pullStatus => [.sp]
  | .compare _ | .testBits | .branch _ _ | .store _ | .countMemory _ | .jump | .idle
  | .setFlag _ _ => []

/-- The flags that an operation sets. -/
def flags : Operation → List Flag
  | .add | .subtract => [.c, .v, .z, .n]
  | .compare _ | .shift _ => [.c, .z, .n]
  | .testBits => [.v, .z, .n]
  | .combine _ | .load _ | .countMemory _ | .countRegister _ _ | .pullAccumulator => [.z, .n]
  | .transfer _ target => if target = .sp then [] else [.z, .n]
  | .setFlag flag _ => [flag]
  | .break => [.b, .i]
  | .pullStatus => [.c, .z, .i, .d, .v, .n]
  | .returnFromInterrupt => Flag.all
  | .branch _ _ | .store _ | .jump | .call | .returnFromCall | .idle | .pushAccumulator
  | .pushStatus => []

end Operation

/-- The registers of the table are those of the law. -/
theorem Opcode.mayChange_of_mem_targets : ∀ op ∈ Opcode.documented,
    ∀ register ∈ op.mnemonic.operation.targets op.mode, op.mayChange register = true := by
  decide +kernel

theorem Opcode.mayChangeFlag_of_mem_flags : ∀ op ∈ Opcode.documented,
    ∀ flag ∈ op.mnemonic.operation.flags, op.mayChangeFlag flag = true := by
  decide +kernel

theorem Status.get_ofResult (s : Status) (result : UInt8) {flag : Flag} (h : flag ∉ [.z, .n]) :
    (s.ofResult result).get flag = s.get flag := by
  cases flag with
  | z | n => exact absurd (by decide) h
  | c | i | d | b | v => rfl

namespace Processor

variable {β : Type u}

theorem status_setByte (p : Processor β) (register : ByteRegister) (value : UInt8) :
    (p.setByte register value).status = p.status := by
  cases register <;> rfl

@[simp]
theorem byte_note (p : Processor β) (result : UInt8) (register : ByteRegister) :
    (p.note result).byte register = p.byte register := by
  cases register <;> rfl

/-- Work that leaves A, X and Y alone changes no register but the stack pointer. -/
theorem byte_eq_of_ne_sp {p q : Processor β} {register : ByteRegister} (h : register ≠ .sp)
    (hq : q = { p with
      pc := q.pc, sp := q.sp, status := q.status, cycles := q.cycles, bus := q.bus }) :
    q.byte register = p.byte register := by
  rw [hq]
  cases register with
  | sp => exact absurd rfl h
  | a | x | y => rfl

variable [Bus β]

theorem byte_operand (p : Processor β) (mode : AddressingMode) (register : ByteRegister) :
    (p.operand mode).2.byte register = p.byte register := by
  rw [operand_eq]
  cases register <;> rfl

theorem status_operand (p : Processor β) (mode : AddressingMode) :
    (p.operand mode).2.status = p.status := by
  rw [operand_eq]

theorem byte_shift (p : Processor β) (s : Shift) {mode : AddressingMode} {register : ByteRegister}
    (h : register ∉ (Operation.shift s).targets mode) :
    (p.shift s mode).byte register = p.byte register := by
  by_cases hmode : mode = .accumulator
  · rw [Operation.targets, if_pos hmode, List.mem_singleton] at h
    simp only [shift, if_pos hmode, byte_note]
    cases register with
    | a => exact absurd rfl h
    | x | y | sp => rfl
  · simp only [shift, if_neg hmode, byte_note]
    rw [effectiveAddress_eq]
    cases register <;> rfl

/-- **An operation changes no register but those it delivers to.** -/
theorem byte_perform (p : Processor β) {operation : Operation} {mode : AddressingMode}
    {register : ByteRegister} (h : register ∉ operation.targets mode) :
    (p.perform operation mode).byte register = p.byte register := by
  cases operation with
  | add | subtract | combine =>
    refine Eq.trans ?_ (byte_operand p mode register)
    cases register with
    | a => exact absurd List.mem_cons_self h
    | x | y | sp => rfl
  | compare | testBits =>
    refine Eq.trans ?_ (byte_operand p mode register)
    cases register <;> rfl
  | load target =>
    have hne : target ≠ register := fun heq => h (List.mem_singleton.mpr heq.symm)
    simp only [perform, load, byte_note, byte_setByte, if_neg hne, byte_operand]
  | countRegister target count =>
    have hne : target ≠ register := fun heq => h (List.mem_singleton.mpr heq.symm)
    simp only [perform, countRegister, byte_note, byte_setByte, if_neg hne]
    cases register <;> rfl
  | transfer source target =>
    have hne : target ≠ register := fun heq => h (List.mem_singleton.mpr heq.symm)
    have hset : (p.tick.setByte target (p.byte source)).byte register = p.byte register := by
      rw [byte_setByte, if_neg hne]
      cases register <;> rfl
    simp only [perform, transfer]
    split
    · exact hset
    · rw [byte_note, hset]
  | store | countMemory | jump =>
    simp only [perform, store, countMemory, jump]
    rw [effectiveAddress_eq]
    cases register <;> rfl
  | branch flag value =>
    rw [perform, branch_eq]
    cases register <;> rfl
  | shift s => exact byte_shift p s h
  | pullAccumulator =>
    cases register with
    | a | sp => exact absurd (by simp [Operation.targets]) h
    | x | y => rfl
  | call | returnFromCall | «break» | returnFromInterrupt | pushAccumulator | pushStatus
  | pullStatus =>
    refine byte_eq_of_ne_sp (fun heq => h (List.mem_singleton.mpr heq)) ?_
    simp only [perform, call, returnFromCall, breakOff, returnFromInterrupt, pushAccumulator,
      pushStatus, pullStatus, pushWord, push, pullWord, pull, readWord, readByte, writeByte,
      fetchByte, tick]
  | idle | setFlag => cases register <;> rfl

theorem get_shift (p : Processor β) (s : Shift) (mode : AddressingMode) {flag : Flag}
    (h : flag ∉ (Operation.shift s).flags) :
    (p.shift s mode).status.get flag = p.status.get flag := by
  have hnote : flag ∉ [.z, .n] := fun hmem => h (List.mem_cons_of_mem _ hmem)
  have hcarry : ∀ carry, ({ p.status with c := carry } : Status).get flag = p.status.get flag := by
    intro carry
    cases flag with
    | c => exact absurd List.mem_cons_self h
    | z | i | d | b | v | n => rfl
  simp only [shift]
  split
  · exact (Status.get_ofResult _ _ hnote).trans (hcarry _)
  · rw [effectiveAddress_eq]
    exact (Status.get_ofResult _ _ hnote).trans (hcarry _)

/-- **An operation changes no flag but those it sets.** -/
theorem get_perform (p : Processor β) {operation : Operation} (mode : AddressingMode)
    {flag : Flag} (h : flag ∉ operation.flags) :
    (p.perform operation mode).status.get flag = p.status.get flag := by
  have hoperand := congrArg (·.get flag) (status_operand p mode)
  cases operation with
  | add | subtract | compare | testBits =>
    refine Eq.trans ?_ hoperand
    cases flag <;> first | rfl | exact absurd (by simp [Operation.flags]) h
  | combine => exact (Status.get_ofResult _ _ h).trans hoperand
  | load register =>
    refine (Status.get_ofResult _ _ h).trans ?_
    rw [status_setByte]
    exact hoperand
  | countRegister register count =>
    refine (Status.get_ofResult _ _ h).trans ?_
    rw [status_setByte]
    rfl
  | pullAccumulator => exact Status.get_ofResult _ _ h
  | transfer source target =>
    simp only [perform, transfer]
    split
    · rw [status_setByte]
      rfl
    · rename_i hsp
      rw [Operation.flags, if_neg hsp] at h
      refine (Status.get_ofResult _ _ h).trans ?_
      rw [status_setByte]
      rfl
  | countMemory count =>
    simp only [perform, countMemory]
    rw [effectiveAddress_eq]
    exact Status.get_ofResult _ _ h
  | shift s => exact get_shift p s mode h
  | store register =>
    simp only [perform, store]
    rw [effectiveAddress_eq]
    rfl
  | jump =>
    simp only [perform, jump]
    rw [effectiveAddress_eq]
  | branch other value => rw [perform, branch_eq]
  | setFlag target value =>
    have hne : target ≠ flag := fun heq => h (List.mem_singleton.mpr heq.symm)
    exact (Status.get_set p.status target flag value).trans (if_neg hne)
  | «break» =>
    simp only [perform, breakOff, pushWord, push, readWord, readByte, writeByte, fetchByte, tick]
    cases flag with
    | b | i => exact absurd (by decide) h
    | c | z | d | v | n => rfl
  | pullStatus =>
    cases flag with
    | b => rfl
    | c | z | i | d | v | n => exact absurd (by decide) h
  | returnFromInterrupt => cases flag <;> exact absurd (by decide) h
  | call | returnFromCall | idle | pushAccumulator | pushStatus =>
    simp only [perform, call, returnFromCall, pushAccumulator, pushStatus, pushWord, push,
      pullWord, pull, readByte, writeByte, fetchByte, tick]

/-- **An instruction changes only what it names.** BRK sets B and RTI clears it. A byte
that is no opcode changes no register and no flag. -/
theorem instructions_change_what_they_name {p : Processor β} (hirq : p.irqPending = false)
    (hnmi : p.nmiPending = false) :
    let q := p.step.after
    (∀ op, Opcode.decode? (Bus.read p.bus p.pc) = some op →
      (∀ register, q.byte register ≠ p.byte register → op.mayChange register = true) ∧
      (∀ flag, q.status.get flag ≠ p.status.get flag → op.mayChangeFlag flag = true) ∧
      (op.mnemonic = .brk → q.status.b = true) ∧
      (op.mnemonic = .rti → q.status.b = false)) ∧
    (Opcode.decode? (Bus.read p.bus p.pc) = none →
      (∀ register, q.byte register = p.byte register) ∧ q.status = p.status) := by
  intro q
  refine ⟨fun op hop => ?_, fun hundefined => ?_⟩
  · have hq : q = p.fetchByte.2.perform op.mnemonic.operation op.mode :=
      congrArg Step.after (step_eq_perform hirq hnmi hop)
    have hmem := (Opcode.mem_of_decode? hop).1
    refine ⟨fun register hchanged => ?_, fun flag hchanged => ?_, fun hbrk => ?_, fun hrti => ?_⟩
    · refine Opcode.mayChange_of_mem_targets op hmem register ?_
      by_contra hnot
      exact hchanged ((congrArg (·.byte register) hq).trans (byte_perform _ hnot))
    · refine Opcode.mayChangeFlag_of_mem_flags op hmem flag ?_
      by_contra hnot
      exact hchanged ((congrArg (·.status.get flag) hq).trans (get_perform _ _ hnot))
    · rw [hq, hbrk]
      rfl
    · rw [hq, hrti]
      rfl
  · have hstep := (step_eq_execute hirq hnmi).trans (execute_of_undefined hundefined)
    have hq : q = p.fetchByte.2 := congrArg Step.after hstep
    rw [hq]
    exact ⟨fun register => by cases register <;> rfl, rfl⟩

/-- An instruction at the end of memory while a break is being served. -/
def servingBreak (code : UInt8) : Processor Memory :=
  { acrossTheEnd code 0x00 0x00 with status := { Status.reset with b := true } }

/-- A status byte without B is pulled: PLP leaves B set and RTI clears it. Neither
changes the accumulator, and 0x02 changes no flag. -/
theorem servingBreak_changes_what_it_names :
    ((servingBreak 0x28).step.after.status.get .b = true ∧
      (servingBreak 0x28).step.after.byte .a = 0) ∧
      (servingBreak 0x40).step.after.status.b = false ∧
      (servingBreak 0x02).step.after.status = (servingBreak 0x02).status := by
  refine ⟨?_, ?_, ?_⟩
  · have hpull : ⟨0x28, .plp, .implicit, 4⟩ ∈ Opcode.documented := by decide
    obtain ⟨hdefined, -⟩ := instructions_change_what_they_name (p := servingBreak 0x28) rfl rfl
    obtain ⟨hregisters, hflags, -⟩ := hdefined _ (decode?_acrossTheEnd hpull 0x00 0x00)
    have hkeepsB : (servingBreak 0x28).step.after.status.get .b =
        (servingBreak 0x28).status.get .b := by
      by_contra hchanged
      exact absurd (hflags .b hchanged) (by decide)
    have hkeepsA : (servingBreak 0x28).step.after.byte .a = (servingBreak 0x28).byte .a := by
      by_contra hchanged
      exact absurd (hregisters .a hchanged) (by decide)
    exact ⟨hkeepsB.trans rfl, hkeepsA.trans rfl⟩
  · have hreturn : ⟨0x40, .rti, .implicit, 6⟩ ∈ Opcode.documented := by decide
    obtain ⟨hdefined, -⟩ := instructions_change_what_they_name (p := servingBreak 0x40) rfl rfl
    obtain ⟨-, -, -, hclears⟩ := hdefined _ (decode?_acrossTheEnd hreturn 0x00 0x00)
    exact hclears rfl
  · have hcode : Bus.read (servingBreak 0x02).bus (servingBreak 0x02).pc = 0x02 :=
      (read_acrossTheEnd 0x02 0x00 0x00).1
    have hnone : Opcode.decode? (Bus.read (servingBreak 0x02).bus (servingBreak 0x02).pc) = none := by
      rw [hcode, Opcode.decode?_eq_find?]
      decide
    obtain ⟨-, hundefined⟩ := instructions_change_what_they_name (p := servingBreak 0x02) rfl rfl
    exact (hundefined hnone).2

end Processor
end Mos6502
