/-
# How a program uses the stack

Interrupts and the instructions for the stack push and pull, and words go high
byte first; all other instructions leave the stack alone unless they set the stack
pointer or write to page one. So a program that does neither is a run of pushes and
pulls (`uses_afterSteps`), and the stack is last in, first out for it.

Key definitions: `opcodeUses`, `stepUses`, `SparesStack`, `stepsUses`.
Key theorems: `sp_perform`, `uses_perform`, `uses_step`, `uses_afterSteps`,
`stack_is_last_in_first_out`.
-/
import Mos6502.Proofs.Processor.Changes
import Mos6502.Proofs.Processor.Flow
import Mos6502.Proofs.Processor.Lifo
import Mos6502.Proofs.Processor.Writes

namespace Mos6502

universe u

/-! ### What the law says -/

namespace Processor

/-- The byte that is pulled after some others. -/
def stackTop (p : Processor Memory) (others : UInt8) : UInt8 :=
  p.bus.read (0x0100 ||| (p.sp + 1 + others).toUInt16)

/-- How an instruction uses the stack, when its opcode is at the program counter. -/
def opcodeUses (p : Processor Memory) (op : Opcode) : List StackUse :=
  match op.mnemonic with
  | .pha => [.push p.a]
  | .php => [.push (p.status.toByte ||| 0x30)]
  | .pla | .plp => [.pull (p.stackTop 0)]
  | .jsr => wordPushes (p.pc + 2)
  | .rts => [.pull (p.stackTop 0), .pull (p.stackTop 1)]
  | .brk => wordPushes (p.pc + 2) ++ [.push (p.status.toByte ||| 0x30)]
  | .rti => [.pull (p.stackTop 0), .pull (p.stackTop 1), .pull (p.stackTop 2)]
  | _ => []

/-- How the instruction at the program counter uses the stack. -/
def instructionUses (p : Processor Memory) : List StackUse :=
  match Opcode.decode? (p.bus.read p.pc) with
  | none => []
  | some op => p.opcodeUses op

/-- How interrupts that are entered one after the other use the stack. -/
def entryUses (p : Processor Memory) : List UInt16 → List StackUse
  | [] => []
  | vector :: vectors =>
    wordPushes p.pc ++ [.push ((p.status.toByte ||| 0x20) &&& ~~~0x10)] ++
      (p.enter vector).entryUses vectors

/-- The processor that has entered the waiting interrupts. -/
def entered (p : Processor Memory) : Processor Memory := (p.lowerLines.enterAll p.interrupts).2

/-- How a step uses the stack. -/
def stepUses (p : Processor Memory) : List StackUse :=
  p.lowerLines.entryUses p.interrupts ++ p.entered.instructionUses

/-- The instruction at the program counter does not set the stack pointer, and writes,
if it is none that pushes, elsewhere. -/
def SparesStack (elsewhere : UInt16 → Prop) (p : Processor Memory) : Prop :=
  ∀ op, Opcode.decode? (p.bus.read p.pc) = some op →
    op.mnemonic ≠ .txs ∧ (op.mnemonic ∉ [.pha, .php, .jsr, .brk] →
      ∀ entry ∈ p.opcodeWrites op, elsewhere entry.1)

/-- The processor after some steps. -/
def afterSteps (p : Processor Memory) : Nat → Processor Memory
  | 0 => p
  | n + 1 => (p.afterSteps n).step.after

/-- How steps use the stack. -/
def stepsUses (p : Processor Memory) : Nat → List StackUse
  | 0 => []
  | n + 1 => p.stepsUses n ++ (p.afterSteps n).stepUses

end Processor

/-! ### Operations -/

/-- The operation neither uses the stack nor sets the stack pointer. -/
def Operation.keepsStack : Operation → Bool
  | .load register | .countRegister register _ | .transfer _ register => register != .sp
  | .call | .returnFromCall | .break | .returnFromInterrupt | .pushAccumulator | .pushStatus
  | .pullAccumulator | .pullStatus => false
  | _ => true

theorem Operation.sp_notMem_targets {operation : Operation} (h : operation.keepsStack = true)
    (mode : AddressingMode) : ByteRegister.sp ∉ operation.targets mode := by
  cases operation with
  | load | countRegister | transfer =>
    intro hmem
    exact bne_iff_ne.mp h (List.mem_singleton.mp hmem).symm
  | shift =>
    simp only [targets]
    split <;> simp
  | add | subtract | combine | compare | testBits | branch | store | countMemory | jump | idle
  | setFlag => simp [targets]
  | call | returnFromCall | «break» | returnFromInterrupt | pushAccumulator | pushStatus
  | pullAccumulator | pullStatus => cases h

namespace Processor

theorem sp_perform {β : Type u} [Bus β] (p : Processor β) {operation : Operation}
    (h : operation.keepsStack = true) (mode : AddressingMode) :
    (p.perform operation mode).sp = p.sp := by
  have hsp := byte_perform p (Operation.sp_notMem_targets h mode)
  simpa only [byte] using hsp

variable {elsewhere : UInt16 → Prop} {p q r : Processor Memory}

/-! ### Steps -/

theorem stackTop_eq (p : Processor Memory) (others : UInt8) :
    p.stackTop others = p.bus.read (stackAddress (p.sp + 1 + others)) := by
  rw [stackTop, stackAddress_eq_or]

/-- An instruction that keeps the stack works without it. -/
theorem works_perform {op : Opcode} (hkeeps : op.mnemonic.operation.keepsStack = true)
    (hwrites : ∀ entry ∈ p.opcodeWrites op, elsewhere entry.1) :
    Works elsewhere p (p.fetchByte.2.perform op.mnemonic.operation op.mode) := by
  refine ⟨sp_perform p.fetchByte.2 hkeeps op.mode, fun address helse => ?_⟩
  rw [bus_perform, operationWrites_fetchByte]
  refine Memory.read_writeAll_of_notMem _ _ fun entry hentry heq => ?_
  exact helse (heq ▸ hwrites entry hentry)

/-- Instructions use the stack as the law says. -/
theorem uses_perform {op : Opcode} (htxs : op.mnemonic ≠ .txs)
    (hwrites : op.mnemonic ∉ [.pha, .php, .jsr, .brk] →
      ∀ entry ∈ p.opcodeWrites op, elsewhere entry.1) :
    Uses elsewhere p (p.opcodeUses op) (p.fetchByte.2.perform op.mnemonic.operation op.mode) := by
  have hnext : p.pc + 2 = p.pc + 1 + 1 := by grind
  have hone : p.sp + 1 + 0 = p.sp + 1 := UInt8.add_zero _
  have hthree : p.sp + 1 + 2 = p.sp + 1 + 1 + 1 := by grind
  cases hm : op.mnemonic with
  | txs => exact absurd hm htxs
  | pha =>
    simp only [opcodeUses, hm]
    exact .work (r := p.fetchByte.2.tick) (.of_eq rfl rfl) (.push p.a (.nil _))
  | php =>
    simp only [opcodeUses, hm, ← Status.breakByte_eq]
    exact .work (r := p.fetchByte.2.tick) (.of_eq rfl rfl) (.push p.status.breakByte (.nil _))
  | pla | plp =>
    simp only [opcodeUses, hm, stackTop_eq, hone]
    exact .work (r := p.fetchByte.2.tick.tick) (.of_eq rfl rfl)
      (.pull_of_eq rfl (.of_works (.of_eq rfl rfl)))
  | jsr =>
    simp only [opcodeUses, hm, hnext]
    exact .work (r := p.fetchByte.2.fetchByte.2.tick) (.of_eq rfl rfl)
      ((Uses.pushWord _ _).append (.of_works (.of_eq rfl rfl)))
  | rts =>
    simp only [opcodeUses, hm, stackTop_eq, hone]
    exact .work (r := p.fetchByte.2.tick.tick) (.of_eq rfl rfl)
      (.pull_of_eq rfl (.pull_of_eq rfl (.of_works (.of_eq rfl rfl))))
  | brk =>
    simp only [opcodeUses, hm, hnext, ← Status.breakByte_eq]
    exact .work (r := p.fetchByte.2.fetchByte.2) (.of_eq rfl rfl)
      ((Uses.pushWord _ _).append (.push _ (.of_works (.of_eq rfl rfl))))
  | rti =>
    simp only [opcodeUses, hm, stackTop_eq, hone, hthree]
    exact .work (r := p.fetchByte.2.tick.tick) (.of_eq rfl rfl)
      (.pull_of_eq rfl (.pull_of_eq rfl (.pull_of_eq rfl (.of_works (.of_eq rfl rfl)))))
  | _ =>
    -- all others keep the stack pointer, and write elsewhere if they write
    simp only [opcodeUses, hm]
    have hworks := works_perform (by rw [hm]; rfl) (hwrites (by rw [hm]; decide))
    rw [hm] at hworks
    exact .of_works hworks

theorem uses_execute (h : SparesStack elsewhere p) :
    Uses elsewhere p p.instructionUses p.execute.after := by
  unfold instructionUses
  cases hop : Opcode.decode? (p.bus.read p.pc) with
  | none =>
    have hfetch : Opcode.decode? p.fetchByte.1 = none := hop
    simp only [execute, hfetch]
    exact .of_works (.of_eq rfl rfl)
  | some op =>
    obtain ⟨htxs, hwrites⟩ := h op hop
    rw [execute_eq_perform hop]
    exact uses_perform htxs hwrites

theorem uses_enter (p : Processor Memory) (vector : UInt16) :
    Uses elsewhere p (wordPushes p.pc ++ [.push ((p.status.toByte ||| 0x20) &&& ~~~0x10)])
      (p.enter vector) := by
  rw [← Status.interruptByte_eq]
  exact .work (r := p.tick.tick) (.of_eq rfl rfl)
    ((Uses.pushWord _ _).append (.push _ (.of_works (.of_eq rfl rfl))))

theorem uses_enterAll (vectors : List UInt16) (p : Processor Memory) :
    Uses elsewhere p (p.entryUses vectors) (p.enterAll vectors).2 := by
  induction vectors generalizing p with
  | nil => exact .nil p
  | cons vector vectors ih =>
    rw [enterAll_cons]
    exact (uses_enter p vector).append (ih (p.enter vector))

/-- **What a step does** is to push and pull as its interrupts and its instruction
do. -/
theorem uses_step (h : SparesStack elsewhere p.entered) :
    Uses elsewhere p p.stepUses p.step.after :=
  .work (r := p.lowerLines) (.of_eq rfl rfl)
    ((uses_enterAll p.interrupts p.lowerLines).append (uses_execute h))

/-- So does a program, step by step. -/
theorem uses_afterSteps {count : Nat}
    (h : ∀ n < count, SparesStack elsewhere (p.afterSteps n).entered) :
    Uses elsewhere p (p.stepsUses count) (p.afterSteps count) := by
  induction count with
  | zero => exact .nil p
  | succ count ih =>
    have hsteps := ih fun n hn => h n (Nat.lt_succ_of_lt hn)
    exact hsteps.append (uses_step (h count (Nat.lt_succ_self count)))

/-- **The stack is last in, first out**, wherever it begins and however often it wraps.
While it fits, every pull takes the byte of the last push that was not pulled, the
stack pointer counts what is left, and nothing outside page one changes but by other
work. Programs use the stack in this way, at whatever step they are looked at. -/
theorem stack_is_last_in_first_out (elsewhere : UInt16 → Prop)
    (hoff : ∀ address, elsewhere address → Word.page address ≠ 1) :
    (∀ (p q : Processor Memory) (uses : List StackUse), Uses elsewhere p uses q → Fits 0 uses →
      TakesTop [] uses ∧ (q.sp.toNat : Int) = (p.sp.toNat - outstanding uses) % 256 ∧
        ∀ address, Word.page address ≠ 1 → ¬ elsewhere address →
          q.bus.read address = p.bus.read address) ∧
    ∀ (p : Processor Memory) (count : Nat),
      (∀ n < count, SparesStack elsewhere (p.afterSteps n).entered) →
        Uses elsewhere p (p.stepsUses count) (p.afterSteps count) := by
  refine ⟨fun p q uses huses hfits => ?_, fun p count => uses_afterSteps⟩
  obtain ⟨hend, htop⟩ := (represents_nil p).of_uses hoff huses hfits
  have hheight : Fits ([] : List UInt8).length uses := hfits
  have hlength := hheight.length_foldl
  refine ⟨htop, ?_, fun address => read_eq_of_uses huses⟩
  have hsp := congrArg UInt8.toNat hend.sp_eq
  have hbound := p.sp.toNat_lt
  rw [UInt8.toNat_sub, UInt8.toNat_ofNat'] at hsp
  rw [List.length_nil] at hlength
  omega

/-- Two bytes go to a stack that wraps at once, and come back, while another byte is
written between. -/
theorem wrappedStack_is_last_in_first_out :
    let elsewhere : UInt16 → Prop := fun address => address = 0x0300
    let p : Processor Memory := { powerOn .zero with sp := 0x00 }
    let full := (p.push 0xAA).push 0xBB
    let worked := full.pull.2.writeByte 0x0300 0x77
    let pushing := acrossTheEnd 0x48 0x00 0x00
    (full.pull.1 = 0xBB ∧ worked.pull.1 = 0xAA ∧ worked.pull.2.sp.toNat = 0) ∧
      Uses elsewhere pushing (pushing.stepsUses 1) (pushing.afterSteps 1) := by
  intro elsewhere p full worked pushing
  have hoff : ∀ address, elsewhere address → Word.page address ≠ 1 := by
    rintro _ rfl
    decide
  obtain ⟨hlifo, hsteps⟩ := stack_is_last_in_first_out elsewhere hoff
  refine ⟨?_, hsteps pushing 1 fun n hn => ?_⟩
  · have hworks : Works elsewhere full.pull.2 worked := by
      refine ⟨rfl, fun address hne => ?_⟩
      have hbus : worked.bus = full.pull.2.bus.write 0x0300 0x77 := rfl
      rw [hbus, Memory.read_write, if_neg fun heq => hne heq.symm]
    have huses : Uses elsewhere p
        [.push 0xAA, .push 0xBB, .pull full.pull.1, .pull worked.pull.1] worked.pull.2 :=
      .push 0xAA (.push 0xBB (.pull (.work hworks (.pull (.nil _)))))
    have hfits : Fits 0 [.push 0xAA, .push 0xBB, .pull full.pull.1, .pull worked.pull.1] := by
      intro first hfirst
      simp only [List.prefix_cons_iff, List.prefix_nil] at hfirst
      rcases hfirst with rfl | ⟨_, rfl, rfl | ⟨_, rfl, rfl | ⟨_, rfl, rfl | ⟨_, rfl, rfl⟩⟩⟩⟩ <;>
        simp [StackUse.weight]
    obtain ⟨htop, hsp, -⟩ := hlifo p worked.pull.2 _ huses hfits
    have hfirst := htop [.push 0xAA, .push 0xBB] full.pull.1 ⟨_, rfl⟩
    have hsecond := htop [.push 0xAA, .push 0xBB, .pull full.pull.1] worked.pull.1 ⟨[], rfl⟩
    refine ⟨(Option.some.inj hfirst).symm, (Option.some.inj hsecond).symm, ?_⟩
    have hstart : p.sp.toNat = 0 := rfl
    simp only [outstanding_cons, outstanding_nil, StackUse.weight, hstart] at hsp
    omega
  · obtain rfl : n = 0 := by omega
    intro op hop
    have hpush : ⟨0x48, .pha, .implicit, 3⟩ ∈ Opcode.documented := by decide
    have hcode := decode?_acrossTheEnd hpush 0x00 0x00
    have hop' : Opcode.decode? (Bus.read pushing.bus pushing.pc) = some op := hop
    rw [hcode] at hop'
    cases hop'
    exact ⟨by decide, fun hnot => absurd (by decide) hnot⟩

end Processor
end Mos6502
