/-
# Interrupt requests

A line that was raised is served by the next step and by no other. The lines
tell what was called since the last step or reset (`lines_powerOnThen`), no
instruction touches them (`lines_perform`), and a step lowers both whether or
not it succeeds.

Key definitions: `Call`, `Processor.lines`, `powerOnThen`, `recent`,
`lastIrqCall?`, `Step.entered`.
Key theorems: `lines_perform`, `entered_step`, `lines_powerOnThen`,
`interrupts_follow_requests`.
-/
import Mos6502.Proofs.Processor.Operand
import Mos6502.Proofs.Processor.Step
import Mathlib.Data.List.DropRight

namespace Mos6502

universe u

/-! ### What the law says -/

/-- What is done to a processor from outside. -/
inductive Call
  | requestIrq
  | clearIrq
  | requestNmi
  | reset
  | step
  deriving DecidableEq

namespace Call

/-- The call is about the interrupt request line. -/
def isIrqCall : Call → Bool
  | .requestIrq | .clearIrq => true
  | _ => false

/-- The call leaves the lines as they are for the next step. -/
def keepsLines : Call → Bool
  | .reset | .step => false
  | _ => true

variable {β : Type u} [Bus β]

/-- The processor after a call. -/
def apply (p : Processor β) : Call → Processor β
  | .requestIrq => p.requestIrq
  | .clearIrq => p.clearIrq
  | .requestNmi => p.requestNmi
  | .reset => p.reset
  | .step => p.step.after

end Call

/-- The calls since the last step or reset. -/
def recent (calls : List Call) : List Call := calls.rtakeWhile Call.keepsLines

/-- The last call about the interrupt request line. -/
def lastIrqCall? (calls : List Call) : Option Call := (calls.filter Call.isIrqCall).getLast?

/-- The vector through which an interrupt was entered, if the record is of one. -/
def Record.vector? (record : Record) : Option UInt16 :=
  match record.event with
  | .interrupt vector => some vector
  | .instruction _ => none

/-- The vectors through which a step entered interrupts, in order. -/
def Step.entered {β : Type u} (s : Step β) : List UInt16 := s.records.filterMap Record.vector?

theorem recent_concat_of_keeps {call : Call} (h : call.keepsLines = true) (calls : List Call) :
    recent (calls ++ [call]) = recent calls ++ [call] :=
  List.rtakeWhile_concat_pos _ _ _ h

theorem recent_concat_of_not {call : Call} (h : call.keepsLines = false) (calls : List Call) :
    recent (calls ++ [call]) = [] :=
  List.rtakeWhile_concat_neg _ _ _ (Bool.eq_false_iff.mp h)

theorem lastIrqCall?_concat_of_isIrqCall {call : Call} (h : call.isIrqCall = true)
    (calls : List Call) : lastIrqCall? (calls ++ [call]) = some call := by
  rw [lastIrqCall?, List.filter_append, List.filter_singleton, h]
  exact List.getLast?_concat

theorem lastIrqCall?_concat_of_not {call : Call} (h : call.isIrqCall = false)
    (calls : List Call) : lastIrqCall? (calls ++ [call]) = lastIrqCall? calls := by
  rw [lastIrqCall?, List.filter_append, List.filter_singleton, h]
  exact congrArg List.getLast? (List.append_nil _)

namespace Processor

variable {β : Type u}

/-- A new processor on a bus after calls. -/
def powerOnThen [Bus β] (bus : β) (calls : List Call) : Processor β :=
  calls.foldl Call.apply (powerOn bus)

/-- Which of the two lines are raised. -/
def lines (p : Processor β) : Bool × Bool := (p.irqPending, p.nmiPending)

/-! ### No instruction touches the lines -/

@[simp]
theorem lines_setByte (p : Processor β) (register : ByteRegister) (value : UInt8) :
    (p.setByte register value).lines = p.lines := by
  cases register <;> rfl

theorem lines_transfer (p : Processor β) (source target : ByteRegister) :
    (p.transfer source target).lines = p.lines := by
  cases target <;> rfl

/-! ### The interrupts that a step takes -/

theorem nmiVector_mem_interrupts (p : Processor β) :
    nmiVector ∈ p.interrupts ↔ p.nmiPending = true := by
  unfold interrupts
  cases p.irqPending <;> cases p.status.i <;> cases p.nmiPending <;> decide

theorem irqVector_mem_interrupts (p : Processor β) :
    irqVector ∈ p.interrupts ↔ p.irqPending = true ∧ p.status.i = false := by
  unfold interrupts
  cases p.irqPending <;> cases p.status.i <;> cases p.nmiPending <;> decide

/-- Each interrupt is taken at most once, and an interrupt request first. -/
theorem interrupts_sublist (p : Processor β) : p.interrupts.Sublist [irqVector, nmiVector] := by
  unfold interrupts
  cases p.irqPending <;> cases p.status.i <;> cases p.nmiPending <;> decide

variable [Bus β]

theorem lines_operand (p : Processor β) (mode : AddressingMode) :
    (p.operand mode).2.lines = p.lines := by
  rw [operand_eq]
  rfl

/-- No operation raises or lowers a line. -/
theorem lines_perform (p : Processor β) (operation : Operation) (mode : AddressingMode) :
    (p.perform operation mode).lines = p.lines := by
  cases operation with
  | add | subtract | combine | compare | testBits => exact lines_operand p mode
  | load register => exact (lines_setByte _ register _).trans (lines_operand p mode)
  | store register =>
    simp only [perform, store]
    rw [effectiveAddress_eq]
    rfl
  | countMemory count =>
    simp only [perform, countMemory]
    rw [effectiveAddress_eq]
    rfl
  | countRegister register count => exact lines_setByte p.tick register _
  | branch flag value =>
    simp only [perform]
    rw [branch_eq]
    rfl
  | shift s =>
    simp only [perform, shift]
    split
    · rfl
    · rw [effectiveAddress_eq]
      rfl
  | jump =>
    simp only [perform, jump]
    rw [effectiveAddress_eq]
    rfl
  | transfer source target => exact lines_transfer p source target
  | call | returnFromCall | «break» | returnFromInterrupt | idle | pushAccumulator | pushStatus
  | pullAccumulator | pullStatus | setFlag =>
    cases p
    rfl

/-! ### Steps -/

theorem lines_enter (p : Processor β) (vector : UInt16) : (p.enter vector).lines = p.lines := by
  cases p
  rfl

theorem lines_enterAll (vectors : List UInt16) (p : Processor β) :
    (p.enterAll vectors).2.lines = p.lines := by
  induction vectors generalizing p with
  | nil => rfl
  | cons vector vectors ih => rw [enterAll_cons, ih, lines_enter]

theorem lines_execute (p : Processor β) : p.execute.after.lines = p.lines := by
  simp only [execute]
  cases Opcode.decode? p.fetchByte.1 with
  | none => rfl
  | some opcode => exact lines_perform p.fetchByte.2 opcode.mnemonic.operation opcode.mode

/-- **After a step both lines are low**, whether or not it failed. -/
theorem lines_step (p : Processor β) : p.step.after.lines = (false, false) := by
  have hexecute := lines_execute (p.lowerLines.enterAll p.interrupts).2
  have henter := lines_enterAll p.interrupts p.lowerLines
  exact hexecute.trans henter

theorem vectors_enterAll (vectors : List UInt16) (p : Processor β) :
    (p.enterAll vectors).1.filterMap Record.vector? = vectors := by
  induction vectors generalizing p with
  | nil => rfl
  | cons vector vectors ih =>
    have hfirst : (record p.pc p.cycles (.interrupt vector) (p.enter vector)).vector? = some vector :=
      rfl
    simp only [enterAll]
    rw [List.filterMap_cons_some hfirst, ih]

theorem vectors_execute (p : Processor β) : p.execute.records.filterMap Record.vector? = [] := by
  simp only [execute]
  cases Opcode.decode? p.fetchByte.1 with
  | none => rfl
  | some opcode => rfl

/-- A step enters the interrupts that wait, and enters each by its record. -/
theorem entered_step (p : Processor β) : p.step.entered = p.interrupts := by
  have hinterrupts := vectors_enterAll p.interrupts p.lowerLines
  have hinstruction := vectors_execute (p.lowerLines.enterAll p.interrupts).2
  simp only [Step.entered, step, List.filterMap_append, hinterrupts, hinstruction, List.append_nil]

/-! ### Calls -/

theorem powerOnThen_concat (bus : β) (calls : List Call) (call : Call) :
    powerOnThen bus (calls ++ [call]) = call.apply (powerOnThen bus calls) :=
  List.foldl_concat ..

/-- **The lines tell what was called since the last step or reset**: the last
word on the interrupt request line, and whether the other was latched. -/
theorem lines_powerOnThen (bus : β) (calls : List Call) :
    (powerOnThen bus calls).lines =
      (decide (lastIrqCall? (recent calls) = some .requestIrq),
        decide (.requestNmi ∈ recent calls)) := by
  -- the last call decides which of the calls before it still count
  induction calls using List.reverseRecOn with
  | nil => rfl
  | append_singleton calls call ih =>
    have hirq := congrArg Prod.fst ih
    have hnmi := congrArg Prod.snd ih
    rw [powerOnThen_concat]
    cases call with
    | requestIrq =>
      rw [recent_concat_of_keeps rfl, lastIrqCall?_concat_of_isIrqCall rfl]
      simpa [lines, Call.apply, requestIrq] using hnmi
    | clearIrq =>
      rw [recent_concat_of_keeps rfl, lastIrqCall?_concat_of_isIrqCall rfl]
      simpa [lines, Call.apply, clearIrq] using hnmi
    | requestNmi =>
      rw [recent_concat_of_keeps rfl, lastIrqCall?_concat_of_not rfl]
      simpa [lines, Call.apply, requestNmi] using hirq
    | reset =>
      rw [recent_concat_of_not rfl]
      rfl
    | step =>
      rw [recent_concat_of_not rfl]
      exact lines_step _

/-- **Requests are neither lost, nor doubled, nor carried over.** Whatever was
called on a new processor, its next step enters the non-maskable interrupt just
when that was latched since the last step or reset, and before it the interrupt
request just when that was raised last and I is clear. It enters each once, then
executes an instruction, and no request is left, even if the step fails. -/
theorem interrupts_follow_requests (bus : β) (calls : List Call) :
    let p := powerOnThen bus calls
    (nmiVector ∈ p.step.entered ↔ .requestNmi ∈ recent calls) ∧
      (irqVector ∈ p.step.entered ↔
        lastIrqCall? (recent calls) = some .requestIrq ∧ p.status.i = false) ∧
      p.step.entered.Sublist [irqVector, nmiVector] ∧
      p.step.after = (p.lowerLines.enterAll p.step.entered).2.execute.after ∧
      p.step.after.irqPending = false ∧ p.step.after.nmiPending = false := by
  intro p
  have hlines := lines_powerOnThen bus calls
  have hirq : p.irqPending = decide (lastIrqCall? (recent calls) = some .requestIrq) :=
    congrArg Prod.fst hlines
  have hnmi : p.nmiPending = decide (.requestNmi ∈ recent calls) := congrArg Prod.snd hlines
  have hlow := lines_step p
  rw [entered_step]
  refine ⟨?_, ?_, interrupts_sublist p, rfl, congrArg Prod.fst hlow, congrArg Prod.snd hlow⟩
  · rw [nmiVector_mem_interrupts, hnmi, decide_eq_true_iff]
  · rw [irqVector_mem_interrupts, hirq, decide_eq_true_iff]

end Processor
end Mos6502
