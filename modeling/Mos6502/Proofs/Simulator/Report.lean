/-
# The cycles that a run reports

A run takes up to 20 cycles more than its budget, and a simulator reports what it took
in 32 bits. So the report is right for every budget up to 2 ^ 32 - 21; a larger one may
be overrun beyond 2 ^ 32, and then 2 ^ 32 cycles are missing from the report
(`runs_report_their_cycles_modulo`).

A program that does nothing but call itself gets there. All its steps take six cycles,
so a budget of 2 ^ 32 - 1 cycles is overrun by three (`run_callingItself`).

Key definitions: `Processor.CallsItself`, `Simulator.callingItself`.
Key theorems: `Processor.cycles_runUntil_of_uniform`, `Processor.grown_of_result_ok`,
`Simulator.result_of_run`, `Simulator.runs_report_their_cycles_modulo`.
-/
import Mos6502.Proofs.Processor.Overrun
import Mos6502.Proofs.Processor.StackUse
import Mos6502.Simulator

namespace Mos6502

universe u

namespace Processor

/-! ### What a run takes -/

section

variable {β : Type u} [Bus β]

/-- What the counter has grown by is all that a run has used, 20 cycles more than its
budget at most. It is the budget at least, unless the counter is at its end. -/
theorem grown_of_result_ok {p : Processor β} {budget used : Nat}
    (hused : (p.runFor budget).result = .ok used) :
    (p.runFor budget).after.cycles = p.cycles + used ∧ used ≤ budget + 20 ∧
      (p.cycles + budget ≤ cycleLimit → budget ≤ used) := by
  have hrun : p.runFor budget =
      Run.ofEnd p.cycles (runUntil (min (p.cycles + budget) cycleLimit) p) := rfl
  rw [hrun] at hused ⊢
  obtain ⟨hnone, rfl⟩ := Run.eq_none_of_ofEnd hused
  rw [Run.after_ofEnd]
  generalize htarget : min (p.cycles + budget) cycleLimit = target at hnone ⊢
  have hbegun := le_cycles_runUntil target p
  have hreached := le_cycles_of_runUntil hnone
  have hpassed : (runUntil target p).2.cycles ≤ p.cycles + budget + 20 := by
    rcases Nat.lt_or_ge p.cycles target with hlt | hge
    · have hend : (runUntil target p).2.cycles < target + 21 := cycles_runUntil_lt (by omega)
      omega
    · rw [runUntil_of_le hge]
      show p.cycles ≤ _
      omega
  exact ⟨by omega, by omega, fun h => by omega⟩

/-- A run through states in which every step succeeds and takes the same time succeeds
too, and takes a multiple of that, the first that reaches the target. -/
theorem cycles_runUntil_of_uniform {P : Processor β → Prop} {target each : Nat}
    (hok : ∀ q, P q → q.step.fault = none)
    (heach : ∀ q, P q → q.step.after.cycles = q.cycles + each)
    (hkeeps : ∀ q, P q → P q.step.after) {p : Processor β} (hp : P p)
    (h : p.cycles < target + each) :
    (runUntil target p).1 = none ∧ target ≤ (runUntil target p).2.cycles ∧
      (runUntil target p).2.cycles < target + each ∧
      ∃ count, (runUntil target p).2.cycles = p.cycles + each * count := by
  have hmultiple : (runUntil target p).1 = none ∧
      ∃ count, (runUntil target p).2.cycles = p.cycles + each * count := by
    clear h
    induction p using runUntil_induction (β := β) target with
    | ended p hended =>
      rw [runUntil_of_le hended]
      exact ⟨rfl, 0, rfl⟩
    | fails p fault _ hfault =>
      rw [hok p hp] at hfault
      cases hfault
    | goesOn p hlt hstep ih =>
      obtain ⟨hnone, count, hcount⟩ := ih (hkeeps p hp)
      rw [runUntil_of_step hlt hstep]
      refine ⟨hnone, count + 1, ?_⟩
      rw [hcount, heach p hp, Nat.mul_succ]
      omega
  obtain ⟨hnone, hcount⟩ := hmultiple
  have hpassed := cycles_runUntil_lt_of hkeeps (fun q hq => Nat.le_of_eq (heach q hq)) hp h
  exact ⟨hnone, le_cycles_of_runUntil hnone, hpassed, hcount⟩

end

/-! ### A program that calls itself -/

/-- The instruction at the program counter is a call of itself, and nothing interrupts
it. -/
structure CallsItself (p : Processor Memory) : Prop where
  lines_eq : p.lines = (false, false)
  /-- The call does not lie on the stack. -/
  off_stack : ∀ offset ∈ [0, 1, 2], Word.page (p.pc + offset) ≠ 1
  code_eq : p.bus.read p.pc = 0x20
  /-- Its operand is its own address. -/
  target_eq : Bus.word p.bus (p.pc + 1) = p.pc

variable {p : Processor Memory}

/-- Such a call takes six cycles and changes nothing but the stack. -/
theorem CallsItself.step_eq (h : CallsItself p) : p.step.fault = none ∧
    p.step.after = { p with
      sp := (p.pushWord (p.pc + 2)).sp
      cycles := p.cycles + 6
      bus := (p.pushWord (p.pc + 2)).bus } := by
  have hcall : Opcode.decode? (Bus.read p.bus p.pc) = some ⟨0x20, .jsr, .absolute, 6⟩ := by
    rw [Memory.bus_read, h.code_eq]
    exact Opcode.decode?_code ⟨0x20, .jsr, .absolute, 6⟩ (by decide)
  have hoff := h.off_stack 2 (by decide)
  have hkeeps : p.KeepsOperand := by
    refine keepsOperand_of_ne ?_ ?_ <;> rw [← stackAddress_eq_or] <;>
      exact stackAddress_ne hoff _
  rw [step_eq_perform (congrArg Prod.fst h.lines_eq) (congrArg Prod.snd h.lines_eq) hcall]
  refine ⟨rfl, (call_eq hkeeps).trans ?_⟩
  rw [h.target_eq]

theorem CallsItself.step (h : CallsItself p) : CallsItself p.step.after := by
  have huses : Uses (fun _ => False) p (wordPushes (p.pc + 2)) (p.pushWord (p.pc + 2)) :=
    .pushWord p (p.pc + 2)
  have hread : ∀ address, Word.page address ≠ 1 →
      (p.pushWord (p.pc + 2)).bus.read address = p.bus.read address :=
    fun address hpage => read_eq_of_uses huses hpage id
  have hzero : Word.page p.pc ≠ 1 := by simpa using h.off_stack 0 (by decide)
  have hnext : p.pc + 1 + 1 = p.pc + 2 := by grind
  have hword : Bus.word (p.pushWord (p.pc + 2)).bus (p.pc + 1) = Bus.word p.bus (p.pc + 1) := by
    simp only [Bus.word, Memory.bus_read, hnext, hread _ (h.off_stack 1 (by decide)),
      hread _ (h.off_stack 2 (by decide))]
  rw [h.step_eq.2]
  exact ⟨h.lines_eq, h.off_stack, (hread _ hzero).trans h.code_eq, hword.trans h.target_eq⟩

theorem CallsItself.runFor (h : CallsItself p) {budget : Nat}
    (hlimit : p.cycles + budget ≤ cycleLimit) :
    (p.runFor budget).result = .ok (6 * ((budget + 5) / 6)) ∧
      (p.runFor budget).after.cycles = p.cycles + 6 * ((budget + 5) / 6) := by
  have hstart : p.cycles < p.cycles + budget + 6 := by omega
  obtain ⟨hnone, hreached, hpassed, count, hcount⟩ :=
    cycles_runUntil_of_uniform (P := CallsItself)
      (fun q hq => hq.step_eq.1) (fun q hq => congrArg Processor.cycles hq.step_eq.2)
      (fun q hq => hq.step) h hstart
  have hused : (runUntil (p.cycles + budget) p).2.cycles =
      p.cycles + 6 * ((budget + 5) / 6) := by omega
  rw [runFor_eq hlimit]
  simp only [Run.ofEnd, hnone, hused, Nat.add_sub_cancel_left, and_self]

end Processor

namespace Simulator

open Processor (CallsItself)

/-! ### The report -/

/-- A simulator reports what its processor's run has used, modulo 2 ^ 32. -/
theorem result_of_run {s : Simulator} {budget reported : UInt32}
    (h : (s.run budget).1 = .ok reported) :
    ∃ used, (s.processor.runFor budget.toNat).result = .ok used ∧
      reported.toNat = used % 2 ^ 32 := by
  have hmap : (s.processor.runFor budget.toNat).result.map UInt32.ofNat = .ok reported := h
  cases hresult : (s.processor.runFor budget.toNat).result with
  | error fault =>
    rw [hresult] at hmap
    cases hmap
  | ok used =>
    rw [hresult] at hmap
    cases hmap
    exact ⟨used, rfl, UInt32.toNat_ofNat'⟩

/-- **Runs report their cycles modulo 2 ^ 32.** A run that succeeds moves the counter on
by its budget at least, unless the counter is at its end, and by 20 cycles more at most.
It reports just that if it is less than 2 ^ 32, as it is for all budgets but the 20
largest. Otherwise it reports less than 20 cycles. -/
theorem runs_report_their_cycles_modulo {s : Simulator} {budget reported : UInt32}
    (h : (s.run budget).1 = .ok reported) :
    ∃ grown, (s.run budget).2.processor.cycles = s.processor.cycles + grown ∧
      grown ≤ budget.toNat + 20 ∧
      (s.processor.cycles + budget.toNat ≤ cycleLimit → budget.toNat ≤ grown) ∧
      (reported.toNat = grown ↔ grown < 2 ^ 32) ∧
      (budget.toNat + 20 < 2 ^ 32 → grown < 2 ^ 32) ∧
      (2 ^ 32 ≤ grown → reported.toNat + 2 ^ 32 = grown ∧ reported.toNat < 20) := by
  obtain ⟨grown, hused, hreported⟩ := result_of_run h
  obtain ⟨hcycles, hmost, hleast⟩ := Processor.grown_of_result_ok hused
  have hbudget := budget.toNat_lt
  refine ⟨grown, hcycles, hmost, hleast, ?_, fun hsmall => by omega, fun hlarge => ?_⟩
  · have hlt : reported.toNat < 2 ^ 32 := reported.toNat_lt
    exact ⟨fun heq => heq ▸ hlt, fun hsmall => hreported.trans (Nat.mod_eq_of_lt hsmall)⟩
  · omega

/-- A simulator whose memory holds a call of itself, and zeros elsewhere. -/
def callingItself : Simulator :=
  ⟨{ start.processor with bus := start.processor.bus.write 0x0000 0x20 }⟩

theorem pc_callingItself : callingItself.processor.pc = 0 := by
  have hpc : callingItself.processor.pc = Word.ofBytes 0 0 := by
    simp [callingItself, start, Processor.powerOn, Processor.reset]
  rw [hpc]
  decide

theorem callsItself_callingItself : CallsItself callingItself.processor where
  lines_eq := rfl
  off_stack := by
    rw [pc_callingItself]
    simp [Word.page]
  code_eq := by
    rw [pc_callingItself]
    simp [callingItself]
  target_eq := by
    rw [pc_callingItself]
    simp [Bus.word, callingItself, start, Processor.powerOn, Processor.reset]
    decide

theorem run_of_callsItself {s : Simulator} (h : CallsItself s.processor) {budget : UInt32}
    (hlimit : s.processor.cycles + budget.toNat ≤ cycleLimit) :
    (s.run budget).1 = .ok (UInt32.ofNat (6 * ((budget.toNat + 5) / 6))) ∧
      (s.run budget).2.processor.cycles = s.processor.cycles + 6 * ((budget.toNat + 5) / 6) := by
  obtain ⟨hused, hcycles⟩ := h.runFor hlimit
  refine ⟨?_, hcycles⟩
  show (s.processor.runFor budget.toNat).result.map UInt32.ofNat = _
  rw [hused]
  rfl

/-- It takes three cycles more than a budget of 2 ^ 32 - 1, and reports two. -/
theorem run_callingItself :
    (callingItself.run 0xFFFFFFFF).1 = .ok 2 ∧
      (callingItself.run 0xFFFFFFFF).2.processor.cycles =
        callingItself.processor.cycles + 4294967298 := by
  have hbudget : (0xFFFFFFFF : UInt32).toNat = 4294967295 := rfl
  have hstart : callingItself.processor.cycles = 0 := rfl
  have hlimit : callingItself.processor.cycles + (0xFFFFFFFF : UInt32).toNat ≤ cycleLimit := by
    rw [hstart, hbudget]
    decide
  have hcalls : 6 * ((4294967295 + 5) / 6) = 4294967298 := rfl
  have hreported : UInt32.ofNat 4294967298 = 2 := by decide
  have hrun := run_of_callsItself callsItself_callingItself hlimit
  rw [hbudget, hcalls, hreported] at hrun
  exact hrun

/-- 2 ^ 32 cycles are missing from its report. -/
theorem callingItself_reports_its_cycles_modulo :
    (callingItself.run 0xFFFFFFFF).1 = .ok 2 ∧
      ∃ grown, (callingItself.run 0xFFFFFFFF).2.processor.cycles =
          callingItself.processor.cycles + grown ∧ ¬ grown < 2 ^ 32 ∧ 2 + 2 ^ 32 = grown := by
  obtain ⟨hreported, hcycles⟩ := run_callingItself
  obtain ⟨grown, hgrown, -, -, -, -, hlarge⟩ := runs_report_their_cycles_modulo hreported
  have htwo : (2 : UInt32).toNat = 2 := rfl
  have hover : 2 ^ 32 ≤ grown := by omega
  rw [htwo] at hlarge
  exact ⟨hreported, grown, hgrown, Nat.not_lt.mpr hover, (hlarge hover).1⟩

/-- Not every report of a run is what the counter has grown by: this one is not even its
budget. -/
theorem callingItself_reports_too_little :
    (callingItself.run 0xFFFFFFFF).1 = .ok 2 ∧
      (callingItself.run 0xFFFFFFFF).2.processor.cycles =
        callingItself.processor.cycles + 4294967298 ∧
      ¬ ∀ (s : Simulator) (budget reported : UInt32), (s.run budget).1 = .ok reported →
        (s.run budget).2.processor.cycles = s.processor.cycles + reported.toNat ∧
          budget.toNat ≤ reported.toNat ∧ reported.toNat ≤ budget.toNat + 20 := by
  obtain ⟨hreported, hcycles⟩ := run_callingItself
  refine ⟨hreported, hcycles, fun hall => ?_⟩
  obtain ⟨hgrown, -⟩ := hall callingItself 0xFFFFFFFF 2 hreported
  have htwo : (2 : UInt32).toNat = 2 := rfl
  omega

end Simulator
end Mos6502
