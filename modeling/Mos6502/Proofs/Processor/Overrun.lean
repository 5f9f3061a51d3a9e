/-
# Runs that end

A run makes some steps, one after the other, until the counter has reached its target
or a step fails (`exists_steps_runUntil`). A step that does not fail takes two cycles or
more, so there are not more of them than half the budget. The last one begins before the
target and passes it by less than a step takes: 21 cycles with two interrupts, and seven
when none waited at first, since no step leaves one for the next.

Key theorems: `exists_steps_runUntil`, `cycles_runUntil_lt_of_quiet`,
`after_step_of_fault`, `used_bounds`, `budgets_are_overrun_by_less_than_a_step`.
-/
import Mos6502.Proofs.Processor.Budget
import Mos6502.Proofs.Processor.Flow

namespace Mos6502

universe u

namespace Processor

variable {β : Type u} [Bus β]

/-- **A run is made of steps** that do not fail and begin before the target, and ends
when that is reached or the next step fails. They take two cycles each or more. -/
theorem exists_steps_runUntil (target : Nat) (p : Processor β) :
    ∃ count q, p.steps count = ⟨count, none, q⟩ ∧
      (∀ n < count, (p.steps n).after.cycles < target) ∧
      2 * count ≤ target - p.cycles + 1 ∧
      (runUntil target p = (none, q) ∨
        ∃ fault, q.cycles < target ∧ q.step.fault = some fault ∧
          runUntil target p = (some fault, q.step.after)) := by
  induction p using runUntil_induction (β := β) target with
  | ended p hended =>
    refine ⟨0, p, rfl, fun n hn => absurd hn (Nat.not_lt_zero n), Nat.zero_le _, .inl ?_⟩
    exact runUntil_of_le hended
  | fails p fault hlt hfault =>
    refine ⟨0, p, rfl, fun n hn => absurd hn (Nat.not_lt_zero n), Nat.zero_le _, .inr ?_⟩
    exact ⟨fault, hlt, hfault, runUntil_of_fault hlt hfault⟩
  | goesOn p hlt hok ih =>
    obtain ⟨count, q, hsteps, hbefore, hcount, hend⟩ := ih
    have hspent := (cycles_step_mem hok).1
    refine ⟨count + 1, q, ?_, fun n hn => ?_, by omega, ?_⟩
    · rw [steps_of_step hok, hsteps]
    · cases n with
      | zero => exact hlt
      | succ n =>
        rw [steps_of_step hok]
        exact hbefore n (Nat.lt_of_succ_lt_succ hn)
    · rw [runUntil_of_step hlt hok]
      exact hend

/-- When no interrupt waits, a step takes no more than the seven cycles of an
instruction. -/
theorem cycles_step_le_of_quiet {p : Processor β} (h : p.lines = (false, false)) :
    p.step.after.cycles ≤ p.cycles + 7 := by
  rw [step_eq_execute (congrArg Prod.fst h) (congrArg Prod.snd h)]
  by_cases hok : p.execute.fault = none
  · exact (cycles_execute_mem hok).2
  · rw [cycles_execute_of_fault hok]
    omega

theorem cycles_runUntil_lt_of_quiet {target : Nat} {p : Processor β}
    (hquiet : p.lines = (false, false)) (h : p.cycles < target + 7) :
    (runUntil target p).2.cycles < target + 7 :=
  cycles_runUntil_lt_of (P := fun q => q.lines = (false, false)) (fun q _ => lines_step q)
    (fun _ => cycles_step_le_of_quiet) hquiet h

theorem after_step_of_fault {p : Processor β} {fault : UndefinedInstruction}
    (h : p.step.fault = some fault) :
    p.step.after = (p.lowerLines.enterAll p.interrupts).2.fetchByte.2 := by
  have hexecute : (p.lowerLines.enterAll p.interrupts).2.execute.fault = some fault := h
  show (p.lowerLines.enterAll p.interrupts).2.execute.after = _
  generalize (p.lowerLines.enterAll p.interrupts).2 = q at hexecute
  cases hop : Opcode.decode? (Bus.read q.bus q.pc) with
  | none => rw [execute_of_undefined hop]
  | some op =>
    rw [execute_eq_perform hop] at hexecute
    cases hexecute

/-! ### Runs of a budget -/

section

variable {p : Processor β} {budget : Nat}

theorem runUntil_of_result_ok (h : p.cycles + budget ≤ cycleLimit) {used : Nat}
    (hused : (p.runFor budget).result = .ok used) :
    runUntil (p.cycles + budget) p = (none, (p.runFor budget).after) ∧
      (p.runFor budget).after.cycles = p.cycles + used := by
  have hbegun := le_cycles_runUntil (p.cycles + budget) p
  rw [runFor_eq h] at hused ⊢
  obtain ⟨hnone, rfl⟩ := Run.eq_none_of_ofEnd hused
  rw [Run.after_ofEnd]
  exact ⟨Prod.ext hnone rfl, by omega⟩

theorem runUntil_of_result_error (h : p.cycles + budget ≤ cycleLimit)
    {fault : UndefinedInstruction} (hfault : (p.runFor budget).result = .error fault) :
    runUntil (p.cycles + budget) p = (some fault, (p.runFor budget).after) := by
  rw [runFor_eq h] at hfault ⊢
  rw [Run.after_ofEnd]
  exact Prod.ext (Run.eq_some_of_ofEnd hfault) rfl

/-- A budget is used up, and overdrawn by less than the last step takes. -/
theorem used_bounds (h : p.cycles + budget + 21 < 2 ^ 64) {used : Nat}
    (hused : (p.runFor budget).result = .ok used) :
    budget ≤ used ∧ used ≤ budget + 20 ∧ (p.lines = (false, false) → used ≤ budget + 6) := by
  have hlimit : p.cycles + budget ≤ cycleLimit := by
    unfold cycleLimit
    omega
  obtain ⟨hrun, hcycles⟩ := runUntil_of_result_ok hlimit hused
  have hend : (runUntil (p.cycles + budget) p).2.cycles = p.cycles + used := by rw [hrun, hcycles]
  have hreached := le_cycles_of_runUntil (congrArg Prod.fst hrun)
  have hpassed : (runUntil (p.cycles + budget) p).2.cycles < p.cycles + budget + 21 :=
    cycles_runUntil_lt (by omega)
  refine ⟨by omega, by omega, fun hquiet => ?_⟩
  have hseven : (runUntil (p.cycles + budget) p).2.cycles < p.cycles + budget + 7 :=
    cycles_runUntil_lt_of_quiet hquiet (by omega)
  omega

end

/-- **Budgets are overrun by less than a step.** A run makes at most half as many steps as
it has cycles, rounded up, each of them before its budget is spent. If none fails, it ends
behind the last of them, at once just when there is no budget, and has taken up to 20
cycles too many, or up to 6 when no interrupt waited. If one fails, its interrupts and its
fetch are done, and no more. The counter stays below 2 ^ 64. -/
theorem budgets_are_overrun_by_less_than_a_step {p : Processor β} {budget : Nat}
    (h : p.cycles + budget + 21 < 2 ^ 64) :
    ∃ count q, p.steps count = ⟨count, none, q⟩ ∧ count ≤ (budget + 1) / 2 ∧
      (∀ n < count, (p.steps n).after.cycles < p.cycles + budget) ∧
      (∀ used, (p.runFor budget).result = .ok used →
        (p.runFor budget).after = q ∧ q.cycles = p.cycles + used ∧
          (used = 0 ↔ budget = 0) ∧ (budget = 0 → q = p) ∧
          budget ≤ used ∧ used ≤ budget + 20 ∧
          (p.irqPending = false → p.nmiPending = false → used ≤ budget + 6)) ∧
      (∀ fault, (p.runFor budget).result = .error fault →
        q.cycles < p.cycles + budget ∧ q.step.fault = some fault ∧
          (p.runFor budget).after = (q.lowerLines.enterAll q.interrupts).2.fetchByte.2) ∧
      (p.runFor budget).after.cycles < 2 ^ 64 := by
  have hlimit : p.cycles + budget ≤ cycleLimit := by
    unfold cycleLimit
    omega
  obtain ⟨count, q, hsteps, hbefore, hcount, hend⟩ :=
    exists_steps_runUntil (p.cycles + budget) p
  refine ⟨count, q, hsteps, by omega, hbefore, fun used hused => ?_, fun fault hfault => ?_, ?_⟩
  · obtain ⟨hrun, hcycles⟩ := runUntil_of_result_ok hlimit hused
    obtain ⟨hle, hover, hquiet⟩ := used_bounds h hused
    have hafter : (p.runFor budget).after = q := by
      rcases hend with hend | ⟨fault, -, -, hend⟩
      · exact (Prod.mk.inj (hrun.symm.trans hend)).2
      · cases hrun.symm.trans hend
    have hzero : budget = 0 → used = 0 ∧ q = p := by
      rintro rfl
      rw [runFor_zero hlimit] at hused hafter
      exact ⟨(Except.ok.inj hused).symm, hafter.symm⟩
    exact ⟨hafter, hafter ▸ hcycles, ⟨fun hnothing => by omega, fun hnone => (hzero hnone).1⟩,
      fun hnone => (hzero hnone).2, hle, hover, fun hirq hnmi => hquiet (Prod.ext hirq hnmi)⟩
  · have hrun := runUntil_of_result_error hlimit hfault
    rcases hend with hend | ⟨other, hlt, hstep, hend⟩
    · cases hrun.symm.trans hend
    · obtain ⟨hsame, hafter⟩ := Prod.mk.inj (hrun.symm.trans hend)
      refine ⟨hlt, hstep.trans hsame.symm, ?_⟩
      rw [hafter, after_step_of_fault hstep]
  · have hpassed : (runUntil (p.cycles + budget) p).2.cycles < p.cycles + budget + 21 :=
      cycles_runUntil_lt (by omega)
    rw [runFor_eq hlimit, Run.after_ofEnd]
    omega

/-- Two idle steps overrun a budget of three cycles by one. A byte that is no opcode ends
a run before its first step. -/
theorem idle_budget_is_overrun_by_one :
    let p := powerOn idleMemory
    let stuck := acrossTheEnd 0x02 0x00 0x00
    (p.cycles + 3 + 21 < 2 ^ 64 ∧ (p.runFor 3).result = .ok 4 ∧
      ∃ count q, p.steps count = ⟨count, none, q⟩ ∧ count ≤ 2 ∧ (p.runFor 3).after = q ∧
        q.cycles = p.cycles + 4 ∧ 4 ≤ 3 + 6) ∧
      stuck.cycles + 3 + 21 < 2 ^ 64 ∧ (stuck.runFor 3).result = .error ⟨0x02, 0xFFFF⟩ ∧
      ∃ count q, stuck.steps count = ⟨count, none, q⟩ ∧ count ≤ 2 ∧ q.cycles < stuck.cycles + 3 ∧
        (stuck.runFor 3).after = (q.lowerLines.enterAll q.interrupts).2.fetchByte.2 := by
  intro p stuck
  have hidle : p.cycles + 3 + 21 < 2 ^ 64 := by decide
  have hstuck : stuck.cycles + 3 + 21 < 2 ^ 64 := by decide
  have hused : (p.runFor 3).result = .ok 4 := by
    rw [runFor_three_idle rfl rfl rfl (by decide)]
  have hfailed : (stuck.runFor 3).result = .error ⟨0x02, 0xFFFF⟩ := by
    have hcode : Bus.read stuck.bus stuck.pc = 0x02 := (read_acrossTheEnd 0x02 0x00 0x00).1
    have hop : Opcode.decode? (Bus.read stuck.bus stuck.pc) = none := by
      rw [hcode, Opcode.decode?_eq_find?]
      decide
    have hfault : stuck.step.fault = some ⟨0x02, 0xFFFF⟩ := by
      rw [step_eq_execute rfl rfl, execute_of_undefined hop, hcode]
      rfl
    rw [runFor_eq (by decide), runUntil_of_fault (Nat.lt_succ_of_le (Nat.le_add_right _ 2)) hfault]
    rfl
  obtain ⟨count, q, hsteps, hcount, -, hok, -⟩ := budgets_are_overrun_by_less_than_a_step hidle
  obtain ⟨hafter, hcycles, -, -, -, -, hsix⟩ := hok 4 hused
  obtain ⟨none, r, hnone, hfew, -, -, herror, -⟩ := budgets_are_overrun_by_less_than_a_step hstuck
  obtain ⟨hlt, -, hend⟩ := herror _ hfailed
  exact ⟨⟨hidle, hused, count, q, hsteps, hcount, hafter, hcycles, hsix rfl rfl⟩,
    hstuck, hfailed, none, r, hnone, hfew, hlt, hend⟩

end Processor
end Mos6502
