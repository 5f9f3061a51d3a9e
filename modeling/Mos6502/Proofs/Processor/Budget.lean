/-
# Runs of a budget of cycles

A run until a target goes through the processor that a run until an earlier
target ends at, unless that failed (`runUntil_of_ok`). So a budget can be
cut in two, if what the first run takes too much is deducted from the second,
and then in any number of parts (`runEach_eq_runFor`).

The counter passes the target by less than a step, which keeps it below 2 ^ 64
for all budgets that end 21 cycles before.

Key definitions: `Run.ofEnd`, `Processor.runEach`.
Key theorems: `runUntil_of_ok`, `cycles_runUntil_lt_of`, `cycles_runUntil_lt`,
`runFor_of_error`, `runFor_of_ok`, `runEach_eq_runFor`, `budgets_can_be_split`.
-/
import Mos6502.Proofs.Processor.Trace

namespace Mos6502

universe u

namespace Processor

variable {β : Type u} [Bus β]

/-! ### Runs until a target -/

theorem le_cycles_runUntil (target : Nat) (p : Processor β) :
    p.cycles ≤ (runUntil target p).2.cycles := by
  induction p using runUntil_induction (β := β) target with
  | ended p hended => rw [runUntil_of_le hended]
  | fails p fault hlt hfault =>
    rw [runUntil_of_fault hlt hfault]
    exact Nat.le_of_lt (cycles_lt_step p)
  | goesOn p hlt hok ih =>
    rw [runUntil_of_step hlt hok]
    exact Nat.le_trans (Nat.le_of_lt (cycles_lt_step p)) ih

/-- A run that does not fail reaches its target. -/
theorem le_cycles_of_runUntil {target : Nat} {p : Processor β}
    (h : (runUntil target p).1 = none) : target ≤ (runUntil target p).2.cycles := by
  induction p using runUntil_induction (β := β) target with
  | ended p hended => rwa [runUntil_of_le hended]
  | fails p fault hlt hfault =>
    rw [runUntil_of_fault hlt hfault] at h
    cases h
  | goesOn p hlt hok ih =>
    rw [runUntil_of_step hlt hok] at h ⊢
    exact ih h

/-- The last step passes the target by less than the most that a step takes in the
states that the run goes through. -/
theorem cycles_runUntil_lt_of {P : Processor β → Prop} {target most : Nat}
    (hkeeps : ∀ q, P q → P q.step.after)
    (hmost : ∀ q, P q → q.step.after.cycles ≤ q.cycles + most) {p : Processor β} (hp : P p)
    (h : p.cycles < target + most) : (runUntil target p).2.cycles < target + most := by
  induction p using runUntil_induction (β := β) target with
  | ended p hended => rwa [runUntil_of_le hended]
  | fails p fault hlt hfault =>
    have hstep := hmost p hp
    rw [runUntil_of_fault hlt hfault]
    show p.step.after.cycles < target + most
    omega
  | goesOn p hlt hok ih =>
    have hstep := hmost p hp
    rw [runUntil_of_step hlt hok]
    exact ih (hkeeps p hp) (by omega)

/-- The target is passed by less than 21 cycles, the most that any step takes. -/
theorem cycles_runUntil_lt {target : Nat} {p : Processor β} (h : p.cycles < target + 21) :
    (runUntil target p).2.cycles < target + 21 :=
  cycles_runUntil_lt_of (P := fun _ => True) (fun _ _ => trivial) (fun q _ => cycles_step_le q)
    trivial h

/-- A run that fails before a target fails in the same way before a later one. -/
theorem runUntil_of_error {first second : Nat} (hle : first ≤ second) {p : Processor β}
    {fault : UndefinedInstruction} (h : (runUntil first p).1 = some fault) :
    runUntil second p = runUntil first p := by
  induction p using runUntil_induction (β := β) first with
  | ended p hended =>
    rw [runUntil_of_le hended] at h
    cases h
  | fails p _ hlt hfault =>
    rw [runUntil_of_fault hlt hfault, runUntil_of_fault (Nat.lt_of_lt_of_le hlt hle) hfault]
  | goesOn p hlt hok ih =>
    rw [runUntil_of_step hlt hok] at h ⊢
    rw [runUntil_of_step (Nat.lt_of_lt_of_le hlt hle) hok]
    exact ih h

/-- **A run goes through where a run until an earlier target ends.** -/
theorem runUntil_of_ok {first second : Nat} (hle : first ≤ second) {p : Processor β}
    (h : (runUntil first p).1 = none) :
    runUntil second p = runUntil second (runUntil first p).2 := by
  induction p using runUntil_induction (β := β) first with
  | ended p hended => rw [runUntil_of_le hended]
  | fails p fault hlt hfault =>
    rw [runUntil_of_fault hlt hfault] at h
    cases h
  | goesOn p hlt hok ih =>
    rw [runUntil_of_step hlt hok] at h ⊢
    rw [runUntil_of_step (Nat.lt_of_lt_of_le hlt hle) hok]
    exact ih h

end Processor

/-! ### Runs of a budget -/

namespace Run

variable {β : Type u}

/-- What came of a run that ended in some way and had begun at some count. -/
def ofEnd (start : Nat) (ending : Option UndefinedInstruction × Processor β) : Run β :=
  match ending.1 with
  | some fault => ⟨.error fault, ending.2⟩
  | none => ⟨.ok (ending.2.cycles - start), ending.2⟩

theorem eq_some_of_ofEnd {start : Nat} {ending : Option UndefinedInstruction × Processor β}
    {fault : UndefinedInstruction} (h : (ofEnd start ending).result = .error fault) :
    ending.1 = some fault := by
  unfold ofEnd at h
  split at h
  · rename_i other hother
    rw [hother, Except.error.inj h]
  · cases h

theorem eq_none_of_ofEnd {start used : Nat} {ending : Option UndefinedInstruction × Processor β}
    (h : (ofEnd start ending).result = .ok used) :
    ending.1 = none ∧ used = ending.2.cycles - start := by
  unfold ofEnd at h
  split at h
  · cases h
  · rename_i hnone
    exact ⟨hnone, (Except.ok.inj h).symm⟩

theorem after_ofEnd (start : Nat) (ending : Option UndefinedInstruction × Processor β) :
    (ofEnd start ending).after = ending.2 := by
  unfold ofEnd
  split <;> rfl

theorem ofEnd_eq_map {start later : Nat} {ending : Option UndefinedInstruction × Processor β}
    (hstart : start ≤ later) (hlater : later ≤ ending.2.cycles) :
    ofEnd start ending =
      ⟨(ofEnd later ending).result.map (later - start + ·), (ofEnd later ending).after⟩ := by
  unfold ofEnd
  split
  · rfl
  · have hcycles : ending.2.cycles - start = later - start + (ending.2.cycles - later) := by omega
    rw [hcycles]
    rfl

end Run

namespace Processor

variable {β : Type u} [Bus β]

/-- A budget that ends before the counter does is run until its end. -/
theorem runFor_eq {p : Processor β} {budget : Nat} (h : p.cycles + budget ≤ cycleLimit) :
    p.runFor budget = Run.ofEnd p.cycles (runUntil (p.cycles + budget) p) := by
  simp only [runFor, Nat.min_eq_left h]
  rfl

theorem runFor_zero {p : Processor β} (h : p.cycles ≤ cycleLimit) : p.runFor 0 = ⟨.ok 0, p⟩ := by
  rw [runFor_eq h, Nat.add_zero, runUntil_of_le (Nat.le_refl _)]
  simp only [Run.ofEnd, Nat.sub_self]

/-- What fails within a budget fails in the same way within a larger one. -/
theorem runFor_of_error {p : Processor β} {a b : Nat} (h : p.cycles + (a + b) ≤ cycleLimit)
    {fault : UndefinedInstruction} (hrun : (p.runFor a).result = .error fault) :
    p.runFor (a + b) = p.runFor a := by
  have hshort : p.runFor a = Run.ofEnd p.cycles (runUntil (p.cycles + a) p) := runFor_eq (by omega)
  rw [hshort] at hrun ⊢
  rw [runFor_eq h, runUntil_of_error (by omega) (Run.eq_some_of_ofEnd hrun)]

/-- A run that uses up a larger budget than its own is the run of that budget. -/
theorem runFor_of_le_used {p : Processor β} {a b used : Nat}
    (h : p.cycles + (a + b) ≤ cycleLimit) (hrun : (p.runFor a).result = .ok used)
    (hused : a + b ≤ used) : p.runFor (a + b) = p.runFor a := by
  have ha : p.cycles + a ≤ cycleLimit := by omega
  rw [runFor_eq ha] at hrun
  obtain ⟨hok, rfl⟩ := Run.eq_none_of_ofEnd hrun
  have hbegun := le_cycles_runUntil (p.cycles + a) p
  have hall : runUntil (p.cycles + (a + b)) p = runUntil (p.cycles + a) p := by
    rw [runUntil_of_ok (by omega) hok, runUntil_of_le (by omega)]
    exact Prod.ext hok.symm rfl
  rw [runFor_eq h, runFor_eq ha, hall]

/-- **A budget is the budgets that it is the sum of**, when what the run of the
first takes too much is deducted from the second. -/
theorem runFor_of_ok {p : Processor β} {a b used : Nat} (h : p.cycles + (a + b) + 21 ≤ cycleLimit)
    (hrun : (p.runFor a).result = .ok used) :
    p.runFor (a + b) =
      ⟨((p.runFor a).after.runFor (a + b - used)).result.map (used + ·),
        ((p.runFor a).after.runFor (a + b - used)).after⟩ := by
  have ha : p.cycles + a ≤ cycleLimit := by omega
  rw [runFor_eq ha] at hrun
  obtain ⟨hok, rfl⟩ := Run.eq_none_of_ofEnd hrun
  have hbegun := le_cycles_runUntil (p.cycles + a) p
  have hpassed : (runUntil (p.cycles + a) p).2.cycles < p.cycles + a + 21 :=
    cycles_runUntil_lt (by omega)
  have hthrough : runUntil (p.cycles + (a + b)) p =
      runUntil (p.cycles + (a + b)) (runUntil (p.cycles + a) p).2 := runUntil_of_ok (by omega) hok
  rw [runFor_eq ha, Run.after_ofEnd, runFor_eq (by omega), hthrough]
  generalize (runUntil (p.cycles + a) p).2 = q at hbegun hpassed ⊢
  rw [runFor_eq (by omega)]
  -- the second run has the same target, unless the first one has passed it
  have htarget : runUntil (p.cycles + (a + b)) q =
      runUntil (q.cycles + (a + b - (q.cycles - p.cycles))) q := by
    rcases Nat.le_total q.cycles (p.cycles + (a + b)) with hle | hle
    · congr 1
      omega
    · rw [runUntil_of_le hle, runUntil_of_le (by omega)]
  rw [htarget]
  exact Run.ofEnd_eq_map hbegun (le_cycles_runUntil _ q)

/-! ### One budget after the other -/

/-- Runs one budget after the other, when some cycles are due to the budgets
before them and some have been spent. Each run is given what is due with its own
budget and has not been spent, so that what is spent too much on one budget is
deducted from the next. -/
def runEach (due spent : Nat) (p : Processor β) : List Nat → Run β
  | [] => ⟨.ok spent, p⟩
  | budget :: budgets =>
    let run := p.runFor (due + budget - spent)
    match run.result with
    | .error fault => ⟨.error fault, run.after⟩
    | .ok used => runEach (due + budget) (spent + used) run.after budgets

/-- When the budgets before have been run, those that follow are run as with them
in one. -/
theorem runEach_eq_runFor {start p : Processor β} {due spent : Nat} (budgets : List Nat)
    (h : start.cycles + (due + budgets.sum) + 21 ≤ cycleLimit)
    (hrun : start.runFor due = ⟨.ok spent, p⟩) :
    runEach due spent p budgets = start.runFor (due + budgets.sum) := by
  induction budgets generalizing due spent p with
  | nil => exact hrun.symm
  | cons budget budgets ih =>
    rw [List.sum_cons, ← Nat.add_assoc due] at h ⊢
    have hok : (start.runFor due).result = .ok spent := by rw [hrun]
    have hnext := runFor_of_ok (b := budget) (by omega) hok
    simp only [hrun] at hnext
    simp only [runEach]
    cases hresult : (p.runFor (due + budget - spent)).result with
    | error fault =>
      rw [hresult] at hnext
      have herror : (start.runFor (due + budget)).result = .error fault := by
        rw [hnext]
        rfl
      rw [runFor_of_error (by omega) herror, hnext]
      rfl
    | ok used =>
      rw [hresult] at hnext
      exact ih h hnext

/-- **Budgets can be split.** A run that fails within the first part of a budget
fails so within all of it, and one that uses all of it up is the run of all of it.
Otherwise it goes on with what is left of the budget: the run of all of it ends
there, for the same reason or with the sum of both counts. So it does when it is cut
into any number of budgets. The counter stays below its limit. -/
theorem budgets_can_be_split {p : Processor β} {a b : Nat}
    (h : p.cycles + (a + b) < 2 ^ 64 - 21) :
    (∀ fault, (p.runFor a).result = .error fault → p.runFor (a + b) = p.runFor a) ∧
      (∀ used, (p.runFor a).result = .ok used → a + b ≤ used → p.runFor (a + b) = p.runFor a) ∧
      (∀ used, (p.runFor a).result = .ok used → used < a + b →
        let rest := (p.runFor a).after.runFor (a + b - used)
        (p.runFor (a + b)).after = rest.after ∧
          (∀ fault, rest.result = .error fault → (p.runFor (a + b)).result = .error fault) ∧
          ∀ more, rest.result = .ok more → (p.runFor (a + b)).result = .ok (used + more)) ∧
      (∀ budgets : List Nat, budgets.sum = a + b → runEach 0 0 p budgets = p.runFor (a + b)) ∧
      (p.runFor (a + b)).after.cycles < 2 ^ 64 := by
  have hlimit : p.cycles + (a + b) + 21 ≤ cycleLimit := by
    unfold cycleLimit
    omega
  refine ⟨fun fault hrun => ?_, fun used hrun hused => ?_, fun used hrun _ => ?_,
    fun budgets hsum => ?_, ?_⟩
  · exact runFor_of_error (by omega) hrun
  · exact runFor_of_le_used (by omega) hrun hused
  · have hsplit := runFor_of_ok hlimit hrun
    intro rest
    rw [hsplit]
    refine ⟨rfl, fun fault hrest => ?_, fun more hrest => ?_⟩
    · show rest.result.map _ = _
      rw [hrest]
      rfl
    · show rest.result.map _ = _
      rw [hrest]
      rfl
  · have hnone : p.runFor 0 = ⟨.ok 0, p⟩ := runFor_zero (by omega)
    rw [← hsum, ← Nat.zero_add budgets.sum]
    exact runEach_eq_runFor budgets (by omega) hnone
  · have hpassed : (runUntil (p.cycles + (a + b)) p).2.cycles < p.cycles + (a + b) + 21 :=
      cycles_runUntil_lt (by omega)
    rw [runFor_eq (by omega), Run.after_ofEnd]
    omega

/-- A memory in which every byte is that of an instruction that does nothing. -/
def idleMemory : Memory := ⟨Vector.replicate 65536 0xEA⟩

theorem step_idle {p : Processor Memory} (hbus : p.bus = idleMemory)
    (hirq : p.irqPending = false) (hnmi : p.nmiPending = false) :
    p.step.fault = none ∧ p.step.after = { p with pc := p.pc + 1, cycles := p.cycles + 2 } := by
  have hcode : Bus.read p.bus p.pc = 0xEA := by
    rw [hbus]
    simp [idleMemory, Memory.read]
  have hop : Opcode.decode? (Bus.read p.bus p.pc) = some ⟨0xEA, .nop, .implicit, 2⟩ := by
    rw [hcode]
    exact Opcode.decode?_code ⟨0xEA, .nop, .implicit, 2⟩ (by decide)
  rw [step_eq_perform hirq hnmi hop]
  exact ⟨rfl, rfl⟩

theorem runFor_three_idle {p : Processor Memory} (hbus : p.bus = idleMemory)
    (hirq : p.irqPending = false) (hnmi : p.nmiPending = false)
    (h : p.cycles + 3 ≤ cycleLimit) :
    p.runFor 3 = ⟨.ok 4, { p with pc := p.pc + 1 + 1, cycles := p.cycles + 4 }⟩ := by
  obtain ⟨hfirst, hafter⟩ := step_idle hbus hirq hnmi
  obtain ⟨hsecond, hend⟩ :=
    step_idle (p := { p with pc := p.pc + 1, cycles := p.cycles + 2 }) hbus hirq hnmi
  rw [runFor_eq h, runUntil_of_step (by omega) hfirst, hafter,
    runUntil_of_step (Nat.lt_succ_self (p.cycles + 2)) hsecond, hend,
    runUntil_of_le (Nat.le_succ (p.cycles + 3))]
  simp only [Run.ofEnd, Nat.add_assoc, Nat.add_sub_cancel_left]

theorem idle_budgets_can_be_split :
    let p := powerOn idleMemory
    p.cycles + (3 + 4) < 2 ^ 64 - 21 ∧ (p.runFor 3).result = .ok 4 ∧
      ((p.runFor 3).after.runFor (3 + 4 - 4)).result = .ok 4 ∧
      (p.runFor (3 + 4)).result = .ok (4 + 4) ∧
      runEach 0 0 p [2, 1, 4] = p.runFor (3 + 4) := by
  intro p
  have hlimit : p.cycles + (3 + 4) < 2 ^ 64 - 21 := by decide
  have hfirst : p.runFor 3 = _ := runFor_three_idle rfl rfl rfl (by decide)
  have hsecond : ((p.runFor 3).after.runFor (3 + 4 - 4)).result = .ok 4 := by
    rw [hfirst]
    exact congrArg Run.result (runFor_three_idle rfl rfl rfl (by decide))
  have hused : (p.runFor 3).result = .ok 4 := by rw [hfirst]
  obtain ⟨-, -, hsplit, heach, -⟩ := budgets_can_be_split hlimit
  obtain ⟨-, -, hsum⟩ := hsplit 4 hused (by decide)
  exact ⟨hlimit, hused, hsecond, hsum 4 hsecond, heach [2, 1, 4] rfl⟩

end Processor
end Mos6502
