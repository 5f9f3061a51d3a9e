/-
# Steps

Interrupts are entered one after the other. When none waits a step is the
execution of one instruction, and a byte that is a documented opcode is
executed without a fault. A run is a step and the run after it, and so are any number
of steps, which also are the last of them after those before it.

Key theorems: `Processor.enterAll_append`, `Processor.step_eq_execute`,
`Processor.execute_of_undefined`, `Processor.step_eq_perform`,
`Processor.runUntil_of_step`, `Processor.runUntil_induction`,
`Processor.steps_of_step`, `Processor.steps_succ`.
-/
import Mos6502.Processor.Run

namespace Mos6502
namespace Processor

universe u

variable {β : Type u} [Bus β]

theorem enterAll_cons (vector : UInt16) (vectors : List UInt16) (p : Processor β) :
    (p.enterAll (vector :: vectors)).2 = ((p.enter vector).enterAll vectors).2 := by
  simp only [enterAll]

/-- Interrupts are entered after those before them. -/
theorem enterAll_append (first second : List UInt16) (p : Processor β) :
    (p.enterAll (first ++ second)).2 = ((p.enterAll first).2.enterAll second).2 := by
  induction first generalizing p with
  | nil => rfl
  | cons vector first ih => rw [List.cons_append, enterAll_cons, enterAll_cons, ih]

theorem step_eq_execute {p : Processor β} (hirq : p.irqPending = false)
    (hnmi : p.nmiPending = false) : p.step = p.execute := by
  have hlines : p.lowerLines = p := by
    cases p
    cases hirq
    cases hnmi
    rfl
  have hvectors : p.interrupts = [] := by
    rw [interrupts, hirq, hnmi]
    rfl
  rw [step, hlines, hvectors]
  rfl

/-- The byte at the program counter is fetched, and its instruction carried
out. -/
theorem execute_eq_perform {p : Processor β} {op : Opcode}
    (hop : Opcode.decode? (Bus.read p.bus p.pc) = some op) :
    p.execute =
      let q := p.fetchByte.2.perform op.mnemonic.operation op.mode
      { records := [record p.pc p.cycles (.instruction op) q], fault := none, after := q } := by
  unfold execute
  have hfetch : Opcode.decode? p.fetchByte.1 = some op := hop
  simp only [hfetch]

/-- A byte that is no opcode is fetched, and nothing else happens. -/
theorem execute_of_undefined {p : Processor β}
    (hop : Opcode.decode? (Bus.read p.bus p.pc) = none) :
    p.execute =
      { records := [], fault := some ⟨Bus.read p.bus p.pc, p.pc⟩, after := p.fetchByte.2 } := by
  unfold execute
  have hfetch : Opcode.decode? p.fetchByte.1 = none := hop
  simp only [hfetch]
  rfl

/-- **A step at a documented opcode succeeds**: it carries out that instruction
and nothing else. -/
theorem step_eq_perform {p : Processor β} {op : Opcode} (hirq : p.irqPending = false)
    (hnmi : p.nmiPending = false) (hop : Opcode.decode? (Bus.read p.bus p.pc) = some op) :
    p.step =
      let q := p.fetchByte.2.perform op.mnemonic.operation op.mode
      { records := [record p.pc p.cycles (.instruction op) q], fault := none, after := q } := by
  rw [step_eq_execute hirq hnmi, execute_eq_perform hop]

/-! ### Runs -/

theorem runUntil_of_le {target : Nat} {p : Processor β} (h : target ≤ p.cycles) :
    runUntil target p = (none, p) := by
  rw [runUntil, if_neg (Nat.not_lt.mpr h)]

theorem runUntil_of_fault {target : Nat} {p : Processor β} (h : p.cycles < target)
    {fault : UndefinedInstruction} (hfault : p.step.fault = some fault) :
    runUntil target p = (some fault, p.step.after) := by
  rw [runUntil, if_pos h]
  simp only [hfault]

theorem runUntil_of_step {target : Nat} {p : Processor β} (h : p.cycles < target)
    (hfault : p.step.fault = none) : runUntil target p = runUntil target p.step.after := by
  rw [runUntil, if_pos h]
  simp only [hfault]

/-- What holds of runs that are over or fail at once, and of a run when it holds of
the run after its first step, holds of all runs until a target. -/
@[elab_as_elim]
theorem runUntil_induction {motive : Processor β → Prop} (target : Nat)
    (ended : ∀ p, target ≤ p.cycles → motive p)
    (fails : ∀ p fault, p.cycles < target → p.step.fault = some fault → motive p)
    (goesOn : ∀ p, p.cycles < target → p.step.fault = none → motive p.step.after → motive p)
    (p : Processor β) : motive p := by
  -- by the cycles that are left, of which a step takes some
  induction hleft : target - p.cycles using Nat.strongRecOn generalizing p with
  | ind left ih =>
    rcases Nat.lt_or_ge p.cycles target with hlt | hge
    · cases hend : p.step.fault with
      | some fault => exact fails p fault hlt hend
      | none =>
        have hspent := cycles_lt_step p
        exact goesOn p hlt hend (ih _ (by omega) p.step.after rfl)
    · exact ended p hge

/-! ### Any number of steps -/

theorem stepWhileFrom_eq (done : Nat) (goOn : Processor β → Bool) (limit : Nat)
    (p : Processor β) :
    stepWhileFrom done goOn limit p =
      ⟨done + (stepWhile goOn limit p).done, (stepWhile goOn limit p).fault,
        (stepWhile goOn limit p).after⟩ := by
  unfold stepWhile
  induction limit generalizing done p with
  | zero => rfl
  | succ limit ih =>
    simp only [stepWhileFrom]
    split
    · split
      · rfl
      · rw [ih (done + 1), ih (0 + 1), Nat.zero_add, Nat.add_assoc]
    · rfl

@[simp]
theorem steps_zero (p : Processor β) : p.steps 0 = ⟨0, none, p⟩ := rfl

/-- Steps are the first of them and those after it. -/
theorem steps_of_step {p : Processor β} (h : p.step.fault = none) (count : Nat) :
    p.steps (count + 1) = ⟨(p.step.after.steps count).done + 1, (p.step.after.steps count).fault,
      (p.step.after.steps count).after⟩ := by
  have hfirst : p.steps (count + 1) =
      stepWhileFrom (0 + 1) (fun _ => true) count p.step.after := by
    simp only [steps, stepWhile, stepWhileFrom, h, if_true]
  rw [hfirst, stepWhileFrom_eq, Nat.zero_add, Nat.add_comm]
  rfl

theorem steps_of_fault {p : Processor β} {fault : UndefinedInstruction}
    (h : p.step.fault = some fault) (count : Nat) :
    p.steps (count + 1) = ⟨0, some fault, p.step.after⟩ := by
  simp only [steps, stepWhile, stepWhileFrom, h, if_true]

theorem steps_succ {count : Nat} {p q : Processor β} (hsteps : p.steps count = ⟨count, none, q⟩)
    (h : q.step.fault = none) : p.steps (count + 1) = ⟨count + 1, none, q.step.after⟩ := by
  induction count generalizing p with
  | zero =>
    cases hsteps
    exact steps_of_step h 0
  | succ count ih =>
    cases hfirst : p.step.fault with
    | some fault =>
      rw [steps_of_fault hfirst] at hsteps
      cases hsteps
    | none =>
      rw [steps_of_step hfirst] at hsteps ⊢
      cases hrest : p.step.after.steps count with
      | mk done fault after =>
        rw [hrest] at hsteps
        cases hsteps
        rw [ih hrest]

end Processor
end Mos6502
