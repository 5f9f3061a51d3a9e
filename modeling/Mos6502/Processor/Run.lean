/-
# Runs

A run goes on step by step until a number of cycles has been spent, until a
number of steps has been made, or until a step fails.

Key definitions: `Processor.runFor`, `Processor.runUntil`,
`Processor.stepWhile`, `Processor.steps`, `Run`.
-/
import Mos6502.Processor.Step

namespace Mos6502

universe u

/-- What came of a run: how far it got, and the processor after it. -/
structure Run (β : Type u) where
  /-- The cycles or steps it took, or the failure that ended it. -/
  result : Except UndefinedInstruction Nat
  after : Processor β

/-- The largest number of cycles a processor counts. -/
def cycleLimit : Nat := 0xFFFFFFFFFFFFFFFF

namespace Processor

variable {β : Type u} [Bus β]

set_option maxRecDepth 1000 in
/-- Steps until the cycle counter has reached a target or a step fails. -/
def runUntil (target : Nat) (p : Processor β) : Option UndefinedInstruction × Processor β :=
  if p.cycles < target then
    let s := p.step
    match s.fault with
    | some fault => (some fault, s.after)
    | none => runUntil target s.after
  else (none, p)
termination_by target - p.cycles
decreasing_by
  have := cycles_lt_step p
  show target - p.step.after.cycles < target - p.cycles
  omega

/-- Steps until a budget of cycles is spent. The last step may overdraw it. -/
def runFor (p : Processor β) (budget : Nat) : Run β :=
  let start := p.cycles
  let (fault, p) := runUntil (min (start + budget) cycleLimit) p
  match fault with
  | some fault => ⟨.error fault, p⟩
  | none => ⟨.ok (p.cycles - start), p⟩

/-- What came of making steps: their number, and the failure that ended them. -/
structure Steps (β : Type u) where
  /-- The steps that did not fail. -/
  done : Nat
  /-- The failure of the step after them. -/
  fault : Option UndefinedInstruction
  after : Processor β

/-- Makes up to `limit` steps while a condition holds and none fails, when
`done` steps have been made before. -/
def stepWhileFrom (done : Nat) (goOn : Processor β → Bool) (limit : Nat) (p : Processor β) :
    Steps β :=
  match limit with
  | 0 => ⟨done, none, p⟩
  | limit + 1 =>
    if goOn p then
      let s := p.step
      match s.fault with
      | some fault => ⟨done, some fault, s.after⟩
      | none => stepWhileFrom (done + 1) goOn limit s.after
    else ⟨done, none, p⟩

/-- Makes up to `limit` steps while a condition holds and none fails. -/
def stepWhile (goOn : Processor β → Bool) (limit : Nat) (p : Processor β) : Steps β :=
  stepWhileFrom 0 goOn limit p

/-- Makes up to `limit` steps while none fails. -/
def steps (limit : Nat) (p : Processor β) : Steps β := stepWhile (fun _ => true) limit p

end Processor
end Mos6502
