/-
# The simulator

A processor on a memory, and the programs that are put there. Loading a
program changes the memory where the program has bytes and points the program
counter at the lowest of them; a program that cannot be had changes nothing.

Key definitions: `Simulator`, `Simulator.loadSource`, `Simulator.loadHex`,
`Simulator.run`.
-/
import Mos6502.Assembler.Program
import Mos6502.IntelHex.File
import Mos6502.Memory
import Mos6502.Processor.Run

namespace Mos6502

def UndefinedInstruction.message (fault : UndefinedInstruction) : String :=
  "undefined instruction $" ++ String.ofList (Text.hexByte fault.opcode) ++ " at $" ++
    String.ofList (Text.hexWord fault.address)

/-- A processor with its memory. -/
structure Simulator where
  processor : Processor Memory

/-- What came of loading a source. -/
inductive Loaded
  /-- The program is loaded from its lowest address on. -/
  | program (start : UInt16) (size : Nat)
  /-- The first of the errors, if any is known. -/
  | failure (error : Option Assembler.Error)
  deriving DecidableEq

namespace Simulator

/-- A processor that was reset on a memory of zeros. -/
def start : Simulator := ⟨.powerOn .zero⟩

/-- Puts an image into memory and points the program counter at its lowest
address, or at zero when it is empty. -/
def load (s : Simulator) (image : Image) : UInt16 × Simulator :=
  let start := image.lowest?.getD 0
  let memory := image.loadInto s.processor.bus
  (start, ⟨{ s.processor with bus := memory, pc := start }⟩)

/-- Assembles and loads a source. -/
def loadSource (s : Simulator) (source : String) : Loaded × Simulator :=
  match Assembler.assemble source with
  | .ok program =>
    let (start, s) := s.load program.image
    (.program start program.image.size, s)
  | .error errors => (.failure errors.head?, s)

/-- Loads a file of records. Gives the lowest address. -/
def loadHex (s : Simulator) (text : String) : Except IntelHex.Error UInt16 × Simulator :=
  match IntelHex.read text with
  | .ok image =>
    let (start, s) := s.load image
    (.ok start, s)
  | .error error => (.error error, s)

def step (s : Simulator) : Option UndefinedInstruction × Simulator :=
  let step := s.processor.step
  (step.fault, ⟨step.after⟩)

/-- Spends a budget of cycles. Gives the cycles it took, modulo 2^32. -/
def run (s : Simulator) (budget : UInt32) : Except UndefinedInstruction UInt32 × Simulator :=
  let run := s.processor.runFor budget.toNat
  (run.result.map UInt32.ofNat, ⟨run.after⟩)

def reset (s : Simulator) : Simulator := ⟨s.processor.reset⟩

/-- Zeros the memory and resets the processor. -/
def clear (s : Simulator) : Simulator := ⟨{ s.processor with bus := Memory.zero }.reset⟩

end Simulator
end Mos6502
