/-
# Processors for a scenario

A setup describes a processor that is ready to step: bytes laid over a memory
of zeros, registers, flags, and a program at the program counter. It is built
in this order, and the first part that does not fit is the error.

Key definitions: `Setup`, `Setup.build`, `Setup.Error`.
-/
import Mos6502.Image
import Mos6502.Memory
import Mos6502.Processor.Basic
import Mos6502.Text.Digit

namespace Mos6502

/-- What a processor should look like before its first step. -/
structure Setup where
  /-- The program, which goes where the program counter points. -/
  program : List UInt8 := []
  /-- Bytes laid over memory, of which the last for an address counts. -/
  overlay : List (Nat × UInt8) := []
  /-- Values of registers, of which the last for a register counts. -/
  registers : List (Register × UInt16) := []
  /-- Values of flags, of which the last for a flag counts. -/
  flags : List (Flag × Bool) := []

def RegisterError.message (error : RegisterError) : String :=
  "value $" ++ String.ofList (Text.hexPadded 1 error.value.toNat) ++ " does not fit register " ++
    error.register.name

namespace Setup

/-- Why there is no such processor. -/
inductive Error
  | register (error : RegisterError)
  | addressOutOfRange (address : Nat)
  | programOutOfRange (start : UInt16) (length : Nat)
  deriving DecidableEq

def Error.message : Error → String
  | .register error => error.message
  | .addressOutOfRange address =>
    "address $" ++ String.ofList (Text.hexPadded 1 address) ++ " is outside the 64K address space"
  | .programOutOfRange start length =>
    toString length ++ "-byte program at $" ++ String.ofList (Text.hexWord start) ++
      " runs past $FFFF"

/-- Lays bytes over a memory. -/
def overlayOn (memory : Memory) : List (Nat × UInt8) → Except Error Memory
  | [] => .ok memory
  | (address, value) :: overlay =>
    if 0xFFFF < address then .error (.addressOutOfRange address)
    else overlayOn (memory.write (UInt16.ofNat address) value) overlay

/-- Gives registers their values. -/
def setRegisters (p : Processor Memory) : List (Register × UInt16) → Except Error (Processor Memory)
  | [] => .ok p
  | (register, value) :: registers =>
    match p.setRegister register value with
    | .error error => .error (.register error)
    | .ok p => setRegisters p registers

/-- Places a program at the program counter. -/
def place (p : Processor Memory) (program : List UInt8) : Except Error (Processor Memory) :=
  if 0x10000 < p.pc.toNat + program.length then .error (.programOutOfRange p.pc program.length)
  else
    let memory := Bus.writeAll p.bus (Image.consecutive p.pc program)
    .ok { p with bus := memory }

def build (s : Setup) : Except Error (Processor Memory) := do
  let memory ← overlayOn .zero s.overlay
  let p ← setRegisters (.powerOn memory) s.registers
  let p := s.flags.foldl (fun p entry => p.setFlag entry.1 entry.2) p
  place p s.program

end Setup
end Mos6502
