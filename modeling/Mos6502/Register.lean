/-
# Registers

Four registers hold a byte; the program counter holds an address.

Key definitions: `ByteRegister`, `Register`, `Register.limit`, `Register.name`.
-/

namespace Mos6502

/-- A register one byte wide. -/
inductive ByteRegister
  | a
  | x
  | y
  /-- The stack pointer, an offset into page one. -/
  | sp
  deriving DecidableEq

/-- A register a program can see. -/
inductive Register
  | byte (register : ByteRegister)
  | pc
  deriving DecidableEq

namespace Register

/-- Every register, in the order of the data sheet. -/
def all : List Register := [.byte .a, .byte .x, .byte .y, .byte .sp, .pc]

/-- The largest value a register holds. -/
def limit : Register → UInt16
  | .byte _ => 0xFF
  | .pc => 0xFFFF

/-- The name a register goes by in source text and in messages. -/
def name : Register → String
  | .byte .a => "A"
  | .byte .x => "X"
  | .byte .y => "Y"
  | .byte .sp => "SP"
  | .pc => "PC"

end Register
end Mos6502
