/-
# Addressing modes

How the bytes after an opcode name the operand of an instruction.

Key definitions: `AddressingMode`, `AddressingMode.operandBytes`,
`AddressingMode.name`.
-/

namespace Mos6502

/-- The thirteen ways an instruction names its operand. -/
inductive AddressingMode
  | implicit
  | accumulator
  | immediate
  /-- A one-byte address. -/
  | zeroPage
  /-- A one-byte address plus X, within page zero. -/
  | zeroPageX
  /-- A one-byte address plus Y, within page zero. -/
  | zeroPageY
  /-- A signed distance from the next instruction. -/
  | relative
  /-- A two-byte address. -/
  | absolute
  /-- A two-byte address plus X. -/
  | absoluteX
  /-- A two-byte address plus Y. -/
  | absoluteY
  /-- The address is stored at a two-byte address. -/
  | indirect
  /-- The address is stored in page zero, at a one-byte address plus X. -/
  | indirectX
  /-- The address is stored in page zero at a one-byte address, and Y is added
  to it. -/
  | indirectY
  deriving DecidableEq

namespace AddressingMode

/-- Every addressing mode. -/
def all : List AddressingMode :=
  [.implicit, .accumulator, .immediate, .zeroPage, .zeroPageX, .zeroPageY, .relative, .absolute,
    .absoluteX, .absoluteY, .indirect, .indirectX, .indirectY]

/-- The number of bytes that follow the opcode. -/
def operandBytes : AddressingMode → Nat
  | .implicit | .accumulator => 0
  | .immediate | .zeroPage | .zeroPageX | .zeroPageY | .relative | .indirectX | .indirectY => 1
  | .absolute | .absoluteX | .absoluteY | .indirect => 2

/-- The name of a mode, as messages give it. -/
def name : AddressingMode → String
  | .implicit => "Implicit"
  | .accumulator => "Accumulator"
  | .immediate => "Immediate"
  | .zeroPage => "ZeroPage"
  | .zeroPageX => "ZeroPageX"
  | .zeroPageY => "ZeroPageY"
  | .relative => "Relative"
  | .absolute => "Absolute"
  | .absoluteX => "AbsoluteX"
  | .absoluteY => "AbsoluteY"
  | .indirect => "Indirect"
  | .indirectX => "IndirectX"
  | .indirectY => "IndirectY"

end AddressingMode
end Mos6502
