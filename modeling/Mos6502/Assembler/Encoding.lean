/-
# Encoding instructions

The addressing mode, and with it the size of an instruction, is chosen from
the symbols known so far: the one-byte form of an address is taken only when
its value is known to be in page zero. The bytes are made when all symbols are
known.

Key definitions: `Expression.resolve`, `Expression.isZeroPage`, `selectMode`,
`branchOffset`, `encode`.
-/
import Mos6502.Assembler.Error
import Mos6502.Assembler.Symbol
import Mos6502.Opcode
import Mos6502.Processor.Operation

namespace Mos6502
namespace Assembler

namespace Expression

/-- The value is known to be an address in page zero. -/
def isZeroPage (symbols : SymbolTable) : Expression → Bool
  | .literal number => number.zeroPage
  | .symbol name offset =>
    match symbols.find? name with
    | none => false
    | some entry =>
      let value : Int := entry.value.toNat + offset
      entry.zeroPage && decide (0 ≤ value) && decide (value ≤ 0xFF)

/-- The value of an expression. -/
def resolve (symbols : SymbolTable) : Expression → Except Cause UInt16
  | .literal number => .ok number.value
  | .symbol name offset =>
    match symbols.find? name with
    | none => .error (.undefinedSymbol name)
    | some entry =>
      let value : Int := entry.value.toNat + offset
      if 0 ≤ value ∧ value ≤ 0xFFFF then .ok (UInt16.ofNat value.toNat)
      else .error (.outsideMemory name offset)

end Expression

/-- The short form of a mode if the mnemonic has it and the address fits or
there is no other, and else the long form. -/
def sized (m : Mnemonic) (zeroPage : Bool) (short long : AddressingMode) : AddressingMode :=
  if m.supports short && (zeroPage || !m.supports long) then short else long

/-- The mode that an operand asks for. -/
def requestedMode (m : Mnemonic) (symbols : SymbolTable) : Operand → AddressingMode
  | .none => if m.supports .accumulator then .accumulator else .implicit
  | .accumulator => .accumulator
  | .immediate _ => .immediate
  | .displacement _ => .relative
  | .direct value =>
    if m.isBranch then .relative else sized m (value.isZeroPage symbols) .zeroPage .absolute
  | .indexedX value => sized m (value.isZeroPage symbols) .zeroPageX .absoluteX
  | .indexedY value => sized m (value.isZeroPage symbols) .zeroPageY .absoluteY
  | .indirect _ => .indirect
  | .indirectX _ => .indirectX
  | .indirectY _ => .indirectY

/-- The mode of an instruction, if the mnemonic has the one its operand asks
for. -/
def selectMode (m : Mnemonic) (symbols : SymbolTable) (operand : Operand) :
    Except Cause AddressingMode :=
  let mode := requestedMode m symbols operand
  if m.supports mode then .ok mode else .error (.unsupportedMode m mode m.modes)

/-- The byte that leads a branch to its target. It counts from the instruction
after the branch and has a sign. -/
def branchOffset (address target : UInt16) : Except Cause UInt8 :=
  let distance : Int := (target.toNat : Int) - (address.toNat + 2)
  if -128 ≤ distance ∧ distance ≤ 127 then .ok (UInt8.ofInt distance)
  else .error (.branchTooFar target distance)

/-- The operand byte of a branch over a distance from itself. -/
def encodeDisplacement (address : UInt16) (distance : Int) : Except Cause (List UInt8) := do
  let target : Int := address.toNat + distance
  if 0 ≤ target ∧ target ≤ 0xFFFF then
    return [← branchOffset address (UInt16.ofNat target.toNat)]
  else throw (.displacementOutside distance)

/-- The operand bytes of a value: a distance, a word with its low byte first,
or a byte. -/
def encodeValue (mode : AddressingMode) (address value : UInt16) : Except Cause (List UInt8) :=
  if mode = .relative then do return [← branchOffset address value]
  else if mode.operandBytes = 2 then .ok [Word.low value, Word.high value]
  else if value ≤ 0xFF then .ok [value.toUInt8]
  else .error (.wideValue value mode)

/-- The operand bytes of an instruction. -/
def encodeOperand (mode : AddressingMode) (address : UInt16) (symbols : SymbolTable) :
    Operand → Except Cause (List UInt8)
  | .none | .accumulator => .ok []
  | .displacement distance => encodeDisplacement address distance
  | .immediate value | .direct value | .indexedX value | .indexedY value | .indirect value
  | .indirectX value | .indirectY value => do
    encodeValue mode address (← value.resolve symbols)

/-- The bytes of an instruction at an address. -/
def encode (m : Mnemonic) (mode : AddressingMode) (operand : Operand) (address : UInt16)
    (symbols : SymbolTable) : Except Cause (List UInt8) :=
  match Opcode.find? m mode with
  | none => .error (.noOpcode m mode)
  | some opcode => do return opcode.code :: (← encodeOperand mode address symbols operand)

end Assembler
end Mos6502
