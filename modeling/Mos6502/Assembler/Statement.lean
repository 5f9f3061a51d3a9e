/-
# Statements

A statement is what a line asks for, as far as it is known when the line is
first read: an instruction with its addressing mode, a directive, or nothing
but a label. From this its size follows.

Key definitions: `Directive`, `Body`, `Body.ofLine`, `Body.size`, `Statement`.
-/
import Mos6502.Assembler.Encoding
import Mos6502.Assembler.SourceMap

namespace Mos6502
namespace Assembler

/-- An order to the assembler. -/
inductive Directive
  | origin (address : UInt16)
  | data (items : List Datum)
  | reserve (size : UInt16)
  | equate (number : Number)
  | finish
  deriving DecidableEq

/-- What a line asks for. -/
inductive Body
  | instruction (mnemonic : Mnemonic) (mode : AddressingMode) (operand : Operand)
  | directive (directive : Directive)
  | nothing
  deriving DecidableEq

/-- A line's body, with its address and place. -/
structure Statement where
  /-- The location counter, which wraps at the end of memory. -/
  address : UInt16
  location : Location
  body : Body
  deriving DecidableEq

/-- The value of an expression that must be known at once. A symbol's value is
one byte wide if the symbol is and the value fits. -/
def knownValue (symbols : SymbolTable) (text : List Char) : Except Cause Number :=
  match Expression.read text with
  | .error error => .error (.directiveValue error)
  | .ok (.literal number) => .ok number
  | .ok (.symbol name offset) => do
    let value ← (Expression.symbol name offset).resolve symbols
    let zeroPage := (symbols.find? name).any Symbol.zeroPage
    return ⟨value, zeroPage && decide (value ≤ 0xFF)⟩

/-- The data of a data directive, unless it is too long. -/
def readData (text : List Char) : Except Cause (List Datum) :=
  match Datum.readList text with
  | .error error => .error (.data error)
  | .ok items => if Datum.totalSize items ≤ 0xFFFF then .ok items else .error .dataTooLong

/-- The directive of a name. -/
def Directive.read (symbols : SymbolTable) (hasLabel : Bool) (name : String)
    (operand : List Char) : Except Cause Directive :=
  match name with
  | ".ORG" => do return .origin (← knownValue symbols operand).value
  | ".DS" => do return .reserve (← knownValue symbols operand).value
  | ".DB" => do return .data (← readData operand)
  | ".EQU" =>
    if hasLabel then do return .equate (← knownValue symbols operand)
    else .error .equateWithoutLabel
  | ".END" => if operand = [] then .ok .finish else .error .endWithOperand
  | _ => .error (.unknownDirective name)

namespace Body

/-- The instruction of a name. -/
def readInstruction (symbols : SymbolTable) (name : String) (operand : List Char) :
    Except Cause Body :=
  match Mnemonic.read? name.toList with
  | none => .error (.unknownMnemonic name)
  | some m =>
    match Operand.read operand with
    | .error error => .error (.operand error)
    | .ok operand => do return .instruction m (← selectMode m symbols operand) operand

/-- What a line asks for, given the symbols of the lines before it. -/
def ofLine (symbols : SymbolTable) (line : Line) : Except Cause Body :=
  match line.operation with
  | none => .ok .nothing
  | some name =>
    if name.toList.head? = some '.' then do
      return .directive (← Directive.read symbols line.label.isSome name line.operand)
    else readInstruction symbols name line.operand

/-- The bytes that a body takes or skips. -/
def size : Body → Nat
  | .instruction _ mode _ => 1 + mode.operandBytes
  | .directive (.data items) => Datum.totalSize items
  | .directive (.reserve size) => size.toNat
  | _ => 0

end Body
end Assembler
end Mos6502
