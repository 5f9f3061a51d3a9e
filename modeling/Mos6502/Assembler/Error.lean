/-
# Errors and warnings

Every way in which a line can fail to assemble is a cause. Causes fall into
eight kinds.

Key definitions: `Cause`, `Cause.kind`, `Cause.message`, `Error`, `Warning`.
-/
import Mos6502.AddressingMode
import Mos6502.Assembler.Line
import Mos6502.Assembler.Operand

namespace Mos6502
namespace Assembler

open Text

/-- The longest label, in bytes. -/
def maxLabelLength : Nat := 8

/-- What is wrong with a label. -/
inductive LabelError
  | empty
  | tooLong (name : String)
  | badStart (c : Char)
  | badCharacter (c : Char)
  | reserved (name : String)
  deriving DecidableEq

def LabelError.message : LabelError → String
  | .empty => "label name cannot be empty"
  | .tooLong name =>
    "label name too long (max " ++ toString maxLabelLength ++ " characters): " ++ name
  | .badStart c => "label must start with a letter or '_', not '" ++ String.ofList [c] ++ "'"
  | .badCharacter c =>
    "label contains invalid character '" ++ String.ofList [c] ++
      "' (only letters, digits, and underscores allowed)"
  | .reserved name => "'" ++ name ++ "' is reserved and cannot be a label"

/-- Why a line cannot be assembled. -/
inductive Cause
  | line (error : LineError)
  | unknownMnemonic (name : String)
  | operand (error : OperandError)
  | unsupportedMode (mnemonic : Mnemonic) (mode : AddressingMode) (valid : List AddressingMode)
  | noOpcode (mnemonic : Mnemonic) (mode : AddressingMode)
  | directiveValue (error : ExpressionError)
  | data (error : DatumError)
  | dataTooLong
  | equateWithoutLabel
  | endWithOperand
  | unknownDirective (name : String)
  | undefinedSymbol (name : String)
  | outsideMemory (name : String) (offset : Int)
  | displacementOutside (distance : Int)
  | branchTooFar (target : UInt16) (distance : Int)
  | wideValue (value : UInt16) (mode : AddressingMode)
  | wideDatum (value : UInt16)
  | label (error : LabelError)
  | labelPastEnd (name : String) (address : Nat)
  | duplicateLabel (name : String) (line : Nat)
  | pastEnd (address : Nat)
  deriving DecidableEq

inductive ErrorKind
  | syntaxError
  | undefinedLabel
  | duplicateLabel
  | invalidLabel
  | invalidMnemonic
  | invalidOperand
  | rangeError
  | invalidDirective
  deriving DecidableEq

namespace Cause

def kind : Cause → ErrorKind
  | .line _ | .directiveValue _ => .syntaxError
  | .undefinedSymbol _ => .undefinedLabel
  | .duplicateLabel _ _ => .duplicateLabel
  | .label _ => .invalidLabel
  | .unknownMnemonic _ => .invalidMnemonic
  | .operand _ | .unsupportedMode _ _ _ | .noOpcode _ _ => .invalidOperand
  | .dataTooLong | .outsideMemory _ _ | .displacementOutside _ | .branchTooFar _ _
  | .wideValue _ _ | .wideDatum _ | .labelPastEnd _ _ | .pastEnd _ => .rangeError
  | .data _ | .equateWithoutLabel | .endWithOperand | .unknownDirective _ => .invalidDirective

def message : Cause → String
  | .line error => error.message
  | .unknownMnemonic name => "unknown mnemonic '" ++ name ++ "'"
  | .operand error => error.message
  | .unsupportedMode mnemonic mode valid =>
    mnemonic.name ++ " does not support " ++ mode.name ++ " addressing (valid: " ++
      String.intercalate ", " (valid.map AddressingMode.name) ++ ")"
  | .noOpcode mnemonic mode => mnemonic.name ++ " does not support " ++ mode.name ++ " addressing"
  | .directiveValue error => error.message
  | .data error => error.message
  | .dataTooLong => ".DB data too long"
  | .equateWithoutLabel => ".EQU needs a label"
  | .endWithOperand => ".END takes no operand"
  | .unknownDirective name => "unknown directive '" ++ name ++ "'"
  | .undefinedSymbol name => "undefined label '" ++ name ++ "'"
  | .outsideMemory name offset => name ++ signed offset ++ " is outside $0000-$FFFF"
  | .displacementOutside distance =>
    "branch target " ++ signed distance ++ " leaves the address space"
  | .branchTooFar target distance =>
    "branch to $" ++ String.ofList (hexWord target) ++ " is " ++ toString distance ++
      " bytes away (limit -128..127)"
  | .wideValue value mode =>
    "value $" ++ String.ofList (hexWord value) ++ " does not fit in one byte (" ++ mode.name ++ ")"
  | .wideDatum value =>
    ".DB value $" ++ String.ofList (hexWord value) ++ " does not fit in one byte"
  | .label error => error.message
  | .labelPastEnd name address =>
    "label '" ++ name ++ "' would be at $" ++ String.ofList (hexPadded 5 address) ++
      ", past $FFFF"
  | .duplicateLabel name number =>
    "label '" ++ name ++ "' already defined on line " ++ toString number
  | .pastEnd address =>
    "statement at $" ++ String.ofList (hexPadded 4 address) ++ " runs past $FFFF"

end Cause

/-- A line that cannot be assembled. -/
structure Error where
  line : Nat
  cause : Cause
  deriving DecidableEq

namespace Error

def message (error : Error) : String := error.cause.message

/-- The explanation of an error, with its line. -/
def display (error : Error) : String := "line " ++ toString error.line ++ ": " ++ error.message

end Error

/-- A byte is put at an address that has one. -/
structure Warning where
  line : Nat
  address : UInt16
  deriving DecidableEq

def Warning.message (warning : Warning) : String :=
  "address $" ++ String.ofList (hexWord warning.address) ++ " assembled more than once"

end Assembler
end Mos6502
