/-
# Operands

The form of an operand tells how an instruction may use it. The values of a
data directive are expressions and quoted texts.

Key definitions: `Operand`, `Operand.read`, `Datum`, `Datum.readList`.
-/
import Mos6502.Assembler.Expression

namespace Mos6502
namespace Assembler

open Text

/-- The operand of an instruction, as it is written. -/
inductive Operand
  /-- Nothing is written. -/
  | none
  /-- The accumulator: `A`. -/
  | accumulator
  /-- A value itself: `#v`. -/
  | immediate (value : Expression)
  /-- An address, or the target of a branch: `v`. -/
  | direct (value : Expression)
  /-- An address plus X: `v,X`. -/
  | indexedX (value : Expression)
  /-- An address plus Y: `v,Y`. -/
  | indexedY (value : Expression)
  /-- The address stored at an address: `(v)`. -/
  | indirect (value : Expression)
  /-- The address stored at an address plus X: `(v,X)`. -/
  | indirectX (value : Expression)
  /-- The address stored at an address, plus Y: `(v),Y`. -/
  | indirectY (value : Expression)
  /-- A distance from a branch: `+n` or `-n`. -/
  | displacement (distance : Int)
  deriving DecidableEq

/-- Why a text is no operand. -/
inductive OperandError
  | expression (error : ExpressionError)
  | unbalanced (text : String)
  deriving DecidableEq

def OperandError.message : OperandError → String
  | .expression error => error.message
  | .unbalanced text => "unbalanced parentheses in '" ++ text ++ "'"

/-- The text before an ending, if it ends so. -/
def before? (ending text : List Char) : Option (List Char) :=
  if ending.isSuffixOf text then some (text.take (text.length - ending.length)) else none

namespace Operand

/-- Reads the expression within an operand. -/
def readWithin (form : Expression → Operand) (text : List Char) : Except OperandError Operand :=
  match Expression.read text with
  | .ok value => .ok (form value)
  | .error error => .error (.expression error)

/-- Reads a distance after its sign. -/
def readDistance (sign : Char) (text : List Char) : Except OperandError Operand :=
  match readNumber text with
  | .ok number => .ok (.displacement (applySign sign number))
  | .error error => .error (.expression error)

/-- Reads what follows an opening parenthesis. -/
def readIndirect (inner : List Char) : Except OperandError Operand :=
  match before? [')', ',', 'Y'] inner, before? [',', 'X', ')'] inner, before? [')'] inner with
  | some pointer, _, _ => readWithin .indirectY pointer
  | _, some pointer, _ => readWithin .indirectX pointer
  | _, _, some pointer => readWithin .indirect pointer
  | _, _, _ => .error (.unbalanced (String.ofList ('(' :: inner)))

/-- Reads an address, which may be indexed. -/
def readDirect (text : List Char) : Except OperandError Operand :=
  match before? [',', 'X'] text, before? [',', 'Y'] text with
  | some base, _ => readWithin .indexedX base
  | _, some base => readWithin .indexedY base
  | _, _ => readWithin .direct text

def read (text : List Char) : Except OperandError Operand :=
  match text with
  | [] => .ok .none
  | ['A'] => .ok .accumulator
  | '#' :: value => readWithin .immediate value
  | '+' :: magnitude => readDistance '+' magnitude
  | '-' :: magnitude => readDistance '-' magnitude
  | '(' :: inner => readIndirect inner
  | text => readDirect text

end Operand

/-- A value of a data directive. -/
inductive Datum
  | byte (value : Expression)
  | text (bytes : List UInt8)
  deriving DecidableEq

/-- Why a text is no list of data. -/
inductive DatumError
  | noValues
  | emptyText
  | expression (error : ExpressionError)
  deriving DecidableEq

def DatumError.message : DatumError → String
  | .noValues => ".DB needs at least one value"
  | .emptyText => "empty string in .DB"
  | .expression error => error.message

namespace Datum

/-- The number of bytes a value takes. -/
def size : Datum → Nat
  | .byte _ => 1
  | .text bytes => bytes.length

/-- The number of bytes values take together. -/
def totalSize (data : List Datum) : Nat := data.foldr (fun datum size => datum.size + size) 0

def read (text : List Char) : Except DatumError Datum :=
  match strip? text with
  | some [] => .error .emptyText
  | some inner => .ok (.text (bytes inner))
  | none =>
    match Expression.read text with
    | .ok value => .ok (.byte value)
    | .error error => .error (.expression error)

/-- Reads values with commas between them. -/
def readList (text : List Char) : Except DatumError (List Datum) :=
  if text = [] then .error .noValues else (cutUnquoted ',' text).mapM read

end Datum
end Assembler
end Mos6502
