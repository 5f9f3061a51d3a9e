/-
# Expressions

An expression is a number, a quoted character, or the name of a symbol with an
offset.

Key definitions: `Expression`, `Expression.read`, `isSymbolName`,
`ExpressionError`.
-/
import Mos6502.Assembler.Number
import Mos6502.Text.Quote

namespace Mos6502
namespace Assembler

open Text

/-- A value that may be known only by name. -/
inductive Expression
  /-- A number or a quoted character. -/
  | literal (number : Number)
  /-- The value of a symbol plus an offset. -/
  | symbol (name : String) (offset : Int)
  deriving DecidableEq

/-- Why a text is no expression. -/
inductive ExpressionError
  | missing
  | number (error : NumberError)
  | unclosedCharacter (text : String)
  | characterWidth (text : String)
  | malformed (text : String)
  deriving DecidableEq

def ExpressionError.message : ExpressionError → String
  | .missing => "missing operand value"
  | .number error => error.message
  | .unclosedCharacter text => "invalid character literal " ++ text
  | .characterWidth text => "character literal " ++ text ++ " must hold one character"
  | .malformed text => "invalid expression '" ++ text ++ "'"

/-- The character may begin a name. -/
def beginsName (c : Char) : Bool := c.isAlpha || c == '_'

/-- The character may stand in a name. -/
def continuesName (c : Char) : Bool := c.isAlphanum || c == '_'

/-- The text is a letter or underscore followed by letters, digits and
underscores. -/
def isSymbolName : List Char → Bool
  | [] => false
  | c :: rest => beginsName c && rest.all continuesName

/-- The character is a sign. -/
def isSign (c : Char) : Bool := c == '+' || c == '-'

/-- The number with a sign, which is positive unless it is a minus. -/
def applySign (sign : Char) (number : Number) : Int :=
  if sign = '-' then -(number.value.toNat : Int) else number.value.toNat

/-- Reads a number, keeping its error. -/
def readNumber (text : List Char) : Except ExpressionError Number :=
  match Number.read text with
  | .ok number => .ok number
  | .error error => .error (.number error)

namespace Expression

/-- Reads a quoted character as its byte. -/
def readCharacter (text : List Char) : Except ExpressionError Number :=
  match strip? text with
  | none => .error (.unclosedCharacter (String.ofList text))
  | some inner =>
    match bytes inner with
    | [byte] => .ok ⟨byte.toUInt16, true⟩
    | _ => .error (.characterWidth (String.ofList text))

/-- Reads the sign and number after a name. Without them the offset is zero. -/
def readOffset : List Char → Except ExpressionError Int
  | [] => .ok 0
  | sign :: magnitude => do return applySign sign (← readNumber magnitude)

/-- Reads a name and its offset. -/
def readSymbol (text : List Char) : Except ExpressionError Expression := do
  let name := text.takeWhile fun c => !isSign c
  let offset ← readOffset (text.dropWhile fun c => !isSign c)
  if isSymbolName name then return .symbol (String.ofList name) offset
  else throw (.malformed (String.ofList text))

/-- Reads an expression. -/
def read (text : List Char) : Except ExpressionError Expression :=
  match text with
  | [] => .error .missing
  | c :: _ =>
    if c = '$' ∨ c = '%' ∨ c.isDigit then .literal <$> readNumber text
    else if c = quote then .literal <$> readCharacter text
    else readSymbol text

end Expression
end Assembler
end Mos6502
