/-
# Numbers

A number is written in decimal, after `$` in hexadecimal or after `%` in
binary. How it is written tells whether it stands for an address in page zero:
up to two hexadecimal or eight binary digits, or a decimal value of one byte.

Key definitions: `Number`, `Number.read`, `NumberError`.
-/
import Mos6502.Text.Blank
import Mos6502.Text.Digit

namespace Mos6502
namespace Assembler

open Text

/-- A value and the width it was written with. -/
structure Number where
  value : UInt16
  /-- It is one byte wide. -/
  zeroPage : Bool
  deriving DecidableEq

/-- A way to write numbers. -/
inductive Radix
  | hexadecimal
  | binary
  | decimal
  deriving DecidableEq

namespace Radix

/-- The number of digits there are. -/
def base : Radix → Nat
  | .hexadecimal => 16
  | .binary => 2
  | .decimal => 10

/-- The name of a radix, as messages give it. -/
def name : Radix → String
  | .hexadecimal => "hex"
  | .binary => "binary"
  | .decimal => "decimal"

/-- A value written with a number of digits is one byte wide. -/
def isZeroPage (radix : Radix) (width value : Nat) : Bool :=
  match radix with
  | .hexadecimal => width ≤ 2
  | .binary => width ≤ 8
  | .decimal => value ≤ 0xFF

end Radix

/-- Why a text is no number. -/
inductive NumberError
  | empty
  | notDigits (radix : Radix) (text : String)
  | tooLarge (radix : Radix)
  deriving DecidableEq

def NumberError.message : NumberError → String
  | .empty => "empty number string"
  | .notDigits radix text => "invalid " ++ radix.name ++ " number: '" ++ text ++ "'"
  | .tooLarge radix =>
    "invalid " ++ radix.name ++ " number: number too large to fit in target type"

namespace Number

/-- Reads digits of a radix. -/
def ofDigits (radix : Radix) (digits : List Char) : Except NumberError Number :=
  match digits.mapM (digitValue? radix.base) with
  | some (first :: rest) =>
    let value := positional radix.base (first :: rest)
    if value ≤ 0xFFFF then
      .ok ⟨UInt16.ofNat value, radix.isZeroPage digits.length value⟩
    else .error (.tooLarge radix)
  | _ => .error (.notDigits radix (String.ofList digits))

/-- Reads a number between blanks. -/
def read (text : List Char) : Except NumberError Number :=
  match trim text with
  | [] => .error .empty
  | '$' :: digits => ofDigits .hexadecimal digits
  | '%' :: digits => ofDigits .binary digits
  | digits => ofDigits .decimal digits

end Number
end Assembler
end Mos6502
