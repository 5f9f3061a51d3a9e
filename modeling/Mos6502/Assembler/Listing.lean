/-
# Listings

A listing shows the source with what each line came to in a column before it.

Key definitions: `Field`, `Field.text`, `Entry`, `render`.
-/
import Mos6502.Text.Blank
import Mos6502.Text.Digit
import Mos6502.Text.Lines

namespace Mos6502
namespace Assembler
namespace Listing

open Text

/-- What a line came to. -/
inductive Field
  /-- It moved the location counter. -/
  | origin (address : UInt16)
  /-- It defined a constant. -/
  | equate (value : UInt16)
  /-- It emitted bytes. -/
  | code (address : UInt16) (bytes : List UInt8)
  /-- It skipped bytes. -/
  | reserve (address size : UInt16)
  /-- It did nothing but stand at an address. -/
  | position (address : UInt16)
  deriving DecidableEq

/-- A field as it is shown. -/
def Field.text : Field → List Char
  | .origin address => "pc = ".toList ++ hexWord address
  | .equate value =>
    "= ".toList ++ (if value ≤ 0xFF then hexByte (Word.low value) else hexWord value)
  | .code address bytes => hexWord address ++ " :".toList ++ bytes.flatMap fun b => ' ' :: hexByte b
  | .reserve address size =>
    hexWord address ++ " : Reserved ".toList ++ (toString size.toNat).toList ++ " Bytes".toList
  | .position address => hexWord address

/-- What one line of the source came to. -/
structure Entry where
  line : Nat
  field : Field
  deriving DecidableEq

/-- The width of the column before the source. -/
def columnWidth : Nat := 25

/-- A text with spaces after it up to a width. -/
def padded (width : Nat) (text : List Char) : List Char :=
  text ++ List.replicate (width - text.length) ' '

/-- A row of the listing. -/
def row (remark line : List Char) : List Char :=
  trimEnd (padded columnWidth remark ++ ' ' :: line)

/-- The remark on a line among the entries up to it, of which the last
counts. -/
def remark (entries : List Entry) (number : Nat) : List Char :=
  match entries.reverse.find? fun entry => entry.line == number with
  | some entry => entry.field.text
  | none => []

/-- The rows of the lines. Each line takes the entries up to its number from
the front of the list. -/
def rows (entries : List Entry) : List (List Char × Nat) → List (List Char)
  | [] => []
  | (line, number) :: lines =>
    let passed := entries.takeWhile fun entry => entry.line ≤ number
    let rest := entries.dropWhile fun entry => entry.line ≤ number
    row (remark passed number) line :: rows rest lines

/-- The listing of a source. -/
def render (entries : List Entry) (source : String) : String :=
  String.ofList ((rows entries (numberedLines source.toList)).flatMap fun row => row ++ ['\n'])

end Listing
end Assembler
end Mos6502
