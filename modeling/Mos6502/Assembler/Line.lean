/-
# Source lines

A line has a label, an operation and an operand, each of which may be absent,
and may end with a comment. The first word is the label unless it is a
mnemonic or begins with a dot; colons at its end are dropped. Outside
quotations the operand loses its blanks and its lower case.

Key definitions: `Line`, `Line.read`, `uncomment`, `compact`.
-/
import Mos6502.Mnemonic
import Mos6502.Text.Blank
import Mos6502.Text.Quote

namespace Mos6502
namespace Assembler

open Text

/-- The fields of a line. Positions are in bytes. -/
structure Line where
  /-- The label, in upper case. -/
  label : Option String
  /-- The mnemonic or directive, in upper case. -/
  operation : Option String
  /-- The operand without blanks, in upper case outside quotations. -/
  operand : List Char
  /-- Where the first character that is no blank stands. -/
  column : Nat
  /-- How much there is from there on, without comment and blanks at the end. -/
  length : Nat
  deriving DecidableEq

/-- A line ends within a quotation. -/
inductive LineError
  | unterminatedQuote
  deriving DecidableEq

def LineError.message : LineError → String
  | .unterminatedQuote => "unterminated quote"

/-- A semicolon that is not quoted begins a comment. -/
def beginsComment (entry : Char × Bool) : Bool := entry.1 == ';' && !entry.2

/-- The text before the comment. Without a comment all quotations must end. -/
def uncomment (text : List Char) : Except LineError (List Char) :=
  let entries := marked false text
  if entries.any beginsComment then
    .ok ((entries.takeWhile fun entry => !beginsComment entry).map Prod.fst)
  else if endsOpen text then .error .unterminatedQuote
  else .ok text

/-- The text in upper case. Letters beyond ASCII have no case here. -/
def upper (text : List Char) : List Char := text.map Char.toUpper

/-- The text without blanks and lower case outside quotations. -/
def compact (text : List Char) : List Char :=
  (marked false text).filterMap fun entry =>
    if entry.2 || entry.1 == quote then some entry.1
    else if isBlank entry.1 then none
    else some entry.1.toUpper

/-- The word is a mnemonic, or a directive by its dot. -/
def isOperation (word : List Char) : Bool :=
  word.head? == some '.' || (Mnemonic.read? word).isSome

/-- A label without the colons after it. -/
def dropColons (word : List Char) : List Char :=
  (word.reverse.dropWhile (· == ':')).reverse

namespace Line

/-- The label and operation at the start of a line, and what follows them. -/
def words (content : List Char) : Option (List Char) × Option (List Char) × List Char :=
  let (first, rest) := nextWord content
  if isOperation first then (none, some first, rest)
  else
    let (second, rest) := nextWord rest
    (some (dropColons first), if second = [] then none else some second, rest)

/-- The fields of a line. A line of blanks and comment has none. -/
def read (text : List Char) : Except LineError (Option Line) :=
  match uncomment text with
  | .error error => .error error
  | .ok code =>
    let content := trim code
    if content = [] then .ok none
    else
      let (label, operation, rest) := words content
      .ok (some
        { label := label.map fun word => String.ofList (upper word)
          operation := operation.map fun word => String.ofList (upper word)
          operand := compact rest
          column := byteLength (code.takeWhile isBlank)
          length := byteLength content })

end Line
end Assembler
end Mos6502
