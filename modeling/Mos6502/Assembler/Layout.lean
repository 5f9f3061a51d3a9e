/-
# Layout

The lines are read once to give every statement its address and every label
its value. A line that fails leaves an error and no statement; a label that
fails leaves an error but the statement stays. Reading stops at the end
directive.

Key definitions: `validateLabel`, `Layout`, `Layout.addLine`,
`Layout.ofSource`.
-/
import Mos6502.Assembler.Statement
import Mos6502.Text.Lines

namespace Mos6502
namespace Assembler

open Text

/-- The name is that of the accumulator or of an instruction. -/
def isReserved (name : List Char) : Bool := name == ['A'] || (Mnemonic.read? name).isSome

/-- Checks that a name can be a label: up to eight letters, digits and
underscores, of which a digit is not the first, and not reserved. -/
def validateLabel (name : List Char) : Except LabelError Unit :=
  match name with
  | [] => .error .empty
  | first :: rest =>
    if maxLabelLength < byteLength name then .error (.tooLong (String.ofList name))
    else if !beginsName first then .error (.badStart first)
    else
      match rest.find? fun c => !continuesName c with
      | some c => .error (.badCharacter c)
      | none => if isReserved name then .error (.reserved (String.ofList name)) else .ok ()

/-- What is known when some of the lines have been read. -/
structure Layout where
  /-- The location counter. It may be one past the end of memory. -/
  counter : Nat
  symbols : SymbolTable
  statements : Array Statement
  errors : Array Error
  /-- The end directive has been read. -/
  finished : Bool

namespace Layout

/-- Nothing has been read. -/
def empty : Layout := ⟨0, .empty, #[], #[], false⟩

/-- The layout with another error. -/
def fail (layout : Layout) (line : Nat) (cause : Cause) : Layout :=
  { layout with errors := layout.errors.push ⟨line, cause⟩ }

/-- The value of a label on a line: the new origin, the constant, or the
location counter. -/
def labelValue (counter : Nat) : Body → Nat × Bool
  | .directive (.origin address) => (address.toNat, decide (address ≤ 0xFF))
  | .directive (.equate number) => (number.value.toNat, number.zeroPage)
  | _ => (counter, decide (counter ≤ 0xFF))

/-- The symbols with a label, unless the label cannot be defined. -/
def defineLabel (symbols : SymbolTable) (name : String) (value : Nat × Bool) (line : Nat) :
    Except Cause SymbolTable :=
  match validateLabel name.toList with
  | .error error => .error (.label error)
  | .ok () =>
    if 0xFFFF < value.1 then .error (.labelPastEnd name value.1)
    else
      match symbols.add ⟨name, UInt16.ofNat value.1, value.2, line⟩ with
      | .ok symbols => .ok symbols
      | .error existing => .error (.duplicateLabel existing.name existing.line)

/-- The layout with the label of a line. -/
def define (layout : Layout) (label : Option String) (body : Body) (line : Nat) : Layout :=
  match label with
  | none => layout
  | some name =>
    match defineLabel layout.symbols name (labelValue layout.counter body) line with
    | .ok symbols => { layout with symbols := symbols }
    | .error cause => layout.fail line cause

/-- The location counter at which a body is placed: an origin moves it. -/
def placement (counter : Nat) : Body → Nat
  | .directive (.origin address) => address.toNat
  | _ => counter

/-- The layout with a statement, unless that goes past the end of memory. -/
def place (layout : Layout) (body : Body) (location : Location) : Layout :=
  let counter := placement layout.counter body
  if 0x10000 < counter + body.size then
    { layout with counter := counter }.fail location.line (.pastEnd counter)
  else
    { layout with
      counter := counter + body.size
      statements := layout.statements.push ⟨UInt16.ofNat counter, location, body⟩
      finished := decide (body = .directive .finish) }

/-- The layout with another line. -/
def addLine (layout : Layout) (entry : List Char × Nat) : Layout :=
  if layout.finished then layout
  else
    match Line.read entry.1 with
    | .error error => layout.fail entry.2 (.line error)
    | .ok none => layout
    | .ok (some line) =>
      match Body.ofLine layout.symbols line with
      | .error cause => layout.fail entry.2 cause
      | .ok body =>
        (layout.define line.label body entry.2).place body ⟨entry.2, line.column, line.length⟩

/-- The layout of a source. -/
def ofSource (source : String) : Layout :=
  (numberedLines source.toList).foldl addLine empty

end Layout
end Assembler
end Mos6502
