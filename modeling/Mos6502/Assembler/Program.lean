/-
# Programs

When every line has its place, every statement is turned into what the listing
shows of it. The bytes in the listing make the image; a byte that takes the
place of another leaves a warning.

Key definitions: `Statement.emit`, `Program`, `Program.ofLayout`, `assemble`.
-/
import Mos6502.Assembler.Layout
import Mos6502.Assembler.Listing
import Mos6502.Image

namespace Mos6502
namespace Assembler

open Listing (Field)

def Datum.emit (symbols : SymbolTable) : Datum → Except Cause (List UInt8)
  | .text bytes => .ok bytes
  | .byte value => do
    let word ← value.resolve symbols
    if word ≤ 0xFF then return [word.toUInt8] else throw (.wideDatum word)

def emitData (symbols : SymbolTable) (items : List Datum) : Except Cause (List UInt8) := do
  return (← items.mapM (Datum.emit symbols)).flatten

/-- What a statement comes to when all symbols are known. -/
def Statement.emit (symbols : SymbolTable) (s : Statement) : Except Cause Field :=
  match s.body with
  | .instruction m mode operand => .code s.address <$> encode m mode operand s.address symbols
  | .directive (.data items) => .code s.address <$> emitData symbols items
  | .directive (.origin address) => .ok (.origin address)
  | .directive (.equate number) => .ok (.equate number.value)
  | .directive (.reserve size) => .ok (.reserve s.address size)
  | .directive .finish | .nothing => .ok (.position s.address)

/-- The error of a statement. -/
def Statement.error? (symbols : SymbolTable) (s : Statement) : Option Error :=
  match s.emit symbols with
  | .ok _ => none
  | .error cause => some ⟨s.location.line, cause⟩

/-- The statement with what it comes to. -/
def Statement.emitted? (symbols : SymbolTable) (s : Statement) : Option (Statement × Field) :=
  match s.emit symbols with
  | .ok field => some (s, field)
  | .error _ => none

/-- What an assembly makes. -/
structure Program where
  image : Image
  /-- The symbols, in the order of their definition. -/
  symbols : List Symbol
  sourceMap : SourceMap
  listing : List Listing.Entry
  warnings : List Warning

namespace Program

/-- A byte on its way to its address. -/
structure Emission where
  line : Nat
  address : UInt16
  value : UInt8
  deriving DecidableEq

/-- The bytes that an entry of the listing shows. -/
def emissions (entry : Listing.Entry) : List Emission :=
  match entry.field with
  | .code address bytes =>
    (Image.consecutive address bytes).map fun byte => ⟨entry.line, byte.1, byte.2⟩
  | _ => []

/-- Puts a byte into an image, with a warning if it replaces another. -/
def deposit (state : Image × Array Warning) (e : Emission) : Image × Array Warning :=
  let (image, warnings) := state
  let replaces := (image.get? e.address).isSome
  (image.insert e.address e.value,
    if replaces then warnings.push ⟨e.line, e.address⟩ else warnings)

/-- The mapping of a statement that emitted bytes. -/
def mapping? (s : Statement) (field : Field) : Option Mapping :=
  match field with
  | .code address bytes => some ⟨⟨address, UInt16.ofNat bytes.length⟩, s.location⟩
  | _ => none

/-- The mappings of the statements that emitted bytes, in the order of the statements. -/
def mappings (rows : List (Statement × Field)) : List Mapping :=
  rows.filterMap fun row => mapping? row.1 row.2

/-- The program of statements with what they came to. -/
def ofEmitted (symbols : SymbolTable) (rows : List (Statement × Field)) : Program :=
  let listing : List Listing.Entry := rows.map fun row => ⟨row.1.location.line, row.2⟩
  let (image, warnings) := (listing.flatMap emissions).foldl deposit (.empty, #[])
  { image := image
    symbols := symbols.symbols
    sourceMap := (SourceMap.ofMappings (mappings rows)).finalize
    listing := listing
    warnings := warnings.toList }

/-- The program of a layout, or the errors of its lines. The statements are
looked at only when all lines have been read without error. -/
def ofLayout (layout : Layout) : Except (List Error) Program :=
  if layout.errors.isEmpty then
    let statements := layout.statements.toList
    let errors := statements.filterMap (Statement.error? layout.symbols)
    if errors.isEmpty then
      .ok (ofEmitted layout.symbols (statements.filterMap (Statement.emitted? layout.symbols)))
    else .error errors
  else .error layout.errors.toList

/-- The value of a symbol, by its name in either case. -/
def symbol? (program : Program) (name : String) : Option UInt16 :=
  let name := String.ofList (upper name.toList)
  (program.symbols.find? fun symbol => symbol.name == name).map Symbol.value

/-- The listing of the source that was assembled. -/
def renderListing (program : Program) (source : String) : String :=
  Listing.render program.listing source

end Program

def assemble (source : String) : Except (List Error) Program :=
  Program.ofLayout (Layout.ofSource source)

end Assembler
end Mos6502
