/-
# Source maps

A source map tells which line emitted the bytes at an address, and where the
bytes of a line went. It has an index for each of the two questions, which are
filled in the order of the statements and sorted when all statements are in.

Key definitions: `Location`, `Range`, `Mapping`, `SourceMap`, `SourceMap.add`,
`SourceMap.finalize`, `SourceMap.location?`, `SourceMap.range?`.
-/
import Mos6502.Index

namespace Mos6502
namespace Assembler

/-- Where a statement stands in the source. -/
structure Location where
  /-- Its line, from one. -/
  line : Nat
  /-- The bytes of the line before it. -/
  column : Nat
  /-- Its own bytes. -/
  length : Nat
  deriving DecidableEq

/-- The bytes that a statement emitted: where they begin, and how many they are. -/
structure Range where
  start : UInt16
  size : UInt16
  deriving DecidableEq

/-- The bytes that a statement emitted, and where it stands. -/
structure Mapping where
  range : Range
  location : Location
  deriving DecidableEq

/-- The statements that emitted bytes, by the address of their first byte and by their line. -/
structure SourceMap where
  byAddress : Index UInt16 Location
  byLine : Index Nat Range
  deriving DecidableEq

namespace SourceMap

def empty : SourceMap := ⟨.empty, .empty⟩

/-- The map with another statement, in both indexes behind those that it has. -/
def add (map : SourceMap) (mapping : Mapping) : SourceMap where
  byAddress := map.byAddress.add mapping.range.start mapping.location
  byLine := map.byLine.add mapping.location.line mapping.range

/-- The map of statements that are recorded one after the other. -/
def ofMappings (mappings : List Mapping) : SourceMap := mappings.foldl add empty

/-- The map with both indexes sorted, so that they can be searched. -/
def finalize (map : SourceMap) : SourceMap := ⟨map.byAddress.sort, map.byLine.sort⟩

/-- The addresses of the statements, with their locations. -/
def toList (map : SourceMap) : List (UInt16 × Location) := map.byAddress.entries.toList

/-- The statement whose first byte is at an address. -/
def location? (map : SourceMap) (address : UInt16) : Option Location :=
  map.byAddress.search? address

/-- The bytes of a line. -/
def range? (map : SourceMap) (line : Nat) : Option Range := map.byLine.search? line

end SourceMap
end Assembler
end Mos6502
