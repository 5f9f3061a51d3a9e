/-
# Lines

A line ends with a line feed, or with a carriage return and a line feed. What
follows the last line feed is a line unless it is empty; a carriage return at
its end belongs to it.

Key definitions: `lines`, `numberedLines`.
-/
import Mos6502.Text.Cut

namespace Mos6502
namespace Text

/-- A line without the carriage return before its line feed. -/
def dropReturn (line : List Char) : List Char :=
  if line.getLast? = some '\r' then line.dropLast else line

/-- The lines of a text. -/
def lines (text : List Char) : List (List Char) :=
  let pieces := cut (· == '\n') text
  pieces.dropLast.map dropReturn ++ pieces.getLast?.toList.filter (· != [])

/-- The lines of a text with their numbers, from one. -/
def numberedLines (text : List Char) : List (List Char × Nat) := (lines text).zipIdx 1

end Text
end Mos6502
