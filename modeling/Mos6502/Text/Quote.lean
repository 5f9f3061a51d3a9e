/-
# Quotes

A quote mark begins or ends a quotation. Within one, the marks of the
language have no meaning.

Key definitions: `marked`, `cutUnquoted`, `strip?`.
Key theorem: `map_fst_marked`.
-/
import Mos6502.Text.Cut

namespace Mos6502
namespace Text

def quote : Char := '\''

/-- The characters of a text, each with whether a quotation is open before it. -/
def marked (isOpen : Bool) : List Char → List (Char × Bool)
  | [] => []
  | c :: text => (c, isOpen) :: marked (isOpen != (c == quote)) text

/-- A quotation is open at the end of the text. -/
def endsOpen (text : List Char) : Bool := text.count quote % 2 == 1

/-- Cuts a text at a mark where it is not quoted. -/
def cutUnquoted (mark : Char) (text : List Char) : List (List Char) :=
  (cut (fun entry => entry.1 == mark && !entry.2) (marked false text)).map (·.map Prod.fst)

/-- What stands between the first and the last character of a text, if both
are quote marks. -/
def strip? : List Char → Option (List Char)
  | [] => none
  | c :: rest =>
    if c = quote ∧ rest.getLast? = some quote then some rest.dropLast else none

@[simp]
theorem map_fst_marked (isOpen : Bool) (text : List Char) :
    (marked isOpen text).map Prod.fst = text := by
  induction text generalizing isOpen with
  | nil => rfl
  | cons c text ih => simp [marked, ih]

end Text
end Mos6502
