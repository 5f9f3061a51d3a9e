/-
# Symbols

A symbol is a name with a value. A table has at most one symbol of a name and
keeps them in the order of their definition.

Key definitions: `Symbol`, `SymbolTable`, `SymbolTable.find?`,
`SymbolTable.add`.
Key theorems: `SymbolTable.find?_eq_none_iff`, `SymbolTable.find?_add`.
-/

namespace Mos6502
namespace Assembler

/-- A label or constant. -/
structure Symbol where
  name : String
  /-- The address of the label, or the value of the constant. -/
  value : UInt16
  /-- It may be used as an address in page zero. -/
  zeroPage : Bool
  line : Nat
  deriving DecidableEq

/-- The symbols defined so far. -/
structure SymbolTable where
  /-- The symbols, in the order of their definition. -/
  symbols : List Symbol
  deriving DecidableEq

namespace SymbolTable

def empty : SymbolTable := ⟨[]⟩

/-- The symbol of a name. -/
def find? (table : SymbolTable) (name : String) : Option Symbol :=
  table.symbols.find? fun symbol => symbol.name == name

/-- The table with another symbol, or the symbol that has its name already. -/
def add (table : SymbolTable) (symbol : Symbol) : Except Symbol SymbolTable :=
  match table.find? symbol.name with
  | some existing => .error existing
  | none => .ok ⟨table.symbols ++ [symbol]⟩

@[simp]
theorem find?_empty (name : String) : empty.find? name = none := rfl

theorem find?_eq_none_iff (table : SymbolTable) (name : String) :
    table.find? name = none ↔ ∀ symbol ∈ table.symbols, symbol.name ≠ name := by
  simp [find?]

/-- Adding a symbol defines its name and nothing else. -/
theorem find?_add {table extended : SymbolTable} {symbol : Symbol}
    (h : table.add symbol = .ok extended) (name : String) :
    extended.find? name = if symbol.name = name then some symbol else table.find? name := by
  simp only [add] at h
  cases hfind : table.find? symbol.name with
  | some existing => simp [hfind] at h
  | none =>
    simp only [hfind, Except.ok.injEq] at h
    subst h
    simp only [find?, List.find?_append] at hfind ⊢
    by_cases hname : symbol.name = name
    · subst hname
      simp [hfind]
    · simp [hname]

end SymbolTable
end Assembler
end Mos6502
