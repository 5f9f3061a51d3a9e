/-
# Indexes

An index holds values with their keys. Entries are put in as they come. When it has been
sorted, the value of a key is found by halving: of the part in which the key can stand, the
half that begins with a key that is not above it is kept, or else the other.

Key definitions: `Index`, `Index.sort`, `Index.narrow`, `Index.search?`.
-/

namespace Mos6502

/-- Values with their keys. -/
structure Index (κ : Type u) (ν : Type v) where
  entries : Array (κ × ν)
  deriving DecidableEq

namespace Index

variable {κ : Type u} {ν : Type v}

def empty : Index κ ν := ⟨#[]⟩

/-- The index with another entry behind those that it has. -/
def add (index : Index κ ν) (key : κ) (value : ν) : Index κ ν :=
  ⟨index.entries.push (key, value)⟩

variable [LE κ] [DecidableLE κ]

/-- The index with its entries by their keys. Those of one key keep their order. -/
def sort (index : Index κ ν) : Index κ ν :=
  ⟨(index.entries.toList.mergeSort fun entry later => entry.1 ≤ later.1).toArray⟩

/-- The entry at a place has a key that is not above another. -/
def reaches (index : Index κ ν) (key : κ) (place : Nat) : Bool :=
  index.entries[place]?.any fun entry => entry.1 ≤ key

/-- The place that is left when a part of the index, which begins at `base` and has `size`
entries, is halved until there is but one. -/
def narrow (index : Index κ ν) (key : κ) (base size : Nat) : Nat :=
  if size ≤ 1 then base
  else
    let middle := base + size / 2
    index.narrow key (if index.reaches key middle then middle else base) (size - size / 2)
termination_by size

variable [DecidableEq κ]

/-- The value of a key. The index must be sorted. -/
def search? (index : Index κ ν) (key : κ) : Option ν :=
  match index.entries[index.narrow key 0 index.entries.size]? with
  | some (found, value) => if found = key then some value else none
  | none => none

end Index
end Mos6502
