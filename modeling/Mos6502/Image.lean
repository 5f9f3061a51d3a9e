/-
# Program images

An image holds a byte for some of the addresses. It is what an assembler or a
loader hands to a processor's bus.

Key definitions: `Image`, `Image.insert`, `Image.insertBytes`, `Image.runs`,
`Image.loadInto`.
Key theorems: `Image.ext`, `Image.get?_insert`, `Image.mem_toList`.
-/
import Std.Data.ExtTreeMap
import Mos6502.Bus

namespace Mos6502

/-- A byte for each address of a set. -/
structure Image where
  map : Std.ExtTreeMap UInt16 UInt8 compare

namespace Image

def empty : Image := ⟨∅⟩

/-- The byte at an address, if there is one. -/
def get? (image : Image) (address : UInt16) : Option UInt8 := image.map[address]?

/-- The image with a byte at an address, in place of any other. -/
def insert (image : Image) (address : UInt16) (value : UInt8) : Image :=
  ⟨image.map.insert address value⟩

/-- The addresses with their bytes, ascending. -/
def toList (image : Image) : List (UInt16 × UInt8) := image.map.toList

def size (image : Image) : Nat := image.map.size

def isEmpty (image : Image) : Bool := image.map.isEmpty

def lowest? (image : Image) : Option UInt16 := image.map.minKey?

/-- Addresses that follow each other, with bytes. They wrap at the end of memory. -/
def consecutive (start : UInt16) : List UInt8 → List (UInt16 × UInt8)
  | [] => []
  | value :: values => (start, value) :: consecutive (start + 1) values

/-- The image with bytes inserted one after the other. -/
def insertAll (image : Image) (bytes : List (UInt16 × UInt8)) : Image :=
  bytes.foldl (fun image entry => image.insert entry.1 entry.2) image

def insertBytes (image : Image) (start : UInt16) (values : List UInt8) : Image :=
  image.insertAll (consecutive start values)

/-- The image of a list of bytes, of which the last for an address counts. -/
def ofList (bytes : List (UInt16 × UInt8)) : Image := empty.insertAll bytes

/-- Writes every byte to a bus, in the order of the addresses. -/
def loadInto {β : Type u} [Bus β] (image : Image) (bus : β) : β := Bus.writeAll bus image.toList

/-- Bytes at consecutive addresses. -/
structure Run where
  start : UInt16
  bytes : List UInt8
  deriving DecidableEq

/-- Puts a byte before runs, onto the first of them if that begins at the next
address. -/
def extendRuns (entry : UInt16 × UInt8) : List Run → List Run
  | [] => [⟨entry.1, [entry.2]⟩]
  | run :: runs =>
    if entry.1.toNat + 1 = run.start.toNat then ⟨entry.1, entry.2 :: run.bytes⟩ :: runs
    else ⟨entry.1, [entry.2]⟩ :: run :: runs

/-- The longest runs that an image is made of, ascending. -/
def runs (image : Image) : List Run := image.toList.foldr extendRuns []

/-! ### Laws -/

@[ext]
theorem ext {image other : Image} (h : ∀ address, image.get? address = other.get? address) :
    image = other := by
  obtain ⟨image⟩ := image
  obtain ⟨other⟩ := other
  congr 1
  exact Std.ExtTreeMap.ext_getElem? h

@[simp]
theorem get?_empty (address : UInt16) : empty.get? address = none := by
  simp [empty, get?]

/-- An inserted byte is found, the others stay. -/
@[simp]
theorem get?_insert (image : Image) (a b : UInt16) (value : UInt8) :
    (image.insert a value).get? b = if a = b then some value else image.get? b := by
  simp [insert, get?, Std.ExtTreeMap.getElem?_insert]

/-- The list of an image holds its bytes. -/
theorem mem_toList (image : Image) (address : UInt16) (value : UInt8) :
    (address, value) ∈ image.toList ↔ image.get? address = some value :=
  Std.ExtTreeMap.mem_toList_iff_getElem?_eq_some

@[simp]
theorem consecutive_nil (start : UInt16) : consecutive start [] = [] := rfl

@[simp]
theorem consecutive_cons (start : UInt16) (value : UInt8) (values : List UInt8) :
    consecutive start (value :: values) = (start, value) :: consecutive (start + 1) values := rfl

end Image
end Mos6502
