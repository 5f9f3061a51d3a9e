/-
# The bus

All the processor sees of the outside is a bus: every address answers a read
with a byte and takes a byte. What a write does is the bus's own affair; a
read changes nothing.

Key definitions: `Bus`, `Bus.writeAll`.
-/

namespace Mos6502

universe u

/-- What answers the reads and writes of a processor. -/
class Bus (β : Type u) where
  /-- The byte at an address. -/
  read : β → UInt16 → UInt8
  /-- The bus after a byte was written to an address. -/
  write : β → UInt16 → UInt8 → β

namespace Bus

variable {β : Type u} [Bus β]

/-- Writes bytes one after the other, each to its own address. -/
def writeAll (bus : β) (bytes : List (UInt16 × UInt8)) : β :=
  bytes.foldl (fun bus entry => write bus entry.1 entry.2) bus

/-- The bytes at consecutive addresses, which wrap at the end of memory. -/
def dump (bus : β) (start : UInt16) (length : Nat) : List UInt8 :=
  (List.range length).map fun offset => read bus (start + UInt16.ofNat offset)

@[simp]
theorem writeAll_nil (bus : β) : writeAll bus [] = bus := rfl

@[simp]
theorem writeAll_cons (bus : β) (entry : UInt16 × UInt8) (bytes : List (UInt16 × UInt8)) :
    writeAll bus (entry :: bytes) = writeAll (write bus entry.1 entry.2) bytes := rfl

theorem writeAll_append (bus : β) (first second : List (UInt16 × UInt8)) :
    writeAll bus (first ++ second) = writeAll (writeAll bus first) second :=
  List.foldl_append

end Bus
end Mos6502
