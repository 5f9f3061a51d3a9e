/-
# Memory

The plain bus: 65536 bytes, each of which reads as it was last written.

Key definitions: `Memory`, `Memory.zero`, `Memory.changes`.
Key theorems: `Memory.read_write`, `Memory.ext`.
-/
import Mos6502.Bus

namespace Mos6502

/-- A byte for every address. -/
structure Memory where
  bytes : Vector UInt8 65536

namespace Memory

/-- The memory of zeros. -/
def zero : Memory := ⟨Vector.replicate 65536 0⟩

/-- The byte at an address. -/
def read (m : Memory) (address : UInt16) : UInt8 :=
  getElem m.bytes address.toNat address.toNat_lt

/-- The memory with one byte replaced. -/
def write (m : Memory) (address : UInt16) (value : UInt8) : Memory :=
  ⟨m.bytes.set address.toNat value address.toNat_lt⟩

instance : Bus Memory := ⟨read, write⟩

@[simp]
theorem bus_read (m : Memory) (address : UInt16) : Bus.read m address = m.read address := rfl

@[simp]
theorem bus_write (m : Memory) (address : UInt16) (value : UInt8) :
    Bus.write m address value = m.write address value := rfl

@[simp]
theorem read_zero (address : UInt16) : zero.read address = 0 := by
  simp [zero, read]

/-- A byte reads as it was last written. -/
@[simp]
theorem read_write (m : Memory) (a b : UInt16) (value : UInt8) :
    (m.write a value).read b = if a = b then value else m.read b := by
  simp [read, write, Vector.getElem_set, UInt16.toNat_inj]

@[ext]
theorem ext {m n : Memory} (h : ∀ address, m.read address = n.read address) : m = n := by
  obtain ⟨m⟩ := m
  obtain ⟨n⟩ := n
  congr 1
  refine Vector.ext fun i hi => ?_
  have := h (UInt16.ofNat i)
  simpa [read, Nat.mod_eq_of_lt hi] using this

/-- The addresses at which two memories differ, ascending, with the bytes of
the second. -/
def changes (before after : Memory) : List (UInt16 × UInt8) :=
  (List.range 65536).filterMap fun n =>
    let address := UInt16.ofNat n
    let value := after.read address
    if before.read address = value then none else some (address, value)

end Memory
end Mos6502
