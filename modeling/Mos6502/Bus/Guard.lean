/-
# A bus that refuses

A guard holds writes off the addresses of read-only memory and of devices that
store nothing; it reads as the bus behind it.

Key definition: `Guard`.
-/
import Mos6502.Bus

namespace Mos6502

universe u

/-- A bus some of whose addresses ignore writes. -/
structure Guard (β : Type u) where
  bus : β
  /-- Ranges of read-only addresses, both ends included. -/
  rom : List (UInt16 × UInt16)
  /-- Addresses of devices that store nothing. -/
  devices : List UInt16

namespace Guard

variable {β : Type u} [Bus β]

/-- Writes to the address are dropped. -/
def covers (g : Guard β) (address : UInt16) : Bool :=
  g.rom.any (fun range => range.1 ≤ address && address ≤ range.2) || g.devices.contains address

instance : Bus (Guard β) where
  read g address := Bus.read g.bus address
  write g address value :=
    if g.covers address then g else { g with bus := Bus.write g.bus address value }

@[simp]
theorem read_eq (g : Guard β) (address : UInt16) : Bus.read g address = Bus.read g.bus address :=
  rfl

/-- A write to a covered address changes nothing. -/
theorem write_covered (g : Guard β) (address : UInt16) (value : UInt8)
    (h : g.covers address = true) : Bus.write g address value = g := if_pos h

/-- Any other write reaches the bus behind the guard. -/
theorem bus_write (g : Guard β) (address : UInt16) (value : UInt8)
    (h : g.covers address = false) :
    (Bus.write g address value).bus = Bus.write g.bus address value := by
  have : Bus.write g address value = { g with bus := Bus.write g.bus address value } :=
    if_neg (by simp [h])
  rw [this]

end Guard
end Mos6502
