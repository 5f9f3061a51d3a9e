/-
# A bus that remembers

A recorder keeps the list of the writes that pass it on their way to the bus
behind it; it reads as that bus.

Key definition: `Recorder`.
Key theorem: `Recorder.writes_write`.
-/
import Mos6502.Bus

namespace Mos6502

universe u

/-- A bus together with the writes made to it, oldest first. -/
structure Recorder (β : Type u) where
  bus : β
  writes : Array (UInt16 × UInt8)

namespace Recorder

variable {β : Type u} [Bus β]

/-- Nothing has been written yet. -/
def start (bus : β) : Recorder β := ⟨bus, #[]⟩

instance : Bus (Recorder β) where
  read r address := Bus.read r.bus address
  write r address value :=
    { bus := Bus.write r.bus address value, writes := r.writes.push (address, value) }

@[simp]
theorem read_eq (r : Recorder β) (address : UInt16) : Bus.read r address = Bus.read r.bus address :=
  rfl

@[simp]
theorem bus_write (r : Recorder β) (address : UInt16) (value : UInt8) :
    (Bus.write r address value).bus = Bus.write r.bus address value := rfl

@[simp]
theorem writes_write (r : Recorder β) (address : UInt16) (value : UInt8) :
    (Bus.write r address value).writes = r.writes.push (address, value) := rfl

end Recorder
end Mos6502
