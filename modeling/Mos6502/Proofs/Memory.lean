/-
# Memory that was written

Written bytes are read where they were written and nowhere else. An image has
each address once, so a memory that it was loaded into reads as the image does
and elsewhere as before. What changed between two memories is found at the
addresses where they differ, each once.

Key theorems: `Memory.read_writeAll_of_notMem`, `Memory.read_writeAll`,
`Memory.read_loadInto`, `Memory.length_changes_le`.
-/
import Mos6502.Memory
import Mos6502.Proofs.Image
import Mathlib.Data.List.Perm.Subperm

namespace Mos6502
namespace Memory

theorem read_writeAll_of_notMem {address : UInt16} :
    ∀ (bytes : List (UInt16 × UInt8)) (m : Memory), (∀ entry ∈ bytes, entry.1 ≠ address) →
      (Bus.writeAll m bytes).read address = m.read address
  | [], _, _ => rfl
  | entry :: bytes, m, h => by
    obtain ⟨hentry, hbytes⟩ := List.forall_mem_cons.mp h
    rw [Bus.writeAll_cons, read_writeAll_of_notMem bytes _ hbytes, bus_write, read_write,
      if_neg hentry]

/-- A memory reads as an image of the bytes that were written, and elsewhere as
before. -/
theorem read_writeAll (bytes : List (UInt16 × UInt8)) (m : Memory) (address : UInt16) :
    (Bus.writeAll m bytes).read address =
      ((Image.ofList bytes).get? address).getD (m.read address) := by
  induction bytes using List.reverseRecOn with
  | nil => rw [Bus.writeAll_nil, Image.ofList, Image.insertAll_nil, Image.get?_empty, Option.getD_none]
  | append_singleton bytes entry ih =>
    rw [Bus.writeAll_append, Bus.writeAll_cons, Bus.writeAll_nil, bus_write, read_write,
      Image.ofList, Image.insertAll_append, Image.insertAll_cons, Image.insertAll_nil,
      Image.get?_insert]
    split
    · rfl
    · exact ih

/-- A loaded memory holds the image, and is otherwise as it was. -/
theorem read_loadInto (image : Image) (m : Memory) (address : UInt16) :
    (image.loadInto m).read address = (image.get? address).getD (m.read address) := by
  rw [Image.loadInto, read_writeAll, Image.ofList_toList]

theorem write_write_read (m : Memory) (address : UInt16) (value : UInt8) :
    (m.write address value).write address (m.read address) = m := by
  ext other
  rw [read_write, read_write]
  split
  · rename_i heq
    rw [heq]
  · rfl

/-! ### Changes -/

/-- An entry of the changes is an address at which the memories differ, with
the second byte. -/
theorem mem_changes {before after : Memory} {entry : UInt16 × UInt8} :
    entry ∈ before.changes after ↔
      before.read entry.1 ≠ after.read entry.1 ∧ entry.2 = after.read entry.1 := by
  obtain ⟨address, value⟩ := entry
  simp only [changes, List.mem_filterMap, List.mem_range]
  constructor
  · rintro ⟨n, -, h⟩
    split at h
    · cases h
    · rename_i hne
      cases h
      exact ⟨hne, rfl⟩
  · rintro ⟨hne, rfl⟩
    refine ⟨address.toNat, address.toNat_lt, ?_⟩
    rw [UInt16.ofNat_toNat, if_neg hne]

theorem nodup_changes (before after : Memory) :
    ((before.changes after).map Prod.fst).Nodup := by
  have haddress : ∀ {n : Nat} {address : UInt16}, Option.map Prod.fst
      (if before.read (.ofNat n) = after.read (.ofNat n) then none
        else some (UInt16.ofNat n, after.read (.ofNat n))) = some address →
      UInt16.ofNat n = address := by
    intro n address h
    split at h
    · cases h
    · exact Option.some.inj h
  rw [changes, List.map_filterMap, List.Nodup, List.pairwise_filterMap]
  refine List.pairwise_lt_range.imp_of_mem fun {m n} hm hn hlt first hfirst second hsecond heq => ?_
  have hofNat : UInt16.ofNat m = UInt16.ofNat n := by
    rw [haddress hfirst, haddress hsecond, heq]
  have hnat := congrArg UInt16.toNat hofNat
  rw [UInt16.toNat_ofNat_of_lt' (List.mem_range.mp hm),
    UInt16.toNat_ofNat_of_lt' (List.mem_range.mp hn)] at hnat
  omega

theorem length_changes_le {before after : Memory} {addresses : List UInt16}
    (h : ∀ address ∉ addresses, after.read address = before.read address) :
    (before.changes after).length ≤ addresses.length := by
  have hsubset : (before.changes after).map Prod.fst ⊆ addresses := by
    intro address haddress
    obtain ⟨entry, hentry, rfl⟩ := List.mem_map.mp haddress
    by_contra hnot
    exact (mem_changes.mp hentry).1 (h entry.1 hnot).symm
  have hle := (List.subperm_of_subset (nodup_changes before after) hsubset).length_le
  rwa [List.length_map] at hle

end Memory
end Mos6502
