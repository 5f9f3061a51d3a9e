/-
# Searching an index

Sorting puts the entries of an index in the order of their keys and loses none
(`isSorted_sort`, `perm_sort`). In a sorted index the search finds a key if there is one: the
part that is halved always holds an entry of it (`Encloses.halve`). For if the middle of the
part is not above the key, all entries behind the middle are kept, and an entry of the key
before the middle leaves the middle no other key than that; if the middle is above it, so is
all behind. In an index that is not sorted, keys can be missed.

Key definitions: `Index.IsSorted`, `Index.Encloses`.
Key theorems: `Index.isSorted_sort`, `Index.Encloses.halve`, `Index.search?_eq_none_iff`,
`Index.search?_eq_some_of_mem`.
-/
import Mos6502.Index

namespace Mos6502
namespace Index

universe u v w

variable {κ : Type u} {ν : Type v}

@[simp]
theorem toList_entries_add (index : Index κ ν) (key : κ) (value : ν) :
    (index.add key value).entries.toList = index.entries.toList ++ [(key, value)] := by
  simp [add]

/-- Entries that are put in one after the other stand in that order. -/
theorem toList_entries_foldl_add {α : Type w} (key : α → κ) (value : α → ν) (items : List α)
    (index : Index κ ν) :
    (items.foldl (fun index item => index.add (key item) (value item)) index).entries.toList =
      index.entries.toList ++ items.map fun item => (key item, value item) := by
  induction items generalizing index with
  | nil => simp
  | cons item items ih => simp [ih]

section

variable [LE κ] {index : Index κ ν} {key : κ}

/-- No entry has a key above that of a later one. -/
def IsSorted (index : Index κ ν) : Prop :=
  index.entries.toList.Pairwise fun entry later => entry.1 ≤ later.1

/-- Of `size` entries from `base` on, one has the key. -/
def Encloses (index : Index κ ν) (key : κ) (base size : Nat) : Prop :=
  ∃ place value, base ≤ place ∧ place < base + size ∧ index.entries[place]? = some (key, value)

theorem IsSorted.le [Std.IsLinearOrder κ] (h : index.IsSorted) {place later : Nat}
    {entry next : κ × ν} (hle : place ≤ later) (hentry : index.entries[place]? = some entry)
    (hnext : index.entries[later]? = some next) : entry.1 ≤ next.1 := by
  rw [← Array.getElem?_toList] at hentry hnext
  obtain ⟨hplace, rfl⟩ := List.getElem?_eq_some_iff.mp hentry
  obtain ⟨hlater, rfl⟩ := List.getElem?_eq_some_iff.mp hnext
  by_cases hlt : place < later
  · exact List.pairwise_iff_getElem.mp h place later hplace hlater hlt
  · obtain rfl : place = later := by omega
    exact Std.le_refl _

variable [DecidableLE κ]

theorem toList_entries_sort (index : Index κ ν) : index.sort.entries.toList =
    index.entries.toList.mergeSort fun entry later => entry.1 ≤ later.1 := by
  simp [sort]

theorem perm_sort (index : Index κ ν) : index.sort.entries.toList.Perm index.entries.toList := by
  rw [toList_entries_sort]
  exact List.mergeSort_perm _ _

theorem reaches_iff {place : Nat} :
    index.reaches key place = true ↔ ∃ entry, index.entries[place]? = some entry ∧ entry.1 ≤ key := by
  simp [reaches, Option.any_eq_true]

/-- What is found is there, also in an index that is not sorted. -/
theorem mem_of_search?_eq_some [DecidableEq κ] {value : ν} (h : index.search? key = some value) :
    (key, value) ∈ index.entries.toList := by
  unfold search? at h
  split at h
  · next found other hentry =>
    split at h
    · next hfound =>
      cases h
      rw [← hfound, Array.mem_toList_iff]
      exact Array.mem_of_getElem? hentry
    · cases h
  · cases h

/-! ### Sorted indexes -/

variable [Std.IsLinearOrder κ]

theorem isSorted_sort (index : Index κ ν) : index.sort.IsSorted := by
  unfold IsSorted
  rw [toList_entries_sort]
  refine (List.pairwise_mergeSort (fun a b c hab hbc => ?_) (fun a b => ?_) _).imp of_decide_eq_true
  · exact decide_eq_true (Std.le_trans (of_decide_eq_true hab) (of_decide_eq_true hbc))
  · simpa using Std.le_total

namespace IsSorted

theorem reaches_of_le (h : index.IsSorted) {place later : Nat} {value : ν} (hle : place ≤ later)
    (hentry : index.entries[later]? = some (key, value)) : index.reaches key place = true := by
  obtain ⟨hlater, -⟩ := Array.getElem?_eq_some_iff.mp hentry
  have hplace := Array.getElem?_eq_getElem (Nat.lt_of_le_of_lt hle hlater)
  exact reaches_iff.mpr ⟨_, hplace, h.le hle hplace hentry⟩

/-- A place behind an entry of a key has the key too, unless it is above it. -/
theorem exists_of_reaches (h : index.IsSorted) {place later : Nat} {value : ν}
    (hle : place ≤ later) (hentry : index.entries[place]? = some (key, value))
    (hreaches : index.reaches key later = true) :
    ∃ other, index.entries[later]? = some (key, other) := by
  obtain ⟨⟨found, other⟩, hlater, hfound⟩ := reaches_iff.mp hreaches
  obtain rfl : found = key := Std.le_antisymm hfound (h.le hle hentry hlater)
  exact ⟨other, hlater⟩

end IsSorted

/-- **The half that is kept holds an entry of the key** if the whole does. -/
theorem Encloses.halve (hsorted : index.IsSorted) {base size : Nat}
    (h : index.Encloses key base size) (hsize : 1 < size) :
    index.Encloses key
      (if index.reaches key (base + size / 2) then base + size / 2 else base)
      (size - size / 2) := by
  obtain ⟨place, value, hbase, hend, hentry⟩ := h
  by_cases hplace : place ≤ base + size / 2
  · split
    · next hreaches =>
      obtain ⟨other, hmiddle⟩ := hsorted.exists_of_reaches hplace hentry hreaches
      exact ⟨base + size / 2, other, Nat.le_refl _, by omega, hmiddle⟩
    · next hreaches =>
      have hne : place ≠ base + size / 2 := fun heq =>
        hreaches (hsorted.reaches_of_le (Nat.le_of_eq heq.symm) hentry)
      exact ⟨place, value, hbase, by omega, hentry⟩
  · rw [if_pos (hsorted.reaches_of_le (Nat.le_of_not_le hplace) hentry)]
    exact ⟨place, value, by omega, by omega, hentry⟩

theorem Encloses.narrow (hsorted : index.IsSorted) {base size : Nat}
    (h : index.Encloses key base size) :
    ∃ value, index.entries[index.narrow key base size]? = some (key, value) := by
  fun_induction Index.narrow index key base size with
  | case1 base size hsize =>
    obtain ⟨place, value, hbase, hend, hentry⟩ := h
    obtain rfl : place = base := by omega
    exact ⟨value, hentry⟩
  | case2 base size hsize middle ih => exact ih (h.halve hsorted (by omega))

variable [DecidableEq κ]

theorem exists_search?_eq_some (hsorted : index.IsSorted) {value : ν}
    (h : (key, value) ∈ index.entries.toList) : ∃ other, index.search? key = some other := by
  obtain ⟨place, hentry⟩ := List.mem_iff_getElem?.mp h
  rw [Array.getElem?_toList] at hentry
  obtain ⟨hplace, -⟩ := Array.getElem?_eq_some_iff.mp hentry
  have hencloses : index.Encloses key 0 index.entries.size :=
    ⟨place, value, Nat.zero_le _, by omega, hentry⟩
  obtain ⟨other, hnarrow⟩ := hencloses.narrow hsorted
  exact ⟨other, by simp [search?, hnarrow]⟩

/-- **In a sorted index, a key is missed only if it is not there.** -/
theorem search?_eq_none_iff (hsorted : index.IsSorted) :
    index.search? key = none ↔ ∀ value, (key, value) ∉ index.entries.toList := by
  constructor
  · intro h value hmem
    obtain ⟨other, hother⟩ := exists_search?_eq_some hsorted hmem
    rw [h] at hother
    cases hother
  · intro h
    refine Option.eq_none_iff_forall_ne_some.mpr fun value hvalue => ?_
    exact h value (mem_of_search?_eq_some hvalue)

/-- **In a sorted index, a key that has but one value finds it.** -/
theorem search?_eq_some_of_mem (hsorted : index.IsSorted) {value : ν}
    (h : (key, value) ∈ index.entries.toList)
    (hunique : ∀ other, (key, other) ∈ index.entries.toList → other = value) :
    index.search? key = some value := by
  obtain ⟨other, hother⟩ := exists_search?_eq_some hsorted h
  rw [hother, hunique other (mem_of_search?_eq_some hother)]

/-- The search looks at the second entry, and then not at the first. -/
example : search? (⟨#[(2, 'b'), (1, 'a')]⟩ : Index Nat Char) 2 = none := by decide +kernel

end

end Index
end Mos6502
