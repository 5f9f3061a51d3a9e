/-
# The bytes of an image

Inserting bytes one after the other leaves at each address the last byte that
went there, and elsewhere what there was before. Bytes at consecutive addresses
stay in place as long as they end within memory. The list of an image is strictly
ascending. A byte makes the image larger unless it replaces another; the image is as
large as there are addresses with a byte.

Key theorems: `Image.map_toNat_consecutive`, `Image.get?_insertAll_of_notMem`,
`Image.get?_insertAll_append_cons`, `Image.get?_insertAll`,
`Image.get?_insertBytes`, `Image.pairwise_toList`, `Image.ofList_toList`,
`Image.size_insert`, `Image.size_eq_card`, `Image.lowest?_eq_some_iff`,
`Image.lowest?_eq_none_iff`.
-/
import Mos6502.Image
import Mos6502.Proofs.Word
import Mathlib.Data.FinEnum

namespace Mos6502
namespace Image

/-- Bytes that end within memory lie at the addresses that follow each other as
numbers. -/
theorem map_toNat_consecutive (start : UInt16) (values : List UInt8)
    (h : start.toNat + values.length ≤ 0x10000) :
    (consecutive start values).map (fun entry => entry.1.toNat) =
      List.range' start.toNat values.length := by
  induction values generalizing start with
  | nil => rfl
  | cons value values ih =>
    rw [consecutive_cons, List.map_cons, List.length_cons, List.range'_succ]
    congr 1
    cases values with
    | nil => rfl
    | cons next values =>
      rw [List.length_cons, List.length_cons] at h
      have hnext : (start + 1).toNat = start.toNat + 1 := Word.toNat_succ (by omega)
      rw [← hnext]
      exact ih (start + 1) (by rw [hnext, List.length_cons]; omega)

theorem length_consecutive (start : UInt16) (values : List UInt8) :
    (consecutive start values).length = values.length := by
  induction values generalizing start with
  | nil => rfl
  | cons value values ih => exact congrArg Nat.succ (ih (start + 1))

theorem consecutive_append (start : UInt16) (first second : List UInt8) :
    consecutive start (first ++ second) =
      consecutive start first ++ consecutive (start + UInt16.ofNat first.length) second := by
  induction first generalizing start with
  | nil =>
    show consecutive start second = consecutive (start + 0) second
    rw [UInt16.add_zero]
  | cons value first ih =>
    have hnext : start + 1 + UInt16.ofNat first.length = start + UInt16.ofNat (first.length + 1) := by
      rw [UInt16.ofNat_add, UInt16.add_assoc, UInt16.add_comm 1]
      rfl
    rw [List.cons_append, consecutive_cons, consecutive_cons, ih, hnext, List.cons_append,
      List.length_cons]

@[simp]
theorem insertAll_cons (image : Image) (entry : UInt16 × UInt8) (bytes : List (UInt16 × UInt8)) :
    image.insertAll (entry :: bytes) = (image.insert entry.1 entry.2).insertAll bytes := rfl

@[simp]
theorem insertAll_nil (image : Image) : image.insertAll [] = image := rfl

theorem insertAll_append (image : Image) (first second : List (UInt16 × UInt8)) :
    image.insertAll (first ++ second) = (image.insertAll first).insertAll second :=
  List.foldl_append

theorem get?_insertAll_of_notMem {address : UInt16} :
    ∀ (bytes : List (UInt16 × UInt8)) (image : Image), (∀ entry ∈ bytes, entry.1 ≠ address) →
      (image.insertAll bytes).get? address = image.get? address
  | [], _, _ => rfl
  | entry :: bytes, image, h => by
    obtain ⟨hentry, hbytes⟩ := List.forall_mem_cons.mp h
    rw [insertAll_cons, get?_insertAll_of_notMem bytes _ hbytes, get?_insert, if_neg hentry]

/-- The last byte for an address stays. -/
theorem get?_insertAll_append_cons (image : Image) (before after : List (UInt16 × UInt8))
    (address : UInt16) (value : UInt8) (h : ∀ entry ∈ after, entry.1 ≠ address) :
    (image.insertAll (before ++ (address, value) :: after)).get? address = some value := by
  rw [insertAll_append, insertAll_cons, get?_insertAll_of_notMem after _ h, get?_insert, if_pos rfl]

theorem get?_insertAll_of_mem (image : Image) {bytes : List (UInt16 × UInt8)} {address : UInt16}
    {value : UInt8} (hdistinct : bytes.Pairwise fun a b => a.1 ≠ b.1)
    (h : (address, value) ∈ bytes) : (image.insertAll bytes).get? address = some value := by
  obtain ⟨before, after, rfl⟩ := List.append_of_mem h
  have hafter := (List.pairwise_cons.mp (List.pairwise_append.mp hdistinct).2.1).1
  exact get?_insertAll_append_cons image before after address value fun entry hentry =>
    (hafter entry hentry).symm

/-- Bytes that are inserted into an image lie over it as they do over nothing. -/
theorem get?_insertAll (image : Image) (bytes : List (UInt16 × UInt8)) (address : UInt16) :
    (image.insertAll bytes).get? address =
      ((empty.insertAll bytes).get? address).or (image.get? address) := by
  induction bytes using List.reverseRecOn with
  | nil => rw [insertAll_nil, insertAll_nil, get?_empty, Option.none_or]
  | append_singleton bytes entry ih =>
    simp only [insertAll_append, insertAll_cons, insertAll_nil, get?_insert]
    split
    · rfl
    · exact ih

/-- The list of an image has its addresses in order, each once. -/
theorem pairwise_toList (image : Image) : image.toList.Pairwise fun a b => a.1 < b.1 := by
  refine List.Pairwise.imp ?_ (Std.ExtTreeMap.ordered_keys_toList)
  intro a b h
  exact compareOfLessAndEq_eq_lt.mp h

theorem pairwise_ne_toList (image : Image) : image.toList.Pairwise fun a b => a.1 ≠ b.1 :=
  image.pairwise_toList.imp fun h => UInt16.ne_of_lt h

theorem ne_of_mem_toList {image : Image} {address : UInt16} (h : image.get? address = none) :
    ∀ entry ∈ image.toList, entry.1 ≠ address := by
  intro entry hentry heq
  have hsome := (mem_toList image entry.1 entry.2).mp hentry
  rw [heq, h] at hsome
  cases hsome

/-- An image is made of its list. -/
theorem ofList_toList (image : Image) : ofList image.toList = image := by
  refine ext fun address => ?_
  unfold ofList
  cases h : image.get? address with
  | none => rw [get?_insertAll_of_notMem _ _ (ne_of_mem_toList h), get?_empty]
  | some value =>
    exact get?_insertAll_of_mem empty image.pairwise_ne_toList
      ((mem_toList image address value).mpr h)

/-! ### Blocks of bytes -/

theorem insertBytes_cons (image : Image) (start : UInt16) (value : UInt8) (values : List UInt8) :
    image.insertBytes start (value :: values) =
      (image.insert start value).insertBytes (start + 1) values := rfl

/-- A block that ends within memory holds its bytes from its start on, and leaves
all else as it is. -/
theorem get?_insertBytes (image : Image) {start : UInt16} {values : List UInt8}
    (h : start.toNat + values.length ≤ 0x10000) (address : UInt16) :
    (image.insertBytes start values).get? address =
      (if start.toNat ≤ address.toNat then values[address.toNat - start.toNat]? else none).or
        (image.get? address) := by
  induction values generalizing image start with
  | nil => simp [insertBytes, insertAll]
  | cons value values ih =>
    have hrest : ((image.insert start value).insertBytes (start + 1) values).get? address =
        (if start.toNat + 1 ≤ address.toNat then values[address.toNat - (start.toNat + 1)]?
          else none).or ((image.insert start value).get? address) := by
      cases values with
      | nil => simp [insertBytes, insertAll]
      | cons next values =>
        rw [List.length_cons, List.length_cons] at h
        have hnext : (start + 1).toNat = start.toNat + 1 := Word.toNat_succ (by omega)
        rw [ih _ (by rw [hnext, List.length_cons]; omega), hnext]
    rw [insertBytes_cons, hrest, get?_insert]
    rcases Nat.lt_trichotomy address.toNat start.toNat with hlt | heq | hgt
    · have hne : start ≠ address := fun heq => Nat.lt_irrefl _ (heq ▸ hlt)
      rw [if_neg hne, if_neg (by omega), if_neg (by omega)]
    · obtain rfl := UInt16.toNat.inj heq
      rw [if_pos rfl, if_neg (Nat.not_succ_le_self _), if_pos (Nat.le_refl _), Nat.sub_self]
      rfl
    · have hne : start ≠ address := fun heq => Nat.lt_irrefl _ (heq ▸ hgt)
      have hoffset : address.toNat - start.toNat = address.toNat - (start.toNat + 1) + 1 := by omega
      rw [if_neg hne, if_pos (Nat.succ_le_of_lt hgt), if_pos (Nat.le_of_lt hgt), hoffset,
        List.getElem?_cons_succ]

/-! ### Sizes -/

@[simp]
theorem size_empty : empty.size = 0 := rfl

theorem size_insert (image : Image) (address : UInt16) (value : UInt8) :
    (image.insert address value).size =
      if (image.get? address).isSome then image.size else image.size + 1 := by
  simp only [size, insert, get?, Std.ExtTreeMap.size_insert, Std.ExtTreeMap.isSome_getElem?_eq_contains,
    Std.ExtTreeMap.contains_iff_mem]

theorem length_toList (image : Image) : image.toList.length = image.size :=
  Std.ExtTreeMap.length_toList

/-- There are as many bytes as addresses that have one. -/
theorem size_eq_card (image : Image) :
    image.size = (Finset.univ.filter fun address => (image.get? address).isSome).card := by
  have hnodup : (image.toList.map Prod.fst).Nodup := List.pairwise_map.mpr image.pairwise_ne_toList
  have hset : (Finset.univ.filter fun address => (image.get? address).isSome) =
      (image.toList.map Prod.fst).toFinset := by
    ext address
    simp only [Finset.mem_filter, Finset.mem_univ, true_and, List.mem_toFinset, List.mem_map,
      Option.isSome_iff_exists]
    constructor
    · rintro ⟨value, hvalue⟩
      exact ⟨(address, value), (mem_toList image address value).mpr hvalue, rfl⟩
    · rintro ⟨⟨_, value⟩, hentry, rfl⟩
      exact ⟨value, (mem_toList image _ value).mp hentry⟩
  rw [hset, List.toFinset_card_of_nodup hnodup, List.length_map, length_toList]

/-! ### The lowest address -/

theorem mem_map_iff (image : Image) (address : UInt16) :
    address ∈ image.map ↔ (image.get? address).isSome :=
  Std.ExtTreeMap.mem_iff_isSome_getElem?

theorem lowest?_eq_some_iff {image : Image} {start : UInt16} :
    image.lowest? = some start ↔ (image.get? start).isSome ∧
      ∀ address, (image.get? address).isSome → start ≤ address := by
  simp only [lowest?, Std.ExtTreeMap.minKey?_eq_some_iff_mem_and_forall, mem_map_iff,
    Std.isLE_compare]

theorem lowest?_eq_none_iff {image : Image} :
    image.lowest? = none ↔ ∀ address, image.get? address = none := by
  rw [lowest?, Std.ExtTreeMap.minKey?_eq_none_iff]
  constructor
  · intro h address
    rw [get?, h]
    rfl
  · exact fun h => Std.ExtTreeMap.ext_getElem? fun address => (h address).trans rfl

end Image
end Mos6502
