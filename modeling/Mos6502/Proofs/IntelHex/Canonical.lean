/-
# The one file of an image

An image is cut into runs in one way only, and a run into records of sixteen bytes, of which
the last has what is left (`areRecordsOf_recordsOf`). The records of a file hold the bytes of
the image in the order of their addresses, so what they cover ascends too, and no two of them
cover the same address (`pairwise_records`).

Key definition: `AreRecordsOf`.
Key theorems: `areRecordsOf_recordsOf`, `pairwise_records`,
`files_are_cut_in_one_way`.
-/
import Mos6502.Proofs.IntelHex.RoundTrip

namespace Mos6502
namespace IntelHex

open Text

/-! ### What the law says -/

/-- The records are those of a run. -/
structure AreRecordsOf (run : Image.Run) (records : List Record) : Prop where
  /-- There is one for every sixteen bytes, and one for what is left. -/
  length_eq : records.length = (run.bytes.length + 15) / 16
  kind_eq : ∀ record ∈ records, record.kind = 0
  length_mem : ∀ record ∈ records, 1 ≤ record.data.length ∧ record.data.length ≤ 16
  /-- All but the last are full. -/
  full : ∀ record ∈ records.dropLast, record.data.length = 16
  /-- One after the other they hold the bytes of the run, at their addresses. -/
  entries_eq : records.flatMap Record.entries = run.entries

/-! ### The records of a run -/

theorem length_recordsOf (start : UInt16) (bytes : List UInt8) :
    (recordsOf start bytes).length = (bytes.length + 15) / 16 := by
  induction start, bytes using recordsOf.induct with
  | case1 start =>
    rw [recordsOf_nil]
    rfl
  | case2 start bytes hne ih =>
    have hpos := List.length_pos_iff.mpr hne
    rw [recordsOf_of_ne_nil start hne, List.length_cons, ih, List.length_drop]
    omega

/-- A record of a run has data, the first bytes of what is left of the run there. -/
theorem exists_of_mem_recordsOf (start : UInt16) (bytes : List UInt8) :
    ∀ record ∈ recordsOf start bytes,
      ∃ offset rest, rest ≠ [] ∧ record = ⟨offset, 0, rest.take 16⟩ := by
  induction start, bytes using recordsOf.induct with
  | case1 start =>
    rw [recordsOf_nil]
    exact List.forall_mem_nil _
  | case2 start bytes hne ih =>
    rw [recordsOf_of_ne_nil start hne]
    exact List.forall_mem_cons.mpr ⟨⟨start, bytes, hne, rfl⟩, ih⟩

theorem length_mem_of_mem_recordsOf {start : UInt16} {bytes : List UInt8} {record : Record}
    (h : record ∈ recordsOf start bytes) : 1 ≤ record.data.length ∧ record.data.length ≤ 16 := by
  obtain ⟨offset, rest, hne, rfl⟩ := exists_of_mem_recordsOf start bytes record h
  have hpos := List.length_pos_iff.mpr hne
  simp only [List.length_take]
  omega

theorem kind_of_mem_recordsOf {start : UInt16} {bytes : List UInt8} {record : Record}
    (h : record ∈ recordsOf start bytes) : record.kind = 0 := by
  obtain ⟨offset, rest, -, rfl⟩ := exists_of_mem_recordsOf start bytes record h
  rfl

theorem length_of_mem_dropLast_recordsOf (start : UInt16) (bytes : List UInt8) :
    ∀ record ∈ (recordsOf start bytes).dropLast, record.data.length = 16 := by
  induction start, bytes using recordsOf.induct with
  | case1 start =>
    rw [recordsOf_nil]
    exact List.forall_mem_nil _
  | case2 start bytes hne ih =>
    rw [recordsOf_of_ne_nil start hne]
    by_cases hrest : bytes.drop 16 = []
    · rw [hrest, recordsOf_nil]
      exact List.forall_mem_nil _
    · have hlength := sixteen_lt_length hrest
      have hnext : recordsOf (start + 16) (bytes.drop 16) ≠ [] := by
        rw [recordsOf_of_ne_nil _ hrest]
        exact List.cons_ne_nil _ _
      rw [List.dropLast_cons_of_ne_nil hnext]
      refine List.forall_mem_cons.mpr ⟨?_, ih⟩
      rw [List.length_take, Nat.min_eq_left (Nat.le_of_lt hlength)]

/-- **A run is cut into records after every sixteen bytes.** -/
theorem areRecordsOf_recordsOf (run : Image.Run) :
    AreRecordsOf run (recordsOf run.start run.bytes) where
  length_eq := length_recordsOf run.start run.bytes
  kind_eq _ := kind_of_mem_recordsOf
  length_mem _ := length_mem_of_mem_recordsOf
  full := length_of_mem_dropLast_recordsOf run.start run.bytes
  entries_eq := flatMap_entries_recordsOf run.start run.bytes

/-! ### The records of a file -/

theorem length_pos_of_mem_records {image : Image} {record : Record} (h : record ∈ records image) :
    0 < record.data.length := by
  obtain ⟨run, -, hrecord⟩ := List.mem_flatMap.mp h
  exact (length_mem_of_mem_recordsOf hrecord).1

theorem Record.IsData.exists_mem_entries {record : Record} (h : record.IsData) {address : Nat}
    (hstart : record.offset.toNat ≤ address)
    (hend : address < record.offset.toNat + record.data.length) :
    ∃ entry ∈ record.entries, entry.1.toNat = address := by
  have hcovered := Image.map_toNat_consecutive record.offset record.data h.within
  have hmem : address ∈ record.entries.map fun entry => entry.1.toNat := by
    rw [Record.entries, hcovered, List.mem_range'_1]
    exact ⟨hstart, hend⟩
  exact List.mem_map.mp hmem

/-- **What the records of a file cover ascends**, and no two of them cover the same address. -/
theorem pairwise_records (image : Image) : (records image).Pairwise fun record later =>
    record.offset.toNat + record.data.length ≤ later.offset.toNat := by
  have hbytes := image.pairwise_toList
  rw [← flatMap_entries_records] at hbytes
  refine (List.pairwise_flatMap.mp hbytes).2.imp_of_mem fun hrecord hlater hascends => ?_
  have hfirst := isData_of_mem_records image _ hrecord
  have hsecond := isData_of_mem_records image _ hlater
  have hpos := length_pos_of_mem_records hrecord
  have hpos' := length_pos_of_mem_records hlater
  -- the last byte of the one lies before the first byte of the other
  obtain ⟨last, hlast, hlastEq⟩ := hfirst.exists_mem_entries (Nat.le_sub_one_of_lt
    (Nat.lt_add_of_pos_right hpos)) (Nat.sub_one_lt (by omega))
  obtain ⟨next, hnext, hnextEq⟩ := hsecond.exists_mem_entries (Nat.le_refl _)
    (Nat.lt_add_of_pos_right hpos')
  have hlt := UInt16.lt_iff_toNat_lt.mp (hascends last hlast next hnext)
  omega

theorem text_endRecord : endRecord.text = ":00000001FF".toList := by decide

/-- **A file is its image, cut in one way.** The image is cut into runs that are as long as
can be, and there is only one way to do so. Each run is cut into records of sixteen bytes and
one of what is left. These are the lines of the file, with one more that ends it; what they
cover ascends and stays within memory, and each reads as its record. -/
theorem files_are_cut_in_one_way (image : Image) :
    (∀ runs, image.IsCutInto runs ↔ runs = image.runs) ∧
    ∃ parts : List (List Record),
      List.Forall₂ AreRecordsOf image.runs parts ∧
      (parts.flatten.Pairwise fun record later =>
        record.offset.toNat + record.data.length ≤ later.offset.toNat) ∧
      (∀ record ∈ parts.flatten, record.offset.toNat + record.data.length ≤ 0x10000 ∧
        Record.read record.text = .ok record) ∧
      (write image).toList =
        (parts.flatten.map Record.text ++ [":00000001FF".toList]).flatMap (· ++ ['\n']) := by
  refine ⟨fun runs => ⟨Image.IsCutInto.eq_runs, fun h => h ▸ image.isCutInto_runs⟩,
    image.runs.map fun run => recordsOf run.start run.bytes, ?_, ?_, fun record hrecord => ?_, ?_⟩
  · exact List.forall₂_map_right_iff.mpr (List.forall₂_same.mpr fun run _ =>
      areRecordsOf_recordsOf run)
  · exact pairwise_records image
  · have hdata := isData_of_mem_records image record hrecord
    exact ⟨hdata.within, Record.read_text hdata.length_le⟩
  · rw [toList_write, List.map_append, List.map_singleton, text_endRecord]
    rfl

/-- Seventeen bytes up to the end of memory, and one where it begins. -/
def aroundTheEnd : Image :=
  (Image.empty.insertBytes 0xFFEF (List.replicate 17 0xEA)).insert 0x0000 0x4C

/-- The byte where memory begins does not go on with the run that ends with it, and of the
records of that run the second has one byte. -/
theorem aroundTheEnd_is_cut_in_one_way :
    aroundTheEnd.runs = [⟨0x0000, [0x4C]⟩, ⟨0xFFEF, List.replicate 17 0xEA⟩] ∧
      ∃ first second : List Record, first.length = 1 ∧ second.length = 2 ∧
        (write aroundTheEnd).toList =
          ((first ++ second).map Record.text ++ [":00000001FF".toList]).flatMap (· ++ ['\n']) := by
  obtain ⟨honly, parts, hparts, -, -, hfile⟩ := files_are_cut_in_one_way aroundTheEnd
  have hcut : aroundTheEnd.IsCutInto [⟨0x0000, [0x4C]⟩, ⟨0xFFEF, List.replicate 17 0xEA⟩] :=
    ⟨by decide, by unfold Image.Run.Within; decide, by unfold Image.Apart; decide, by decide⟩
  have hruns := (honly _).mp hcut
  rw [← hruns] at hparts ⊢
  cases hparts with
  | cons hfirst hrest =>
    cases hrest with
    | cons hsecond hnone =>
      cases hnone
      rw [List.flatten_cons, List.flatten_singleton] at hfile
      exact ⟨rfl, _, _, hfirst.length_eq, hsecond.length_eq, hfile⟩

end IntelHex
end Mos6502
