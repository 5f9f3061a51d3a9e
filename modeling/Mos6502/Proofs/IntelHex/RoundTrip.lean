/-
# Files read back

The data records of a run are short, stay within memory and hold its bytes.
Each of their lines is read as it was written and puts its bytes into the
image, so that a file fills the image with the bytes that it was written from.

Key definition: `Record.IsData`.
Key theorems: `flatMap_entries_recordsOf`, `readLines_text`, `read_write_image`.
-/
import Mos6502.IntelHex.File
import Mos6502.Proofs.IntelHex.Record
import Mos6502.Proofs.Runs
import Mos6502.Proofs.Text.Lines

namespace Mos6502
namespace IntelHex

open Text

namespace Record

/-- The record holds data, not more than its first byte can count, and ends
within memory. -/
structure IsData (record : Record) : Prop where
  kind_eq : record.kind = 0
  length_le : record.data.length ≤ 0xFF
  within : record.offset.toNat + record.data.length ≤ 0x10000

/-- The bytes of a record with their addresses. -/
def entries (record : Record) : List (UInt16 × UInt8) :=
  Image.consecutive record.offset record.data

theorem IsData.apply_eq {record : Record} (h : record.IsData) (image : Image) :
    record.apply image = .ok (.goOn (image.insertAll record.entries)) := by
  have hwithin : ¬0x10000 < record.offset.toNat + record.data.length := Nat.not_lt.mpr h.within
  unfold apply
  rw [h.kind_eq]
  exact if_neg hwithin

end Record

/-! ### Cutting a run into records -/

theorem sixteen_lt_length {bytes : List UInt8} (hrest : bytes.drop 16 ≠ []) :
    16 < bytes.length := by
  refine Nat.lt_of_not_le fun hle => ?_
  exact hrest (List.drop_eq_nil_iff.mpr hle)

/-- The next record begins where the one before it ends, if anything is left. -/
theorem toNat_add_sixteen {start : UInt16} {bytes : List UInt8} (hrest : bytes.drop 16 ≠ [])
    (h : start.toNat + bytes.length ≤ 0x10000) : (start + 16).toNat = start.toNat + 16 := by
  have hlength := sixteen_lt_length hrest
  have hsixteen : (16 : UInt16).toNat = 16 := rfl
  rw [UInt16.toNat_add, hsixteen]
  omega

theorem recordsOf_nil (start : UInt16) : recordsOf start [] = [] := by
  rw [recordsOf, if_pos rfl]

theorem recordsOf_of_ne_nil (start : UInt16) {bytes : List UInt8} (h : bytes ≠ []) :
    recordsOf start bytes = ⟨start, 0, bytes.take 16⟩ :: recordsOf (start + 16) (bytes.drop 16) := by
  rw [recordsOf, if_neg h]

theorem isData_of_mem_recordsOf (start : UInt16) (bytes : List UInt8)
    (h : start.toNat + bytes.length ≤ 0x10000) :
    ∀ record ∈ recordsOf start bytes, record.IsData := by
  induction start, bytes using recordsOf.induct with
  | case1 start =>
    rw [recordsOf_nil]
    exact List.forall_mem_nil _
  | case2 start bytes hne ih =>
    have htake : (bytes.take 16).length ≤ 16 := List.length_take_le _ _
    have hle : (bytes.take 16).length ≤ bytes.length := List.length_take_le' _ _
    have hfirst : Record.IsData ⟨start, 0, bytes.take 16⟩ :=
      ⟨rfl, Nat.le_trans htake (by decide), Nat.le_trans (Nat.add_le_add_left hle _) h⟩
    rw [recordsOf_of_ne_nil start hne]
    refine List.forall_mem_cons.mpr ⟨hfirst, ?_⟩
    by_cases hrest : bytes.drop 16 = []
    · rw [hrest, recordsOf_nil]
      exact List.forall_mem_nil _
    · have hlength := sixteen_lt_length hrest
      have hnext := toNat_add_sixteen hrest h
      refine ih ?_
      rw [hnext, List.length_drop]
      omega

/-- The records of bytes hold these bytes. -/
theorem flatMap_entries_recordsOf (start : UInt16) (bytes : List UInt8) :
    (recordsOf start bytes).flatMap Record.entries = Image.consecutive start bytes := by
  induction start, bytes using recordsOf.induct with
  | case1 start =>
    rw [recordsOf_nil]
    rfl
  | case2 start bytes hne ih =>
    rw [recordsOf_of_ne_nil start hne, List.flatMap_cons, ih, Record.entries]
    by_cases hrest : bytes.drop 16 = []
    · have hall : bytes.take 16 = bytes := by
        have hsplit := List.take_append_drop 16 bytes
        rwa [hrest, List.append_nil] at hsplit
      rw [hrest, hall, Image.consecutive_nil, List.append_nil]
    · have hlength : (bytes.take 16).length = 16 := by
        rw [List.length_take, Nat.min_eq_left (Nat.le_of_lt (sixteen_lt_length hrest))]
      have happend := Image.consecutive_append start (bytes.take 16) (bytes.drop 16)
      rw [hlength, List.take_append_drop] at happend
      exact happend.symm

theorem isData_of_mem_records (image : Image) : ∀ record ∈ records image, record.IsData := by
  intro record hrecord
  obtain ⟨run, hrun, hrecord⟩ := List.mem_flatMap.mp hrecord
  exact isData_of_mem_recordsOf run.start run.bytes (image.within_of_mem_runs run hrun) record hrecord

theorem flatMap_entries_records (image : Image) :
    (records image).flatMap Record.entries = image.toList := by
  rw [records, List.flatMap_assoc, ← image.flatMap_entries_runs]
  simp only [flatMap_entries_recordsOf]
  rfl

/-! ### Reading what was written -/

theorem read_text_bind_apply {record : Record} (h : record.data.length ≤ 0xFF) (image : Image) :
    (Record.read record.text >>= fun record => record.apply image) = record.apply image := by
  rw [Record.read_text h]
  rfl

theorem readLines_of_isData {record : Record} (h : record.IsData) (image : Image) (number : Nat)
    (lines : List (List Char × Nat)) :
    readLines image ((record.text, number) :: lines) =
      readLines (image.insertAll record.entries) lines := by
  have happly := (read_text_bind_apply h.length_le image).trans (h.apply_eq image)
  simp only [readLines, Record.trim_text, if_neg record.text_ne_nil, happly]

theorem readLines_endRecord (image : Image) (number : Nat) (lines : List (List Char × Nat)) :
    readLines image ((endRecord.text, number) :: lines) = .ok image := by
  have hlength : endRecord.data.length ≤ 0xFF := Nat.zero_le _
  have happly : endRecord.apply image = .ok .stop := rfl
  rw [← read_text_bind_apply hlength image] at happly
  simp only [readLines, Record.trim_text, if_neg endRecord.text_ne_nil, happly]

/-- Lines of data up to the end record fill the image. -/
theorem readLines_text (records : List Record) (image : Image) (number : Nat)
    (h : ∀ record ∈ records, record.IsData) :
    readLines image (((records ++ [endRecord]).map Record.text).zipIdx number) =
      .ok (image.insertAll (records.flatMap Record.entries)) := by
  induction records generalizing image number with
  | nil => exact readLines_endRecord image number []
  | cons record records ih =>
    obtain ⟨hrecord, hrecords⟩ := List.forall_mem_cons.mp h
    rw [List.cons_append, List.map_cons, List.zipIdx_cons, readLines_of_isData hrecord,
      List.flatMap_cons, Image.insertAll_append]
    exact ih _ _ hrecords

theorem toList_write (image : Image) :
    (write image).toList =
      ((records image ++ [endRecord]).map Record.text).flatMap (· ++ ['\n']) := by
  rw [write, String.toList_ofList, List.flatMap_map]

theorem lines_write (image : Image) :
    lines (write image).toList = (records image ++ [endRecord]).map Record.text := by
  rw [toList_write, lines_flatMap]
  · intro text htext
    obtain ⟨record, -, rfl⟩ := List.mem_map.mp htext
    exact record.lineFeed_notMem_text
  · intro text htext
    obtain ⟨record, -, rfl⟩ := List.mem_map.mp htext
    exact record.getLast?_text_ne

theorem numberedLines_write (image : Image) :
    numberedLines (write image).toList = ((records image ++ [endRecord]).map Record.text).zipIdx 1 := by
  rw [numberedLines, lines_write]

/-- **A written image is read back**, whichever addresses it has. -/
theorem read_write_image (image : Image) : read (write image) = .ok image := by
  have hfile := readLines_text (records image) .empty 1 (isData_of_mem_records image)
  unfold read
  rw [numberedLines_write, hfile, flatMap_entries_records]
  exact congrArg Except.ok image.ofList_toList

end IntelHex
end Mos6502
