/-
# The runs of an image

The runs of an image, put one after the other, are its bytes again. None of
them goes past the end of memory, since a byte is only put before a run that
begins at the next address. There it always is, so that no run begins where
another ends. There is no other way to cut an image into runs of which this holds
(`Image.IsCutInto.eq_runs`).

Key definitions: `Image.Run.entries`, `Image.Run.Within`, `Image.Apart`,
`Image.IsCutInto`.
Key theorems: `Image.flatMap_entries_runs`, `Image.within_of_mem_runs`,
`Image.apart_runs`, `Image.isCutInto_runs`, `Image.IsCutInto.eq_runs`.
-/
import Mos6502.Proofs.Image

namespace Mos6502
namespace Image

/-- The bytes of a run with their addresses. -/
def Run.entries (run : Run) : List (UInt16 × UInt8) := consecutive run.start run.bytes

/-- The run ends within memory. -/
def Run.Within (run : Run) : Prop := run.start.toNat + run.bytes.length ≤ 0x10000

theorem extendRuns_eq (entry : UInt16 × UInt8) (runs : List Run) :
    (∃ run rest, runs = run :: rest ∧ entry.1.toNat + 1 = run.start.toNat ∧
      extendRuns entry runs = ⟨entry.1, entry.2 :: run.bytes⟩ :: rest) ∨
    extendRuns entry runs = ⟨entry.1, [entry.2]⟩ :: runs := by
  cases runs with
  | nil => exact .inr rfl
  | cons run rest =>
    by_cases h : entry.1.toNat + 1 = run.start.toNat
    · exact .inl ⟨run, rest, rfl, h, if_pos h⟩
    · exact .inr (if_neg h)

/-- A byte put before runs comes first in what they hold. -/
theorem flatMap_entries_extendRuns (entry : UInt16 × UInt8) (runs : List Run) :
    (extendRuns entry runs).flatMap Run.entries = entry :: runs.flatMap Run.entries := by
  rcases extendRuns_eq entry runs with ⟨run, rest, rfl, hnext, h⟩ | h
  · have hstart : entry.1 + 1 = run.start := by
      apply UInt16.toNat.inj
      have hlt := run.start.toNat_lt
      rw [Word.toNat_succ (by omega), hnext]
    rw [h, List.flatMap_cons, List.flatMap_cons, Run.entries, consecutive_cons, hstart]
    rfl
  · rw [h, List.flatMap_cons]
    rfl

theorem within_of_mem_extendRuns {entry : UInt16 × UInt8} {runs : List Run}
    (hruns : ∀ run ∈ runs, run.Within) : ∀ run ∈ extendRuns entry runs, run.Within := by
  rcases extendRuns_eq entry runs with ⟨run, rest, rfl, hnext, h⟩ | h
  · obtain ⟨hrun, hrest⟩ := List.forall_mem_cons.mp hruns
    rw [h]
    refine List.forall_mem_cons.mpr ⟨?_, hrest⟩
    unfold Run.Within at hrun ⊢
    simp only [List.length_cons]
    omega
  · rw [h]
    refine List.forall_mem_cons.mpr ⟨?_, hruns⟩
    have hlt := entry.1.toNat_lt
    show entry.1.toNat + 1 ≤ 0x10000
    omega

/-- **The runs of an image are its bytes**, in the order of their addresses. -/
theorem flatMap_entries_runs (image : Image) : image.runs.flatMap Run.entries = image.toList := by
  unfold runs
  induction image.toList with
  | nil => rfl
  | cons entry entries ih => rw [List.foldr_cons, flatMap_entries_extendRuns, ih]

/-- **No run of an image goes past the end of memory.** -/
theorem within_of_mem_runs (image : Image) : ∀ run ∈ image.runs, run.Within := by
  unfold runs
  induction image.toList with
  | nil => exact List.forall_mem_nil _
  | cons entry entries ih => exact within_of_mem_extendRuns ih

/-! ### Runs are as long as can be -/

/-- The runs ascend, with a gap between any two. -/
def Apart (runs : List Run) : Prop :=
  runs.Pairwise fun run later => run.start.toNat + run.bytes.length < later.start.toNat

theorem exists_entry_of_mem_runs {entries : List (UInt16 × UInt8)} :
    ∀ run ∈ entries.foldr extendRuns [], ∃ entry ∈ entries, entry.1 = run.start := by
  induction entries with
  | nil => exact List.forall_mem_nil _
  | cons entry entries ih =>
    have hfirst : ∃ other ∈ entry :: entries, other.1 = entry.1 := ⟨entry, List.mem_cons_self, rfl⟩
    have hothers : ∀ run ∈ entries.foldr extendRuns [],
        ∃ other ∈ entry :: entries, other.1 = run.start := by
      intro run hrun
      obtain ⟨other, hother, hstart⟩ := ih run hrun
      exact ⟨other, List.mem_cons_of_mem _ hother, hstart⟩
    rw [List.foldr_cons]
    rcases extendRuns_eq entry (entries.foldr extendRuns []) with ⟨run, rest, hruns, -, h⟩ | h
    · rw [hruns] at hothers
      rw [h]
      exact List.forall_mem_cons.mpr ⟨hfirst, (List.forall_mem_cons.mp hothers).2⟩
    · rw [h]
      exact List.forall_mem_cons.mpr ⟨hfirst, hothers⟩

theorem apart_extendRuns {entry : UInt16 × UInt8} {runs : List Run}
    (hbefore : ∀ run ∈ runs, entry.1.toNat < run.start.toNat) (h : Apart runs) :
    Apart (extendRuns entry runs) := by
  cases runs with
  | nil => exact List.pairwise_singleton _ _
  | cons run rest =>
    obtain ⟨hrun, hrest⟩ := List.pairwise_cons.mp h
    by_cases hnext : entry.1.toNat + 1 = run.start.toNat
    · rw [extendRuns, if_pos hnext]
      refine List.pairwise_cons.mpr ⟨fun later hlater => ?_, hrest⟩
      have hgap := hrun later hlater
      simp only [List.length_cons]
      omega
    · rw [extendRuns, if_neg hnext]
      refine List.pairwise_cons.mpr ⟨List.forall_mem_cons.mpr ⟨?_, fun later hlater => ?_⟩, h⟩
      · have hfirst := hbefore run List.mem_cons_self
        simp only [List.length_singleton]
        omega
      · have hgap := hrun later hlater
        have hfirst := hbefore run List.mem_cons_self
        simp only [List.length_singleton]
        omega

/-- **The runs of an image are as long as can be**: none begins where another ends. -/
theorem apart_runs (image : Image) : Apart image.runs := by
  unfold runs
  have hascends := image.pairwise_toList
  generalize image.toList = entries at hascends ⊢
  induction entries with
  | nil => exact List.Pairwise.nil
  | cons entry entries ih =>
    obtain ⟨hentry, hentries⟩ := List.pairwise_cons.mp hascends
    refine apart_extendRuns (fun run hrun => ?_) (ih hentries)
    obtain ⟨other, hother, hstart⟩ := exists_entry_of_mem_runs run hrun
    rw [← hstart]
    exact UInt16.lt_iff_toNat_lt.mp (hentry other hother)

/-! ### The only way to cut an image -/

/-- Runs hold the bytes of an image, and are as long as can be. -/
structure IsCutInto (image : Image) (runs : List Run) : Prop where
  nonempty : ∀ run ∈ runs, run.bytes ≠ []
  within : ∀ run ∈ runs, run.Within
  /-- They ascend, and none begins where another ends. -/
  apart : Apart runs
  /-- One after the other they are the bytes of the image with their addresses. -/
  entries_eq : runs.flatMap Run.entries = image.toList

theorem nonempty_of_mem_extendRuns {entry : UInt16 × UInt8} {runs : List Run}
    (hruns : ∀ run ∈ runs, run.bytes ≠ []) : ∀ run ∈ extendRuns entry runs, run.bytes ≠ [] := by
  rcases extendRuns_eq entry runs with ⟨run, rest, rfl, -, h⟩ | h
  · rw [h]
    exact List.forall_mem_cons.mpr ⟨List.cons_ne_nil _ _, (List.forall_mem_cons.mp hruns).2⟩
  · rw [h]
    exact List.forall_mem_cons.mpr ⟨List.cons_ne_nil _ _, hruns⟩

theorem nonempty_of_mem_runs (image : Image) : ∀ run ∈ image.runs, run.bytes ≠ [] := by
  unfold runs
  induction image.toList with
  | nil => exact List.forall_mem_nil _
  | cons entry entries ih => exact nonempty_of_mem_extendRuns ih

/-- Bytes that follow each other become one run when they are put before runs that begin
behind a gap. -/
theorem foldr_extendRuns_consecutive {start : UInt16} {values : List UInt8} {runs : List Run}
    (hne : values ≠ []) (hwithin : start.toNat + values.length ≤ 0x10000)
    (hgap : ∀ later ∈ runs, start.toNat + values.length < later.start.toNat) :
    (consecutive start values).foldr extendRuns runs = ⟨start, values⟩ :: runs := by
  induction values generalizing start with
  | nil => exact absurd rfl hne
  | cons value values ih =>
    rw [consecutive_cons, List.foldr_cons]
    rw [List.length_cons] at hwithin hgap
    cases values with
    | nil =>
      cases runs with
      | nil => rfl
      | cons later runs =>
        have hlater := hgap later List.mem_cons_self
        exact if_neg (Nat.ne_of_lt hlater)
    | cons next values =>
      rw [List.length_cons] at hwithin hgap
      have hnext : (start + 1).toNat = start.toNat + 1 := Word.toNat_succ (by omega)
      rw [ih (List.cons_ne_nil _ _)]
      · exact if_pos hnext.symm
      · rw [hnext, List.length_cons]
        omega
      · intro later hlater
        have := hgap later hlater
        rw [hnext, List.length_cons]
        omega

/-- The bytes of runs that are as long as can be are put together to these runs. -/
theorem foldr_extendRuns_flatMap {runs : List Run} (hne : ∀ run ∈ runs, run.bytes ≠ [])
    (hwithin : ∀ run ∈ runs, run.Within) (hapart : Apart runs) :
    (runs.flatMap Run.entries).foldr extendRuns [] = runs := by
  induction runs with
  | nil => rfl
  | cons run runs ih =>
    obtain ⟨hrun, hruns⟩ := List.forall_mem_cons.mp hne
    obtain ⟨hend, hends⟩ := List.forall_mem_cons.mp hwithin
    obtain ⟨hgap, hgaps⟩ := List.pairwise_cons.mp hapart
    rw [List.flatMap_cons, List.foldr_append, ih hruns hends hgaps]
    exact foldr_extendRuns_consecutive hrun hend hgap

theorem isCutInto_runs (image : Image) : image.IsCutInto image.runs :=
  ⟨image.nonempty_of_mem_runs, image.within_of_mem_runs, image.apart_runs, image.flatMap_entries_runs⟩

/-- **There is only one way to cut an image into runs that are as long as can be.** -/
theorem IsCutInto.eq_runs {image : Image} {runs : List Run} (h : image.IsCutInto runs) :
    runs = image.runs := by
  rw [Image.runs, ← h.entries_eq]
  exact (foldr_extendRuns_flatMap h.nonempty h.within h.apart).symm

end Image
end Mos6502
