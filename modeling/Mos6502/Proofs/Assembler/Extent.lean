/-
# Which lines are read

A source is read up to its first end directive, where the layout is finished
(`finished_layoutBefore`) and the rows stop (`not_endsIn_of_mem_rows?`). So in an
accepted source the rows are the lines with fields that reading reaches
(`MadeOf.exists_row_of_isReached`, `MadeOf.readAt_of_mem`), and in any source a fault of
such a line is an error (`exists_error_of_mem_faults`).

Key definitions: `IsEnd`, `EndsIn`, `IsReached`, `ReadAt`, `layoutBefore`.
Key theorems: `MadeOf.exists_row_of_isReached`, `MadeOf.readAt_of_mem`,
`finished_layoutBefore`, `exists_error_of_mem_faults`.
-/
import Mos6502.Proofs.Assembler.Rejection

namespace Mos6502
namespace Assembler

open Text

/-! ### End directives -/

/-- The line is an end directive that can be read. -/
def IsEnd (text : List Char) : Prop :=
  ∃ line, Line.read text = .ok (some line) ∧ line.operation = some ".END" ∧ line.operand = []

/-- The line of a number is an end directive that can be read. -/
def EndsIn (entries : List (List Char × Nat)) (number : Nat) : Prop :=
  ∃ text, (text, number) ∈ entries ∧ IsEnd text

/-- No line before that of a number is an end directive. -/
def IsReached (source : String) (number : Nat) : Prop := ∀ before < number, ¬ EndsAt source before

/-- The line of a number is reached and has fields. -/
structure ReadAt (source : String) (number : Nat) (text : List Char) (line : Line) : Prop where
  mem : (text, number) ∈ numberedLines source.toList
  read : Line.read text = .ok (some line)
  reached : IsReached source number

theorem endsAt_iff_endsIn {source : String} {number : Nat} :
    EndsAt source number ↔ EndsIn (numberedLines source.toList) number :=
  ⟨fun ⟨text, line, hmem, h⟩ => ⟨text, hmem, line, h⟩,
    fun ⟨text, hmem, line, h⟩ => ⟨text, line, hmem, h⟩⟩

theorem isEnd_iff_of_ofLine {text : List Char} {line : Line} {symbols : SymbolTable} {body : Body}
    (hread : Line.read text = .ok (some line)) (hbody : Body.ofLine symbols line = .ok body) :
    IsEnd text ↔ body = .directive .finish := by
  constructor
  · rintro ⟨other, hother, hend⟩
    obtain rfl : line = other := Option.some.inj (Except.ok.inj (hread.symm.trans hother))
    exact Except.ok.inj (hbody.symm.trans (Body.ofLine_eq_finish.mpr hend))
  · rintro rfl
    exact ⟨line, hread, Body.ofLine_eq_finish.mp hbody⟩

theorem not_isEnd_of_read {text : List Char} (h : ∀ line, Line.read text ≠ .ok (some line)) :
    ¬ IsEnd text := fun ⟨line, hread, _⟩ => h line hread

theorem endsIn_cons {text : List Char} {number before : Nat} {entries : List (List Char × Nat)} :
    EndsIn ((text, number) :: entries) before ↔
      (before = number ∧ IsEnd text) ∨ EndsIn entries before := by
  simp only [EndsIn, List.mem_cons, Prod.mk.injEq, or_and_right, exists_or, and_assoc,
    exists_eq_left]

theorem le_of_endsIn {texts : List (List Char)} {number before : Nat}
    (h : EndsIn (texts.zipIdx number) before) : number ≤ before := by
  obtain ⟨text, hmem, -⟩ := h
  exact List.le_snd_of_mem_zipIdx hmem

/-! ### The rows of an accepted source -/

/-- No row stands behind an end directive. -/
theorem not_endsIn_of_mem_rows? {symbols : List Symbol} {texts : List (List Char)}
    {number counter : Nat} {rows : List Row}
    (h : rows? symbols counter (texts.zipIdx number) = some rows) :
    ∀ row ∈ rows, ∀ before < row.number, ¬ EndsIn (texts.zipIdx number) before := by
  induction texts generalizing number counter rows with
  | nil =>
    intro row _ before _ hends
    obtain ⟨text, hmem, -⟩ := hends
    cases hmem
  | cons text texts ih =>
    rw [List.zipIdx_cons] at h ⊢
    unfold rows? at h
    split at h
    · cases h
    · rename_i hread
      intro row hrow before hlt hends
      rcases endsIn_cons.mp hends with ⟨-, hend⟩ | hends
      · exact not_isEnd_of_read (fun line hline => by rw [hread] at hline; cases hline) hend
      · exact ih h row hrow before hlt hends
    · rename_i line hread
      split at h
      · cases h
      · rename_i body hbody
        have hiff := isEnd_iff_of_ofLine hread hbody
        -- no line before the first one is of these
        have hfirst : ∀ before < number, ¬ EndsIn ((text, number) :: texts.zipIdx (number + 1))
            before := by
          intro before hlt hends
          rcases endsIn_cons.mp hends with ⟨rfl, -⟩ | hends
          · exact Nat.lt_irrefl _ hlt
          · exact absurd (le_of_endsIn hends) (by omega)
        split at h
        · cases h
          exact List.forall_mem_singleton.mpr hfirst
        · rename_i hfinish
          obtain ⟨rest, hrest, rfl⟩ := Option.map_eq_some_iff.mp h
          refine List.forall_mem_cons.mpr ⟨hfirst, fun row hrow before hlt hends => ?_⟩
          rcases endsIn_cons.mp hends with ⟨-, hend⟩ | hends
          · exact hfinish (hiff.mp hend)
          · exact ih hrest row hrow before hlt hends

/-- A line that is reached has nothing to read in it, or has its row. -/
theorem exists_row_of_rows? {symbols : List Symbol} {texts : List (List Char)}
    {number counter : Nat} {rows : List Row}
    (h : rows? symbols counter (texts.zipIdx number) = some rows) {text : List Char} {index : Nat}
    (hmem : (text, index) ∈ texts.zipIdx number)
    (hreached : ∀ before < index, ¬ EndsIn (texts.zipIdx number) before) :
    Line.read text = .ok none ∨
      ∃ row ∈ rows, row.number = index ∧ Line.read text = .ok (some row.line) := by
  induction texts generalizing number counter rows with
  | nil => cases hmem
  | cons first texts ih =>
    rw [List.zipIdx_cons] at h hmem hreached
    have hrest : ∀ before < index, ¬ EndsIn (texts.zipIdx (number + 1)) before :=
      fun before hlt hends => hreached before hlt (endsIn_cons.mpr (.inr hends))
    unfold rows? at h
    split at h
    · cases h
    · rename_i hread
      rcases List.mem_cons.mp hmem with heq | hmem
      · cases heq
        exact .inl hread
      · exact ih h hmem hrest
    · rename_i line hread
      split at h
      · cases h
      · rename_i body hbody
        split at h
        · rename_i hfinish
          cases h
          rcases List.mem_cons.mp hmem with heq | hmem
          · cases heq
            exact .inr ⟨_, List.mem_singleton_self _, rfl, hread⟩
          · refine absurd (endsIn_cons.mpr (.inl ⟨rfl, ?_⟩))
              (hreached number (List.le_snd_of_mem_zipIdx hmem))
            exact (isEnd_iff_of_ofLine hread hbody).mpr hfinish
        · obtain ⟨rest, hrows, rfl⟩ := Option.map_eq_some_iff.mp h
          rcases List.mem_cons.mp hmem with heq | hmem
          · cases heq
            exact .inr ⟨_, List.mem_cons_self, rfl, hread⟩
          · rcases ih hrows hmem hrest with hvoid | ⟨row, hrow, hnumber, hline⟩
            · exact .inl hvoid
            · exact .inr ⟨row, List.mem_cons_of_mem _ hrow, hnumber, hline⟩

theorem eq_of_mem_numberedLines {text other source : List Char} {number : Nat}
    (h : (text, number) ∈ numberedLines source) (hother : (other, number) ∈ numberedLines source) :
    other = text := by
  rw [numberedLines, List.mem_zipIdx_iff_le_and_getElem?_sub] at h hother
  exact Option.some.inj (hother.2.symm.trans h.2)

namespace MadeOf

variable {source : String} {program : Program} {rows : List Row}
  {emitted : List (Statement × Listing.Field)}

/-- **Every line that is reached is void or has a row.** -/
theorem exists_row_of_isReached (h : MadeOf source program rows emitted) {text : List Char}
    {number : Nat} (hmem : (text, number) ∈ numberedLines source.toList)
    (hreached : IsReached source number) :
    Line.read text = .ok none ∨
      ∃ row ∈ rows, row.number = number ∧ Line.read text = .ok (some row.line) :=
  exists_row_of_rows? h.rows_eq hmem fun before hlt hends =>
    hreached before hlt (endsAt_iff_endsIn.mpr hends)

/-- **Every row is a line that is reached.** -/
theorem readAt_of_mem (h : MadeOf source program rows emitted) {row : Row} (hrow : row ∈ rows) :
    ∃ text, ReadAt source row.number text row.line := by
  obtain ⟨text, hmem, hread⟩ := (h.reads hrow).text
  refine ⟨text, hmem, hread, fun before hlt hends => ?_⟩
  exact not_endsIn_of_mem_rows? h.rows_eq row hrow before hlt (endsAt_iff_endsIn.mp hends)

end MadeOf

/-! ### The layout before a line -/

namespace Layout

theorem finished_addLine_of_not_isEnd {layout : Layout} (hgo : layout.finished = false)
    {text : List Char} (h : ¬ IsEnd text) (number : Nat) :
    (layout.addLine (text, number)).finished = false := by
  rcases addLine_cases hgo text number with ⟨-, e⟩ | ⟨cause, e⟩ | ⟨line, body, hread, hbody, e⟩ <;>
    rw [e]
  · exact hgo
  · exact hgo
  · have hdefine : (layout.define line.label body number).finished = false := by
      rcases define_cases layout line.label body number with ⟨-, e⟩ | ⟨_, _, -, -, e⟩ | ⟨_, e⟩ <;>
        rw [e]
      all_goals exact hgo
    rcases place_cases (layout.define line.label body number) body
      ⟨number, line.column, line.length⟩ with ⟨-, e⟩ | ⟨-, e⟩ <;> rw [e]
    · exact decide_eq_false (mt (isEnd_iff_of_ofLine hread hbody).mpr h)
    · exact hdefine

/-- A layout goes on behind a line if it has, and the line is no end directive. -/
theorem finished_addLine_eq_false_iff {layout : Layout} (hcounter : layout.counter ≤ 0x10000)
    {text : List Char} {number : Nat} :
    (layout.addLine (text, number)).finished = false ↔ layout.finished = false ∧ ¬ IsEnd text := by
  refine ⟨fun h => ⟨?_, ?_⟩, fun ⟨hgo, hend⟩ => finished_addLine_of_not_isEnd hgo hend number⟩
  · rw [← Bool.not_eq_true]
    intro hfinished
    rw [addLine_finished hfinished, hfinished] at h
    cases h
  · rintro ⟨line, hread, hoperation, hoperand⟩
    rw [finished_addLine hcounter hread hoperation hoperand] at h
    cases h

end Layout

/-- What is known when the lines before that of a number have been read. -/
def layoutBefore (source : String) (number : Nat) : Layout :=
  ((numberedLines source.toList).take (number - 1)).foldl Layout.addLine .empty

theorem layoutBefore_length (source : String) :
    layoutBefore source ((lines source.toList).length + 1) = Layout.ofSource source := by
  rw [layoutBefore, Nat.add_sub_cancel, List.take_of_length_le]
  · rfl
  · exact Nat.le_of_eq List.length_zipIdx

theorem layoutBefore_succ_cases (source : String) (number : Nat) :
    (∃ text, (text, number) ∈ numberedLines source.toList ∧
      layoutBefore source (number + 1) = (layoutBefore source number).addLine (text, number)) ∨
    ((∀ text, (text, number) ∉ numberedLines source.toList) ∧
      layoutBefore source (number + 1) = layoutBefore source number) := by
  simp only [numberedLines, List.mem_zipIdx_iff_le_and_getElem?_sub]
  cases number with
  | zero => exact .inr ⟨fun _ h => absurd h.1 (by decide), rfl⟩
  | succ index =>
    have htake : (numberedLines source.toList).take (index + 1) =
        (numberedLines source.toList).take index ++ (numberedLines source.toList)[index]?.toList :=
      List.take_add_one
    have hget : (numberedLines source.toList)[index]? =
        (lines source.toList)[index]?.map (·, index + 1) := by
      rw [numberedLines, List.getElem?_zipIdx, Nat.add_comm]
    simp only [layoutBefore, Nat.add_sub_cancel, htake, List.foldl_append, hget]
    cases (lines source.toList)[index]? with
    | none =>
      refine .inr ⟨fun _ h => ?_, rfl⟩
      cases h.2
    | some text => exact .inl ⟨text, ⟨Nat.le_add_left _ _, rfl⟩, rfl⟩

theorem layoutBefore_succ {source : String} {number : Nat} {text : List Char}
    (h : (text, number) ∈ numberedLines source.toList) :
    layoutBefore source (number + 1) = (layoutBefore source number).addLine (text, number) := by
  rcases layoutBefore_succ_cases source number with ⟨other, hother, heq⟩ | ⟨hnone, -⟩
  · rw [heq, eq_of_mem_numberedLines h hother]
  · exact absurd h (hnone text)

theorem isReached_succ {source : String} {number : Nat} :
    IsReached source (number + 1) ↔ IsReached source number ∧ ¬ EndsAt source number := by
  simp only [IsReached, Nat.lt_succ_iff_lt_or_eq, or_imp, forall_and, forall_eq]

/-- **Reading goes on up to a line just when the line is reached.** -/
theorem finished_layoutBefore {source : String} {number : Nat} :
    (layoutBefore source number).finished = false ↔ IsReached source number := by
  induction number with
  | zero => exact ⟨fun _ before hlt => absurd hlt (Nat.not_lt_zero _), fun _ => rfl⟩
  | succ number ih =>
    rw [isReached_succ, ← ih, endsAt_iff_endsIn]
    rcases layoutBefore_succ_cases source number with ⟨text, hmem, heq⟩ | ⟨hnone, heq⟩
    · have hcounter : (layoutBefore source number).counter ≤ 0x10000 :=
        Layout.counter_foldl_addLine_le _ _ (Nat.zero_le _)
      have hends : EndsIn (numberedLines source.toList) number ↔ IsEnd text :=
        ⟨fun ⟨other, hother, hend⟩ => eq_of_mem_numberedLines hmem hother ▸ hend,
          fun hend => ⟨text, hmem, hend⟩⟩
      rw [heq, Layout.finished_addLine_eq_false_iff hcounter, hends]
    · rw [heq]
      exact (and_iff_left fun ⟨text, hmem, _⟩ => hnone text hmem).symm

/-- **A fault of a line is an error of its source.** -/
theorem exists_error_of_mem_faults {source : String} {number : Nat} {text : List Char}
    {cause : Cause} (h : (text, number) ∈ numberedLines source.toList)
    (hcause : cause ∈ (layoutBefore source number).faults (text, number)) :
    ∃ errors, assemble source = .error errors ∧ ⟨number, cause⟩ ∈ errors := by
  rw [numberedLines, List.mem_zipIdx_iff_le_and_getElem?_sub] at h
  obtain ⟨hlow, hget⟩ := h
  have hnumber : number - 1 + 1 = number := Nat.sub_add_cancel hlow
  have hfaults : faultsBehind source (number - 1) =
      (layoutBefore source number).faults (text, number) := by
    simp only [faultsBehind, hget, hnumber]
    rfl
  have hmem : (⟨number, cause⟩ : Error) ∈ (Layout.ofSource source).errors.toList := by
    have hfilter := filter_errors_eq_map source (number - 1)
    rw [hfaults, hnumber] at hfilter
    have hmap : Error.mk number cause ∈
        ((layoutBefore source number).faults (text, number)).map (Error.mk number) :=
      List.mem_map_of_mem hcause
    rw [← hfilter] at hmap
    exact (List.mem_filter.mp hmap).1
  refine ⟨_, ?_, hmem⟩
  have hne : (Layout.ofSource source).errors.isEmpty = false := by
    rw [Bool.eq_false_iff]
    intro hempty
    rw [Array.isEmpty_iff.mp hempty] at hmem
    cases hmem
  simp only [assemble, Program.ofLayout, hne, Bool.false_eq_true, if_false]

end Assembler
end Mos6502
