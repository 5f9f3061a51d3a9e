/-
# Why a source is rejected

The first reading finds at most one fault in a line, or two: a label that cannot
be defined, and behind it bytes that do not fit in memory (`Layout.faults_cases`).
It leaves an error for each fault, line after line (`Layout.toList_errors_foldl`),
and none behind the end directive. Only a source without faults is read a second
time, and then every row whose own bytes cannot be made leaves an error
(`Row.Fails`), whatever the other rows do.

Key definitions: `Layout.faults`, `faultsBehind`, `EndsAt`, `Row.Fails`,
`RejectedAtFirst`, `RejectedAtSecond`.
Key theorems: `Layout.faults_cases`, `Layout.toList_errors_foldl`,
`filter_errors_ofSource`, `inOrder_of_rejected`, `rejections_are_in_order`.
-/
import Mos6502.Proofs.Assembler.Program
import Mos6502.Proofs.Assembler.ZeroPage

namespace Mos6502
namespace Assembler

open Text

/-! ### The faults of a line -/

/-- The cause says that a label cannot be defined. -/
def Cause.concernsLabel : Cause → Bool
  | .label _ | .labelPastEnd _ _ | .duplicateLabel _ _ => true
  | _ => false

namespace Layout

/-- Why the label of a line cannot be defined. -/
def labelFault? (layout : Layout) (label : Option String) (body : Body) (number : Nat) :
    Option Cause :=
  match label with
  | none => none
  | some name =>
    match defineLabel layout.symbols name (labelValue layout.counter body) number with
    | .ok _ => none
    | .error cause => some cause

/-- Why a body cannot be placed. -/
def placeFault? (counter : Nat) (body : Body) : Option Cause :=
  if 0x10000 < placement counter body + body.size then some (.pastEnd (placement counter body))
  else none

/-- What is wrong with a line, where the lines before it have been read. -/
def faults (layout : Layout) (entry : List Char × Nat) : List Cause :=
  if layout.finished then []
  else
    match Line.read entry.1 with
    | .error error => [.line error]
    | .ok none => []
    | .ok (some line) =>
      match Body.ofLine layout.symbols line with
      | .error cause => [cause]
      | .ok body =>
        (layout.labelFault? line.label body entry.2).toList ++
          (placeFault? layout.counter body).toList

/-- The errors that lines leave, one for each fault. -/
def reports (layout : Layout) : List (List Char × Nat) → List Error
  | [] => []
  | entry :: lines =>
    (layout.faults entry).map (Error.mk entry.2) ++ reports (layout.addLine entry) lines

theorem concernsLabel_of_defineLabel {symbols : SymbolTable} {name : String} {value : Nat × Bool}
    {number : Nat} {cause : Cause} (h : defineLabel symbols name value number = .error cause) :
    cause.concernsLabel = true := by
  unfold defineLabel at h
  split at h
  · cases h
    rfl
  · split at h
    · cases h
      rfl
    · split at h
      · cases h
      · cases h
        rfl

theorem concernsLabel_of_labelFault? {layout : Layout} {label : Option String} {body : Body}
    {number : Nat} {cause : Cause} (h : layout.labelFault? label body number = some cause) :
    cause.concernsLabel = true := by
  unfold labelFault? at h
  split at h
  · cases h
  · split at h
    · cases h
    · rename_i hdefine
      cases h
      exact concernsLabel_of_defineLabel hdefine

/-- **A line has at most two faults**, and two only if the first concerns its label
and the second is that it runs past the end of memory. -/
theorem faults_cases (layout : Layout) (entry : List Char × Nat) :
    (layout.faults entry).length ≤ 1 ∨
      ∃ cause address, layout.faults entry = [cause, .pastEnd address] ∧
        cause.concernsLabel = true := by
  unfold faults
  split
  · exact .inl (Nat.zero_le _)
  split
  · exact .inl (Nat.le_refl _)
  · exact .inl (Nat.zero_le _)
  · rename_i line _
    split
    · exact .inl (Nat.le_refl _)
    · rename_i body _
      cases hlabel : layout.labelFault? line.label body entry.2 with
      | none =>
        refine .inl ?_
        rw [Option.toList_none, List.nil_append]
        exact Option.length_toList_le
      | some cause =>
        by_cases hplace : 0x10000 < placement layout.counter body + body.size
        · refine .inr
            ⟨cause, placement layout.counter body, ?_, concernsLabel_of_labelFault? hlabel⟩
          rw [placeFault?, if_pos hplace]
          rfl
        · refine .inl ?_
          rw [placeFault?, if_neg hplace]
          exact Nat.le_refl _

/-! ### Every fault leaves its error -/

theorem toList_errors_fail (layout : Layout) (number : Nat) (cause : Cause) :
    (layout.fail number cause).errors.toList = layout.errors.toList ++ [⟨number, cause⟩] :=
  Array.toList_push

theorem toList_errors_define (layout : Layout) (label : Option String) (body : Body)
    (number : Nat) :
    (layout.define label body number).errors.toList =
        layout.errors.toList ++
          (layout.labelFault? label body number).toList.map (Error.mk number) := by
  cases label with
  | none => exact (List.append_nil _).symm
  | some name =>
    simp only [define, labelFault?]
    cases defineLabel layout.symbols name (labelValue layout.counter body) number with
    | ok symbols => exact (List.append_nil _).symm
    | error cause => exact toList_errors_fail layout number cause

theorem toList_errors_place (layout : Layout) (body : Body) (location : Location) :
    (layout.place body location).errors.toList =
      layout.errors.toList ++
        (placeFault? layout.counter body).toList.map (Error.mk location.line) := by
  unfold place placeFault?
  by_cases h : 0x10000 < placement layout.counter body + body.size
  · rw [if_pos h, if_pos h]
    exact toList_errors_fail _ _ _
  · rw [if_neg h, if_neg h]
    exact (List.append_nil _).symm

theorem toList_errors_addLine (layout : Layout) (entry : List Char × Nat) :
    (layout.addLine entry).errors.toList =
      layout.errors.toList ++ (layout.faults entry).map (Error.mk entry.2) := by
  by_cases hgo : layout.finished = true
  · rw [addLine_finished hgo, faults, if_pos hgo]
    exact (List.append_nil _).symm
  simp only [addLine, faults, hgo, Bool.false_eq_true, if_false]
  cases Line.read entry.1 with
  | error error => exact toList_errors_fail layout entry.2 (.line error)
  | ok fields =>
    cases fields with
    | none => exact (List.append_nil _).symm
    | some line =>
      simp only
      cases Body.ofLine layout.symbols line with
      | error cause => exact toList_errors_fail layout entry.2 cause
      | ok body =>
        simp only [toList_errors_place, toList_errors_define, counter_define, List.map_append,
          List.append_assoc]

/-- **Lines leave an error for each of their faults**, in order. -/
theorem toList_errors_foldl (lines : List (List Char × Nat)) (layout : Layout) :
    (lines.foldl addLine layout).errors.toList = layout.errors.toList ++ layout.reports lines := by
  induction lines generalizing layout with
  | nil => exact (List.append_nil _).symm
  | cons entry lines ih =>
    rw [List.foldl_cons, ih, toList_errors_addLine, reports, List.append_assoc]

/-! ### The order of the errors -/

theorem line_of_mem_reports {texts : List (List Char)} {number : Nat} {layout : Layout}
    {error : Error} (h : error ∈ layout.reports (texts.zipIdx number)) :
    number ≤ error.line ∧ error.line < number + texts.length := by
  induction texts generalizing number layout with
  | nil => exact absurd h List.not_mem_nil
  | cons text texts ih =>
    rw [List.zipIdx_cons, reports] at h
    rw [List.length_cons]
    rcases List.mem_append.mp h with h | h
    · obtain ⟨cause, -, rfl⟩ := List.mem_map.mp h
      exact ⟨Nat.le_refl _, by show number < _; omega⟩
    · obtain ⟨hlow, hhigh⟩ := ih h
      exact ⟨by omega, by omega⟩

theorem pairwise_reports (texts : List (List Char)) (number : Nat) (layout : Layout) :
    (layout.reports (texts.zipIdx number)).Pairwise fun error later => error.line ≤ later.line := by
  induction texts generalizing number layout with
  | nil => exact .nil
  | cons text texts ih =>
    rw [List.zipIdx_cons, reports]
    refine List.pairwise_append.mpr ⟨?_, ih (number + 1) _, fun error herror later hlater => ?_⟩
    · exact List.pairwise_map.mpr (List.pairwise_of_forall fun _ _ => Nat.le_refl number)
    · obtain ⟨cause, -, rfl⟩ := List.mem_map.mp herror
      exact Nat.le_of_succ_le (line_of_mem_reports hlater).1

/-- The errors of a line are its faults. -/
theorem filter_reports (texts : List (List Char)) (number index : Nat) (layout : Layout) :
    ((layout.reports (texts.zipIdx number)).filter fun error => error.line == number + index).map
        Error.cause =
      match texts[index]? with
      | none => []
      | some text =>
        (((texts.zipIdx number).take index).foldl addLine layout).faults
          (text, number + index) := by
  induction texts generalizing number index layout with
  | nil => rfl
  | cons text texts ih =>
    rw [List.zipIdx_cons, reports, List.filter_append, List.map_append]
    cases index with
    | zero =>
      have hown : ((layout.faults (text, number)).map (Error.mk number)).filter
          (fun error => error.line == number + 0) =
            (layout.faults (text, number)).map (Error.mk number) := by
        refine List.filter_eq_self.mpr fun error herror => ?_
        obtain ⟨cause, -, rfl⟩ := List.mem_map.mp herror
        exact beq_self_eq_true number
      have hothers : ((layout.addLine (text, number)).reports (texts.zipIdx (number + 1))).filter
          (fun error => error.line == number + 0) = [] := by
        refine List.filter_eq_nil_iff.mpr fun error herror => ?_
        have hlow := (line_of_mem_reports herror).1
        simp only [Nat.add_zero, beq_iff_eq]
        omega
      rw [hown, hothers, List.map_map, List.map_nil, List.append_nil]
      exact List.map_id _
    | succ index =>
      have hown : ((layout.faults (text, number)).map (Error.mk number)).filter
          (fun error => error.line == number + (index + 1)) = [] := by
        refine List.filter_eq_nil_iff.mpr fun error herror => ?_
        obtain ⟨cause, -, rfl⟩ := List.mem_map.mp herror
        simp only [beq_iff_eq]
        omega
      have hnumber : number + (index + 1) = number + 1 + index := by omega
      rw [hown, List.map_nil, List.nil_append, hnumber, ih, List.getElem?_cons_succ,
        List.take_succ_cons, List.foldl_cons]

/-! ### The end directive -/

theorem finished_addLine {layout : Layout} (h : layout.counter ≤ 0x10000) {text : List Char}
    {line : Line} (hread : Line.read text = .ok (some line))
    (hoperation : line.operation = some ".END") (hoperand : line.operand = []) (number : Nat) :
    (layout.addLine (text, number)).finished = true := by
  by_cases hgo : layout.finished = true
  · rwa [addLine_finished hgo]
  have hbody : Body.ofLine layout.symbols line = .ok (.directive .finish) :=
    Body.ofLine_eq_finish.mpr ⟨hoperation, hoperand⟩
  simp only [addLine, hgo, Bool.false_eq_true, if_false, hread, hbody]
  unfold place
  rw [if_neg]
  · rfl
  · rw [counter_define]
    exact Nat.not_lt.mpr h

end Layout

/-- The line of a number is an end directive that can be read. -/
def EndsAt (source : String) (number : Nat) : Prop :=
  ∃ text line, (text, number) ∈ numberedLines source.toList ∧ Line.read text = .ok (some line) ∧
    line.operation = some ".END" ∧ line.operand = []

/-- Nothing behind an end directive is read. -/
theorem ofSource_of_endsAt {source : String} {number : Nat} (h : EndsAt source number) :
    Layout.ofSource source =
      (((lines source.toList).take number).zipIdx 1).foldl Layout.addLine .empty := by
  obtain ⟨text, line, hmem, hread, hoperation, hoperand⟩ := h
  obtain ⟨before, after, hsplit⟩ := List.append_of_mem hmem
  obtain ⟨first, rest, hlines, rfl, hrest⟩ := List.zipIdx_eq_append_iff.mp hsplit
  obtain ⟨_, rest, rfl, hentry, rfl⟩ := List.zipIdx_eq_cons_iff.mp hrest.symm
  obtain ⟨rfl, rfl⟩ := Prod.mk.inj hentry
  have htake : (lines source.toList).take (1 + first.length) = first ++ [text] := by
    rw [hlines, List.append_cons]
    exact List.take_left' (by rw [List.length_append, List.length_singleton, Nat.add_comm])
  have hcounter := Layout.counter_foldl_addLine_le (first.zipIdx 1) .empty (Nat.zero_le _)
  have hfinished := Layout.finished_addLine hcounter hread hoperation hoperand (1 + first.length)
  rw [htake, Layout.ofSource, numberedLines, hlines, List.zipIdx_append, List.zipIdx_append,
    List.foldl_append, List.foldl_append, List.zipIdx_cons, List.foldl_cons,
    Layout.foldl_addLine_finished hfinished]
  rfl

/-! ### The first reading -/

/-- What is wrong with the line that comes behind so many others. -/
def faultsBehind (source : String) (index : Nat) : List Cause :=
  match (lines source.toList)[index]? with
  | none => []
  | some text =>
    (((numberedLines source.toList).take index).foldl Layout.addLine .empty).faults
      (text, index + 1)

theorem toList_errors_ofSource (source : String) :
    (Layout.ofSource source).errors.toList = Layout.empty.reports (numberedLines source.toList) :=
  Layout.toList_errors_foldl _ _

theorem filter_errors_ofSource (source : String) (index : Nat) :
    ((Layout.ofSource source).errors.toList.filter fun error => error.line == index + 1).map
      Error.cause = faultsBehind source index := by
  rw [toList_errors_ofSource, Nat.add_comm, numberedLines, Layout.filter_reports, faultsBehind,
    Nat.add_comm]
  rfl

theorem filter_errors_eq_map (source : String) (index : Nat) :
    ((Layout.ofSource source).errors.toList.filter fun error => error.line == index + 1) =
      (faultsBehind source index).map (Error.mk (index + 1)) := by
  rw [← filter_errors_ofSource, List.map_map]
  refine ((List.map_congr_left fun error herror => ?_).trans (List.map_id _)).symm
  obtain ⟨-, hline⟩ := List.mem_filter.mp herror
  rw [Function.comp_apply, ← beq_iff_eq.mp hline]
  rfl

/-- A line of a source has at most two faults, one for its label and one for its bytes. -/
theorem faultsBehind_cases (source : String) (index : Nat) :
    (faultsBehind source index).length ≤ 1 ∨
      ∃ cause address, faultsBehind source index = [cause, .pastEnd address] ∧
        cause.concernsLabel = true := by
  unfold faultsBehind
  split
  · exact .inl (Nat.zero_le _)
  · exact Layout.faults_cases _ _

/-- A line has no fault if there are no errors at all. -/
theorem faultsBehind_of_errors_eq {source : String} (h : (Layout.ofSource source).errors = #[])
    (index : Nat) : faultsBehind source index = [] := by
  rw [← filter_errors_ofSource, h]
  rfl

/-! ### The second reading -/

/-- The bytes of a row cannot be made, when all symbols are known. -/
inductive Row.Fails (symbols : SymbolTable) (row : Row) (cause : Cause) : Prop
  | instruction {m : Mnemonic} {mode : AddressingMode} {operand : Operand} :
    row.body = .instruction m mode operand →
    encode m mode operand (UInt16.ofNat row.counter) symbols = .error cause →
      Fails symbols row cause
  | data {items : List Datum} :
    row.body = .directive (.data items) → emitData symbols items = .error cause →
    Fails symbols row cause

/-- The statement of a row comes to nothing just when its bytes cannot be made. -/
theorem Row.emit_eq_error {symbols : SymbolTable} {row : Row} {cause : Cause} :
    row.statement.emit symbols = .error cause ↔ row.Fails symbols cause := by
  obtain ⟨number, line, body, counter⟩ := row
  constructor
  · intro h
    cases body with
    | instruction m mode operand => exact .instruction rfl (Result.map_eq_error.mp h)
    | nothing => cases h
    | directive directive =>
      cases directive with
      | data items => exact .data rfl (Result.map_eq_error.mp h)
      | origin | reserve | equate | finish => cases h
  · rintro (⟨rfl, h⟩ | ⟨rfl, h⟩)
    · exact Result.map_eq_error.mpr h
    · exact Result.map_eq_error.mpr h

theorem Statement.error?_eq_some {symbols : SymbolTable} {s : Statement} {error : Error} :
    s.error? symbols = some error ↔
      error.line = s.location.line ∧ s.emit symbols = .error error.cause := by
  obtain ⟨line, cause⟩ := error
  unfold Statement.error?
  cases s.emit symbols with
  | ok field => simp
  | error found =>
    simp only [Option.some.injEq, Error.mk.injEq, Except.error.injEq]
    exact and_congr_left' eq_comm

/-- A layout is rejected for the errors of its lines, or else for those of its
statements. -/
theorem Program.ofLayout_eq_error {layout : Layout} {errors : List Error}
    (h : ofLayout layout = .error errors) :
    (layout.errors ≠ #[] ∧ errors = layout.errors.toList) ∨
      (layout.errors = #[] ∧ errors ≠ [] ∧
        errors = layout.statements.toList.filterMap (Statement.error? layout.symbols)) := by
  unfold ofLayout at h
  split at h
  · rename_i hnone
    refine .inr ⟨Array.isEmpty_iff.mp hnone, ?_⟩
    simp only at h
    split at h
    · cases h
    · rename_i hsome
      cases h
      exact ⟨fun hnil => hsome (List.isEmpty_iff.mpr hnil), rfl⟩
  · rename_i hsome
    cases h
    exact .inl ⟨fun hnil => hsome (Array.isEmpty_iff.mpr hnil), rfl⟩

/-! ### Rejected sources -/

/-- Some line has a fault, and the errors are the faults of the lines. -/
structure RejectedAtFirst (source : String) (errors : List Error) : Prop where
  some_fault : ∃ index, faultsBehind source index ≠ []
  /-- The errors of each line are its faults. -/
  faults_eq : ∀ index, (errors.filter fun error => error.line == index + 1).map Error.cause =
    faultsBehind source index
  /-- A line has one error, or one for its label and one for its bytes. -/
  at_most_two : ∀ number, (errors.filter fun error => error.line == number).length ≤ 1 ∨
    ∃ cause address, (errors.filter fun error => error.line == number) =
      [⟨number, cause⟩, ⟨number, .pastEnd address⟩] ∧ cause.concernsLabel = true

/-- No line has a fault, and the errors are those of the rows whose bytes cannot
be made. -/
structure RejectedAtSecond (source : String) (errors : List Error) : Prop where
  no_fault : ∀ index, faultsBehind source index = []
  /-- A row has an error just when its own bytes cannot be made. -/
  mem_iff : ∃ rows,
    rows? (Layout.ofSource source).symbols.symbols 0 (numberedLines source.toList) = some rows ∧
      ∀ error, error ∈ errors ↔
        ∃ row ∈ rows, row.number = error.line ∧
          row.Fails (Layout.ofSource source).symbols error.cause
  /-- No row has two. -/
  ascending : errors.Pairwise fun error later => error.line < later.line

/-- The errors are in order and lie within the lines that are read. -/
structure InOrder (source : String) (errors : List Error) : Prop where
  ne_nil : errors ≠ []
  ordered : errors.Pairwise fun error later => error.line ≤ later.line
  within : ∀ error ∈ errors, 1 ≤ error.line ∧ error.line ≤ (lines source.toList).length
  /-- None lies behind an end directive. -/
  before_end : ∀ error ∈ errors, ∀ number, EndsAt source number → error.line ≤ number

theorem rejectedAtFirst_of_errors {source : String} (h : (Layout.ofSource source).errors ≠ #[]) :
    RejectedAtFirst source (Layout.ofSource source).errors.toList := by
  have hmem := toList_errors_ofSource source
  refine ⟨?_, filter_errors_ofSource source, fun number => ?_⟩
  · obtain ⟨error, herror⟩ := List.exists_mem_of_ne_nil _ (mt Array.toList_eq_nil_iff.mp h)
    obtain ⟨hlow, -⟩ := Layout.line_of_mem_reports (hmem ▸ herror)
    refine ⟨error.line - 1, fun hnil => ?_⟩
    rw [← filter_errors_ofSource, Nat.sub_add_cancel hlow, List.map_eq_nil_iff,
      List.filter_eq_nil_iff] at hnil
    exact hnil error herror (beq_self_eq_true _)
  · cases number with
    | zero =>
      refine .inl ?_
      rw [List.filter_eq_nil_iff.mpr]
      · exact Nat.zero_le _
      · intro error herror
        obtain ⟨hlow, -⟩ := Layout.line_of_mem_reports (hmem ▸ herror)
        simp only [beq_iff_eq]
        omega
    | succ index =>
      rw [filter_errors_eq_map, List.length_map]
      refine (faultsBehind_cases source index).imp id fun ⟨cause, address, heq, hlabel⟩ => ?_
      exact ⟨cause, address, by rw [heq]; rfl, hlabel⟩

theorem rejectedAtSecond_of_errors {source : String} {errors : List Error}
    (hnone : (Layout.ofSource source).errors = #[])
    (herrors : errors = (Layout.ofSource source).statements.toList.filterMap
      (Statement.error? (Layout.ofSource source).symbols)) :
    RejectedAtSecond source errors := by
  obtain ⟨rows, hrows, hadds⟩ := Layout.ofSource_eq hnone
  have hstatements : (Layout.ofSource source).statements.toList = rows.map Row.statement :=
    hadds.statements_eq
  rw [hstatements, List.filterMap_map] at herrors
  subst herrors
  refine ⟨faultsBehind_of_errors_eq hnone, ⟨rows, hrows, fun error => ?_⟩, ?_⟩
  · simp only [List.mem_filterMap, Function.comp_apply, Statement.error?_eq_some, Row.emit_eq_error]
    exact ⟨fun ⟨row, hrow, hline, hfails⟩ => ⟨row, hrow, hline.symm, hfails⟩,
      fun ⟨row, hrow, hline, hfails⟩ => ⟨row, hrow, hline.symm, hfails⟩⟩
  · refine List.Pairwise.filterMap _ (fun row later hlt error herror other hother => ?_)
      (pairwise_number_of_rows? hrows)
    have hline := (Statement.error?_eq_some.mp herror).1
    have hlater := (Statement.error?_eq_some.mp hother).1
    rw [hline, hlater]
    exact hlt

theorem line_of_mem_errors {texts : List (List Char)} {layout : Layout}
    (hlayout : (texts.zipIdx 1).foldl Layout.addLine .empty = layout) {error : Error}
    (h : error ∈ layout.errors.toList ∨
      error ∈ layout.statements.toList.filterMap (Statement.error? layout.symbols)) :
    error.line ≤ texts.length := by
  subst hlayout
  rcases h with h | h
  · rw [Layout.toList_errors_foldl] at h
    obtain ⟨-, hhigh⟩ := Layout.line_of_mem_reports (h : error ∈ Layout.empty.reports _)
    omega
  · obtain ⟨s, hs, herror⟩ := List.mem_filterMap.mp h
    rw [(Statement.error?_eq_some.mp herror).1]
    exact (Layout.read_of_mem_statements (Array.mem_toList_iff.mp hs)).1

theorem inOrder_of_rejected {source : String} {errors : List Error}
    (h : assemble source = .error errors) : InOrder source errors := by
  have hmem : ∀ error ∈ errors, error ∈ (Layout.ofSource source).errors.toList ∨
      error ∈ (Layout.ofSource source).statements.toList.filterMap
        (Statement.error? (Layout.ofSource source).symbols) := by
    intro error herror
    rcases Program.ofLayout_eq_error h with ⟨-, rfl⟩ | ⟨-, -, rfl⟩
    · exact .inl herror
    · exact .inr herror
  have hhigh : ∀ error ∈ errors, error.line ≤ (lines source.toList).length :=
    fun error herror => line_of_mem_errors rfl (hmem error herror)
  have hend : ∀ error ∈ errors, ∀ number, EndsAt source number → error.line ≤ number := by
    intro error herror number hends
    have hle := line_of_mem_errors (ofSource_of_endsAt hends).symm (hmem error herror)
    exact Nat.le_trans hle (List.length_take_le _ _)
  rcases Program.ofLayout_eq_error h with ⟨hsome, rfl⟩ | ⟨hnone, hne, heq⟩
  · have hreports := toList_errors_ofSource source
    refine ⟨mt Array.toList_eq_nil_iff.mp hsome, ?_, fun error herror => ⟨?_, hhigh error herror⟩,
      hend⟩
    · rw [hreports]
      exact Layout.pairwise_reports _ _ _
    · exact (Layout.line_of_mem_reports (hreports ▸ herror)).1
  · obtain ⟨-, ⟨rows, hrows, hiff⟩, hascending⟩ := rejectedAtSecond_of_errors hnone heq
    refine ⟨hne, hascending.imp Nat.le_of_lt, fun error herror => ⟨?_, hhigh error herror⟩, hend⟩
    obtain ⟨row, hrow, hline, -⟩ := (hiff error).mp herror
    have hnumber := (numbers_sublist_of_rows? hrows).subset (List.mem_map_of_mem hrow)
    rw [numberedLines, List.zipIdx_map_snd, List.mem_range'_1] at hnumber
    omega

/-- **Rejections are in order.** The errors follow the lines and stop at the end
directive. They are the faults of the lines, or, if no line has any, those of the
rows whose own bytes cannot be made. -/
theorem rejections_are_in_order {source : String} {errors : List Error}
    (h : assemble source = .error errors) :
    InOrder source errors ∧ (RejectedAtFirst source errors ∨ RejectedAtSecond source errors) := by
  refine ⟨inOrder_of_rejected h, ?_⟩
  rcases Program.ofLayout_eq_error h with ⟨hsome, rfl⟩ | ⟨hnone, -, heq⟩
  · exact .inl (rejectedAtFirst_of_errors hsome)
  · exact .inr (rejectedAtSecond_of_errors hnone heq)

/-- A source with faults in three lines: the first does not fit in memory, the second
does not either and has a label that is taken, and the third ends within a quotation.
What stands behind the end is not read. -/
def faultySource : String :=
  "TWICE .ORG $FFFE\n NOP\n LDA TWICE\nTWICE JMP TWICE\n LDX #'x\n .END\n BOGUS"

/-- A source without faults, with a constant that turns out to be too large and a
symbol that is nowhere defined. -/
def unknownSource : String := "NEAR NOP\n LDA #LATER\n LDX NEAR\n .DB 1,MISSING\nLATER .EQU $100"

theorem faultySource_is_in_order :
    (∃ errors, assemble faultySource = .error errors ∧
      errors.map (fun error => (error.line, error.cause.kind)) =
        [(3, .rangeError), (4, .duplicateLabel), (4, .rangeError), (5, .syntaxError)] ∧
      InOrder faultySource errors ∧
        (RejectedAtFirst faultySource errors ∨ RejectedAtSecond faultySource errors)) ∧
    ∃ errors, assemble unknownSource = .error errors ∧
      errors.map (fun error => (error.line, error.cause.kind)) =
        [(2, .rangeError), (4, .undefinedLabel)] ∧
      InOrder unknownSource errors ∧
        (RejectedAtFirst unknownSource errors ∨ RejectedAtSecond unknownSource errors) := by
  have hfaulty : (match assemble faultySource with
      | .ok _ => []
      | .error errors => errors.map fun error => (error.line, error.cause.kind)) =
        [(3, .rangeError), (4, .duplicateLabel), (4, .rangeError), (5, .syntaxError)] := by
    decide +kernel
  have hunknown : (match assemble unknownSource with
      | .ok _ => []
      | .error errors => errors.map fun error => (error.line, error.cause.kind)) =
        [(2, .rangeError), (4, .undefinedLabel)] := by
    decide +kernel
  constructor
  · cases h : assemble faultySource with
    | ok program =>
      rw [h] at hfaulty
      cases hfaulty
    | error errors =>
      rw [h] at hfaulty
      exact ⟨errors, rfl, hfaulty, rejections_are_in_order h⟩
  · cases h : assemble unknownSource with
    | ok program =>
      rw [h] at hunknown
      cases hunknown
    | error errors =>
      rw [h] at hunknown
      exact ⟨errors, rfl, hunknown, rejections_are_in_order h⟩

end Assembler
end Mos6502
