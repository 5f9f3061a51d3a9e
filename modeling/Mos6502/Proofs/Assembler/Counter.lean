/-
# The location counter

The rows of a source are its lines up to the end directive, each with what it
asks for and the location counter before it (`rows?`). A line is read with the
symbols of the lines before it; which these are, the finished program tells.
The counter starts at zero, an origin sets it, and what a line takes advances
it (`Body.advance`).

A layout without errors is the layout of its rows: its statements are theirs,
its symbols are those that their labels name, and the counter stays within
memory (`Layout.Adds`, `foldl_addLine_eq`).

Key definitions: `Body.advance`, `Body.labelled`, `Row`, `rows?`, `Layout.Adds`.
Key theorems: `addLine_eq`, `foldl_addLine_eq`, `ofSource_eq`.
-/
import Mos6502.Proofs.Assembler.Emission
import Mos6502.Proofs.Assembler.Layout
import Mathlib.Tactic.Set

namespace Mos6502
namespace Assembler

open Text

/-- The location counter behind a line. -/
def Body.advance (counter : Nat) : Body → Nat
  | .directive (.origin address) => address.toNat
  | .instruction m mode operand => counter + (Body.instruction m mode operand).size
  | .directive (.data items) => counter + Datum.totalSize items
  | .directive (.reserve size) => counter + size.toNat
  | _ => counter

/-- What a label on a line stands for. -/
def Body.labelled (counter : Nat) : Body → Nat
  | .directive (.origin address) => address.toNat
  | .directive (.equate number) => number.value.toNat
  | _ => counter

/-- A line with what it asks for, and the location counter before it. -/
structure Row where
  number : Nat
  line : Line
  body : Body
  counter : Nat

/-- The symbols that are defined before a line. -/
def earlier (number : Nat) (symbols : List Symbol) : SymbolTable :=
  ⟨symbols.filter fun symbol => symbol.line < number⟩

/-- The rows of lines up to the end directive, where the symbols that the
source defines are known. Lines without fields have no rows; if a line cannot
be read there are no rows at all. -/
def rows? (symbols : List Symbol) (counter : Nat) : List (List Char × Nat) → Option (List Row)
  | [] => some []
  | (text, number) :: lines =>
    match Line.read text with
    | .error _ => none
    | .ok none => rows? symbols counter lines
    | .ok (some line) =>
      match Body.ofLine (earlier number symbols) line with
      | .error _ => none
      | .ok body =>
        if body = .directive .finish then some [⟨number, line, body, counter⟩]
        else (rows? symbols (body.advance counter) lines).map (⟨number, line, body, counter⟩ :: ·)

namespace Row

/-- The symbol that a row defines. -/
def symbol? (row : Row) : Option Symbol :=
  row.line.label.map fun name =>
    ⟨name, UInt16.ofNat (row.body.labelled row.counter),
      (Layout.labelValue row.counter row.body).2, row.number⟩

/-- The statement that is made of a row. -/
def statement (row : Row) : Statement where
  address := UInt16.ofNat (Layout.placement row.counter row.body)
  location := ⟨row.number, row.line.column, row.line.length⟩
  body := row.body

/-- The row stays within memory, and its label stands for an address. -/
structure Fits (row : Row) : Prop where
  counter_le : row.counter ≤ 0x10000
  advance_le : row.body.advance row.counter ≤ 0x10000
  labelled_le : row.line.label.isSome = true → row.body.labelled row.counter ≤ 0xFFFF

end Row

theorem Body.advance_eq (counter : Nat) (body : Body) :
    body.advance counter = Layout.placement counter body + body.size := by
  cases body with
  | instruction => rfl
  | nothing => rfl
  | directive directive => cases directive <;> rfl

theorem Body.labelled_eq (counter : Nat) (body : Body) :
    body.labelled counter = (Layout.labelValue counter body).1 := by
  cases body with
  | instruction => rfl
  | nothing => rfl
  | directive directive => cases directive <;> rfl

theorem Body.placement_of_isPlaced {body : Body} (h : body.isPlaced = true) (counter : Nat) :
    Layout.placement counter body = counter := by
  cases body with
  | instruction | nothing => rfl
  | directive directive =>
    cases directive with
    | origin => cases h
    | data | reserve | equate | finish => rfl

theorem Body.labelled_of_isPlaced {body : Body} (h : body.isPlaced = true) (counter : Nat) :
    body.labelled counter = counter := by
  cases body with
  | instruction | nothing => rfl
  | directive directive =>
    cases directive with
    | origin | equate => cases h
    | data | reserve | finish => rfl

theorem rows?_cons_of_none {symbols : List Symbol} {text : List Char} (number counter : Nat)
    (lines : List (List Char × Nat)) (hread : Line.read text = .ok none) :
    rows? symbols counter ((text, number) :: lines) = rows? symbols counter lines := by
  simp only [rows?, hread]

/-- A line that can be read has its row before those of the lines behind it, if
it is not the last one. -/
theorem rows?_cons_of_some {symbols : List Symbol} {text : List Char} {number counter : Nat}
    {line : Line} {body : Body} (lines : List (List Char × Nat))
    (hread : Line.read text = .ok (some line))
    (hbody : Body.ofLine (earlier number symbols) line = .ok body) :
    rows? symbols counter ((text, number) :: lines) =
      if body = .directive .finish then some [⟨number, line, body, counter⟩]
      else (rows? symbols (body.advance counter) lines).map (⟨number, line, body, counter⟩ :: ·) := by
  simp only [rows?, hread, hbody]

/-! ### A line -/

/-- A layout with a row added. -/
def Layout.extend (layout : Layout) (row : Row) : Layout where
  counter := row.body.advance row.counter
  symbols := ⟨layout.symbols.symbols ++ row.symbol?.toList⟩
  statements := layout.statements.push row.statement
  errors := layout.errors
  finished := decide (row.body = .directive .finish)

namespace Layout

theorem define_eq {layout : Layout} {number : Nat} {line : Line} {body : Body}
    (h : (layout.define line.label body number).errors = #[]) :
    (line.label.isSome = true → body.labelled layout.counter ≤ 0xFFFF) ∧
      layout.define line.label body number =
        { layout with symbols := ⟨layout.symbols.symbols ++
          (Row.symbol? ⟨number, line, body, layout.counter⟩).toList⟩ } := by
  rcases define_cases layout line.label body number with
    ⟨hlabel, e⟩ | ⟨name, symbols, hlabel, hdefine, e⟩ | ⟨_, e⟩
  · refine ⟨fun hsome => ?_, ?_⟩
    · rw [hlabel] at hsome
      cases hsome
    · rw [e]
      simp only [Row.symbol?, hlabel, Option.map_none, Option.toList_none, List.append_nil]
  · obtain ⟨-, hvalue, -, rfl⟩ := defineLabel_eq_ok.mp hdefine
    refine ⟨fun _ => by rwa [Body.labelled_eq], ?_⟩
    rw [e]
    simp only [Row.symbol?, hlabel, Option.map_some, Option.toList_some, Body.labelled_eq]
  · rw [e] at h
    exact absurd h (errors_fail_ne _ _ _)

theorem place_eq {layout : Layout} {body : Body} {location : Location}
    (h : (layout.place body location).errors = #[]) :
    body.advance layout.counter ≤ 0x10000 ∧
      layout.place body location =
        { layout with
          counter := body.advance layout.counter
          statements := layout.statements.push
            ⟨UInt16.ofNat (placement layout.counter body), location, body⟩
          finished := decide (body = .directive .finish) } := by
  rw [Body.advance_eq]
  rcases place_cases layout body location with ⟨hle, e⟩ | ⟨-, e⟩
  · exact ⟨hle, e⟩
  · rw [e] at h
    exact absurd h (errors_fail_ne _ _ _)

/-- A line that leaves no error adds its row, if it has one. -/
theorem addLine_eq {layout : Layout} {text : List Char} {number : Nat}
    (hgo : layout.finished = false) (hcounter : layout.counter ≤ 0x10000)
    (h : (layout.addLine (text, number)).errors = #[]) :
    (Line.read text = .ok none ∧ layout.addLine (text, number) = layout) ∨
    ∃ line body, Line.read text = .ok (some line) ∧ Body.ofLine layout.symbols line = .ok body ∧
      Row.Fits ⟨number, line, body, layout.counter⟩ ∧
      layout.addLine (text, number) = layout.extend ⟨number, line, body, layout.counter⟩ := by
  rcases addLine_cases hgo text number with ⟨hread, e⟩ | ⟨_, e⟩ | ⟨line, body, hread, hbody, e⟩
  · exact .inl ⟨hread, e⟩
  · rw [e] at h
    exact absurd h (errors_fail_ne _ _ _)
  · rw [e] at h ⊢
    obtain ⟨hlabelled, hdefine⟩ := define_eq (errors_place h)
    rw [hdefine] at h ⊢
    obtain ⟨hadvance, hplace⟩ := place_eq h
    exact .inr ⟨line, body, hread, hbody, ⟨hcounter, hadvance, hlabelled⟩, hplace⟩

/-! ### The lines of a source -/

theorem earlier_eq {number : Nat} {layout : Layout} {own later : List Symbol}
    (hbefore : ∀ symbol ∈ layout.symbols.symbols, symbol.line < number)
    (hown : ∀ symbol ∈ own, symbol.line = number)
    (hlater : ∀ symbol ∈ later, number + 1 ≤ symbol.line) :
    earlier number (layout.symbols.symbols ++ own ++ later) = layout.symbols := by
  have hfirst : layout.symbols.symbols.filter (fun symbol => symbol.line < number) =
      layout.symbols.symbols := List.filter_eq_self.mpr fun symbol h => by simpa using hbefore symbol h
  have hrest : (own ++ later).filter (fun symbol => symbol.line < number) = [] := by
    refine List.filter_eq_nil_iff.mpr fun symbol h => ?_
    rcases List.mem_append.mp h with h | h
    · simp [hown symbol h]
    · have := hlater symbol h
      simp only [decide_eq_true_eq]
      omega
  rw [earlier, List.append_assoc, List.filter_append, hfirst, hrest, List.append_nil]

theorem line_of_symbol? {row : Row} {symbol : Symbol} (h : symbol ∈ row.symbol?.toList) :
    symbol.line = row.number := by
  rw [Option.mem_toList, Row.symbol?, Option.map_eq_some_iff] at h
  obtain ⟨_, -, rfl⟩ := h
  rfl

/-- A layout comes from another by adding rows, all of which stay within memory. -/
structure Adds (layout : Layout) (rows : List Row) (final : Layout) : Prop where
  fits : ∀ row ∈ rows, row.Fits
  statements_eq : final.statements.toList = layout.statements.toList ++ rows.map Row.statement
  symbols_eq : final.symbols.symbols = layout.symbols.symbols ++ rows.filterMap Row.symbol?

theorem Adds.nil (layout : Layout) : layout.Adds [] layout := by
  refine ⟨List.forall_mem_nil _, ?_, ?_⟩
  · rw [List.map_nil, List.append_nil]
  · rw [List.filterMap_nil, List.append_nil]

theorem Adds.cons {layout final : Layout} {row : Row} {rows : List Row} (hfits : row.Fits)
    (h : (layout.extend row).Adds rows final) : layout.Adds (row :: rows) final := by
  have hstatements := h.statements_eq
  have hsymbols := h.symbols_eq
  refine ⟨List.forall_mem_cons.mpr ⟨hfits, h.fits⟩, ?_, ?_⟩
  · simpa [extend] using hstatements
  · cases hsymbol : row.symbol? <;> simpa [extend, hsymbol] using hsymbols

/-- **A layout without errors is that of its rows.** Lines that leave no error
have rows, each of which stays within memory; they add the statements and the
symbols of these rows. -/
theorem foldl_addLine_eq (texts : List (List Char)) (number : Nat) (layout : Layout)
    {final : Layout} (hgo : layout.finished = false) (hcounter : layout.counter ≤ 0x10000)
    (hbefore : ∀ symbol ∈ layout.symbols.symbols, symbol.line < number)
    (hfinal : (texts.zipIdx number).foldl addLine layout = final) (herrors : final.errors = #[]) :
    ∃ rows, rows? final.symbols.symbols layout.counter (texts.zipIdx number) = some rows ∧
      layout.Adds rows final := by
  induction texts generalizing number layout with
  | nil =>
    subst hfinal
    exact ⟨[], rfl, Adds.nil layout⟩
  | cons text texts ih =>
    rw [List.zipIdx_cons, List.foldl_cons] at hfinal
    have hnext : (layout.addLine (text, number)).errors = #[] :=
      errors_foldl_addLine (hfinal ▸ herrors)
    obtain ⟨later, hsymbols, hlater⟩ :=
      foldl_addLine_symbols texts (number + 1) (layout.addLine (text, number))
    rw [hfinal] at hsymbols
    rw [List.zipIdx_cons]
    rcases addLine_eq hgo hcounter hnext with
      ⟨hread, e⟩ | ⟨line, body, hread, hbody, hfits, e⟩ <;> rw [e] at hfinal hsymbols
    · rw [rows?_cons_of_none _ _ _ hread]
      exact ih (number + 1) layout hgo hcounter
        (fun symbol h => Nat.lt_succ_of_lt (hbefore symbol h)) hfinal
    -- the row is read with the symbols of the layout, which are those of the lines before it
    have hearlier : earlier number final.symbols.symbols = layout.symbols := by
      rw [hsymbols]
      exact earlier_eq hbefore (fun symbol h => line_of_symbol? h) hlater
    rw [← hearlier] at hbody
    rw [rows?_cons_of_some _ hread hbody]
    set row : Row := ⟨number, line, body, layout.counter⟩ with hrow
    by_cases hfinish : body = .directive .finish
    · rw [foldl_addLine_finished (by simp [extend, hrow, hfinish])] at hfinal
      rw [if_pos hfinish, ← hfinal]
      exact ⟨[row], rfl, Adds.cons hfits (Adds.nil _)⟩
    have hextended : ∀ symbol ∈ (layout.extend row).symbols.symbols, symbol.line < number + 1 := by
      intro symbol h
      rcases List.mem_append.mp h with h | h
      · exact Nat.lt_succ_of_lt (hbefore symbol h)
      · exact Nat.lt_succ_of_le (Nat.le_of_eq (line_of_symbol? h))
    obtain ⟨rows, hrest, hadds⟩ := ih (number + 1) (layout.extend row)
      (by simp [extend, hrow, hfinish]) hfits.advance_le hextended hfinal
    refine ⟨row :: rows, ?_, hadds.cons hfits⟩
    rw [if_neg hfinish]
    exact congrArg (Option.map (row :: ·)) hrest

/-- The lines of a source that leaves no error have rows, which make its
statements and its symbols. -/
theorem ofSource_eq {source : String} (h : (ofSource source).errors = #[]) :
    ∃ rows, rows? (ofSource source).symbols.symbols 0 (numberedLines source.toList) = some rows ∧
      empty.Adds rows (ofSource source) :=
  foldl_addLine_eq (lines source.toList) 1 empty rfl (Nat.zero_le _) (List.forall_mem_nil _) rfl h

end Layout
end Assembler
end Mos6502
