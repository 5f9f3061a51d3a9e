/-
# What reading a line does to a layout

A line without fields changes nothing. A line that cannot be read leaves an
error. Any other line has its label defined, or leaves an error for it, and its
body placed, or leaves an error for that (`addLine_cases`). So errors stay,
symbols stay where they are and new ones have the number of their line
(`foldl_addLine_symbols`), after the end directive nothing changes, and the location
counter stays within memory (`counter_foldl_addLine_le`).

Key theorems: `defineLabel_eq_ok`, `addLine_cases`, `addLine_of_unlabelled`,
`errors_foldl_addLine`, `foldl_addLine_symbols`, `foldl_addLine_finished`,
`counter_foldl_addLine_le`.
-/
import Mos6502.Assembler.Layout

namespace Mos6502
namespace Assembler

open Text

theorem validateLabel_eq_ok_iff {name : List Char} :
    validateLabel name = .ok () ↔
      byteLength name ≤ maxLabelLength ∧ isSymbolName name = true ∧ isReserved name = false := by
  cases name with
  | nil => exact ⟨nofun, fun ⟨_, hname, _⟩ => nomatch hname⟩
  | cons first rest =>
    constructor
    · intro h
      simp only [validateLabel] at h
      split at h
      · cases h
      · rename_i hlength
        split at h
        · cases h
        · rename_i hfirst
          split at h
          · cases h
          · rename_i hrest
            split at h
            · cases h
            · rename_i hreserved
              refine ⟨Nat.not_lt.mp hlength, ?_, Bool.eq_false_iff.mpr hreserved⟩
              rw [isSymbolName, Bool.and_eq_true, List.all_eq_true]
              rw [Bool.not_eq_true', Bool.not_eq_false] at hfirst
              refine ⟨hfirst, fun c hc => ?_⟩
              have hcontinues := List.find?_eq_none.mp hrest c hc
              rwa [Bool.not_eq_true, Bool.not_eq_false'] at hcontinues
    · rintro ⟨hlength, hname, hreserved⟩
      rw [isSymbolName, Bool.and_eq_true, List.all_eq_true] at hname
      have hrest : rest.find? (fun c => !continuesName c) = none :=
        List.find?_eq_none.mpr fun c hc hnot => by
          rw [hname.2 c hc] at hnot
          cases hnot
      simp only [validateLabel, if_neg (Nat.not_lt.mpr hlength), hname.1, hrest, hreserved,
        Bool.not_true, Bool.false_eq_true, if_false]

/-- The name of a label is that of a symbol and of nothing else. -/
theorem validateLabel_eq_ok {name : List Char} (h : validateLabel name = .ok ()) :
    isSymbolName name = true ∧ isReserved name = false := (validateLabel_eq_ok_iff.mp h).2

/-- The name of the label can be one. -/
def Line.Named (line : Line) : Prop := ∀ name ∈ line.label, validateLabel name.toList = .ok ()

namespace Layout

theorem defineLabel_eq_ok {symbols extended : SymbolTable} {name : String} {value : Nat × Bool}
    {number : Nat} :
    defineLabel symbols name value number = .ok extended ↔
      validateLabel name.toList = .ok () ∧ value.1 ≤ 0xFFFF ∧ symbols.find? name = none ∧
        extended = ⟨symbols.symbols ++ [⟨name, UInt16.ofNat value.1, value.2, number⟩]⟩ := by
  unfold defineLabel
  cases validateLabel name.toList with
  | error error => simp
  | ok =>
    by_cases hvalue : 0xFFFF < value.1
    · simp only [if_pos hvalue, reduceCtorEq, true_and, false_iff, not_and]
      exact fun h => absurd hvalue (Nat.not_lt.mpr h)
    · simp only [if_neg hvalue, SymbolTable.add]
      cases symbols.find? name with
      | some existing => simp
      | none =>
        simp only [Except.ok.injEq, true_and, Nat.not_lt.mp hvalue]
        exact eq_comm

/-- The label of a line is defined, or leaves an error. -/
theorem define_cases (layout : Layout) (label : Option String) (body : Body) (number : Nat) :
    (label = none ∧ layout.define label body number = layout) ∨
    (∃ name symbols, label = some name ∧
      defineLabel layout.symbols name (labelValue layout.counter body) number = .ok symbols ∧
      layout.define label body number = { layout with symbols := symbols }) ∨
    ∃ cause, layout.define label body number = layout.fail number cause := by
  cases label with
  | none => exact .inl ⟨rfl, rfl⟩
  | some name =>
    simp only [define]
    cases hdefine : defineLabel layout.symbols name (labelValue layout.counter body) number with
    | ok symbols => exact .inr (.inl ⟨name, symbols, rfl, hdefine, rfl⟩)
    | error cause => exact .inr (.inr ⟨cause, rfl⟩)

/-- The body of a line is placed, or leaves an error. -/
theorem place_cases (layout : Layout) (body : Body) (location : Location) :
    (placement layout.counter body + body.size ≤ 0x10000 ∧
      layout.place body location =
        { layout with
          counter := placement layout.counter body + body.size
          statements := layout.statements.push
            ⟨UInt16.ofNat (placement layout.counter body), location, body⟩
          finished := decide (body = .directive .finish) }) ∨
    (0x10000 < placement layout.counter body + body.size ∧
      layout.place body location =
        { layout with counter := placement layout.counter body }.fail location.line
          (.pastEnd (placement layout.counter body))) := by
  unfold place
  by_cases h : 0x10000 < placement layout.counter body + body.size
  · exact .inr ⟨h, if_pos h⟩
  · exact .inl ⟨Nat.not_lt.mp h, if_neg h⟩

/-- What reading a line can do. -/
theorem addLine_cases {layout : Layout} (hgo : layout.finished = false) (text : List Char)
    (number : Nat) :
    (Line.read text = .ok none ∧ layout.addLine (text, number) = layout) ∨
    (∃ cause, layout.addLine (text, number) = layout.fail number cause) ∨
    ∃ line body, Line.read text = .ok (some line) ∧ Body.ofLine layout.symbols line = .ok body ∧
      layout.addLine (text, number) =
        (layout.define line.label body number).place body ⟨number, line.column, line.length⟩ := by
  simp only [addLine, hgo, Bool.false_eq_true, if_false]
  cases Line.read text with
  | error error => exact .inr (.inl ⟨_, rfl⟩)
  | ok fields =>
    cases fields with
    | none => exact .inl ⟨rfl, rfl⟩
    | some line =>
      simp only
      cases hbody : Body.ofLine layout.symbols line with
      | error cause => exact .inr (.inl ⟨_, rfl⟩)
      | ok body => exact .inr (.inr ⟨line, body, rfl, hbody, rfl⟩)

theorem addLine_of_unlabelled {layout : Layout} (hgo : layout.finished = false) {text : List Char}
    {line : Line} {body : Body} (hread : Line.read text = .ok (some line))
    (hlabel : line.label = none) (hbody : Body.ofLine layout.symbols line = .ok body)
    (hle : placement layout.counter body + body.size ≤ 0x10000) (number : Nat) :
    layout.addLine (text, number) =
      { layout with
        counter := placement layout.counter body + body.size
        statements := layout.statements.push
          ⟨UInt16.ofNat (placement layout.counter body), ⟨number, line.column, line.length⟩, body⟩
        finished := decide (body = .directive .finish) } := by
  simp only [addLine, hgo, Bool.false_eq_true, if_false, hread, hbody, define, hlabel, place,
    if_neg (Nat.not_lt.mpr hle)]

theorem addLine_finished {layout : Layout} (h : layout.finished = true)
    (entry : List Char × Nat) : layout.addLine entry = layout := if_pos h

theorem foldl_addLine_finished {layout : Layout} (h : layout.finished = true) :
    ∀ lines : List (List Char × Nat), lines.foldl addLine layout = layout
  | [] => rfl
  | entry :: lines => by
    rw [List.foldl_cons, addLine_finished h, foldl_addLine_finished h lines]

/-! ### Errors stay -/

theorem errors_fail_ne (layout : Layout) (number : Nat) (cause : Cause) :
    (layout.fail number cause).errors ≠ #[] := Array.push_ne_empty

theorem errors_define {layout : Layout} {label : Option String} {body : Body} {number : Nat}
    (h : (layout.define label body number).errors = #[]) : layout.errors = #[] := by
  rcases define_cases layout label body number with ⟨-, e⟩ | ⟨_, _, -, -, e⟩ | ⟨cause, e⟩ <;>
    rw [e] at h
  · exact h
  · exact h
  · exact absurd h (errors_fail_ne _ _ _)

theorem errors_place {layout : Layout} {body : Body} {location : Location}
    (h : (layout.place body location).errors = #[]) : layout.errors = #[] := by
  rcases place_cases layout body location with ⟨-, e⟩ | ⟨-, e⟩ <;> rw [e] at h
  · exact h
  · exact absurd h (errors_fail_ne _ _ _)

theorem errors_addLine {layout : Layout} {entry : List Char × Nat}
    (h : (layout.addLine entry).errors = #[]) : layout.errors = #[] := by
  obtain ⟨text, number⟩ := entry
  by_cases hgo : layout.finished = true
  · rwa [addLine_finished hgo] at h
  rcases addLine_cases (Bool.eq_false_iff.mpr hgo) text number with
    ⟨-, e⟩ | ⟨cause, e⟩ | ⟨line, body, -, -, e⟩ <;> rw [e] at h
  · exact h
  · exact absurd h (errors_fail_ne _ _ _)
  · exact errors_define (errors_place h)

theorem errors_foldl_addLine : ∀ {lines : List (List Char × Nat)} {layout : Layout},
    (lines.foldl addLine layout).errors = #[] → layout.errors = #[]
  | [], _, h => h
  | _ :: _, _, h => errors_addLine (errors_foldl_addLine h)

/-! ### Symbols stay -/

theorem define_symbols (layout : Layout) (label : Option String) (body : Body) (number : Nat) :
    ∃ added, (layout.define label body number).symbols.symbols = layout.symbols.symbols ++ added ∧
      ∀ symbol ∈ added, symbol.line = number := by
  rcases define_cases layout label body number with ⟨-, e⟩ | ⟨_, _, -, hdefine, e⟩ | ⟨_, e⟩ <;>
    rw [e]
  · exact ⟨[], (List.append_nil _).symm, nofun⟩
  · obtain ⟨-, -, -, rfl⟩ := defineLabel_eq_ok.mp hdefine
    exact ⟨_, rfl, fun symbol h => by rw [List.mem_singleton.mp h]⟩
  · exact ⟨[], (List.append_nil _).symm, nofun⟩

theorem place_symbols (layout : Layout) (body : Body) (location : Location) :
    (layout.place body location).symbols = layout.symbols := by
  rcases place_cases layout body location with ⟨-, e⟩ | ⟨-, e⟩ <;> rw [e]
  rfl

/-- A line adds its own symbols behind those that are there. -/
theorem addLine_symbols (layout : Layout) (text : List Char) (number : Nat) :
    ∃ added, (layout.addLine (text, number)).symbols.symbols = layout.symbols.symbols ++ added ∧
      ∀ symbol ∈ added, symbol.line = number := by
  by_cases hgo : layout.finished = true
  · rw [addLine_finished hgo]
    exact ⟨[], (List.append_nil _).symm, nofun⟩
  rcases addLine_cases (Bool.eq_false_iff.mpr hgo) text number with
    ⟨-, e⟩ | ⟨cause, e⟩ | ⟨line, body, -, -, e⟩ <;> rw [e]
  · exact ⟨[], (List.append_nil _).symm, nofun⟩
  · exact ⟨[], (List.append_nil _).symm, nofun⟩
  · rw [place_symbols]
    exact define_symbols layout line.label body number

theorem symbols_addLine_of_ofLine {layout : Layout} (hgo : layout.finished = false)
    {text : List Char} {line : Line} {body : Body} (hread : Line.read text = .ok (some line))
    (hbody : Body.ofLine layout.symbols line = .ok body) (number : Nat) :
    (layout.addLine (text, number)).symbols =
      (layout.define line.label body number).symbols := by
  simp only [addLine, hgo, Bool.false_eq_true, if_false, hread, hbody, place_symbols]

/-- A line leaves the symbols as they are, or defines its label. -/
theorem symbols_addLine_cases (layout : Layout) (text : List Char) (number : Nat) :
    (layout.addLine (text, number)).symbols = layout.symbols ∨
    ∃ line body name, layout.finished = false ∧ Line.read text = .ok (some line) ∧
      Body.ofLine layout.symbols line = .ok body ∧ line.label = some name ∧
      defineLabel layout.symbols name (labelValue layout.counter body) number =
        .ok (layout.addLine (text, number)).symbols := by
  by_cases hgo : layout.finished = true
  · rw [addLine_finished hgo]
    exact .inl rfl
  have hgo : layout.finished = false := Bool.eq_false_iff.mpr hgo
  rcases addLine_cases hgo text number with ⟨-, e⟩ | ⟨cause, e⟩ | ⟨line, body, hread, hbody, e⟩ <;>
    rw [e]
  · exact .inl rfl
  · exact .inl rfl
  rw [place_symbols]
  rcases define_cases layout line.label body number with
    ⟨-, e⟩ | ⟨name, symbols, hlabel, hdefine, e⟩ | ⟨_, e⟩ <;> rw [e]
  · exact .inl rfl
  · exact .inr ⟨line, body, name, hgo, hread, hbody, hlabel, hdefine⟩
  · exact .inl rfl

/-- Lines numbered from `number` on add symbols of these numbers behind those
that are there. -/
theorem foldl_addLine_symbols : ∀ (texts : List (List Char)) (number : Nat) (layout : Layout),
    ∃ added, ((texts.zipIdx number).foldl addLine layout).symbols.symbols =
        layout.symbols.symbols ++ added ∧
      ∀ symbol ∈ added, number ≤ symbol.line
  | [], _, _ => ⟨[], (List.append_nil _).symm, nofun⟩
  | text :: texts, number, layout => by
    obtain ⟨first, hfirst, hline⟩ := addLine_symbols layout text number
    obtain ⟨rest, hrest, hlines⟩ :=
      foldl_addLine_symbols texts (number + 1) (layout.addLine (text, number))
    refine ⟨first ++ rest, ?_, fun symbol h => ?_⟩
    · rw [List.zipIdx_cons, List.foldl_cons, hrest, hfirst, List.append_assoc]
    · rcases List.mem_append.mp h with h | h
      · exact Nat.le_of_eq (hline symbol h).symm
      · exact Nat.le_of_succ_le (hlines symbol h)

/-! ### The location counter stays within memory -/

theorem counter_define (layout : Layout) (label : Option String) (body : Body) (number : Nat) :
    (layout.define label body number).counter = layout.counter := by
  rcases define_cases layout label body number with ⟨-, e⟩ | ⟨_, _, -, -, e⟩ | ⟨_, e⟩ <;> rw [e]
  rfl

theorem counter_addLine_le {layout : Layout} (h : layout.counter ≤ 0x10000)
    (entry : List Char × Nat) : (layout.addLine entry).counter ≤ 0x10000 := by
  obtain ⟨text, number⟩ := entry
  by_cases hgo : layout.finished = true
  · rwa [addLine_finished hgo]
  rcases addLine_cases (Bool.eq_false_iff.mpr hgo) text number with
    ⟨-, e⟩ | ⟨cause, e⟩ | ⟨line, body, -, -, e⟩ <;> rw [e]
  · exact h
  · exact h
  · rcases place_cases (layout.define line.label body number) body
      ⟨number, line.column, line.length⟩ with ⟨hle, e⟩ | ⟨-, e⟩ <;> rw [e]
    · exact hle
    · show placement (layout.define line.label body number).counter body ≤ 0x10000
      rw [counter_define]
      cases body with
      | instruction | nothing => exact h
      | directive directive =>
        cases directive with
        | origin address => exact Nat.le_of_lt address.toNat_lt
        | data | reserve | equate | finish => exact h

theorem counter_foldl_addLine_le (lines : List (List Char × Nat)) (layout : Layout)
    (h : layout.counter ≤ 0x10000) : (lines.foldl addLine layout).counter ≤ 0x10000 := by
  induction lines generalizing layout with
  | nil => exact h
  | cons entry lines ih => exact ih _ (counter_addLine_le h entry)

end Layout
end Assembler
end Mos6502
