/-
# Labels and symbols are well formed

A label begins a line, and is defined in upper case and without the colons behind it.
It has to be a name of its own (`IsLabel`), and it has to be new. What is in the table
before a line are the labels that earlier lines define, each with the first line that
does (`firstDefines_of_mem_layoutBefore`). So a name that cannot be a label and a name that is taken
are errors of their lines, and in an accepted source the labelled lines and the symbols
are the same, in the same order.

Key definitions: `IsLabel`, `LabelledBy`, `LabelAt`, `DefinesAt`, `WellNamed`.
Key theorems: `validateLabel_eq_ok_iff_isLabel`,
`firstDefines_of_mem_layoutBefore`, `wellNamed_of_assemble`, `labels_are_well_formed`.
-/
import Mos6502.Proofs.Assembler.Case
import Mos6502.Proofs.Assembler.Extent
import Mathlib.Data.List.Nodup

namespace Mos6502

namespace Text

theorem length_le_byteLength (text : List Char) : text.length ≤ byteLength text := by
  induction text with
  | nil => exact Nat.le_refl 0
  | cons c text ih =>
    have hpos := c.utf8Size_pos
    rw [List.length_cons, byteLength_cons]
    omega

theorem byteLength_of_forall_lt {text : List Char} (h : ∀ c ∈ text, c.toNat < 128) :
    byteLength text = text.length := by
  induction text with
  | nil => rfl
  | cons c text ih =>
    obtain ⟨hc, htext⟩ := List.forall_mem_cons.mp h
    have hone : c.utf8Size = 1 :=
      Char.utf8Size_eq_one_iff.mpr (UInt32.le_iff_toNat_le.mpr (Nat.le_of_lt_succ hc))
    rw [List.length_cons, byteLength_cons, ih htext, hone, Nat.add_comm]

theorem not_isLower_of_toUpper_eq {c : Char} (h : c.toUpper = c) : c.isLower = false := by
  rw [Bool.eq_false_iff]
  intro hlower
  have hbounds : c.val ≥ 'a'.val ∧ c.val ≤ 'z'.val := by
    unfold Char.isLower at hlower
    simpa only [Bool.and_eq_true, decide_eq_true_eq] using hlower
  have hvalue : c.val + ('A'.val - 'a'.val) = c.val := by
    have heq := congrArg Char.val h
    unfold Char.toUpper at heq
    rwa [dif_pos hbounds] at heq
  have hnumber := congrArg UInt32.toNat hvalue
  have hstep : ('A'.val - 'a'.val).toNat = 2 ^ 32 - 32 := rfl
  have hhigh : c.val.toNat ≤ 122 := UInt32.le_iff_toNat_le.mp hbounds.2
  rw [UInt32.toNat_add, hstep] at hnumber
  omega

end Text

namespace Assembler

open Text

/-! ### The names of labels -/

/-- The character is an upper-case letter or an underscore. -/
def StartsLabel (c : Char) : Prop := ('A' ≤ c ∧ c ≤ 'Z') ∨ c = '_'

/-- The name is one to eight upper-case letters, digits and underscores, of which a
digit is not the first, and names neither the accumulator nor an instruction. -/
structure IsLabel (name : List Char) : Prop where
  parts : ∃ first rest, name = first :: rest ∧ StartsLabel first ∧ rest.length ≤ 7 ∧
    ∀ c ∈ rest, StartsLabel c ∨ ('0' ≤ c ∧ c ≤ '9')
  ne_accumulator : name ≠ ['A']
  ne_letters : ∀ m : Mnemonic, name ≠ m.letters

theorem beginsName_iff {c : Char} (h : c.toUpper = c) : beginsName c = true ↔ StartsLabel c := by
  unfold beginsName Char.isAlpha Char.isUpper
  simp only [not_isLower_of_toUpper_eq h, Bool.or_false, Bool.or_eq_true, decide_eq_true_eq,
    beq_iff_eq]
  rfl

theorem continuesName_iff {c : Char} (h : c.toUpper = c) :
    continuesName c = true ↔ StartsLabel c ∨ ('0' ≤ c ∧ c ≤ '9') := by
  rw [continuesName_iff_beginsName, beginsName_iff h]

theorem isReserved_eq_false_iff {name : List Char} (h : ∀ c ∈ name, c.toUpper = c) :
    isReserved name = false ↔ name ≠ ['A'] ∧ ∀ m : Mnemonic, name ≠ m.letters := by
  rw [isReserved, Bool.or_eq_false_iff, beq_eq_false_iff_ne, Option.isSome_eq_false_iff,
    Option.isNone_iff_eq_none]
  refine and_congr_right' ⟨?_, fun hnone => ?_⟩
  · rintro hnone m rfl
    rw [Mnemonic.read?_letters] at hnone
    cases hnone
  · refine List.find?_eq_none.mpr fun m _ hletters => hnone m ?_
    exact (upper_eq_self h).symm.trans (beq_iff_eq.mp hletters).symm

/-- **The names that pass the check are those of labels.** -/
theorem validateLabel_eq_ok_iff_isLabel {name : List Char} (h : ∀ c ∈ name, c.toUpper = c) :
    validateLabel name = .ok () ↔ IsLabel name := by
  rw [validateLabel_eq_ok_iff, isReserved_eq_false_iff h]
  constructor
  · rintro ⟨hlength, hname, haccumulator, hletters⟩
    refine ⟨?_, haccumulator, hletters⟩
    cases name with
    | nil => cases hname
    | cons first rest =>
      obtain ⟨hfirst, hrest⟩ := List.forall_mem_cons.mp h
      rw [isSymbolName, Bool.and_eq_true, List.all_eq_true] at hname
      refine ⟨first, rest, rfl, (beginsName_iff hfirst).mp hname.1, ?_, fun c hc => ?_⟩
      · have hle := Nat.le_trans (length_le_byteLength (first :: rest)) hlength
        exact Nat.le_of_succ_le_succ hle
      · exact (continuesName_iff (hrest c hc)).mp (hname.2 c hc)
  · rintro ⟨⟨first, rest, rfl, hstart, hlength, hparts⟩, haccumulator, hletters⟩
    obtain ⟨hfirst, hrest⟩ := List.forall_mem_cons.mp h
    have hlow : ∀ {c}, StartsLabel c → c.toNat < 128 := by
      rintro c (⟨-, hle⟩ | rfl)
      · exact Nat.lt_of_le_of_lt (UInt32.le_iff_toNat_le.mp hle) (by decide)
      · decide
    have hascii : ∀ c ∈ first :: rest, c.toNat < 128 := by
      refine List.forall_mem_cons.mpr ⟨hlow hstart, fun c hc => ?_⟩
      rcases hparts c hc with hletter | ⟨-, hle⟩
      · exact hlow hletter
      · exact Nat.lt_of_le_of_lt (UInt32.le_iff_toNat_le.mp hle) (by decide)
    refine ⟨?_, ?_, haccumulator, hletters⟩
    · rw [byteLength_of_forall_lt hascii]
      exact Nat.succ_le_succ hlength
    · rw [isSymbolName, Bool.and_eq_true, List.all_eq_true]
      exact ⟨(beginsName_iff hfirst).mpr hstart,
        fun c hc => (continuesName_iff (hrest c hc)).mpr (hparts c hc)⟩

/-! ### Labelled lines -/

/-- The line begins with a label, which is written so. -/
def LabelledBy (text word : List Char) : Prop :=
  ∃ code front operation operand, uncomment text = .ok code ∧
    Splits code front (some word) operation operand

theorem LabelledBy.label_eq {text word : List Char} {line : Line} (h : LabelledBy text word)
    (hread : Line.read text = .ok (some line)) : line.label = some (labelName word) := by
  obtain ⟨code, front, operation, operand, hcode, hsplits⟩ := h
  obtain ⟨other, hother, hline⟩ := Line.read_of_splits hcode hsplits
  rw [hread] at hother
  cases hother
  exact hline.label_eq

theorem exists_labelledBy {text : List Char} {line : Line} {name : String}
    (hread : Line.read text = .ok (some line)) (hlabel : line.label = some name) :
    ∃ word, LabelledBy text word ∧ labelName word = name := by
  obtain ⟨code, front, label, operation, operand, hcode, hsplits, hline⟩ :=
    Line.exists_splits_of_read hread
  rw [hline.label_eq] at hlabel
  obtain ⟨word, rfl, hname⟩ := Option.map_eq_some_iff.mp hlabel
  exact ⟨word, ⟨code, front, operation, operand, hcode, hsplits⟩, hname⟩

theorem toUpper_of_mem_labelName (word : List Char) :
    ∀ c ∈ (labelName word).toList, c.toUpper = c := by
  intro c hc
  rw [labelName, String.toList_ofList] at hc
  obtain ⟨d, -, rfl⟩ := List.mem_map.mp hc
  exact toUpper_toUpper d

/-- The line of a number is reached and has a label, which is written so, and it asks for
something when the lines before it have been read. -/
def LabelAt (source : String) (number : Nat) (word : List Char) (body : Body) : Prop :=
  ∃ text line, ReadAt source number text line ∧ LabelledBy text word ∧
    Body.ofLine (layoutBefore source number).symbols line = .ok body

/-- What the label of a line with a body stands for. -/
def labelledAt (source : String) (number : Nat) (body : Body) : Nat :=
  body.labelled (layoutBefore source number).counter

/-- The line of a number has a label of a name, which can be one and stands for a word. -/
def DefinesAt (source : String) (number : Nat) (name : String) : Prop :=
  ∃ word body, LabelAt source number word body ∧ labelName word = name ∧ IsLabel name.toList ∧
    labelledAt source number body ≤ 0xFFFF

/-- The line of a number is the first one that defines a name. -/
def FirstDefines (source : String) (number : Nat) (name : String) : Prop :=
  DefinesAt source number name ∧ ∀ before < number, ¬ DefinesAt source before name

/-- A label that cannot be defined is an error of its line. -/
theorem LabelAt.exists_error {source : String} {number : Nat} {word : List Char} {body : Body}
    {cause : Cause} (h : LabelAt source number word body)
    (hdefine : Layout.defineLabel (layoutBefore source number).symbols (labelName word)
      (Layout.labelValue (layoutBefore source number).counter body) number = .error cause) :
    ∃ errors, assemble source = .error errors ∧ ⟨number, cause⟩ ∈ errors := by
  obtain ⟨text, line, hread, hlabel, hbody⟩ := h
  refine exists_error_of_mem_faults hread.mem ?_
  have hgo := finished_layoutBefore.mpr hread.reached
  simp only [Layout.faults, hgo, hread.read, hbody, Layout.labelFault?, hlabel.label_eq hread.read,
    hdefine, Bool.false_eq_true, if_false]
  exact List.mem_append_left _ (List.mem_singleton_self cause)

/-! ### The table before a line -/

theorem prefix_layoutBefore (source : String) {before number : Nat} (h : before ≤ number) :
    (layoutBefore source before).symbols.symbols <+:
      (layoutBefore source number).symbols.symbols := by
  induction number, h using Nat.le_induction with
  | base => exact List.prefix_rfl
  | succ number _ ih =>
    rcases layoutBefore_succ_cases source number with ⟨text, -, heq⟩ | ⟨-, heq⟩ <;> rw [heq]
    · obtain ⟨added, hadded, -⟩ := Layout.addLine_symbols (layoutBefore source number) text number
      exact ih.trans ⟨added, hadded.symm⟩
    · exact ih

theorem DefinesAt.exists_symbol {source : String} {number : Nat} {name : String}
    (h : DefinesAt source number name) :
    ∃ symbol, (layoutBefore source (number + 1)).symbols.find? name = some symbol := by
  obtain ⟨word, body, ⟨text, line, hread, hlabel, hbody⟩, rfl, hname, hvalue⟩ := h
  cases hfind : (layoutBefore source number).symbols.find? (labelName word) with
  | some symbol =>
    exact ⟨symbol, SymbolTable.find?_of_prefix (prefix_layoutBefore source (Nat.le_succ _)) hfind⟩
  | none =>
    have hvalid := (validateLabel_eq_ok_iff_isLabel (toUpper_of_mem_labelName word)).mpr hname
    rw [labelledAt, Body.labelled_eq] at hvalue
    have hdefine : Layout.defineLabel (layoutBefore source number).symbols (labelName word)
        (Layout.labelValue (layoutBefore source number).counter body) number = .ok _ :=
      Layout.defineLabel_eq_ok.mpr ⟨hvalid, hvalue, hfind, rfl⟩
    have hgo := finished_layoutBefore.mpr hread.reached
    rw [layoutBefore_succ hread.mem, Layout.symbols_addLine_of_ofLine hgo hread.read hbody,
      hlabel.label_eq hread.read, Layout.define]
    simp only [hdefine]
    rw [← Option.isSome_iff_exists, SymbolTable.find?, List.find?_isSome]
    exact ⟨_, List.mem_append_right _ (List.mem_singleton_self _), beq_self_eq_true _⟩

/-- **What is in the table before a line** are the names that earlier lines define, each
with the first line that does. -/
theorem firstDefines_of_mem_layoutBefore {source : String} {number : Nat} {symbol : Symbol}
    (h : symbol ∈ (layoutBefore source number).symbols.symbols) :
    symbol.line < number ∧ FirstDefines source symbol.line symbol.name := by
  induction number with
  | zero => cases h
  | succ number ih =>
    rcases layoutBefore_succ_cases source number with ⟨text, hmem, heq⟩ | ⟨-, heq⟩ <;> rw [heq] at h
    · rcases Layout.symbols_addLine_cases (layoutBefore source number) text number with
        hsame | ⟨line, body, name, hgo, hread, hbody, hlabel, hdefine⟩
      · rw [hsame] at h
        exact (ih h).imp Nat.lt_succ_of_lt id
      · obtain ⟨hvalid, hvalue, hfind, hsymbols⟩ := Layout.defineLabel_eq_ok.mp hdefine
        rw [hsymbols] at h
        rcases List.mem_append.mp h with h | h
        · exact (ih h).imp Nat.lt_succ_of_lt id
        · obtain rfl := List.mem_singleton.mp h
          obtain ⟨word, hword, rfl⟩ := exists_labelledBy hread hlabel
          refine ⟨Nat.lt_succ_self _, ?_, fun before hlt hdefines => ?_⟩
          · refine ⟨word, body, ⟨text, line, ⟨hmem, hread, finished_layoutBefore.mp hgo⟩, hword,
              hbody⟩, rfl, ?_, ?_⟩
            · exact (validateLabel_eq_ok_iff_isLabel (toUpper_of_mem_labelName word)).mp hvalid
            · rwa [labelledAt, Body.labelled_eq]
          · obtain ⟨symbol, hsymbol⟩ := hdefines.exists_symbol
            have hlater := SymbolTable.find?_of_prefix (prefix_layoutBefore source hlt) hsymbol
            rw [hfind] at hlater
            cases hlater
    · exact (ih h).imp Nat.lt_succ_of_lt id

/-- No two symbols have the same name. -/
theorem nodup_layoutBefore (source : String) (number : Nat) :
    ((layoutBefore source number).symbols.symbols.map Symbol.name).Nodup := by
  induction number with
  | zero => exact List.nodup_nil
  | succ number ih =>
    rcases layoutBefore_succ_cases source number with ⟨text, hmem, heq⟩ | ⟨-, heq⟩ <;> rw [heq]
    · rcases Layout.symbols_addLine_cases (layoutBefore source number) text number with
        hsame | ⟨line, body, name, -, -, -, -, hdefine⟩
      · rwa [hsame]
      · obtain ⟨-, -, hfind, hsymbols⟩ := Layout.defineLabel_eq_ok.mp hdefine
        rw [hsymbols, List.map_append, List.map_singleton]
        refine List.nodup_append.mpr ⟨ih, List.pairwise_singleton _ _, fun a ha b hb => ?_⟩
        obtain ⟨symbol, hsymbol, rfl⟩ := List.mem_map.mp ha
        rw [List.mem_singleton.mp hb]
        exact (SymbolTable.find?_eq_none_iff _ _).mp hfind symbol hsymbol
    · exact ih

/-! ### Accepted sources -/

/-- The symbols of a program are the labels of its source. -/
structure WellNamed (source : String) (program : Program) : Prop where
  nodup : (program.symbols.map Symbol.name).Nodup
  isLabel : ∀ symbol ∈ program.symbols, IsLabel symbol.name.toList
  ascending : program.symbols.Pairwise fun symbol later => symbol.line < later.line
  /-- A line that is reached and has a label defines one symbol, of the label's name. -/
  unique_symbol : ∀ number text line word, ReadAt source number text line →
    LabelledBy text word → ∃ symbol ∈ program.symbols, symbol.line = number ∧
      symbol.name = labelName word ∧
      ∀ other ∈ program.symbols, other.line = number → other = symbol
  /-- Every symbol is the label of such a line. -/
  labelled : ∀ symbol ∈ program.symbols, ∃ text line word, ReadAt source symbol.line text line ∧
    LabelledBy text word ∧ symbol.name = labelName word
  /-- A name finds the symbol that it is the name of in some case. -/
  symbol?_eq_some : ∀ name value, program.symbol? name = some value ↔
    ∃ symbol ∈ program.symbols, upper symbol.name.toList = upper name.toList ∧
      symbol.value = value
  /-- A name that is that of no symbol finds nothing. -/
  symbol?_eq_none : ∀ name, program.symbol? name = none ↔
    ∀ symbol ∈ program.symbols, upper symbol.name.toList ≠ upper name.toList

theorem symbols_of_assemble {source : String} {program : Program}
    (h : assemble source = .ok program) :
    program.symbols =
      (layoutBefore source ((lines source.toList).length + 1)).symbols.symbols := by
  obtain ⟨-, emitted, -, -, rfl⟩ := Program.ofLayout_eq_ok h
  rw [layoutBefore_length]
  rfl

namespace MadeOf

variable {source : String} {program : Program} {rows : List Row}
  {emitted : List (Statement × Listing.Field)}

/-- The symbols are in the order of their lines. -/
theorem pairwise_symbols (h : MadeOf source program rows emitted) :
    program.symbols.Pairwise fun symbol later => symbol.line < later.line := by
  rw [h.symbols_eq]
  refine List.Pairwise.filterMap _ (fun row later hlt symbol hsymbol other hother => ?_)
    (pairwise_number_of_rows? h.rows_eq)
  rwa [Layout.line_of_symbol? (Option.mem_toList.mpr hsymbol),
    Layout.line_of_symbol? (Option.mem_toList.mpr hother)]

/-- A line that is reached and has a label defines a symbol of its name. -/
theorem exists_symbol (h : MadeOf source program rows emitted) {number : Nat}
    {text word : List Char} {line : Line} (hread : ReadAt source number text line)
    (hlabel : LabelledBy text word) :
    ∃ symbol ∈ program.symbols, symbol.line = number ∧ symbol.name = labelName word := by
  rcases h.exists_row_of_isReached hread.mem hread.reached with hnone | ⟨row, hrow, rfl, hline⟩
  · rw [hread.read] at hnone
    cases hnone
  · rw [h.symbols_eq]
    refine ⟨⟨labelName word, UInt16.ofNat (row.body.labelled row.counter),
      (Layout.labelValue row.counter row.body).2, row.number⟩,
      List.mem_filterMap.mpr ⟨row, hrow, ?_⟩, rfl, rfl⟩
    rw [Row.symbol?, hlabel.label_eq hline]
    rfl

theorem exists_labelledBy_of_mem (h : MadeOf source program rows emitted) {symbol : Symbol}
    (hsymbol : symbol ∈ program.symbols) : ∃ text line word, ReadAt source symbol.line text line ∧
      LabelledBy text word ∧ symbol.name = labelName word := by
  rw [h.symbols_eq] at hsymbol
  obtain ⟨row, hrow, hrow'⟩ := List.mem_filterMap.mp hsymbol
  obtain ⟨name, hlabel, rfl⟩ := Option.map_eq_some_iff.mp hrow'
  obtain ⟨text, hread⟩ := h.readAt_of_mem hrow
  obtain ⟨word, hword, hname⟩ := exists_labelledBy hread.read hlabel
  exact ⟨text, row.line, word, hread, hword, hname.symm⟩

end MadeOf

/-- Among symbols with names of their own, all in upper case, a name finds the one that it is
the name of in some case. -/
theorem Program.symbol?_eq_some_iff {program : Program}
    (hnodup : (program.symbols.map Symbol.name).Nodup)
    (hupper : ∀ symbol ∈ program.symbols, upper symbol.name.toList = symbol.name.toList)
    {name : String} {value : UInt16} :
    program.symbol? name = some value ↔
      ∃ symbol ∈ program.symbols, upper symbol.name.toList = upper name.toList ∧
        symbol.value = value := by
  have hname : ∀ symbol ∈ program.symbols,
      symbol.name = String.ofList (upper name.toList) ↔
        upper symbol.name.toList = upper name.toList := by
    intro symbol hsymbol
    rw [hupper symbol hsymbol, ← String.toList_inj, String.toList_ofList]
  rw [Program.symbol?, Option.map_eq_some_iff]
  constructor
  · rintro ⟨symbol, hfind, hvalue⟩
    have hmem := List.mem_of_find?_eq_some hfind
    have hfits := List.find?_some hfind
    exact ⟨symbol, hmem, (hname symbol hmem).mp (beq_iff_eq.mp hfits), hvalue⟩
  · rintro ⟨symbol, hmem, heq, hvalue⟩
    have hown := (hname symbol hmem).mpr heq
    have hsome : (program.symbols.find? fun symbol =>
        symbol.name == String.ofList (upper name.toList)).isSome = true :=
      List.find?_isSome.mpr ⟨symbol, hmem, beq_iff_eq.mpr hown⟩
    obtain ⟨found, hfind⟩ := Option.isSome_iff_exists.mp hsome
    have hfits := List.find?_some hfind
    obtain rfl : found = symbol := List.inj_on_of_nodup_map hnodup
      (List.mem_of_find?_eq_some hfind) hmem ((beq_iff_eq.mp hfits).trans hown.symm)
    exact ⟨found, hfind, hvalue⟩

/-- **The symbols of an accepted source are its labels.** -/
theorem wellNamed_of_assemble {source : String} {program : Program}
    (h : assemble source = .ok program) : WellNamed source program := by
  obtain ⟨rows, emitted, hmade⟩ := madeOf_of_assemble h
  have hsymbols := symbols_of_assemble h
  have hnodup : (program.symbols.map Symbol.name).Nodup := by
    rw [hsymbols]
    exact nodup_layoutBefore _ _
  have hascending := hmade.pairwise_symbols
  have hupper : ∀ symbol ∈ program.symbols, upper symbol.name.toList = symbol.name.toList := by
    intro symbol hsymbol
    obtain ⟨_, _, word, -, -, hname⟩ := hmade.exists_labelledBy_of_mem hsymbol
    rw [hname]
    exact upper_eq_self (toUpper_of_mem_labelName word)
  have hfind := fun name value =>
    @Program.symbol?_eq_some_iff program hnodup hupper name value
  refine ⟨hnodup, fun symbol hsymbol => ?_, hascending, fun number text line word hread hword => ?_,
    fun symbol hsymbol => hmade.exists_labelledBy_of_mem hsymbol, hfind, fun name => ?_⟩
  · rw [hsymbols] at hsymbol
    obtain ⟨-, ⟨_, _, -, -, hlabel, -⟩, -⟩ := firstDefines_of_mem_layoutBefore hsymbol
    exact hlabel
  · obtain ⟨symbol, hsymbol, hline, hname⟩ := hmade.exists_symbol hread hword
    refine ⟨symbol, hsymbol, hline, hname, fun other hother hsame => ?_⟩
    exact List.inj_on_of_nodup_map (List.pairwise_map.mpr (hascending.imp Nat.ne_of_lt)) hother
      hsymbol (hsame.trans hline.symm)
  · rw [Option.eq_none_iff_forall_ne_some]
    simp only [ne_eq, hfind, not_exists, not_and]
    exact ⟨fun hnone symbol hsymbol heq => hnone _ symbol hsymbol heq rfl,
      fun hnone _ symbol hsymbol heq => absurd heq (hnone symbol hsymbol)⟩

/-! ### Rejected labels -/

theorem LabelAt.exists_invalid {source : String} {number : Nat} {word : List Char} {body : Body}
    (h : LabelAt source number word body) (hname : ¬ IsLabel (labelName word).toList) :
    ∃ errors cause, assemble source = .error errors ∧ ⟨number, cause⟩ ∈ errors ∧
      cause.kind = .invalidLabel := by
  cases hvalid : validateLabel (labelName word).toList with
  | ok =>
    exact absurd ((validateLabel_eq_ok_iff_isLabel (toUpper_of_mem_labelName word)).mp hvalid) hname
  | error error =>
    have hdefine : Layout.defineLabel (layoutBefore source number).symbols (labelName word)
        (Layout.labelValue (layoutBefore source number).counter body) number =
          .error (.label error) := by
      simp only [Layout.defineLabel, hvalid]
    obtain ⟨errors, herrors, hmem⟩ := h.exists_error hdefine
    exact ⟨errors, _, herrors, hmem, rfl⟩

/-- A name that is taken is an error of its line, with the line that took it. -/
theorem LabelAt.exists_duplicate {source : String} {number earlier : Nat} {word : List Char}
    {body : Body} (h : LabelAt source number word body)
    (hvalue : labelledAt source number body ≤ 0xFFFF) (hlt : earlier < number)
    (hearlier : DefinesAt source earlier (labelName word)) :
    ∃ errors first, assemble source = .error errors ∧ first < number ∧
      FirstDefines source first (labelName word) ∧
      ⟨number, .duplicateLabel (labelName word) first⟩ ∈ errors := by
  obtain ⟨symbol, hsymbol⟩ := hearlier.exists_symbol
  have hfind := SymbolTable.find?_of_prefix (prefix_layoutBefore source hlt) hsymbol
  have hfits := List.find?_some hfind
  have hname : symbol.name = labelName word := beq_iff_eq.mp hfits
  obtain ⟨hline, hfirst⟩ := firstDefines_of_mem_layoutBefore (List.mem_of_find?_eq_some hfind)
  obtain ⟨-, -, -, -, hlabel, -⟩ := hearlier
  have hvalid := (validateLabel_eq_ok_iff_isLabel (toUpper_of_mem_labelName word)).mpr hlabel
  rw [labelledAt, Body.labelled_eq] at hvalue
  have hdefine : Layout.defineLabel (layoutBefore source number).symbols (labelName word)
      (Layout.labelValue (layoutBefore source number).counter body) number =
        .error (.duplicateLabel (labelName word) symbol.line) := by
    simp only [Layout.defineLabel, hvalid, if_neg (Nat.not_lt.mpr hvalue), SymbolTable.add, hfind,
      hname]
  obtain ⟨errors, herrors, hmem⟩ := h.exists_error hdefine
  exact ⟨errors, symbol.line, herrors, hline, hname ▸ hfirst, hmem⟩

/-- **Labels are well formed.** The symbols of an accepted source are its labels. Any source
in which a label cannot be one is rejected with an error of the line, and so is any source
with a label that is taken, which the error says by which line. -/
theorem labels_are_well_formed (source : String) :
    (∀ program, assemble source = .ok program → WellNamed source program) ∧
    (∀ number word body, LabelAt source number word body →
      ¬ IsLabel (labelName word).toList →
      ∃ errors cause, assemble source = .error errors ∧ ⟨number, cause⟩ ∈ errors ∧
        cause.kind = .invalidLabel) ∧
    ∀ number word body, LabelAt source number word body →
      labelledAt source number body ≤ 0xFFFF →
      (∃ earlier < number, DefinesAt source earlier (labelName word)) →
      ∃ errors first, assemble source = .error errors ∧ first < number ∧
        FirstDefines source first (labelName word) ∧
        ⟨number, .duplicateLabel (labelName word) first⟩ ∈ errors :=
  ⟨fun _ h => wellNamed_of_assemble h, fun _ _ _ h hname => h.exists_invalid hname,
    fun _ _ _ h hvalue ⟨_, hlt, hearlier⟩ => h.exists_duplicate hvalue hlt hearlier⟩

/-- A source with labels in either case, with colons and on lines of every kind. -/
def labelledSource : String :=
  "start: .ORG $10\nMax .EQU 7\n_a2::\n JMP Start\nlast .END\nlast NOP"

/-- A source with a label that is taken, and another that cannot be one. -/
def mislabelledSource : String := "Good NOP\ngood: NOP\nLDA: NOP"

theorem labelAt_of_readAt {source : String} {number : Nat} {label : List Char} {line : Line}
    {body : Body} (hread : ReadAt source number (label ++ " NOP".toList) line)
    (hbody : Body.ofLine (layoutBefore source number).symbols line = .ok body)
    (hword : IsWord label) (hname : isOperation label = false)
    (hcode : uncomment (label ++ " NOP".toList) = .ok (label ++ " NOP".toList)) :
    LabelAt source number label body := by
  have hblank : IsGap [' '] := List.forall_mem_singleton.mpr (by decide)
  have hfront := @Front.labelled [] label [' '] "NOP".toList nofun hword hname hblank
    (List.cons_ne_nil _ _) (by decide)
  exact ⟨_, line, hread, ⟨_, _, _, [], hcode,
    ⟨(List.append_nil _).symm, hfront, startsBlank_nil, nofun⟩⟩, hbody⟩

theorem labelledSource_is_well_formed :
    (∃ program, assemble labelledSource = .ok program ∧
      program.symbols.map (fun symbol => (symbol.line, symbol.name, symbol.value)) =
        [(1, "START", 0x10), (2, "MAX", 7), (3, "_A2", 0x10), (5, "LAST", 0x13)] ∧
      WellNamed labelledSource program) ∧
    (∃ errors cause, assemble mislabelledSource = .error errors ∧ ⟨3, cause⟩ ∈ errors ∧
      cause.kind = .invalidLabel) ∧
    ∃ errors first, assemble mislabelledSource = .error errors ∧ first < 2 ∧
      FirstDefines mislabelledSource first "GOOD" ∧
      ⟨2, .duplicateLabel "GOOD" first⟩ ∈ errors := by
  have hfirst : LabelAt mislabelledSource 1 "Good".toList (.instruction .nop .implicit .none) :=
    @labelAt_of_readAt _ _ _ ⟨some "GOOD", some "NOP", [], 0, 8⟩ _
      ⟨by decide +kernel, by decide +kernel, finished_layoutBefore.mp (by decide +kernel)⟩
      (by decide +kernel) (by decide) (by decide) (by decide +kernel)
  have htaken : LabelAt mislabelledSource 2 "good:".toList (.instruction .nop .implicit .none) :=
    @labelAt_of_readAt _ _ _ ⟨some "GOOD", some "NOP", [], 0, 9⟩ _
      ⟨by decide +kernel, by decide +kernel, finished_layoutBefore.mp (by decide +kernel)⟩
      (by decide +kernel) (by decide) (by decide) (by decide +kernel)
  have hreserved : LabelAt mislabelledSource 3 "LDA:".toList (.instruction .nop .implicit .none) :=
    @labelAt_of_readAt _ _ _ ⟨some "LDA", some "NOP", [], 0, 8⟩ _
      ⟨by decide +kernel, by decide +kernel, finished_layoutBefore.mp (by decide +kernel)⟩
      (by decide +kernel) (by decide) (by decide) (by decide +kernel)
  have hgood : IsLabel (labelName "good:".toList).toList :=
    (validateLabel_eq_ok_iff_isLabel (toUpper_of_mem_labelName _)).mp (by decide +kernel)
  have hsymbols : (assemble labelledSource).toOption.map (fun program =>
      program.symbols.map fun symbol => (symbol.line, symbol.name, symbol.value)) =
        some [(1, "START", 0x10), (2, "MAX", 7), (3, "_A2", 0x10), (5, "LAST", 0x13)] := by
    decide +kernel
  obtain ⟨-, hinvalid, hduplicate⟩ := labels_are_well_formed mislabelledSource
  refine ⟨?_, hinvalid 3 _ _ hreserved fun hlabel => hlabel.ne_letters .lda (by decide +kernel),
    hduplicate 2 _ _ htaken (by decide +kernel)
      ⟨1, by decide, _, _, hfirst, by decide +kernel, hgood, by decide +kernel⟩⟩
  obtain ⟨program, h, heq⟩ := Result.exists_of_map_toOption hsymbols
  exact ⟨program, h, heq, (labels_are_well_formed labelledSource).1 program h⟩

end Assembler
end Mos6502
