/-
# Case outside quotations

In upper case outside its quotations, a text keeps these and its comment
(`marked_upperFrom`, `codeFrom_upperFrom`), and leaves the same operand
(`compactFrom_upperFrom`). A text with the same upper case as one in parts has such
parts too (`exists_append_of_upperFrom_eq`), with the same names in them
(`Front.of_upper_eq`).

Key definition: `upperFrom`.
Key theorems: `marked_upperFrom`, `codeFrom_upperFrom`, `compactFrom_upperFrom`,
`exists_append_of_upperFrom_eq`, `Front.of_upper_eq`.
-/
import Mos6502.Proofs.Assembler.Fields

namespace Mos6502
namespace Assembler

open Text

/-! ### Upper case outside quotations -/

/-- A character of a text in upper case, unless quoted. -/
def raised (entry : Char × Bool) : Char := if entry.2 then entry.1 else entry.1.toUpper

/-- A text before which a quotation is open or not, in upper case outside quotations. -/
def upperFrom (isOpen : Bool) (text : List Char) : List Char := (marked isOpen text).map raised

theorem raised_beq {d : Char} (hd : d.toNat < 65) (c : Char) (isOpen : Bool) :
    (raised (c, isOpen) == d) = (c == d) := by
  cases isOpen with
  | true => rfl
  | false => exact toUpper_beq hd c

theorem toUpper_toUpper (c : Char) : c.toUpper.toUpper = c.toUpper := by
  rcases toUpper_eq_or c.toUpper with heq | ⟨hlow, -, -⟩
  · exact heq
  · rcases toUpper_eq_or c with heq | ⟨-, hhigh, hnumber⟩
    · rw [heq, heq]
    · omega

theorem isBlank_toUpper (c : Char) : isBlank c.toUpper = isBlank c := by
  rcases toUpper_eq_or c with heq | ⟨hlow, hhigh, hnumber⟩
  · rw [heq]
  · rw [isBlank_of_letter hlow hhigh]
    simp only [isBlank, blankRanges, List.any_cons, List.any_nil, Bool.or_eq_false_iff,
      Bool.and_eq_false_iff, decide_eq_false_iff_not, and_true]
    omega

/-- **Upper case leaves the quotations where they are.** -/
theorem marked_upperFrom (isOpen : Bool) (text : List Char) :
    marked isOpen (upperFrom isOpen text) =
      (marked isOpen text).map fun entry => (raised entry, entry.2) := by
  induction text generalizing isOpen with
  | nil => rfl
  | cons c text ih =>
    rw [upperFrom, marked, List.map_cons, marked, raised_beq (by decide), ← upperFrom, ih]
    rfl

theorem upperFrom_append (isOpen : Bool) (first second : List Char) :
    upperFrom isOpen (first ++ second) =
      upperFrom isOpen first ++ upperFrom (isOpen != endsOpen first) second := by
  rw [upperFrom, marked_append, List.map_append]
  rfl

theorem length_upperFrom (isOpen : Bool) (text : List Char) :
    (upperFrom isOpen text).length = text.length := by
  rw [upperFrom, List.length_map, length_marked]

theorem endsOpen_upperFrom (isOpen : Bool) (text : List Char) :
    endsOpen (upperFrom isOpen text) = endsOpen text := by
  induction text generalizing isOpen with
  | nil => rfl
  | cons c text ih =>
    rw [upperFrom, marked, List.map_cons, endsOpen_cons, raised_beq (by decide), ← upperFrom, ih,
      endsOpen_cons]

theorem upper_upperFrom (isOpen : Bool) (text : List Char) :
    upper (upperFrom isOpen text) = upper text := by
  have hraised : Char.toUpper ∘ raised = Char.toUpper ∘ Prod.fst := by
    funext entry
    rw [Function.comp_apply, Function.comp_apply, raised]
    split
    · rfl
    · exact toUpper_toUpper entry.1
  rw [upper, upperFrom, List.map_map, hraised, ← List.map_map, map_fst_marked]
  rfl

theorem codeFrom_upperFrom (isOpen : Bool) (text : List Char) :
    codeFrom isOpen (upperFrom isOpen text) = upperFrom isOpen (codeFrom isOpen text) := by
  have hcomment : (fun entry => !beginsComment entry) ∘
      (fun entry : Char × Bool => (raised entry, entry.2)) = fun entry => !beginsComment entry := by
    funext entry
    rw [Function.comp_apply, beginsComment, raised_beq (by decide)]
    rfl
  rw [codeFrom, marked_upperFrom, List.takeWhile_map, hcomment, upperFrom, marked_codeFrom,
    List.map_map]
  rfl

/-- Blanks and lower case go from upper case as they go from the text. -/
theorem compactFrom_upperFrom (isOpen : Bool) (text : List Char) :
    compactFrom isOpen (upperFrom isOpen text) = compactFrom isOpen text := by
  rw [compactFrom, marked_upperFrom, List.filterMap_map]
  refine List.filterMap_congr fun entry _ => ?_
  obtain ⟨c, isOpen⟩ := entry
  rw [Function.comp_apply, kept, kept, raised_beq (by decide)]
  cases isOpen with
  | true => rfl
  | false =>
    show (if (false || c == quote) = true then some c.toUpper else
      if isBlank c.toUpper = true then none else some c.toUpper.toUpper) = _
    rw [isBlank_toUpper, toUpper_toUpper]
    by_cases hquote : c = quote
    · rw [hquote]
      rfl
    · rw [beq_false_of_ne hquote]
      rfl

theorem upper_dropColons (label : List Char) :
    upper (dropColons label) = dropColons (upper label) := by
  have hcolons : (fun c => c == ':') ∘ Char.toUpper = fun c => c == ':' := by
    funext c
    exact toUpper_beq (by decide) c
  simp only [dropColons, upper, ← List.map_reverse, List.dropWhile_map, hcolons]

theorem upper_upper (text : List Char) : upper (upper text) = upper text := by
  rw [upper, upper, List.map_map]
  exact List.map_congr_left fun c _ => toUpper_toUpper c

/-! ### Parts in another case -/

/-- A text with the same upper case as one in two parts has two such parts. -/
theorem exists_append_of_upperFrom_eq {isOpen : Bool} {first second other : List Char}
    (h : upperFrom isOpen other = upperFrom isOpen (first ++ second)) :
    ∃ otherFirst otherSecond, other = otherFirst ++ otherSecond ∧
      upper otherFirst = upper first ∧
      upperFrom (isOpen != endsOpen first) otherSecond =
        upperFrom (isOpen != endsOpen first) second := by
  have hlength : (upperFrom isOpen (other.take first.length)).length =
      (upperFrom isOpen first).length := by
    have htotal := congrArg List.length h
    rw [length_upperFrom, length_upperFrom, List.length_append] at htotal
    rw [length_upperFrom, length_upperFrom, List.length_take]
    omega
  rw [← List.take_append_drop first.length other, upperFrom_append, upperFrom_append] at h
  obtain ⟨hfirst, hsecond⟩ := List.append_inj h hlength
  have hends : endsOpen (other.take first.length) = endsOpen first := by
    rw [← endsOpen_upperFrom isOpen, hfirst, endsOpen_upperFrom]
  rw [hends] at hsecond
  refine ⟨_, _, (List.take_append_drop first.length other).symm, ?_, hsecond⟩
  rw [← upper_upperFrom isOpen, hfirst, upper_upperFrom]

section UpperEq

variable {text other : List Char} (h : upper other = upper text)

include h

theorem isGap_of_upper_eq (hgap : IsGap text) : IsGap other := by
  have hiff : ∀ list : List Char, (∀ c ∈ upper list, isBlank c = true) ↔ IsGap list := by
    intro list
    simp only [upper, List.forall_mem_map, isBlank_toUpper, IsGap]
  rwa [← hiff, h, hiff]

theorem isWord_of_upper_eq (hword : IsWord text) : IsWord other := by
  have hiff : ∀ list : List Char, (∀ c ∈ upper list, isBlank c = false) ↔
      ∀ c ∈ list, isBlank c = false := fun list => by
    simp only [upper, List.forall_mem_map, isBlank_toUpper]
  refine ⟨?_, ?_⟩
  · rintro rfl
    exact hword.ne_nil (List.map_eq_nil_iff.mp h.symm)
  · rw [← hiff, h, hiff]
    exact hword.solid

theorem startsBlank_of_upper_eq (hstart : StartsBlank text) : StartsBlank other := by
  cases other with
  | nil => exact startsBlank_nil
  | cons c other =>
    obtain ⟨d, text, rfl, hd, -⟩ := List.map_eq_cons_iff.mp h.symm
    intro e he
    cases he
    rw [← isBlank_toUpper, ← hd, isBlank_toUpper]
    exact hstart d rfl

theorem isOperation_of_upper_eq : isOperation other = isOperation text := by
  have hhead : ∀ list : List Char, (list.head? == some '.') = ((upper list).head? == some '.') := by
    intro list
    cases list with
    | nil => rfl
    | cons c list => exact (toUpper_beq (by decide) c).symm
  have hmnemonic : Mnemonic.read? other = Mnemonic.read? text := by
    have hmap : other.map Char.toUpper = text.map Char.toUpper := h
    rw [Mnemonic.read?, hmap]
    rfl
  rw [isOperation, isOperation, hhead, hhead text, h, hmnemonic]

theorem labelName_of_upper_eq : labelName other = labelName text := by
  rw [labelName, labelName, upper_dropColons, upper_dropColons, h]

end UpperEq

theorem Front.of_upper_eq {front other : List Char} {label operation : Option (List Char)}
    (h : upper other = upper front) (hfront : Front front label operation) :
    ∃ otherLabel otherOperation, Front other otherLabel otherOperation ∧
      otherLabel.map labelName = label.map labelName ∧
      otherOperation.map operationName = operation.map operationName := by
  cases hfront with
  | label hgap hlabel hname =>
    obtain ⟨gap', label', rfl, hgap', hlabel'⟩ :=
      List.map_eq_append_iff.mp (h.trans List.map_append)
    exact ⟨_, _, .label (isGap_of_upper_eq hgap' hgap) (isWord_of_upper_eq hlabel' hlabel)
      ((isOperation_of_upper_eq hlabel').trans hname),
      congrArg some (labelName_of_upper_eq hlabel'), rfl⟩
  | operation hgap hword hname =>
    obtain ⟨gap', word', rfl, hgap', hword'⟩ := List.map_eq_append_iff.mp (h.trans List.map_append)
    exact ⟨_, _, .operation (isGap_of_upper_eq hgap' hgap) (isWord_of_upper_eq hword' hword)
      ((isOperation_of_upper_eq hword').trans hname), rfl,
      congrArg (some ∘ String.ofList) hword'⟩
  | labelled hgap hlabel hname hbetween hne hword =>
    obtain ⟨lead', tail', rfl, hlead', htail'⟩ :=
      List.map_eq_append_iff.mp (h.trans List.map_append)
    obtain ⟨gap', label', rfl, hgap', hlabel'⟩ :=
      List.map_eq_append_iff.mp (hlead'.trans List.map_append)
    obtain ⟨between', word', rfl, hbetween', hword'⟩ :=
      List.map_eq_append_iff.mp (htail'.trans List.map_append)
    refine ⟨_, _, .labelled (isGap_of_upper_eq hgap' hgap) (isWord_of_upper_eq hlabel' hlabel)
      ((isOperation_of_upper_eq hlabel').trans hname) (isGap_of_upper_eq hbetween' hbetween) ?_
      (isWord_of_upper_eq hword' hword), congrArg some (labelName_of_upper_eq hlabel'),
      congrArg (some ∘ String.ofList) hword'⟩
    rintro rfl
    exact hne (List.map_eq_nil_iff.mp hbetween'.symm)

end Assembler
end Mos6502
