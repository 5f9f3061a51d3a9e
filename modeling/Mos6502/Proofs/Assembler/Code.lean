/-
# Code, comments and quotations

What stands before the comment of a line is its code; a line is read if no
quotation is open behind its code (`uncomment_eq_ok_iff`). Both the code and what
is left of an operand without its blanks can be found part by part
(`codeFrom_append`, `compactFrom_append`), and the latter has the quotations and
comments of the former (`marked_compactFrom`).

Key definitions: `codeFrom`, `hasComment`, `IsCode`, `compactFrom`.
Key theorems: `uncomment_eq_ok_iff`, `codeFrom_append`, `compactFrom_append`,
`marked_compactFrom`, `compact_trimEnd`.
-/
import Mos6502.Assembler.Line
import Mos6502.Proofs.Assembler.Plain
import Mos6502.Proofs.Text.Quote
import Mathlib.Data.List.TakeWhile

namespace Mos6502

namespace Text

/-- The text is blank. -/
def IsGap (text : List Char) : Prop := ∀ c ∈ text, isBlank c = true

theorem isBlank_quote : isBlank quote = false := by decide

theorem ne_quote_of_isBlank {c : Char} (h : isBlank c = true) : c ≠ quote := by
  rintro rfl
  rw [isBlank_quote] at h
  cases h

theorem IsGap.quote_notMem {gap : List Char} (h : IsGap gap) : quote ∉ gap := fun hmem =>
  ne_quote_of_isBlank (h quote hmem) rfl

theorem IsGap.endsOpen {gap : List Char} (h : IsGap gap) : endsOpen gap = false :=
  endsOpen_of_notMem h.quote_notMem

theorem exists_trimEnd (text : List Char) : ∃ gap, IsGap gap ∧ text = trimEnd text ++ gap := by
  refine ⟨(text.reverse.takeWhile isBlank).reverse, fun c hc => ?_, ?_⟩
  · exact List.mem_takeWhile_imp (List.mem_reverse.mp hc)
  · rw [trimEnd, ← List.reverse_append, List.takeWhile_append_dropWhile, List.reverse_reverse]

theorem isGap_takeWhile (text : List Char) : IsGap (text.takeWhile isBlank) := fun _ hc =>
  List.mem_takeWhile_imp hc

theorem exists_trim (text : List Char) :
    ∃ trail, IsGap trail ∧ text.takeWhile isBlank ++ (trim text ++ trail) = text := by
  obtain ⟨trail, htrail, heq⟩ := exists_trimEnd (trimStart text)
  refine ⟨trail, htrail, ?_⟩
  rw [trim, ← heq, trimStart, List.takeWhile_append_dropWhile]

end Text

namespace Assembler

open Text

/-! ### Code and comment -/

/-- The code of a text before which a quotation is open or not. -/
def codeFrom (isOpen : Bool) (text : List Char) : List Char :=
  ((marked isOpen text).takeWhile fun entry => !beginsComment entry).map Prod.fst

/-- A comment begins in the text. -/
def hasComment (isOpen : Bool) (text : List Char) : Bool := (marked isOpen text).any beginsComment

/-- The text is code and can stand at the start of a line, where anything can follow. -/
structure IsCode (text : List Char) : Prop where
  hasComment_eq : hasComment false text = false
  endsOpen_eq : endsOpen text = false

section Comment

variable (isOpen : Bool) (first second : List Char)

theorem hasComment_append :
    hasComment isOpen (first ++ second) =
      (hasComment isOpen first || hasComment (isOpen != endsOpen first) second) := by
  rw [hasComment, marked_append, List.any_append]
  rfl

theorem codeFrom_append :
    codeFrom isOpen (first ++ second) =
      if hasComment isOpen first then codeFrom isOpen first
      else first ++ codeFrom (isOpen != endsOpen first) second := by
  unfold codeFrom
  rw [marked_append]
  cases h : hasComment isOpen first with
  | true =>
    obtain ⟨entry, hmem, hentry⟩ := List.any_eq_true.mp h
    have hlength : ((marked isOpen first).takeWhile fun entry => !beginsComment entry).length ≠
        (marked isOpen first).length := by
      intro heq
      rw [← (List.takeWhile_prefix _).eq_of_length heq] at hmem
      have hnot := List.mem_takeWhile_imp hmem
      rw [hentry] at hnot
      cases hnot
    rw [if_pos rfl, List.takeWhile_append, if_neg hlength]
  | false =>
    have hall : ∀ entry ∈ marked isOpen first, (!beginsComment entry) = true := by
      intro entry hentry
      rw [Bool.eq_false_iff.mpr (List.any_eq_false.mp h entry hentry)]
      rfl
    rw [if_neg Bool.false_ne_true, List.takeWhile_append_of_pos hall, List.map_append,
      map_fst_marked]

variable {isOpen first}

theorem codeFrom_of_not_hasComment (h : hasComment isOpen first = false) :
    codeFrom isOpen first = first := by
  have happend := codeFrom_append isOpen first []
  rw [List.append_nil, h, if_neg Bool.false_ne_true] at happend
  rw [happend]
  exact List.append_nil first

/-- A comment begins where no quotation is open. -/
theorem endsOpen_codeFrom_of_hasComment (h : hasComment isOpen first = true) :
    endsOpen (codeFrom isOpen first) = isOpen := by
  induction first generalizing isOpen with
  | nil => cases h
  | cons c first ih =>
    unfold codeFrom
    rw [marked]
    cases hc : beginsComment (c, isOpen) with
    | true =>
      rw [List.takeWhile_cons_of_neg (by rw [hc]; decide)]
      simp only [beginsComment, Bool.and_eq_true, Bool.not_eq_true'] at hc
      exact hc.2.symm
    | false =>
      rw [hasComment, marked, List.any_cons, hc, Bool.false_or] at h
      rw [List.takeWhile_cons_of_pos (by rw [hc]; rfl), List.map_cons, endsOpen_cons]
      have hrest := ih h
      rw [codeFrom] at hrest
      rw [hrest]
      cases isOpen <;> simp

end Comment

/-- The code of a line is read if no quotation is open behind it. -/
theorem uncomment_eq (text : List Char) :
    uncomment text =
      if endsOpen (codeFrom false text) then .error .unterminatedQuote
      else .ok (codeFrom false text) := by
  cases h : hasComment false text with
  | true =>
    rw [endsOpen_codeFrom_of_hasComment h, if_neg Bool.false_ne_true]
    exact if_pos h
  | false =>
    rw [codeFrom_of_not_hasComment h]
    exact if_neg (by rw [← hasComment, h]; decide)

theorem uncomment_eq_ok_iff {text code : List Char} :
    uncomment text = .ok code ↔ codeFrom false text = code ∧ endsOpen code = false := by
  rw [uncomment_eq]
  cases h : endsOpen (codeFrom false text) with
  | true =>
    rw [if_pos rfl]
    refine ⟨nofun, fun ⟨heq, hclosed⟩ => ?_⟩
    rw [heq, hclosed] at h
    cases h
  | false =>
    rw [if_neg Bool.false_ne_true, Except.ok.injEq]
    exact ⟨fun heq => ⟨heq, heq ▸ h⟩, And.left⟩

theorem uncomment_append_of_hasComment {first : List Char} (h : hasComment false first = true)
    (second : List Char) : uncomment (first ++ second) = uncomment first := by
  rw [uncomment_eq, uncomment_eq, codeFrom_append, if_pos h]

theorem codeFrom_prefix (isOpen : Bool) (text : List Char) : codeFrom isOpen text <+: text := by
  have hinit := (List.takeWhile_prefix (fun entry => !beginsComment entry)
    (l := marked isOpen text)).map Prod.fst
  rwa [map_fst_marked] at hinit

theorem marked_codeFrom (isOpen : Bool) (text : List Char) :
    marked isOpen (codeFrom isOpen text) =
      (marked isOpen text).takeWhile fun entry => !beginsComment entry := by
  obtain ⟨rest, hrest⟩ := codeFrom_prefix isOpen text
  have hcode : marked isOpen (codeFrom isOpen text) <+: marked isOpen text := by
    conv => rhs; rw [← hrest, marked_append]
    exact List.prefix_append _ _
  have hlength : (marked isOpen (codeFrom isOpen text)).length =
      ((marked isOpen text).takeWhile fun entry => !beginsComment entry).length := by
    rw [length_marked, codeFrom, List.length_map]
  exact (List.prefix_of_prefix_length_le hcode (List.takeWhile_prefix _)
    (Nat.le_of_eq hlength)).eq_of_length hlength

/-- A text without quote marks and semicolons is code. -/
theorem isCode_of_notMem {text : List Char} (hquote : quote ∉ text) (hsemicolon : ';' ∉ text) :
    IsCode text := by
  refine ⟨?_, endsOpen_of_notMem hquote⟩
  rw [hasComment, List.any_eq_false]
  intro entry hentry hbegins
  simp only [beginsComment, Bool.and_eq_true, beq_iff_eq] at hbegins
  have hmem := mem_of_mem_marked hentry
  rw [hbegins.1] at hmem
  exact hsemicolon hmem

theorem isCode_of_isGap {gap : List Char} (h : IsGap gap) : IsCode gap :=
  isCode_of_notMem h.quote_notMem fun hmem => absurd (h ';' hmem) (by decide)

theorem isCode_of_isPlain {text : List Char} (h : ∀ c ∈ text, isPlain c = true) : IsCode text :=
  isCode_of_notMem (fun hmem => ne_quote_of_isPlain (h quote hmem) rfl)
    fun hmem => ne_semicolon_of_isPlain (h ';' hmem) rfl

theorem isCode_quotation {text : List Char} (h : quote ∉ text) :
    IsCode (quote :: (text ++ [quote])) := by
  refine ⟨?_, ?_⟩
  · rw [hasComment, marked_quotation h, List.any_cons, List.any_append, List.any_map,
      List.any_eq_false.mpr fun c _ => ?_]
    · rfl
    · rw [Function.comp_apply, beginsComment, Bool.not_true, Bool.and_false]
      exact Bool.false_ne_true
  · rw [endsOpen_cons, endsOpen_append, endsOpen_of_notMem h, endsOpen_singleton]
    rfl

namespace IsCode

variable {first second : List Char}

theorem append (hfirst : IsCode first) (hsecond : IsCode second) : IsCode (first ++ second) := by
  refine ⟨?_, ?_⟩
  · rw [hasComment_append, hfirst.hasComment_eq, hfirst.endsOpen_eq, Bool.bne_false,
      hsecond.hasComment_eq, Bool.or_false]
  · rw [endsOpen_append, hfirst.endsOpen_eq, hsecond.endsOpen_eq, bne_self_eq_false]

/-- Where the code of a line can be cut, both parts are code. -/
theorem of_append (h : IsCode (first ++ second)) (hclosed : endsOpen first = false) :
    IsCode first ∧ IsCode second := by
  have hcomment := h.hasComment_eq
  have hends := h.endsOpen_eq
  rw [hasComment_append, hclosed, Bool.bne_false, Bool.or_eq_false_iff] at hcomment
  rw [endsOpen_append, hclosed, Bool.false_bne] at hends
  exact ⟨⟨hcomment.1, hclosed⟩, ⟨hcomment.2, hends⟩⟩

/-- Behind code the code of a line goes on as if it began there. -/
theorem codeFrom_append (h : IsCode first) (second : List Char) :
    codeFrom false (first ++ second) = first ++ codeFrom false second := by
  rw [Assembler.codeFrom_append, h.hasComment_eq, h.endsOpen_eq, if_neg Bool.false_ne_true]
  rfl

theorem uncomment_append (h : IsCode first) {comment : List Char}
    (hcomment : comment = [] ∨ comment.head? = some ';') :
    uncomment (first ++ comment) = .ok first := by
  rw [uncomment_eq_ok_iff, h.codeFrom_append]
  refine ⟨?_, h.endsOpen_eq⟩
  rcases hcomment with rfl | hhead
  · exact List.append_nil first
  · obtain ⟨rest, rfl⟩ := List.head?_eq_some_iff.mp hhead
    exact List.append_nil first

theorem uncomment_eq (h : IsCode first) : uncomment first = .ok first := by
  have happend := h.uncomment_append (.inl rfl)
  rwa [List.append_nil] at happend

end IsCode

/-! ### Without blanks -/

/-- What is left of a character: blanks and lower case go, unless quoted. -/
def kept (entry : Char × Bool) : Option Char :=
  if entry.2 || entry.1 == quote then some entry.1
  else if isBlank entry.1 then none
  else some entry.1.toUpper

/-- What is left of a text before which a quotation is open or not. -/
def compactFrom (isOpen : Bool) (text : List Char) : List Char :=
  (marked isOpen text).filterMap kept

theorem compact_eq (text : List Char) : compact text = compactFrom false text := rfl

theorem compactFrom_append (isOpen : Bool) (first second : List Char) :
    compactFrom isOpen (first ++ second) =
      compactFrom isOpen first ++ compactFrom (isOpen != endsOpen first) second := by
  rw [compactFrom, marked_append, List.filterMap_append]
  rfl

theorem compact_append {first : List Char} (h : endsOpen first = false) (second : List Char) :
    compact (first ++ second) = compact first ++ compact second := by
  rw [compact_eq, compactFrom_append, h]
  rfl

theorem compact_of_isGap {gap : List Char} (h : IsGap gap) : compact gap = [] := by
  rw [compact_eq, compactFrom, marked_of_notMem h.quote_notMem, List.filterMap_map,
    List.filterMap_eq_nil_iff]
  intro c hc
  rw [Function.comp_apply, kept, beq_false_of_ne (ne_quote_of_isBlank (h c hc)), Bool.or_self,
    if_neg Bool.false_ne_true, if_pos (h c hc)]

theorem compact_trimEnd {text : List Char} (h : endsOpen text = false) :
    compact (trimEnd text) = compact text := by
  obtain ⟨gap, hgap, heq⟩ := exists_trimEnd text
  have hclosed : endsOpen (trimEnd text) = false := by
    rwa [heq, endsOpen_append, hgap.endsOpen, Bool.bne_false] at h
  conv => rhs; rw [heq, compact_append hclosed, compact_of_isGap hgap, List.append_nil]

theorem compact_quotation {text : List Char} (h : quote ∉ text) :
    compact (quote :: (text ++ [quote])) = quote :: (text ++ [quote]) := by
  have hkept : (text.map (·, true)).filterMap kept = text := by
    rw [List.filterMap_map]
    exact List.filterMap_some
  rw [compact_eq, compactFrom, marked_quotation h, List.filterMap_cons, List.filterMap_append,
    hkept]
  rfl

/-- A quote mark stays, and nothing becomes one. -/
theorem kept_cases (c : Char) (isOpen : Bool) :
    (kept (c, isOpen) = none ∧ (c == quote) = false) ∨
      ∃ d, kept (c, isOpen) = some d ∧ (d == quote) = (c == quote) := by
  unfold kept
  by_cases hkeep : (isOpen || c == quote) = true
  · exact .inr ⟨c, if_pos hkeep, rfl⟩
  · rw [if_neg hkeep]
    by_cases hblank : isBlank c = true
    · exact .inl ⟨if_pos hblank, beq_false_of_ne (ne_quote_of_isBlank hblank)⟩
    · exact .inr ⟨c.toUpper, if_neg hblank, toUpper_beq (by decide) c⟩

/-- **What is left is quoted as it was.** -/
theorem marked_compactFrom (isOpen : Bool) (text : List Char) :
    marked isOpen (compactFrom isOpen text) =
      (marked isOpen text).filterMap fun entry => (kept entry).map (·, entry.2) := by
  induction text generalizing isOpen with
  | nil => rfl
  | cons c text ih =>
    rw [compactFrom, marked, List.filterMap_cons, List.filterMap_cons]
    rcases kept_cases c isOpen with ⟨hnone, hquote⟩ | ⟨d, hsome, hquote⟩
    · rw [hnone, hquote, Bool.bne_false]
      exact ih isOpen
    · rw [hsome]
      simp only [Option.map_some, marked]
      rw [hquote, ← ih]
      rfl

theorem endsOpen_compactFrom (isOpen : Bool) (text : List Char) :
    endsOpen (compactFrom isOpen text) = endsOpen text := by
  induction text generalizing isOpen with
  | nil => rfl
  | cons c text ih =>
    rw [compactFrom, marked, List.filterMap_cons, endsOpen_cons]
    rcases kept_cases c isOpen with ⟨hnone, hquote⟩ | ⟨d, hsome, hquote⟩
    · rw [hnone, hquote, Bool.false_bne, Bool.bne_false]
      exact ih isOpen
    · rw [hsome, ← hquote]
      exact (endsOpen_cons d _).trans (congrArg _ (ih _))

theorem isCode_of_compact {text : List Char} (h : IsCode (compact text)) : IsCode text := by
  refine ⟨?_, ?_⟩
  · have hcomment := h.hasComment_eq
    rw [compact_eq, hasComment, marked_compactFrom, List.any_eq_false] at hcomment
    rw [hasComment, List.any_eq_false]
    intro entry hentry hbegins
    refine hcomment entry (List.mem_filterMap.mpr ⟨entry, hentry, ?_⟩) hbegins
    obtain ⟨c, isOpen⟩ := entry
    simp only [beginsComment, Bool.and_eq_true, beq_iff_eq, Bool.not_eq_true'] at hbegins
    obtain ⟨rfl, rfl⟩ := hbegins
    rfl
  · rw [← endsOpen_compactFrom false text]
    exact h.endsOpen_eq

end Assembler
end Mos6502
