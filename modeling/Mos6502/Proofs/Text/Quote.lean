/-
# Quotations in texts that are put together

Whether a quotation is open behind a text is a matter of how many quote marks
there are, so that a text can be marked and cut part by part.

Key theorems: `Text.endsOpen_append`, `Text.marked_append`, `Text.getElem?_marked`,
`Text.cutUnquoted_append_cons`.
-/
import Mos6502.Proofs.Text.Cut

namespace Mos6502
namespace Text

@[simp]
theorem endsOpen_nil : endsOpen [] = false := rfl

/-- A quotation that is open behind one part and not behind the other is open
behind both. -/
theorem endsOpen_append (first second : List Char) :
    endsOpen (first ++ second) = (endsOpen first != endsOpen second) := by
  simp only [endsOpen, List.count_append]
  rcases Nat.mod_two_eq_zero_or_one (first.count quote) with hfirst | hfirst <;>
    rcases Nat.mod_two_eq_zero_or_one (second.count quote) with hsecond | hsecond <;>
    simp [Nat.add_mod, hfirst, hsecond]

theorem endsOpen_singleton (c : Char) : endsOpen [c] = (c == quote) := by
  by_cases hc : c = quote
  · rw [hc]
    rfl
  · have hcount : [c].count quote = 0 :=
      List.count_eq_zero.mpr fun hmem => hc (List.mem_singleton.mp hmem).symm
    rw [endsOpen, hcount, beq_false_of_ne hc]
    rfl

theorem endsOpen_cons (c : Char) (text : List Char) :
    endsOpen (c :: text) = ((c == quote) != endsOpen text) := by
  rw [← List.singleton_append, endsOpen_append, endsOpen_singleton]

theorem endsOpen_of_notMem {text : List Char} (h : quote ∉ text) : endsOpen text = false := by
  rw [endsOpen, List.count_eq_zero.mpr h]
  rfl

/-- Behind a part, a text is marked as if it began where that ends. -/
theorem marked_append (isOpen : Bool) (first second : List Char) :
    marked isOpen (first ++ second) =
      marked isOpen first ++ marked (isOpen != endsOpen first) second := by
  induction first generalizing isOpen with
  | nil => rw [endsOpen_nil, Bool.bne_false]; rfl
  | cons c first ih =>
    rw [List.cons_append, marked, ih, endsOpen_cons, marked, List.cons_append, Bool.bne_assoc]

theorem length_marked (isOpen : Bool) (text : List Char) :
    (marked isOpen text).length = text.length := by
  rw [← List.length_map Prod.fst, map_fst_marked]

theorem mem_of_mem_marked {isOpen : Bool} {text : List Char} {entry : Char × Bool}
    (h : entry ∈ marked isOpen text) : entry.1 ∈ text := by
  rw [← map_fst_marked isOpen text]
  exact List.mem_map_of_mem h

/-- A character of a text is marked by the quote marks before it. -/
theorem getElem?_marked (isOpen : Bool) (text : List Char) (place : Nat) :
    (marked isOpen text)[place]? =
      text[place]?.map fun c => (c, isOpen != endsOpen (text.take place)) := by
  induction text generalizing isOpen place with
  | nil => rfl
  | cons c text ih =>
    cases place with
    | zero =>
      rw [List.take_zero, endsOpen_nil, Bool.bne_false]
      rfl
    | succ place =>
      rw [marked, List.getElem?_cons_succ, ih, List.getElem?_cons_succ, List.take_succ_cons,
        endsOpen_cons, Bool.bne_assoc]

theorem marked_quotation {text : List Char} (h : quote ∉ text) :
    marked false (quote :: (text ++ [quote])) =
      (quote, false) :: (text.map (·, true) ++ [(quote, true)]) := by
  have hopen : (true != endsOpen text) = true := by
    rw [endsOpen_of_notMem h]
    rfl
  rw [marked, beq_self_eq_true, marked_append]
  show _ :: (marked true text ++ marked (true != endsOpen text) [quote]) = _
  rw [hopen, marked_of_notMem h]
  rfl

/-! ### Cutting -/

/-- A mark outside quotations divides the pieces before it from those behind it. -/
theorem cutUnquoted_append_cons {mark : Char} (hmark : mark ≠ quote) {first : List Char}
    (h : endsOpen first = false) (second : List Char) :
    cutUnquoted mark (first ++ mark :: second) =
      cutUnquoted mark first ++ cutUnquoted mark second := by
  have hne : (mark == quote) = false := beq_false_of_ne hmark
  simp only [cutUnquoted]
  rw [marked_append, h, Bool.bne_false, marked, hne, Bool.bne_false,
    cut_append_cons_append (by simp), List.map_append]

/-- A text is one piece if the mark stands in it only within quotations. -/
theorem cutUnquoted_eq_singleton {mark : Char} {text : List Char}
    (h : ∀ entry ∈ marked false text, entry.1 = mark → entry.2 = true) :
    cutUnquoted mark text = [text] := by
  rw [cutUnquoted, cut_of_forall_neg, List.map_singleton, map_fst_marked]
  intro entry hentry
  by_cases heq : entry.1 = mark
  · rw [h entry hentry heq, Bool.not_true, Bool.and_false]
  · rw [beq_false_of_ne heq, Bool.false_and]

/-- Pieces with marks between them, which is in them only within quotations, are cut into
themselves. -/
theorem cutUnquoted_intercalate {mark : Char} (hmark : mark ≠ quote) {pieces : List (List Char)}
    (hne : pieces ≠ []) (hclosed : ∀ piece ∈ pieces, endsOpen piece = false)
    (hquoted : ∀ piece ∈ pieces, ∀ entry ∈ marked false piece, entry.1 = mark → entry.2 = true) :
    cutUnquoted mark ([mark].intercalate pieces) = pieces := by
  induction pieces with
  | nil => exact absurd rfl hne
  | cons piece pieces ih =>
    obtain ⟨hpiece, hpieces⟩ := List.forall_mem_cons.mp hclosed
    obtain ⟨hmarks, hquoted⟩ := List.forall_mem_cons.mp hquoted
    cases pieces with
    | nil =>
      rw [List.intercalate_singleton]
      exact cutUnquoted_eq_singleton hmarks
    | cons next pieces =>
      rw [List.intercalate_cons_cons, List.append_assoc, List.singleton_append,
        cutUnquoted_append_cons hmark hpiece, cutUnquoted_eq_singleton hmarks,
        ih (List.cons_ne_nil _ _) hpieces hquoted, List.singleton_append]

end Text
end Mos6502
