/-
# Pieces that were put together

Pieces without a cut in them, with cuts between them or behind each, are the
pieces that they are cut into again. What is no cut lies in one piece, and it does
not matter to the others what it is. Where nothing is quoted, a text is cut at
every mark.

Key theorems: `Text.cut_append_cons_append`, `Text.exists_cut_append_cons`,
`Text.eq_false_of_mem_cut`, `Text.cut_flatMap`, `Text.cut_intercalate`,
`Text.cutUnquoted_eq_cut`.
-/
import Mos6502.Text.Quote
import Mathlib.Data.List.Basic

namespace Mos6502
namespace Text

universe u v

variable {α : Type u}

/-- A cut divides the pieces before it from those behind it. -/
theorem cut_append_cons_append {stop : α → Bool} {x : α} (hx : stop x = true)
    (first second : List α) :
    cut stop (first ++ x :: second) = cut stop first ++ cut stop second := by
  induction first with
  | nil => exact cut_cons_of_pos hx second
  | cons y first ih =>
    cases hy : stop y with
    | true => rw [List.cons_append, cut_cons_of_pos hy, ih, cut_cons_of_pos hy, List.cons_append]
    | false =>
      obtain ⟨piece, rest, hcut⟩ := List.exists_cons_of_ne_nil (cut_ne_nil stop first)
      rw [hcut, List.cons_append] at ih
      rw [List.cons_append, cut_cons_of_neg hy ih, cut_cons_of_neg hy hcut, List.cons_append]

/-- An element that is no cut lies in the piece behind as many as there are cuts
before it, whichever element it is. -/
theorem exists_cut_append_cons (stop : α → Bool) (first second : List α) :
    ∃ front start tail back, front.length = first.countP stop ∧
      ∀ x, stop x = false → cut stop (first ++ x :: second) = front ++ (start ++ x :: tail) :: back := by
  induction first with
  | nil =>
    obtain ⟨piece, rest, hcut⟩ := List.exists_cons_of_ne_nil (cut_ne_nil stop second)
    exact ⟨[], [], piece, rest, rfl, fun x hx => cut_cons_of_neg hx hcut⟩
  | cons y first ih =>
    obtain ⟨front, start, tail, back, hlength, ih⟩ := ih
    cases hy : stop y with
    | true =>
      refine ⟨[] :: front, start, tail, back, ?_, fun x hx => ?_⟩
      · rw [List.countP_cons_of_pos hy, ← hlength, List.length_cons]
      · rw [List.cons_append, cut_cons_of_pos hy, ih x hx, List.cons_append]
    | false =>
      rw [List.countP_cons_of_neg (by simp [hy])]
      cases front with
      | nil =>
        exact ⟨[], y :: start, tail, back, hlength, fun x hx => cut_cons_of_neg hy (ih x hx)⟩
      | cons piece front =>
        exact ⟨(y :: piece) :: front, start, tail, back, hlength,
          fun x hx => cut_cons_of_neg hy (ih x hx)⟩

theorem cut_of_forall_neg {stop : α → Bool} {piece : List α} (h : ∀ y ∈ piece, stop y = false) :
    cut stop piece = [piece] := by
  induction piece with
  | nil => rfl
  | cons y piece ih =>
    obtain ⟨hy, hpiece⟩ := List.forall_mem_cons.mp h
    exact cut_cons_of_neg hy (ih hpiece)

/-- There is no cut within a piece. -/
theorem eq_false_of_mem_cut {stop : α → Bool} {list : List α} :
    ∀ piece ∈ cut stop list, ∀ x ∈ piece, stop x = false := by
  induction list with
  | nil => exact List.forall_mem_singleton.mpr nofun
  | cons x list ih =>
    cases hx : stop x with
    | true =>
      rw [cut_cons_of_pos hx]
      exact List.forall_mem_cons.mpr ⟨nofun, ih⟩
    | false =>
      obtain ⟨piece, rest, hcut⟩ := List.exists_cons_of_ne_nil (cut_ne_nil stop list)
      rw [hcut] at ih
      obtain ⟨hpiece, hrest⟩ := List.forall_mem_cons.mp ih
      rw [cut_cons_of_neg hx hcut]
      exact List.forall_mem_cons.mpr ⟨List.forall_mem_cons.mpr ⟨hx, hpiece⟩, hrest⟩

theorem cut_append_cons {stop : α → Bool} {piece : List α} {x : α} (list : List α)
    (hpiece : ∀ y ∈ piece, stop y = false) (hx : stop x = true) :
    cut stop (piece ++ x :: list) = piece :: cut stop list := by
  rw [cut_append_cons_append hx, cut_of_forall_neg hpiece]
  rfl

theorem cut_flatMap {stop : α → Bool} {x : α} (hx : stop x = true) :
    ∀ (pieces : List (List α)), (∀ piece ∈ pieces, ∀ y ∈ piece, stop y = false) →
      cut stop (pieces.flatMap (· ++ [x])) = pieces ++ [[]]
  | [], _ => rfl
  | piece :: pieces, h => by
    obtain ⟨hpiece, hpieces⟩ := List.forall_mem_cons.mp h
    rw [List.flatMap_cons, List.append_assoc, List.singleton_append, cut_append_cons _ hpiece hx,
      cut_flatMap hx pieces hpieces, List.cons_append]

/-- Pieces with cuts between them are cut into themselves. -/
theorem cut_intercalate {stop : α → Bool} {x : α} (hx : stop x = true) {pieces : List (List α)}
    (hne : pieces ≠ []) (h : ∀ piece ∈ pieces, ∀ y ∈ piece, stop y = false) :
    cut stop ([x].intercalate pieces) = pieces := by
  induction pieces with
  | nil => exact absurd rfl hne
  | cons piece pieces ih =>
    obtain ⟨hpiece, hpieces⟩ := List.forall_mem_cons.mp h
    cases pieces with
    | nil =>
      rw [List.intercalate_singleton]
      exact cut_of_forall_neg hpiece
    | cons next pieces =>
      rw [List.intercalate_cons_cons, List.append_assoc, List.singleton_append,
        cut_append_cons _ hpiece hx, ih (List.cons_ne_nil _ _) hpieces]

theorem forall_mem_intercalate {P : α → Prop} {x : α} (hx : P x) {pieces : List (List α)}
    (h : ∀ piece ∈ pieces, ∀ y ∈ piece, P y) : ∀ y ∈ [x].intercalate pieces, P y := by
  induction pieces with
  | nil => exact List.forall_mem_nil _
  | cons piece pieces ih =>
    obtain ⟨hpiece, hpieces⟩ := List.forall_mem_cons.mp h
    cases pieces with
    | nil =>
      rw [List.intercalate_singleton]
      exact hpiece
    | cons next pieces =>
      rw [List.intercalate_cons_cons, List.append_assoc]
      exact List.forall_mem_append.mpr
        ⟨hpiece, List.forall_mem_append.mpr ⟨List.forall_mem_singleton.mpr hx, ih hpieces⟩⟩

theorem cut_map {γ : Type v} (f : α → γ) (stop : γ → Bool) (list : List α) :
    cut stop (list.map f) = (cut (stop ∘ f) list).map (List.map f) := by
  induction list with
  | nil => rfl
  | cons x list ih =>
    cases h : stop (f x) with
    | true =>
      have hx : (stop ∘ f) x = true := h
      rw [List.map_cons, cut_cons_of_pos h, ih, cut_cons_of_pos hx]
      rfl
    | false =>
      have hx : (stop ∘ f) x = false := h
      obtain ⟨piece, rest, hcut⟩ := List.exists_cons_of_ne_nil (cut_ne_nil (stop ∘ f) list)
      rw [hcut] at ih
      rw [List.map_cons, cut_cons_of_neg h ih, cut_cons_of_neg hx hcut]
      rfl

/-! ### Texts without quote marks -/

/-- Nothing is quoted where there is no quote mark. -/
theorem marked_of_notMem {text : List Char} (h : quote ∉ text) (isOpen : Bool) :
    marked isOpen text = text.map (·, isOpen) := by
  induction text with
  | nil => rfl
  | cons c text ih =>
    rw [List.mem_cons, not_or] at h
    have hc : (c == quote) = false := beq_false_of_ne fun heq => h.1 heq.symm
    rw [marked, hc, Bool.bne_false, ih h.2, List.map_cons]

theorem cutUnquoted_eq_cut {text : List Char} (h : quote ∉ text) (mark : Char) :
    cutUnquoted mark text = cut (· == mark) text := by
  have hstop : ((fun entry : Char × Bool => entry.1 == mark && !entry.2) ∘ (·, false)) =
      (· == mark) := by
    funext c
    simp only [Function.comp_apply, Bool.not_false, Bool.and_true]
  have hpieces : ((·.map Prod.fst) ∘ List.map (·, false) : List Char → List Char) = id := by
    funext piece
    simp only [Function.comp_apply, List.map_map, Function.comp_def, List.map_id', id_eq]
  rw [cutUnquoted, marked_of_notMem h, cut_map, List.map_map, hstop, hpieces, List.map_id]

end Text
end Mos6502
