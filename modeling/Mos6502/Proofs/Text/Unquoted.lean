/-
# Marks outside quotations

A mark stands at a place unquoted when the quote marks before it are even in number
(`UnquotedAt`). A text is cut at these places and at no other, so it can be taken apart at
the first of them and then behind it (`unquoted_induction`). The pieces with marks between
them are the text again, and all of them but the last close what they quote.

Key definitions: `UnquotedAt`, `unquotedCount`, `IsCutInto`.
Key theorems: `mem_marked_iff`, `unquoted_induction`, `cutUnquoted_append_cons_of_forall_not`,
`lists_are_cut_at_unquoted_commas`.
-/
import Mos6502.Proofs.Text.Quote
import Mathlib.Data.List.Induction
import Mathlib.Data.Nat.Find

namespace Mos6502
namespace Text

/-! ### What the law says -/

/-- The mark stands at the place, behind an even number of quote marks. -/
def UnquotedAt (mark : Char) (text : List Char) (place : Nat) : Prop :=
  text[place]? = some mark ∧ (text.take place).count quote % 2 = 0

instance (mark : Char) (text : List Char) : DecidablePred (UnquotedAt mark text) := fun _ =>
  inferInstanceAs (Decidable (_ ∧ _))

/-- The number of places at which the mark stands unquoted. -/
def unquotedCount (mark : Char) (text : List Char) : Nat :=
  (List.range text.length).countP fun place => UnquotedAt mark text place

/-- The pieces are a text that was cut wherever the mark stands in it unquoted. -/
structure IsCutInto (mark : Char) (text : List Char) (pieces : List (List Char)) : Prop where
  /-- With marks between them they are the text. -/
  joined : [mark].intercalate pieces = text
  /-- All but the last have an even number of quote marks. -/
  closed : ∀ piece ∈ pieces.dropLast, piece.count quote % 2 = 0
  /-- None could be cut again. -/
  uncut : ∀ piece ∈ pieces, ∀ place, ¬UnquotedAt mark piece place
  /-- There is one more than there are marks that are not quoted. -/
  length_eq : pieces.length = unquotedCount mark text + 1

/-! ### Places -/

theorem UnquotedAt.lt_length {mark : Char} {text : List Char} {place : Nat}
    (h : UnquotedAt mark text place) : place < text.length :=
  (List.getElem?_eq_some_iff.mp h.1).1

theorem unquotedAt_append_iff {mark : Char} {first second : List Char} {place : Nat}
    (h : place < first.length) :
    UnquotedAt mark (first ++ second) place ↔ UnquotedAt mark first place := by
  rw [UnquotedAt, UnquotedAt, List.getElem?_append_left h,
    List.take_append_of_le_length (Nat.le_of_lt h)]

theorem unquotedAt_length_iff {mark c : Char} {text : List Char} :
    UnquotedAt mark (text ++ [c]) text.length ↔ c = mark ∧ endsOpen text = false := by
  rw [UnquotedAt, List.getElem?_concat_length, List.take_left, Option.some_inj, endsOpen,
    beq_eq_false_iff_ne, Nat.mod_two_ne_one]

/-- A character is marked as unquoted if it stands so at some place. -/
theorem mem_marked_iff {mark : Char} {text : List Char} :
    (mark, false) ∈ marked false text ↔ ∃ place, UnquotedAt mark text place := by
  have hentry : ∀ place, (marked false text)[place]? = some (mark, false) ↔
      UnquotedAt mark text place := by
    intro place
    simp only [getElem?_marked, Option.map_eq_some_iff, Prod.mk.injEq, Bool.false_bne, endsOpen,
      beq_eq_false_iff_ne, UnquotedAt]
    constructor
    · rintro ⟨c, hc, rfl, heven⟩
      exact ⟨hc, Nat.mod_two_ne_one.mp heven⟩
    · rintro ⟨hc, heven⟩
      exact ⟨mark, hc, rfl, Nat.mod_two_ne_one.mpr heven⟩
  simp only [List.mem_iff_getElem?, hentry]

theorem cutUnquoted_of_forall_not {mark : Char} {text : List Char}
    (h : ∀ place, ¬UnquotedAt mark text place) : cutUnquoted mark text = [text] := by
  refine cutUnquoted_eq_singleton ?_
  rintro ⟨_, isOpen⟩ hentry rfl
  cases isOpen with
  | true => rfl
  | false =>
    obtain ⟨place, hplace⟩ := mem_marked_iff.mp hentry
    exact absurd hplace (h place)

/-- The first unquoted mark ends the first piece. -/
theorem cutUnquoted_append_cons_of_forall_not {mark : Char} (hmark : mark ≠ quote)
    {first : List Char} (hclosed : endsOpen first = false)
    (hfirst : ∀ place, ¬UnquotedAt mark first place) (second : List Char) :
    cutUnquoted mark (first ++ mark :: second) = first :: cutUnquoted mark second := by
  rw [cutUnquoted_append_cons hmark hclosed, cutUnquoted_of_forall_not hfirst]
  rfl

/-- What holds of texts without unquoted marks, and of a text that its first unquoted mark
divides when it holds of what is behind that, holds of all texts. -/
@[elab_as_elim]
theorem unquoted_induction {motive : List Char → Prop} (mark : Char)
    (whole : ∀ text, (∀ place, ¬UnquotedAt mark text place) → motive text)
    (divided : ∀ first second, (∀ place, ¬UnquotedAt mark first place) →
      endsOpen first = false → motive second → motive (first ++ mark :: second))
    (text : List Char) : motive text := by
  induction hlength : text.length using Nat.strongRecOn generalizing text with
  | ind length ih =>
    by_cases hmarks : ∃ place, UnquotedAt mark text place
    · obtain ⟨hfound, hquotes⟩ := Nat.find_spec hmarks
      have hlt := (Nat.find_spec hmarks).lt_length
      generalize hplace : Nat.find hmarks = place at hfound hquotes hlt
      have hsplit : text.take place ++ mark :: text.drop (place + 1) = text := by
        rw [← (List.getElem?_eq_some_iff.mp hfound).2, ← List.drop_eq_getElem_cons hlt,
          List.take_append_drop]
      rw [← hsplit]
      refine divided _ _ (fun earlier hearlier => ?_) ?_ (ih _ ?_ _ rfl)
      · -- an unquoted mark in front would have been found before
        have hbefore := hearlier.lt_length
        rw [List.length_take] at hbefore
        rw [← unquotedAt_append_iff hearlier.lt_length, hsplit] at hearlier
        exact Nat.find_min hmarks (hplace ▸ lt_of_lt_of_le hbefore (Nat.min_le_left _ _)) hearlier
      · rw [endsOpen, hquotes]
        rfl
      · rw [List.length_drop]
        omega
    · exact whole text (not_exists.mp hmarks)

/-! ### Cutting -/

/-- As many entries are marked as an unquoted mark as there are places of one. -/
theorem countP_marked (mark : Char) (text : List Char) :
    (marked false text).countP (fun entry => entry.1 == mark && !entry.2) =
      unquotedCount mark text := by
  induction text using List.reverseRecOn with
  | nil => rfl
  | append_singleton text c ih =>
    have hbefore : (List.range text.length).countP (fun place => UnquotedAt mark (text ++ [c]) place) =
        unquotedCount mark text :=
      List.countP_congr fun place hplace => by
        simp only [decide_eq_true_eq, unquotedAt_append_iff (List.mem_range.mp hplace)]
    have hlast : (marked (endsOpen text) [c]).countP (fun entry => entry.1 == mark && !entry.2) =
        [text.length].countP fun place => UnquotedAt mark (text ++ [c]) place := by
      simp [marked, List.countP_singleton, unquotedAt_length_iff]
    rw [marked_append, List.countP_append, ih, Bool.false_bne, hlast, ← hbefore, unquotedCount,
      List.length_append, List.length_singleton, List.range_succ, List.countP_append]

theorem length_cutUnquoted (mark : Char) (text : List Char) :
    (cutUnquoted mark text).length = unquotedCount mark text + 1 := by
  rw [cutUnquoted, List.length_map, length_cut, countP_marked]

theorem cutUnquoted_ne_nil (mark : Char) (text : List Char) : cutUnquoted mark text ≠ [] := by
  rw [← List.length_pos_iff, length_cutUnquoted]
  exact Nat.succ_pos _

/-- Nothing is lost by cutting. -/
theorem intercalate_cutUnquoted {mark : Char} (hmark : mark ≠ quote) (text : List Char) :
    [mark].intercalate (cutUnquoted mark text) = text := by
  induction text using unquoted_induction mark with
  | whole text hwhole => rw [cutUnquoted_of_forall_not hwhole, List.intercalate_singleton]
  | divided first second hfirst hclosed ih =>
    rw [cutUnquoted_append_cons_of_forall_not hmark hclosed hfirst,
      List.intercalate_cons_of_ne_nil (cutUnquoted_ne_nil mark second), ih, List.append_assoc,
      List.singleton_append]

theorem endsOpen_of_mem_dropLast_cutUnquoted {mark : Char} (hmark : mark ≠ quote)
    (text : List Char) : ∀ piece ∈ (cutUnquoted mark text).dropLast, endsOpen piece = false := by
  induction text using unquoted_induction mark with
  | whole text hwhole =>
    rw [cutUnquoted_of_forall_not hwhole]
    exact List.forall_mem_nil _
  | divided first second hfirst hclosed ih =>
    rw [cutUnquoted_append_cons_of_forall_not hmark hclosed hfirst,
      List.dropLast_cons_of_ne_nil (cutUnquoted_ne_nil mark second)]
    exact List.forall_mem_cons.mpr ⟨hclosed, ih⟩

/-- No piece has an unquoted mark. -/
theorem not_unquotedAt_of_mem_cutUnquoted {mark : Char} (hmark : mark ≠ quote)
    (text : List Char) : ∀ piece ∈ cutUnquoted mark text, ∀ place, ¬UnquotedAt mark piece place := by
  induction text using unquoted_induction mark with
  | whole text hwhole =>
    rw [cutUnquoted_of_forall_not hwhole]
    exact List.forall_mem_singleton.mpr hwhole
  | divided first second hfirst hclosed ih =>
    rw [cutUnquoted_append_cons_of_forall_not hmark hclosed hfirst]
    exact List.forall_mem_cons.mpr ⟨hfirst, ih⟩

/-- **A list of values is cut at its unquoted commas**, and nothing of it is lost. -/
theorem lists_are_cut_at_unquoted_commas (text : List Char) :
    IsCutInto ',' text (cutUnquoted ',' text) := by
  have hcomma : ',' ≠ quote := by decide
  refine ⟨intercalate_cutUnquoted hcomma text, fun piece hpiece => ?_,
    not_unquotedAt_of_mem_cutUnquoted hcomma text, length_cutUnquoted ',' text⟩
  have hclosed := endsOpen_of_mem_dropLast_cutUnquoted hcomma text piece hpiece
  rw [endsOpen, beq_eq_false_iff_ne] at hclosed
  exact Nat.mod_two_ne_one.mp hclosed

/-- The last quotation is never closed. -/
example : cutUnquoted ',' "$01,'A,B',,'C,3".toList =
    ["$01".toList, "'A,B'".toList, [], "'C,3".toList] := by decide

end Text
end Mos6502
