/-
# Lines that were put together

Lines that are each ended by a line feed, and have none of their own, are the
lines of the text that they make. Behind a line feed the lines are those of what
begins there. A character stands on the line behind as many as there are line feeds
before it, and another in its place changes that line alone.

Key theorems: `Text.lines_flatMap`, `Text.lines_append`,
`Text.exists_lines_append_cons`, `Text.trim_append_cons`.
-/
import Mos6502.Proofs.Text.Cut
import Mos6502.Text.Blank
import Mos6502.Text.Lines

namespace Mos6502
namespace Text

theorem dropReturn_of_ne {line : List Char} (h : line.getLast? ≠ some '\r') :
    dropReturn line = line := if_neg h

theorem lines_flatMap {texts : List (List Char)} (hfeed : ∀ text ∈ texts, '\n' ∉ text)
    (hreturn : ∀ text ∈ texts, text.getLast? ≠ some '\r') :
    lines (texts.flatMap (· ++ ['\n'])) = texts := by
  have hcut : cut (· == '\n') (texts.flatMap (· ++ ['\n'])) = texts ++ [[]] := by
    refine @cut_flatMap Char (· == '\n') '\n' rfl texts fun text htext c hc => ?_
    exact beq_false_of_ne fun heq => hfeed text htext (heq ▸ hc)
  have hdrop : texts.map dropReturn = texts := by
    rw [List.map_congr_left fun text htext => dropReturn_of_ne (hreturn text htext), List.map_id']
  simp only [lines, hcut, List.dropLast_concat, List.getLast?_concat, hdrop, Option.toList_some]
  exact List.append_nil texts

theorem mem_of_mem_dropReturn {line : List Char} {c : Char} (h : c ∈ dropReturn line) :
    c ∈ line := by
  unfold dropReturn at h
  split at h
  · exact (List.dropLast_sublist line).subset h
  · exact h

/-- No line has a line feed. -/
theorem notMem_of_mem_lines {text line : List Char} (h : line ∈ lines text) : '\n' ∉ line := by
  have hpiece : ∀ piece ∈ cut (· == '\n') text, '\n' ∉ piece := fun piece hpiece hmem =>
    absurd (eq_false_of_mem_cut piece hpiece _ hmem) (by decide)
  rcases List.mem_append.mp h with h | h
  · obtain ⟨piece, hmem, rfl⟩ := List.mem_map.mp h
    exact fun hfeed =>
      hpiece piece ((List.dropLast_sublist _).subset hmem) (mem_of_mem_dropReturn hfeed)
  · exact hpiece line (List.mem_of_getLast? (Option.mem_toList.mp (List.mem_filter.mp h).1))

/-! ### Texts put together -/

@[simp]
theorem lines_nil : lines [] = [] := rfl

/-- A line feed divides the lines before it from those behind it. -/
theorem lines_append_cons (first second : List Char) :
    lines (first ++ '\n' :: second) = (cut (· == '\n') first).map dropReturn ++ lines second := by
  have hcut : cut (· == '\n') (first ++ '\n' :: second) =
      cut (· == '\n') first ++ cut (· == '\n') second := cut_append_cons_append rfl first second
  have hne := cut_ne_nil (· == '\n') second
  simp only [lines, hcut, List.dropLast_append_of_ne_nil hne, List.map_append,
    List.getLast?_append_of_ne_nil _ hne, List.append_assoc]

theorem lines_of_notMem {text : List Char} (h : '\n' ∉ text) (hne : text ≠ []) :
    lines text = [text] := by
  have hcut : cut (· == '\n') text = [text] :=
    cut_of_forall_neg fun c hc => beq_false_of_ne fun heq => h (heq ▸ hc)
  have hkept : (text != []) = true := bne_iff_ne.mpr hne
  simp [lines, hcut, hkept]

theorem lines_pair {first second : List Char} (hfirst : '\n' ∉ first)
    (hreturn : first.getLast? ≠ some '\r') (hsecond : '\n' ∉ second) (hne : second ≠ []) :
    lines (first ++ '\n' :: second) = [first, second] := by
  have hcut : cut (· == '\n') first = [first] :=
    cut_of_forall_neg fun c hc => beq_false_of_ne fun heq => hfirst (heq ▸ hc)
  rw [lines_append_cons, hcut, lines_of_notMem hsecond hne, List.map_singleton,
    dropReturn_of_ne hreturn, List.singleton_append]

/-- **Behind a text that is empty or ends with a line feed, the lines are those of
the other text.** -/
theorem lines_append {first : List Char} (h : first = [] ∨ first.getLast? = some '\n')
    (second : List Char) : lines (first ++ second) = lines first ++ lines second := by
  rcases h with rfl | hlast
  · rfl
  · obtain ⟨front, rfl⟩ := List.getLast?_eq_some_iff.mp hlast
    rw [List.append_assoc, List.singleton_append, lines_append_cons, lines_append_cons front [],
      lines_nil, List.append_nil]

/-! ### A character of a text -/

theorem dropReturn_append_cons (start : List Char) {c : Char} (h : c ≠ '\r') (tail : List Char) :
    dropReturn (start ++ c :: tail) = start ++ c :: dropReturn tail := by
  cases tail with
  | nil =>
    have hlast : (start ++ [c]).getLast? ≠ some '\r' := by simpa using h
    rw [dropReturn_of_ne hlast]
    rfl
  | cons d tail =>
    have hlast : (start ++ c :: d :: tail).getLast? = (d :: tail).getLast? := by
      rw [List.getLast?_append_of_ne_nil start (List.cons_ne_nil _ _), List.getLast?_cons_cons]
    simp only [dropReturn, hlast]
    split
    · rw [List.dropLast_append_of_ne_nil (List.cons_ne_nil _ _), List.dropLast_cons_cons]
    · rfl

/-- **A character that is no blank stands on the line behind as many as there are line
feeds before it**, and whichever character it is, all else of the lines is the same. -/
theorem exists_lines_append_cons (before after : List Char) :
    ∃ front start tail back, front.length = before.count '\n' ∧
      ∀ c, isBlank c = false →
        lines (before ++ c :: after) = front ++ (start ++ c :: tail) :: back := by
  obtain ⟨front, start, tail, back, hlength, hcut⟩ :=
    exists_cut_append_cons (· == '\n') before after
  have hcount : (front.map dropReturn).length = before.count '\n' := by
    rw [List.length_map, hlength]
    rfl
  have hfeed : ∀ c, isBlank c = false → (c == '\n') = false := by
    intro c hc
    refine beq_false_of_ne ?_
    rintro rfl
    cases hc
  -- the line is the last one, without a line feed, or its return is dropped
  cases back with
  | nil =>
    refine ⟨front.map dropReturn, start, tail, [], hcount, fun c hc => ?_⟩
    have hne : (start ++ c :: tail != []) = true := by simp
    simp [lines, hcut c (hfeed c hc), hne]
  | cons piece back =>
    refine ⟨front.map dropReturn, start, dropReturn tail,
      (piece :: back).dropLast.map dropReturn ++ (piece :: back).getLast?.toList.filter (· != []),
      hcount, fun c hc => ?_⟩
    have hreturn : c ≠ '\r' := by
      rintro rfl
      cases hc
    have hne : piece :: back ≠ [] := List.cons_ne_nil _ _
    simp only [lines, hcut c (hfeed c hc), ← dropReturn_append_cons start hreturn,
      List.dropLast_append_of_ne_nil (List.cons_ne_nil _ _), List.dropLast_cons_of_ne_nil hne,
      List.map_append, List.map_cons, List.getLast?_append_of_ne_nil _ (List.cons_ne_nil _ _),
      List.getLast?_cons_of_ne_nil hne, List.append_assoc, List.cons_append]

/-- Nothing is trimmed up to a character that is no blank, from either end. -/
theorem trim_append_cons (first : List Char) {c : Char} (h : isBlank c = false) (last : List Char) :
    trim (first ++ c :: last) = trimStart first ++ c :: trimEnd last := by
  have hdrop : ∀ text rest : List Char,
      (text ++ c :: rest).dropWhile isBlank = text.dropWhile isBlank ++ c :: rest := by
    intro text rest
    rw [List.dropWhile_append, List.dropWhile_cons_of_neg (by simp [h])]
    split
    · rename_i hempty
      rw [List.isEmpty_iff.mp hempty, List.nil_append]
    · rfl
  rw [trim, trimStart, trimStart, hdrop, trimEnd, trimEnd, List.reverse_append, List.reverse_cons,
    List.append_assoc, List.singleton_append, hdrop, List.reverse_append, List.reverse_cons,
    List.reverse_reverse, List.append_assoc, List.singleton_append]

end Text
end Mos6502
