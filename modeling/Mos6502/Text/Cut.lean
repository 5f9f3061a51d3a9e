/-
# Cutting lists

A list is cut at every element of a kind; those elements are dropped. There
is always one piece more than there are cuts.

Key definition: `cut`.
Key theorem: `length_cut`.
-/

namespace Mos6502
namespace Text

universe u

variable {α : Type u}

/-- The pieces between the elements that a test picks out. -/
def cut (stop : α → Bool) (list : List α) : List (List α) :=
  list.foldr
    (fun x pieces =>
      if stop x then [] :: pieces
      else
        match pieces with
        | [] => [[x]]
        | piece :: rest => (x :: piece) :: rest)
    [[]]

@[simp]
theorem cut_nil (stop : α → Bool) : cut stop [] = [[]] := rfl

theorem cut_cons_of_pos {stop : α → Bool} {x : α} (h : stop x = true) (list : List α) :
    cut stop (x :: list) = [] :: cut stop list := by
  simp [cut, h]

theorem cut_ne_nil (stop : α → Bool) (list : List α) : cut stop list ≠ [] := by
  cases list with
  | nil => simp
  | cons x list =>
    simp only [cut, List.foldr_cons]
    split
    · simp
    · split <;> simp

theorem cut_cons_of_neg {stop : α → Bool} {x : α} (h : stop x = false) {list : List α}
    {piece : List α} {rest : List (List α)} (hcut : cut stop list = piece :: rest) :
    cut stop (x :: list) = (x :: piece) :: rest := by
  rw [cut] at hcut
  simp [cut, h, hcut]

theorem length_cut (stop : α → Bool) (list : List α) :
    (cut stop list).length = list.countP stop + 1 := by
  induction list with
  | nil => rfl
  | cons x list ih =>
    cases h : stop x with
    | true => simp [cut_cons_of_pos h, ih, h]
    | false =>
      obtain ⟨piece, rest, hcut⟩ := List.exists_cons_of_ne_nil (cut_ne_nil stop list)
      rw [hcut] at ih
      simp only [cut_cons_of_neg h hcut, List.length_cons] at ih ⊢
      simp [h, ih]

end Text
end Mos6502
