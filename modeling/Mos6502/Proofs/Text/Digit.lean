/-
# Digits that were written

A written byte or word has no characters but the sixteen digits. None of these
is a blank, so that there is nothing to trim, and each has its value again.

Key theorems: `Text.forall_mem_hexByte`, `Text.trim_eq_self`, `Text.digitValue?_cases`,
`Text.mapM_digitValue?_hexByte`, `Text.mapM_digitValue?_hexWord`.
-/
import Mos6502.Text.Blank
import Mos6502.Text.Digit

namespace Mos6502
namespace Text

theorem forall_mem_hexByte {P : Char → Prop} (h : ∀ value : Fin 16, P (digit value.val))
    (byte : UInt8) : ∀ c ∈ hexByte byte, P c := by
  have hlt := byte.toNat_lt
  have hhigh := h ⟨byte.toNat / 16, by omega⟩
  have hlow := h ⟨byte.toNat % 16, by omega⟩
  exact List.forall_mem_cons.mpr ⟨hhigh, List.forall_mem_singleton.mpr hlow⟩

theorem forall_mem_hexWord {P : Char → Prop} (h : ∀ value : Fin 16, P (digit value.val))
    (word : UInt16) : ∀ c ∈ hexWord word, P c :=
  List.forall_mem_append.mpr ⟨forall_mem_hexByte h _, forall_mem_hexByte h _⟩

theorem isBlank_of_mem_hexBytes {bytes : List UInt8} {c : Char} (h : c ∈ hexBytes bytes) :
    isBlank c = false := by
  obtain ⟨byte, -, hc⟩ := List.mem_flatMap.mp h
  exact forall_mem_hexByte (P := fun c => isBlank c = false) (by decide) byte c hc

theorem trim_eq_self {text : List Char} (h : ∀ c ∈ text, isBlank c = false) : trim text = text := by
  have hdrop : ∀ list : List Char, (∀ c ∈ list, isBlank c = false) → list.dropWhile isBlank = list := by
    intro list hlist
    cases list with
    | nil => rfl
    | cons c list => exact List.dropWhile_cons_of_neg (by simp [hlist c List.mem_cons_self])
  rw [trim, trimStart, hdrop text h, trimEnd, hdrop text.reverse, List.reverse_reverse]
  exact fun c hc => h c (List.mem_reverse.mp hc)

/-! ### What digits stand for -/

theorem digitValue?_eq (radix : Nat) (c : Char) :
    digitValue? radix c =
      let value :=
        if 48 ≤ c.toNat ∧ c.toNat ≤ 57 then c.toNat - 48
        else if 65 ≤ c.toNat ∧ c.toNat ≤ 90 then c.toNat - 65 + 10
        else if 97 ≤ c.toNat ∧ c.toNat ≤ 122 then c.toNat - 97 + 10
        else radix
      if value < radix then some value else none := by
  simp only [digitValue?, Char.le_def, UInt32.le_iff_toNat_le]
  rfl

theorem digitValue?_cases {radix : Nat} {c : Char} {value : Nat}
    (h : digitValue? radix c = some value) :
    (48 ≤ c.toNat ∧ c.toNat ≤ 57) ∨
      10 ≤ value ∧ ((65 ≤ c.toNat ∧ c.toNat ≤ 90) ∨ (97 ≤ c.toNat ∧ c.toNat ≤ 122)) := by
  rw [digitValue?_eq] at h
  obtain ⟨hlt, hvalue⟩ := Option.ite_none_right_eq_some.mp h
  have hvalue := Option.some.inj hvalue
  revert hlt hvalue
  split
  · exact fun _ _ => .inl ‹_›
  · split
    · exact fun _ hvalue => .inr ⟨by omega, .inl ‹_›⟩
    · split
      · exact fun _ hvalue => .inr ⟨by omega, .inr ‹_›⟩
      · exact fun hlt _ => absurd hlt (Nat.lt_irrefl _)

theorem lt_of_digitValue? {radix : Nat} {c : Char} {value : Nat}
    (h : digitValue? radix c = some value) : value < radix := by
  simp only [digitValue?] at h
  obtain ⟨hlt, hvalue⟩ := Option.ite_none_right_eq_some.mp h
  rwa [← Option.some.inj hvalue]

theorem isSome_of_mapM {f : Char → Option Nat} : ∀ {text : List Char} {values : List Nat},
    text.mapM f = some values → ∀ c ∈ text, (f c).isSome = true
  | [], _, _ => List.forall_mem_nil _
  | c :: text, values, h => by
    simp only [List.mapM_cons, bind, Option.bind_eq_some_iff] at h
    obtain ⟨value, hvalue, rest, hrest, -⟩ := h
    exact List.forall_mem_cons.mpr ⟨by rw [hvalue]; rfl, isSome_of_mapM hrest⟩

theorem mapM_digitValue?_hexByte (byte : UInt8) :
    (hexByte byte).mapM (digitValue? 16) = some [byte.toNat / 16, byte.toNat % 16] := by
  have hlt := byte.toNat_lt
  have hhigh := digitValue?_digit (show byte.toNat / 16 < 16 by omega)
  have hlow := digitValue?_digit (show byte.toNat % 16 < 16 by omega)
  simp only [hexByte, List.mapM_cons, List.mapM_nil, hhigh, hlow]
  rfl

theorem mapM_digitValue?_hexWord (word : UInt16) :
    (hexWord word).mapM (digitValue? 16) =
      some ([(Word.high word).toNat / 16, (Word.high word).toNat % 16] ++
        [(Word.low word).toNat / 16, (Word.low word).toNat % 16]) := by
  rw [hexWord, List.mapM_append, mapM_digitValue?_hexByte, mapM_digitValue?_hexByte]
  rfl

end Text
end Mos6502
