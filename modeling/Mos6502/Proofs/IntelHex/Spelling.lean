/-
# The spelling of bytes

A byte is spelled by two digits, the higher first. The reader takes them
(`pairs?_eq_some`), and in the place of the first also a plus sign, as a zero:
the texts that it takes without a plus sign are those of digits, even in number
(`spells_hexDigit_iff`, `exists_spells_hexDigit_iff`).

Key definitions: `HexDigit`, `SignedDigit`, `Spells`.
Key theorems: `digitValue?_eq_some`, `HexDigit.value_eq`, `pairs?_eq_some`,
`spells_hexDigit_iff`.
-/
import Mos6502.IntelHex.Record
import Mos6502.Proofs.Text.Digit
import Mathlib.Data.List.Basic

namespace Mos6502
namespace IntelHex

open Text

/-- A hexadecimal digit, in either case, and its value. -/
inductive HexDigit : Char → Nat → Prop
  | decimal {c : Char} : '0' ≤ c → c ≤ '9' → HexDigit c (c.toNat - '0'.toNat)
  | upper {c : Char} : 'A' ≤ c → c ≤ 'F' → HexDigit c (c.toNat - 'A'.toNat + 10)
  | lower {c : Char} : 'a' ≤ c → c ≤ 'f' → HexDigit c (c.toNat - 'a'.toNat + 10)

/-- A digit, or a plus sign in the place of a zero. -/
inductive SignedDigit : Char → Nat → Prop
  | digit {c : Char} {value : Nat} : HexDigit c value → SignedDigit c value
  | plus : SignedDigit '+' 0

/-- The bytes that pairs of characters spell, where the first of a pair is read
in a way of its own and the second is a digit. -/
inductive Spells (First : Char → Nat → Prop) : List Char → List UInt8 → Prop
  | nil : Spells First [] []
  | cons {first second : Char} {high low : Nat} {digits : List Char} {bytes : List UInt8} :
    First first high → HexDigit second low → Spells First digits bytes →
      Spells First (first :: second :: digits) (UInt8.ofNat (16 * high + low) :: bytes)

/-! ### Digits -/

theorem le_iff_toNat_le (c d : Char) : c ≤ d ↔ c.toNat ≤ d.toNat := Iff.rfl

theorem digitValue?_of_hexDigit {c : Char} {value : Nat} (h : HexDigit c value) :
    digitValue? 16 c = some value := by
  have hcodes : ('0' : Char).toNat = 48 ∧ ('9' : Char).toNat = 57 ∧ ('A' : Char).toNat = 65 ∧
      ('F' : Char).toNat = 70 ∧ ('Z' : Char).toNat = 90 ∧ ('a' : Char).toNat = 97 ∧
      ('f' : Char).toNat = 102 ∧ ('z' : Char).toNat = 122 := by decide
  cases h with
  | decimal hlow hhigh | upper hlow hhigh | lower hlow hhigh =>
    simp only [digitValue?, le_iff_toNat_le] at hlow hhigh ⊢
    split_ifs <;> grind

theorem digitValue?_eq_some {c : Char} {value : Nat} :
    digitValue? 16 c = some value ↔ HexDigit c value := by
  refine ⟨fun h => ?_, digitValue?_of_hexDigit⟩
  have hlt := lt_of_digitValue? h
  simp only [digitValue?] at h
  have hvalue := Option.some.inj (Option.ite_none_right_eq_some.mp h).2
  split_ifs at hvalue with hdecimal hupper hlower
  · exact hvalue ▸ .decimal hdecimal.1 hdecimal.2
  · have hcodes : ('A' : Char).toNat = 65 ∧ ('F' : Char).toNat = 70 := by decide
    refine hvalue ▸ .upper hupper.1 ((le_iff_toNat_le _ _).mpr ?_)
    have hlow := (le_iff_toNat_le _ _).mp hupper.1
    omega
  · have hcodes : ('a' : Char).toNat = 97 ∧ ('f' : Char).toNat = 102 := by decide
    refine hvalue ▸ .lower hlower.1 ((le_iff_toNat_le _ _).mpr ?_)
    have hlow := (le_iff_toNat_le _ _).mp hlower.1
    omega
  · omega

theorem HexDigit.value_eq {c : Char} {value other : Nat} (h : HexDigit c value)
    (hother : HexDigit c other) : value = other :=
  Option.some.inj ((digitValue?_of_hexDigit h).symm.trans (digitValue?_of_hexDigit hother))

theorem HexDigit.lt {c : Char} {value : Nat} (h : HexDigit c value) : value < 16 :=
  lt_of_digitValue? (digitValue?_of_hexDigit h)

theorem HexDigit.isBlank_eq {c : Char} {value : Nat} (h : HexDigit c value) :
    isBlank c = false := by
  have hcodes : ('0' : Char).toNat = 48 ∧ ('9' : Char).toNat = 57 ∧ ('A' : Char).toNat = 65 ∧
      ('F' : Char).toNat = 70 ∧ ('a' : Char).toNat = 97 ∧ ('f' : Char).toNat = 102 := by decide
  have hrange : 48 ≤ c.toNat ∧ c.toNat ≤ 102 := by
    cases h with
    | decimal hlow hhigh | upper hlow hhigh | lower hlow hhigh =>
      rw [le_iff_toNat_le] at hlow hhigh
      omega
  simp only [isBlank, blankRanges, List.any_cons, List.any_nil, Bool.or_false, Bool.or_eq_false_iff,
    Bool.and_eq_false_iff, decide_eq_false_iff_not]
  omega

theorem plus_not_hexDigit (value : Nat) : ¬HexDigit '+' value := by
  rw [← digitValue?_eq_some]
  intro h
  cases h

/-! ### Pairs -/

theorem pairValue?_eq_some {first second : Char} {byte : UInt8} :
    pairValue? first second = some byte ↔
      ∃ high low, SignedDigit first high ∧ HexDigit second low ∧
        byte = UInt8.ofNat (16 * high + low) := by
  have hfirst : ∀ high, (if first = '+' then some 0 else digitValue? 16 first) = some high ↔
      SignedDigit first high := by
    intro high
    by_cases hplus : first = '+'
    · rw [if_pos hplus, hplus]
      constructor
      · rintro ⟨⟩
        exact .plus
      · rintro (h | _)
        · exact absurd h (plus_not_hexDigit high)
        · rfl
    · rw [if_neg hplus, digitValue?_eq_some]
      constructor
      · exact .digit
      · rintro (h | _)
        · exact h
        · exact absurd rfl hplus
  simp only [pairValue?, ← hfirst, ← digitValue?_eq_some]
  generalize (if first = '+' then some 0 else digitValue? 16 first) = high?
  cases high? <;> cases digitValue? 16 second <;> simp [eq_comm]

theorem pairs?_cons_cons_eq_some {first second : Char} {digits : List Char} {bytes : List UInt8} :
    pairs? (first :: second :: digits) = some bytes ↔
      ∃ byte rest, pairValue? first second = some byte ∧ pairs? digits = some rest ∧
        bytes = byte :: rest := by
  rw [pairs?]
  cases pairValue? first second <;> cases pairs? digits <;> simp [eq_comm]

/-- **The reader takes what spells bytes**, with a plus sign for a zero at the
head of a pair. -/
theorem pairs?_eq_some : ∀ (digits : List Char) (bytes : List UInt8),
    pairs? digits = some bytes ↔ Spells SignedDigit digits bytes
  | [], bytes => by
    constructor
    · rintro ⟨⟩
      exact .nil
    · rintro ⟨⟩
      rfl
  | [c], bytes => by
    constructor <;> rintro ⟨⟩
  | first :: second :: digits, bytes => by
    have ih := pairs?_eq_some digits
    simp only [pairs?_cons_cons_eq_some, pairValue?_eq_some, ih]
    constructor
    · rintro ⟨_, rest, ⟨high, low, hfirst, hsecond, rfl⟩, hrest, rfl⟩
      exact .cons hfirst hsecond hrest
    · rintro (_ | ⟨hfirst, hsecond, hrest⟩)
      exact ⟨_, _, ⟨_, _, hfirst, hsecond, rfl⟩, hrest, rfl⟩

/-! ### Digits and plus signs -/

theorem spells_hexDigit_iff {digits : List Char} {bytes : List UInt8} :
    Spells HexDigit digits bytes ↔ Spells SignedDigit digits bytes ∧ '+' ∉ digits := by
  constructor
  · intro h
    induction h with
    | nil => exact ⟨.nil, List.not_mem_nil⟩
    | cons hfirst hsecond _ ih =>
      refine ⟨.cons (.digit hfirst) hsecond ih.1, ?_⟩
      rintro (_ | ⟨_, _ | ⟨_, hmem⟩⟩)
      · exact plus_not_hexDigit _ hfirst
      · exact plus_not_hexDigit _ hsecond
      · exact ih.2 hmem
  · rintro ⟨h, hplus⟩
    induction h with
    | nil => exact .nil
    | cons hfirst hsecond _ ih =>
      simp only [List.mem_cons, not_or] at hplus
      cases hfirst with
      | digit hfirst => exact .cons hfirst hsecond (ih hplus.2.2)
      | plus => exact absurd rfl hplus.1

/-- What spells bytes are digits and plus signs. -/
theorem Spells.hexDigit_or_plus {digits : List Char} {bytes : List UInt8}
    (h : Spells SignedDigit digits bytes) : ∀ c ∈ digits, (∃ value, HexDigit c value) ∨ c = '+' := by
  induction h with
  | nil => exact List.forall_mem_nil _
  | cons hfirst hsecond _ ih =>
    refine List.forall_mem_cons.mpr ⟨?_, List.forall_mem_cons.mpr ⟨.inl ⟨_, hsecond⟩, ih⟩⟩
    cases hfirst with
    | digit hfirst => exact .inl ⟨_, hfirst⟩
    | plus => exact .inr rfl

/-- Bytes are spelled by digits, even in number, and by nothing else. -/
theorem exists_spells_hexDigit_iff : ∀ {digits : List Char},
    (∃ bytes, Spells HexDigit digits bytes) ↔
      (∀ c ∈ digits, ∃ value, HexDigit c value) ∧ digits.length % 2 = 0
  | [] => ⟨fun _ => ⟨List.forall_mem_nil _, rfl⟩, fun _ => ⟨[], .nil⟩⟩
  | [c] => by
    constructor
    · rintro ⟨_, ⟨⟩⟩
    · rintro ⟨-, ⟨⟩⟩
  | first :: second :: digits => by
    have hlength : (first :: second :: digits).length % 2 = digits.length % 2 :=
      Nat.add_mod_right _ 2
    rw [hlength, List.forall_mem_cons, List.forall_mem_cons, and_assoc, and_assoc,
      ← exists_spells_hexDigit_iff]
    constructor
    · rintro ⟨_, _ | ⟨hfirst, hsecond, hrest⟩⟩
      exact ⟨⟨_, hfirst⟩, ⟨_, hsecond⟩, ⟨_, hrest⟩⟩
    · rintro ⟨⟨_, hfirst⟩, ⟨_, hsecond⟩, ⟨_, hrest⟩⟩
      exact ⟨_, .cons hfirst hsecond hrest⟩

end IntelHex
end Mos6502
