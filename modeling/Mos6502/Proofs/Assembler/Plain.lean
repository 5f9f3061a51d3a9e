/-
# Plain lines

A plain character means itself wherever it stands: it is no blank, quote mark or
semicolon. A line that is a plain line in upper case is one of an operation and an
operand that are these in upper case (`exists_of_upper_eq_plainText`). Digits behind
the mark of their radix are read as their number (`Expression.read_ofDigits`), and
bytes in hexadecimal with commas between them as data (`Datum.readList_hexList`).

Key definitions: `isPlain`, `plainText`, `Radix.mark`, `hexAddress`, `hexList`, `dataOf`.
Key theorems: `exists_of_upper_eq_plainText`, `Expression.read_ofDigits`,
`Datum.readList_hexList`.
-/
import Mos6502.Assembler.Line
import Mos6502.Assembler.Operand
import Mos6502.Proofs.Result
import Mos6502.Proofs.Text.Cut
import Mos6502.Proofs.Text.Digit
import Mos6502.Proofs.Word

namespace Mos6502

namespace Text

/-! ### Blanks at the ends -/

theorem trimStart_cons_of_not_blank {c : Char} (h : isBlank c = false) (text : List Char) :
    trimStart (c :: text) = c :: text := List.dropWhile_cons_of_neg (by simp [h])

theorem trimEnd_append {first last : List Char} (hne : last ≠ [])
    (h : ∀ c ∈ last, isBlank c = false) : trimEnd (first ++ last) = first ++ last := by
  obtain ⟨c, rest, hreverse⟩ := List.exists_cons_of_ne_nil (mt List.reverse_eq_nil_iff.mp hne)
  have hc : isBlank c = false :=
    h c (List.mem_reverse.mp (hreverse ▸ List.mem_cons_self))
  rw [trimEnd, List.reverse_append, hreverse, List.cons_append,
    List.dropWhile_cons_of_neg (by simp [hc]), ← List.cons_append, ← hreverse,
    ← List.reverse_append, List.reverse_reverse]

end Text

namespace Assembler

open Text

/-- The character means itself wherever it stands. -/
def isPlain (c : Char) : Bool := !isBlank c && c != quote && c != ';'

theorem isBlank_of_isPlain {c : Char} (h : isPlain c = true) : isBlank c = false := by
  simp only [isPlain, Bool.and_eq_true, Bool.not_eq_true'] at h
  exact h.1.1

theorem ne_quote_of_isPlain {c : Char} (h : isPlain c = true) : c ≠ quote := by
  simp only [isPlain, Bool.and_eq_true, bne_iff_ne] at h
  exact h.1.2

theorem ne_semicolon_of_isPlain {c : Char} (h : isPlain c = true) : c ≠ ';' := by
  simp only [isPlain, Bool.and_eq_true, bne_iff_ne] at h
  exact h.2

/-! ### Upper case -/

theorem toUpper_eq_or (c : Char) :
    c.toUpper = c ∨ 97 ≤ c.toNat ∧ c.toNat ≤ 122 ∧ c.toUpper.toNat = c.toNat - 32 := by
  unfold Char.toUpper
  split
  case isTrue h =>
    have hlow : 97 ≤ c.val.toNat := UInt32.le_iff_toNat_le.mp h.1
    have hhigh : c.val.toNat ≤ 122 := UInt32.le_iff_toNat_le.mp h.2
    have hstep : ('A'.val - 'a'.val).toNat = 2 ^ 32 - 32 := rfl
    refine .inr ⟨hlow, hhigh, ?_⟩
    show (c.val + ('A'.val - 'a'.val)).toNat = c.val.toNat - 32
    rw [UInt32.toNat_add, hstep]
    omega
  case isFalse => exact .inl rfl

/-- A character below the letters is the upper case of no other. -/
theorem eq_of_toUpper_eq {c d : Char} (h : c.toUpper = d) (hd : d.toNat < 65) : c = d := by
  rcases toUpper_eq_or c with heq | ⟨hlow, -, hnumber⟩
  · exact heq.symm.trans h
  · rw [h] at hnumber
    omega

theorem toUpper_beq {d : Char} (hd : d.toNat < 65) (c : Char) : (c.toUpper == d) = (c == d) := by
  by_cases h : c = d
  · rw [h, beq_self_eq_true, beq_iff_eq]
    rcases toUpper_eq_or d with heq | ⟨hlow, -, -⟩
    · exact heq
    · omega
  · rw [beq_false_of_ne h, beq_false_of_ne fun heq => h (eq_of_toUpper_eq heq hd)]

theorem isBlank_of_letter {c : Char} (hlow : 97 ≤ c.toNat) (hhigh : c.toNat ≤ 122) :
    isBlank c = false := by
  simp only [isBlank, blankRanges, List.any_cons, List.any_nil, Bool.or_eq_false_iff,
    Bool.and_eq_false_iff, decide_eq_false_iff_not, and_true]
  omega

theorem isPlain_of_toUpper {c : Char} (h : isPlain c.toUpper = true) : isPlain c = true := by
  rcases toUpper_eq_or c with heq | ⟨hlow, hhigh, -⟩
  · rwa [heq] at h
  · have hquote : c ≠ quote := by
      rintro rfl
      exact absurd hlow (by decide)
    have hsemicolon : c ≠ ';' := by
      rintro rfl
      exact absurd hlow (by decide)
    simp only [isPlain, isBlank_of_letter hlow hhigh, bne_iff_ne.mpr hquote,
      bne_iff_ne.mpr hsemicolon]
    rfl

theorem isPlain_of_digitValue? {radix : Nat} {c : Char} {value : Nat}
    (h : digitValue? radix c = some value) : isPlain c = true := by
  have hrange := (digitValue?_cases h).imp id And.right
  have hblank : isBlank c = false := by
    simp only [isBlank, blankRanges, List.any_cons, List.any_nil, Bool.or_eq_false_iff,
      Bool.and_eq_false_iff, decide_eq_false_iff_not, and_true]
    omega
  have hquote : c ≠ quote := by
    rintro rfl
    revert hrange
    decide
  have hsemicolon : c ≠ ';' := by
    rintro rfl
    revert hrange
    decide
  simp only [isPlain, hblank, bne_iff_ne.mpr hquote, bne_iff_ne.mpr hsemicolon]
  rfl

theorem digitValue?_toUpper (radix : Nat) (c : Char) :
    digitValue? radix c.toUpper = digitValue? radix c := by
  rcases toUpper_eq_or c with heq | ⟨hlow, hhigh, hnumber⟩
  · rw [heq]
  · have hfigure : ¬(48 ≤ c.toNat - 32 ∧ c.toNat - 32 ≤ 57) := by omega
    have hupper : 65 ≤ c.toNat - 32 ∧ c.toNat - 32 ≤ 90 := by omega
    have hother : ¬(48 ≤ c.toNat ∧ c.toNat ≤ 57) ∧ ¬(65 ≤ c.toNat ∧ c.toNat ≤ 90) := by omega
    have hvalue : c.toNat - 32 - 65 = c.toNat - 97 := by omega
    simp only [digitValue?_eq, hnumber, if_neg hfigure, if_pos hupper, if_neg hother.1,
      if_neg hother.2, hlow, hhigh, and_self, if_true, hvalue]

theorem isPlain_of_upper {text : List Char} (h : ∀ c ∈ upper text, isPlain c = true) :
    ∀ c ∈ text, isPlain c = true :=
  fun _ hc => isPlain_of_toUpper (h _ (List.mem_map_of_mem hc))

theorem upper_eq_self {text : List Char} (h : ∀ c ∈ text, c.toUpper = c) : upper text = text :=
  (List.map_congr_left h).trans (List.map_id _)

/-! ### Lines -/

/-- Plain characters are kept, in upper case. -/
theorem compact_of_isPlain {text : List Char} (h : ∀ c ∈ text, isPlain c = true) :
    compact text = upper text := by
  have hquote : quote ∉ text := fun hmem => ne_quote_of_isPlain (h quote hmem) rfl
  rw [compact, marked_of_notMem hquote, List.filterMap_map, upper, ← List.filterMap_eq_map]
  refine List.filterMap_congr fun c hc => ?_
  have hne : (c == quote) = false := beq_false_of_ne (ne_quote_of_isPlain (h c hc))
  simp only [Function.comp_apply, hne, isBlank_of_isPlain (h c hc), Bool.or_self,
    Bool.false_eq_true, if_false]

theorem compact_cons_of_blank {c : Char} (hblank : isBlank c = true) (hquote : c ≠ quote)
    (text : List Char) : compact (c :: text) = compact text := by
  have hne : (c == quote) = false := beq_false_of_ne hquote
  simp only [compact, marked, hne, Bool.bne_false, List.filterMap_cons, Bool.or_self,
    Bool.false_eq_true, if_false, hblank, if_true]

/-- The line of an operation with an operand. -/
def plainText (operation operand : List Char) : List Char := ' ' :: (operation ++ ' ' :: operand)

theorem forall_mem_plainText {P : Char → Prop} {operation operand : List Char} (hblank : P ' ')
    (hoperation : ∀ c ∈ operation, P c) (hoperand : ∀ c ∈ operand, P c) :
    ∀ c ∈ plainText operation operand, P c :=
  List.forall_mem_cons.mpr ⟨hblank, List.forall_mem_append.mpr
    ⟨hoperation, List.forall_mem_cons.mpr ⟨hblank, hoperand⟩⟩⟩

theorem exists_of_upper_eq_plainText {text operation operand : List Char}
    (h : upper text = plainText operation operand) :
    ∃ first second, upper first = operation ∧ upper second = operand ∧
      text = plainText first second := by
  obtain ⟨blank, rest, rfl, hblank, hrest⟩ := List.map_eq_cons_iff.mp h
  obtain ⟨first, rest, rfl, hfirst, hrest⟩ := List.map_eq_append_iff.mp hrest
  obtain ⟨between, second, rfl, hbetween, hsecond⟩ := List.map_eq_cons_iff.mp hrest
  refine ⟨first, second, hfirst, hsecond, ?_⟩
  rw [plainText, eq_of_toUpper_eq hblank (by decide), eq_of_toUpper_eq hbetween (by decide)]

/-! ### Numbers -/

/-- What stands before the digits of a radix. -/
def Radix.mark : Radix → List Char
  | .hexadecimal => ['$']
  | .binary => ['%']
  | .decimal => []

theorem Radix.isPlain_of_mem_mark (radix : Radix) : ∀ c ∈ radix.mark, isPlain c = true :=
  List.all_eq_true.mp (by cases radix <;> decide)

theorem Number.digits_of_ofDigits {radix : Radix} {digits : List Char} {number : Number}
    (h : ofDigits radix digits = .ok number) :
    (∀ c ∈ digits, isBlank c = false) ∧
      ∃ c rest value, digits = c :: rest ∧ digitValue? radix.base c = some value := by
  unfold ofDigits at h
  split at h
  · rename_i hvalues
    have hdigit : ∀ c ∈ digits, ∃ value, digitValue? radix.base c = some value := fun c hc =>
      Option.isSome_iff_exists.mp (isSome_of_mapM hvalues c hc)
    refine ⟨fun c hc => ?_, ?_⟩
    · obtain ⟨value, hvalue⟩ := hdigit c hc
      exact isBlank_of_isPlain (isPlain_of_digitValue? hvalue)
    · cases digits with
      | nil => cases hvalues
      | cons c rest =>
        obtain ⟨value, hvalue⟩ := hdigit c List.mem_cons_self
        exact ⟨c, rest, value, rfl, hvalue⟩
  · cases h

theorem isDigit_of_digitValue? {c : Char} {value : Nat} (h : digitValue? 10 c = some value) :
    c.isDigit = true := by
  rcases digitValue?_cases h with hfigure | ⟨hge, -⟩
  · exact Char.isDigit_iff_toNat.mpr hfigure
  · exact absurd (lt_of_digitValue? h) (Nat.not_lt.mpr hge)

theorem Number.read_ofDigits {radix : Radix} {digits : List Char} {number : Number}
    (h : ofDigits radix digits = .ok number) : read (radix.mark ++ digits) = .ok number := by
  obtain ⟨hblank, c, rest, value, rfl, hvalue⟩ := digits_of_ofDigits h
  have hmark : ∀ c ∈ radix.mark, isBlank c = false := fun c hc =>
    isBlank_of_isPlain (radix.isPlain_of_mem_mark c hc)
  rw [read, trim_eq_self (List.forall_mem_append.mpr ⟨hmark, hblank⟩)]
  cases radix with
  | hexadecimal => exact h
  | binary => exact h
  | decimal =>
    have hdigit := isDigit_of_digitValue? hvalue
    rw [Radix.mark, List.nil_append]
    split
    · rename_i heq
      cases heq
    · rename_i heq
      rw [(List.cons.inj heq).1] at hdigit
      cases hdigit
    · rename_i heq
      rw [(List.cons.inj heq).1] at hdigit
      cases hdigit
    · exact h

/-- **A number after its mark is read from its digits.** -/
theorem Expression.read_ofDigits {radix : Radix} {digits : List Char} {number : Number}
    (h : Number.ofDigits radix digits = .ok number) :
    read (radix.mark ++ digits) = .ok (.literal number) := by
  obtain ⟨-, c, rest, value, rfl, hvalue⟩ := Number.digits_of_ofDigits h
  have hnumber : readNumber (radix.mark ++ c :: rest) = .ok number := by
    rw [readNumber, Number.read_ofDigits h]
  have hhead : ∃ d tail, radix.mark ++ c :: rest = d :: tail ∧
      (d = '$' ∨ d = '%' ∨ d.isDigit = true) := by
    cases radix with
    | hexadecimal => exact ⟨'$', c :: rest, rfl, .inl rfl⟩
    | binary => exact ⟨'%', c :: rest, rfl, .inr (.inl rfl)⟩
    | decimal => exact ⟨c, rest, rfl, .inr (.inr (isDigit_of_digitValue? hvalue))⟩
  obtain ⟨d, tail, heq, hd⟩ := hhead
  rw [heq] at hnumber ⊢
  simp only [read, if_pos hd, hnumber]
  rfl

theorem Expression.read_hexadecimal {digits : List Char} {number : Number}
    (h : Number.ofDigits .hexadecimal digits = .ok number) :
    Expression.read ('$' :: digits) = .ok (.literal number) := Expression.read_ofDigits h

theorem Number.ofDigits_hexByte (byte : UInt8) :
    Number.ofDigits .hexadecimal (hexByte byte) = .ok ⟨byte.toUInt16, true⟩ := by
  have hlt := byte.toNat_lt
  have hvalue : positional 16 [byte.toNat / 16, byte.toNat % 16] = byte.toNat := by
    show 16 * (16 * 0 + byte.toNat / 16) + byte.toNat % 16 = byte.toNat
    omega
  have hle : byte.toNat ≤ 0xFFFF := by omega
  simp only [Number.ofDigits, Radix.base, mapM_digitValue?_hexByte, hvalue, if_pos hle,
    UInt16.ofNat_uInt8ToNat]
  rfl

theorem Number.ofDigits_hexWord (word : UInt16) :
    Number.ofDigits .hexadecimal (hexWord word) = .ok ⟨word, false⟩ := by
  have hhigh := Word.toNat_high word
  have hlow := Word.toNat_low word
  have hvalue : positional 16 [(Word.high word).toNat / 16, (Word.high word).toNat % 16,
      (Word.low word).toNat / 16, (Word.low word).toNat % 16] = word.toNat := by
    show 16 * (16 * (16 * (16 * 0 + (Word.high word).toNat / 16) + (Word.high word).toNat % 16) +
      (Word.low word).toNat / 16) + (Word.low word).toNat % 16 = word.toNat
    omega
  have hle : word.toNat ≤ 0xFFFF := Nat.le_of_lt_succ word.toNat_lt
  simp only [Number.ofDigits, Radix.base, mapM_digitValue?_hexWord, List.cons_append,
    List.nil_append, hvalue, if_pos hle, UInt16.ofNat_toNat]
  rfl

/-- A word in hexadecimal, after its mark. -/
def hexAddress (word : UInt16) : List Char := '$' :: hexWord word

/-- Bytes in hexadecimal, each after its mark, with commas between them. -/
def hexList (values : List UInt8) : List Char :=
  [','].intercalate (values.map fun value => '$' :: hexByte value)

theorem forall_mem_hexAddress {P : Char → Prop} (hmark : P '$')
    (hdigit : ∀ value : Fin 16, P (digit value.val)) (word : UInt16) :
    ∀ c ∈ hexAddress word, P c :=
  List.forall_mem_cons.mpr ⟨hmark, forall_mem_hexWord hdigit word⟩

theorem forall_mem_hexList {P : Char → Prop} (hcomma : P ',') (hmark : P '$')
    (hdigit : ∀ value : Fin 16, P (digit value.val)) (values : List UInt8) :
    ∀ c ∈ hexList values, P c := by
  refine forall_mem_intercalate hcomma fun piece hpiece => ?_
  obtain ⟨value, -, rfl⟩ := List.mem_map.mp hpiece
  exact List.forall_mem_cons.mpr ⟨hmark, forall_mem_hexByte hdigit value⟩

theorem hexList_ne_nil {values : List UInt8} (h : values ≠ []) : hexList values ≠ [] := by
  obtain ⟨value, values, rfl⟩ := List.exists_cons_of_ne_nil h
  cases values with
  | nil => exact List.cons_ne_nil _ _
  | cons next values =>
    rw [hexList, List.map_cons, List.map_cons, List.intercalate_cons_cons]
    exact List.cons_ne_nil _ _

/-- Bytes in hexadecimal are cut into these. -/
theorem cutUnquoted_hexList {values : List UInt8} (h : values ≠ []) :
    cutUnquoted ',' (hexList values) = values.map fun value => '$' :: hexByte value := by
  have hquote : quote ∉ hexList values := fun hmem =>
    forall_mem_hexList (P := (· ≠ quote)) (by decide) (by decide) (by decide) values _ hmem rfl
  rw [cutUnquoted_eq_cut hquote, hexList]
  refine cut_intercalate rfl (mt List.map_eq_nil_iff.mp h) fun piece hpiece => ?_
  obtain ⟨value, -, rfl⟩ := List.mem_map.mp hpiece
  exact List.forall_mem_cons.mpr ⟨rfl,
    forall_mem_hexByte (P := fun c => (c == ',') = false) (by decide) value⟩

theorem Datum.read_hexByte (byte : UInt8) :
    Datum.read ('$' :: hexByte byte) = .ok (.byte (.literal ⟨byte.toUInt16, true⟩)) := by
  have hstrip : strip? ('$' :: hexByte byte) = none := by
    rw [strip?, if_neg fun h => absurd h.1 (by decide)]
  simp only [Datum.read, hstrip, Expression.read_hexadecimal (Number.ofDigits_hexByte byte)]

/-- The data of bytes in hexadecimal. -/
def dataOf (values : List UInt8) : List Datum :=
  values.map fun value => .byte (.literal ⟨value.toUInt16, true⟩)

/-- **Bytes in hexadecimal are read as data.** -/
theorem Datum.readList_hexList {values : List UInt8} (h : values ≠ []) :
    Datum.readList (hexList values) = .ok (dataOf values) := by
  rw [Datum.readList, if_neg (hexList_ne_nil h), cutUnquoted_hexList h, dataOf, Result.mapM_eq_ok,
    List.forall₂_map_left_iff, List.forall₂_map_right_iff, List.forall₂_same]
  exact fun value _ => Datum.read_hexByte value

end Assembler
end Mos6502
