/-
# Operands are read as they are written

Every operand can be written so that it is read as itself: its numbers in hexadecimal, with
as many digits as tell their width, and its names always with an offset behind them. So
neither a name nor a number is taken for a form of operand, and no form for another
(`Operand.read_written`). The operands that can be read at all are the well-formed ones,
of which all can be written (`operands_are_read_as_written`).

Key definitions: `Number.written`, `Expression.written`, `Operand.written`, `IsName`,
`Expression.WellFormed`, `Operand.WellFormed`.
Key theorems: `Expression.read_written`, `Expression.isAtom_written`,
`Operand.read_written`, `Operand.wellFormed_of_read`, `operands_are_read_as_written`.
-/
import Mos6502.Proofs.Assembler.Constant
import Mos6502.Proofs.Assembler.Numeral

namespace Mos6502
namespace Assembler

open Text

/-! ### How operands are written -/

/-- A number in hexadecimal, with two digits if it is one byte wide and four otherwise. -/
def Number.written (number : Number) : List Char :=
  '$' :: if number.zeroPage then hexByte number.value.toUInt8 else hexWord number.value

/-- A number, or a name with its offset behind it, be it zero or not. -/
def Expression.written : Expression → List Char
  | .literal number => number.written
  | .symbol name offset => name.toList ++ (signed offset).toList

/-- An operand in its form. -/
def Operand.written : Operand → List Char
  | .none => []
  | .accumulator => ['A']
  | .immediate value => '#' :: value.written
  | .direct value => value.written
  | .indexedX value => value.written ++ [',', 'X']
  | .indexedY value => value.written ++ [',', 'Y']
  | .indirect value => '(' :: (value.written ++ [')'])
  | .indirectX value => '(' :: (value.written ++ [',', 'X', ')'])
  | .indirectY value => '(' :: (value.written ++ [')', ',', 'Y'])
  | .displacement distance => (signed distance).toList

/-! ### Which operands there are -/

/-- The character is a letter in either case or an underscore. -/
def StartsName (c : Char) : Prop := ('A' ≤ c ∧ c ≤ 'Z') ∨ ('a' ≤ c ∧ c ≤ 'z') ∨ c = '_'

/-- The text is a letter or underscore and then letters, digits and underscores. -/
def IsName (name : List Char) : Prop :=
  ∃ first rest, name = first :: rest ∧ StartsName first ∧
    ∀ c ∈ rest, StartsName c ∨ ('0' ≤ c ∧ c ≤ '9')

/-- The number is a word with a sign. -/
def IsSignedWord (number : Int) : Prop := -65535 ≤ number ∧ number ≤ 65535

/-- A number that counts as one byte wide is one; a symbol has the name of one, and a word
as its offset. -/
inductive Expression.WellFormed : Expression → Prop
  | literal {number : Number} (hnarrow : number.Narrow) : WellFormed (.literal number)
  | symbol {name : String} {offset : Int} (hname : IsName name.toList)
      (hoffset : IsSignedWord offset) : WellFormed (.symbol name offset)

/-- The expression in an operand is well formed, or its distance is a word. -/
structure Operand.WellFormed (operand : Operand) : Prop where
  value : ∀ value ∈ operand.value?, value.WellFormed
  distance : ∀ distance, operand = .displacement distance → IsSignedWord distance

/-! ### Names -/

theorem beginsName_iff_startsName {c : Char} : beginsName c = true ↔ StartsName c := by
  unfold beginsName Char.isAlpha Char.isUpper Char.isLower StartsName
  simp only [Bool.or_eq_true, Bool.and_eq_true, decide_eq_true_eq, beq_iff_eq, or_assoc]
  rfl

theorem continuesName_iff_startsName {c : Char} :
    continuesName c = true ↔ StartsName c ∨ ('0' ≤ c ∧ c ≤ '9') := by
  rw [continuesName_iff_beginsName, beginsName_iff_startsName]

theorem isSymbolName_iff_isName {name : List Char} : isSymbolName name = true ↔ IsName name := by
  constructor
  · intro h
    cases name with
    | nil => cases h
    | cons first rest =>
      rw [isSymbolName, Bool.and_eq_true, List.all_eq_true] at h
      exact ⟨first, rest, rfl, beginsName_iff_startsName.mp h.1,
        fun c hc => continuesName_iff_startsName.mp (h.2 c hc)⟩
  · rintro ⟨first, rest, rfl, hfirst, hrest⟩
    rw [isSymbolName, Bool.and_eq_true, List.all_eq_true]
    exact ⟨beginsName_iff_startsName.mpr hfirst,
      fun c hc => continuesName_iff_startsName.mpr (hrest c hc)⟩

/-! ### Numbers -/

theorem Number.ofDigits_written {number : Number} (h : number.Narrow) :
    ∃ digits, number.written = '$' :: digits ∧ ofDigits .hexadecimal digits = .ok number := by
  obtain ⟨value, zeroPage⟩ := number
  refine ⟨_, rfl, ?_⟩
  cases zeroPage with
  | true =>
    have hbyte : value.toUInt8.toUInt16 = value := by
      have hle : value.toNat ≤ 0xFF := UInt16.le_iff_toNat_le.mp (h rfl)
      rw [← UInt16.toNat_inj, UInt8.toNat_toUInt16, UInt16.toNat_toUInt8]
      omega
    have hdigits := ofDigits_hexByte value.toUInt8
    rwa [hbyte] at hdigits
  | false => exact ofDigits_hexWord value

theorem Number.notMem_written {number : Number} {c : Char} (hmark : c ≠ '$')
    (hdigit : ∀ value : Fin 16, digit value.val ≠ c) : c ∉ number.written := by
  rw [written, List.mem_cons, not_or]
  refine ⟨hmark, fun hmem => ?_⟩
  split at hmem
  · exact forall_mem_hexByte (P := (· ≠ c)) hdigit _ c hmem rfl
  · exact forall_mem_hexWord (P := (· ≠ c)) hdigit _ c hmem rfl

theorem toList_signed (number : Int) :
    (signed number).toList =
      (if number < 0 then '-' else '+') :: Nat.toDigits 10 number.natAbs := by
  unfold signed
  cases number with
  | ofNat n =>
    have hnot : ¬Int.ofNat n < 0 := Int.not_lt.mpr (Int.natCast_nonneg n)
    have hdigits : (toString (Int.ofNat n)).toList = Nat.toDigits 10 n := Nat.toList_repr
    rw [if_neg hnot, if_neg hnot, String.toList_append, hdigits]
    rfl
  | negSucc n =>
    have hnegative := Int.negSucc_lt_zero n
    have hdigits : (toString (Int.negSucc n)).toList = '-' :: Nat.toDigits 10 (n + 1) := by
      rw [← Nat.toList_repr]
      exact String.toList_append
    rw [if_pos hnegative, if_pos hnegative, hdigits]
    rfl

theorem notMem_signed {number : Int} {c : Char} (hsign : isSign c = false)
    (hdigit : c.isDigit = false) : c ∉ (signed number).toList := by
  rw [toList_signed, List.mem_cons, not_or]
  constructor
  · rintro rfl
    split at hsign <;> cases hsign
  · intro hmem
    rw [Nat.isDigit_of_mem_toDigits (by decide) (by decide) hmem] at hdigit
    cases hdigit

/-- **A signed word is read as itself**, be it an offset or a distance. -/
theorem exists_readNumber_signed {n : Int} (h : IsSignedWord n) :
    ∃ sign digits number, (signed n).toList = sign :: digits ∧ (sign = '+' ∨ sign = '-') ∧
      readNumber digits = .ok number ∧ applySign sign number = n := by
  have hle : n.natAbs ≤ 0xFFFF := by
    unfold IsSignedWord at h
    omega
  obtain ⟨number, hread, hvalue⟩ := Number.exists_read_toDigits hle
  refine ⟨_, _, number, toList_signed n, ?_, by rw [readNumber, hread], ?_⟩
  · split
    · exact .inr rfl
    · exact .inl rfl
  · rw [applySign, hvalue]
    split
    · rw [if_pos rfl]
      omega
    · rw [if_neg (by decide)]
      omega

theorem isSignedWord_applySign (sign : Char) (number : Number) :
    IsSignedWord (applySign sign number) := by
  have hlt := number.value.toNat_lt
  unfold IsSignedWord applySign
  split <;> omega

theorem isSignedWord_of_readOffset {text : List Char} {offset : Int}
    (h : Expression.readOffset text = .ok offset) : IsSignedWord offset := by
  cases text with
  | nil =>
    cases h
    exact ⟨by decide, by decide⟩
  | cons sign digits =>
    obtain ⟨number, -, ⟨⟩⟩ := Result.bind_eq_ok.mp h
    exact isSignedWord_applySign sign number

/-! ### Expressions -/

namespace Expression

theorem exists_of_read_eq_symbol {text : List Char} {name : String} {offset : Int}
    (h : read text = .ok (.symbol name offset)) :
    isSymbolName name.toList = true ∧ ∃ rest, readOffset rest = .ok offset := by
  unfold read at h
  split at h
  · cases h
  · split at h
    · obtain ⟨number, -, ⟨⟩⟩ := Result.map_eq_ok.mp h
    · split at h
      · obtain ⟨number, -, ⟨⟩⟩ := Result.map_eq_ok.mp h
      · obtain ⟨other, hoffset, h⟩ := Result.bind_eq_ok.mp h
        split at h
        · rename_i hname
          cases h
          exact ⟨by rwa [String.toList_ofList], _, hoffset⟩
        · cases h

/-- **A well-formed expression is read as it is written.** -/
theorem read_written {value : Expression} (h : value.WellFormed) :
    read value.written = .ok value := by
  cases h with
  | literal hnarrow =>
    obtain ⟨digits, hwritten, hdigits⟩ := Number.ofDigits_written hnarrow
    rw [written, hwritten, read_hexadecimal hdigits]
  | @symbol name offset hname hoffset =>
    obtain ⟨sign, digits, number, hsigned, hsign, hread, rfl⟩ := exists_readNumber_signed hoffset
    have hrest : ∀ c ∈ (sign :: digits).head?, isSign c = true := by
      rintro c ⟨⟩
      rcases hsign with rfl | rfl <;> rfl
    have hoffset : readOffset (sign :: digits) = .ok (applySign sign number) := by
      rw [readOffset, hread]
      rfl
    rw [written, hsigned,
      read_name_append (isSymbolName_iff_isName.mpr hname) hrest hoffset, String.ofList_toList]

/-- **What is written is an expression of its own.** -/
theorem isAtom_written {value : Expression} (h : value.WellFormed) : IsAtom value.written := by
  cases h with
  | @literal number hnarrow =>
    refine isAtom_of_notMem (by decide) (fun heq => by cases heq) ?_ ?_
    · exact Number.notMem_written (by decide) (by decide)
    · exact Number.notMem_written (by decide) (by decide)
  | @symbol name offset hname hoffset =>
    refine isAtom_name_append (isSymbolName_iff_isName.mpr hname) (fun heq => ?_) ?_ ?_
    · -- a name of one character has a sign behind it
      have hlength := congrArg List.length heq
      obtain ⟨first, rest, hcons, -⟩ := hname
      simp only [List.length_append, hcons, toList_signed, List.length_cons,
        List.length_nil] at hlength
      omega
    · exact notMem_signed (by decide) (by decide)
    · exact notMem_signed (by decide) (by decide)

/-- What is read is well formed. -/
theorem wellFormed_of_read {text : List Char} {value : Expression} (h : read text = .ok value) :
    value.WellFormed := by
  cases value with
  | literal number => exact .literal (read_narrow h number rfl)
  | symbol name offset =>
    obtain ⟨hname, rest, hoffset⟩ := exists_of_read_eq_symbol h
    exact .symbol (isSymbolName_iff_isName.mp hname) (isSignedWord_of_readOffset hoffset)

end Expression

/-! ### Operands -/

namespace Operand

/-- **A well-formed operand is read as it is written.** -/
theorem read_written {operand : Operand} (h : operand.WellFormed) :
    read operand.written = .ok operand := by
  have hvalue : ∀ {form : Expression → Operand} {before after : List Char} {value : Expression},
      Shape form before after → (form value).WellFormed →
        read (before ++ (value.written ++ after)) = .ok (form value) := by
    intro form before after value hshape hform
    have hvalue : value.WellFormed := hform.value value (by cases hshape <;> rfl)
    rw [read_of_shape hshape (Expression.isAtom_written hvalue), readWithin,
      Expression.read_written hvalue]
  cases operand with
  | none | accumulator => rfl
  | immediate value =>
    have hread := hvalue .immediate h
    rwa [List.append_nil] at hread
  | direct value =>
    have hread := hvalue .direct h
    rwa [List.append_nil] at hread
  | indexedX value => exact hvalue .indexedX h
  | indexedY value => exact hvalue .indexedY h
  | indirect value => exact hvalue .indirect h
  | indirectX value => exact hvalue .indirectX h
  | indirectY value => exact hvalue .indirectY h
  | displacement distance =>
    obtain ⟨sign, digits, number, hsigned, hsign, hread, rfl⟩ :=
      exists_readNumber_signed (h.distance distance rfl)
    have hdistance : readDistance sign digits = .ok (.displacement (applySign sign number)) :=
      readDistance_eq_ok.mpr ⟨number, hread, rfl⟩
    rw [written, hsigned]
    rcases hsign with rfl | rfl <;> exact hdistance

/-- **What is read is well formed.** -/
theorem wellFormed_of_read {text : List Char} {operand : Operand} (h : read text = .ok operand) :
    operand.WellFormed := by
  rcases exists_of_read h with ⟨value, inner, hvalue, hread⟩ | ⟨sign, number, rfl⟩ | hbare
  · refine ⟨fun other hother => ?_, ?_⟩
    · obtain rfl : value = other := Option.some.inj (hvalue.symm.trans hother)
      exact Expression.wellFormed_of_read hread
    · rintro distance rfl
      cases hvalue
  · refine ⟨nofun, ?_⟩
    rintro distance ⟨⟩
    exact isSignedWord_applySign sign number
  · simp only [List.mem_cons, List.not_mem_nil, or_false] at hbare
    rcases hbare with rfl | rfl <;> exact ⟨nofun, nofun⟩

end Operand

/-- **Operands are read as they are written.** An operand is well formed just when it is read
from what is written for it as itself, and just when there is any text that it is read from. -/
theorem operands_are_read_as_written (operand : Operand) :
    (operand.WellFormed ↔ Operand.read operand.written = .ok operand) ∧
      (operand.WellFormed ↔ ∃ text, Operand.read text = .ok operand) :=
  ⟨⟨Operand.read_written, Operand.wellFormed_of_read⟩,
    ⟨fun h => ⟨operand.written, Operand.read_written h⟩,
      fun ⟨_, hread⟩ => Operand.wellFormed_of_read hread⟩⟩

end Assembler
end Mos6502
