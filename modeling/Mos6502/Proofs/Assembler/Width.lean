/-
# One byte wide

A number that counts as one byte wide is one, however it is written, and so is
what is read from a source: every literal of an expression (`Expression.read_narrow`),
the value of every constant, and every label that is marked as an address in
page zero (`narrow_foldl_addLine`).

Key definitions: `Number.Narrow`, `Symbol.Narrow`, `Expression.Narrow`,
`Operand.value?`.
Key theorems: `positional_lt`, `Number.read_narrow`, `Expression.read_narrow`,
`Operand.exists_of_read`, `Operand.read_narrow`, `knownValue_narrow`,
`Layout.narrow_foldl_addLine`.
-/
import Mos6502.Proofs.Assembler.Emission
import Mos6502.Proofs.Assembler.Layout
import Mos6502.Proofs.Text.Digit
import Mos6502.Proofs.Word
import Mathlib.Algebra.Ring.Nat
import Mathlib.Data.List.Induction

namespace Mos6502

namespace Text

/-! ### Digits -/

theorem mapM_digitValue? {radix : Nat} : ∀ {text : List Char} {values : List Nat},
    text.mapM (digitValue? radix) = some values →
      values.length = text.length ∧ ∀ value ∈ values, value < radix
  | [], values, h => by
    cases h
    exact ⟨rfl, List.forall_mem_nil _⟩
  | c :: text, values, h => by
    rw [List.mapM_cons] at h
    obtain ⟨value, hvalue, h⟩ := Option.bind_eq_some_iff.mp h
    obtain ⟨rest, hrest, h⟩ := Option.bind_eq_some_iff.mp h
    cases h
    obtain ⟨hlength, hlt⟩ := mapM_digitValue? hrest
    exact ⟨congrArg Nat.succ hlength, List.forall_mem_cons.mpr ⟨lt_of_digitValue? hvalue, hlt⟩⟩

/-- What digits stand for is below the power of the radix that they have places for. -/
theorem positional_lt {radix : Nat} {digits : List Nat} (h : ∀ digit ∈ digits, digit < radix) :
    positional radix digits < radix ^ digits.length := by
  induction digits using List.reverseRecOn with
  | nil => exact Nat.one_pos
  | append_singleton digits digit ih =>
    obtain ⟨hdigits, hdigit⟩ := List.forall_mem_append.mp h
    have hlast : digit < radix := hdigit digit (List.mem_singleton_self digit)
    calc positional radix (digits ++ [digit])
        = radix * positional radix digits + digit := List.foldl_concat ..
      _ < radix * (positional radix digits + 1) := by
        rw [Nat.mul_add_one]
        omega
      _ ≤ radix * radix ^ digits.length := Nat.mul_le_mul_left _ (ih hdigits)
      _ = radix ^ (digits ++ [digit]).length := by
        rw [List.length_append, List.length_singleton, Nat.pow_succ']

end Text

namespace Assembler

open Text

/-- A number that counts as one byte wide is one. -/
def Number.Narrow (number : Number) : Prop := number.zeroPage = true → number.value ≤ 0xFF

/-- A symbol that counts as an address in page zero is one. -/
def Symbol.Narrow (symbol : Symbol) : Prop := symbol.zeroPage = true → symbol.value ≤ 0xFF

/-- A literal that counts as one byte wide is one. -/
def Expression.Narrow (value : Expression) : Prop :=
  ∀ number, value = .literal number → number.Narrow

/-! ### Numbers -/

theorem ofNat_le_byte {n : Nat} (h : n ≤ 0xFF) : UInt16.ofNat n ≤ 0xFF := by
  have hword : (UInt16.ofNat n).toNat = n := Word.toNat_ofNat (by omega)
  rw [UInt16.le_iff_toNat_le, hword]
  exact h

namespace Number

/-- Two hexadecimal digits, eight binary ones and small decimal values make
one byte. -/
theorem ofDigits_narrow {radix : Radix} {digits : List Char} {number : Number}
    (h : ofDigits radix digits = .ok number) : number.Narrow := by
  unfold ofDigits at h
  split at h
  · rename_i first rest hdigits
    obtain ⟨hlength, hlt⟩ := mapM_digitValue? hdigits
    have hvalue := positional_lt hlt
    rw [hlength] at hvalue
    simp only at h
    split at h
    · cases h
      intro hzeroPage
      refine ofNat_le_byte ?_
      cases radix with
      | decimal => exact of_decide_eq_true hzeroPage
      | hexadecimal =>
        have hwidth : digits.length ≤ 2 := of_decide_eq_true hzeroPage
        have hpow : 16 ^ digits.length ≤ 16 ^ 2 := Nat.pow_le_pow_right (by decide) hwidth
        exact Nat.le_of_lt_succ (Nat.lt_of_lt_of_le hvalue hpow)
      | binary =>
        have hwidth : digits.length ≤ 8 := of_decide_eq_true hzeroPage
        have hpow : 2 ^ digits.length ≤ 2 ^ 8 := Nat.pow_le_pow_right (by decide) hwidth
        exact Nat.le_of_lt_succ (Nat.lt_of_lt_of_le hvalue hpow)
    · cases h
  · cases h

theorem read_narrow {text : List Char} {number : Number} (h : read text = .ok number) :
    number.Narrow := by
  unfold read at h
  split at h
  · cases h
  · exact ofDigits_narrow h
  · exact ofDigits_narrow h
  · exact ofDigits_narrow h

end Number

/-! ### Expressions and operands -/

theorem readNumber_narrow {text : List Char} {number : Number} (h : readNumber text = .ok number) :
    number.Narrow := by
  unfold readNumber at h
  split at h
  · rename_i read hread
    cases h
    exact Number.read_narrow hread
  · cases h

namespace Expression

theorem readCharacter_narrow {text : List Char} {number : Number}
    (h : readCharacter text = .ok number) : number.Narrow := by
  unfold readCharacter at h
  split at h
  · cases h
  · split at h
    · rename_i byte _
      cases h
      intro _
      have hlt := byte.toNat_lt
      rw [UInt16.le_iff_toNat_le, UInt8.toNat_toUInt16]
      exact Nat.le_of_lt_succ hlt
    · cases h

/-- **A literal that counts as one byte wide is one**, be it a number or a
quoted character. -/
theorem read_narrow {text : List Char} {value : Expression} (h : read text = .ok value) :
    value.Narrow := by
  rintro number rfl
  unfold read at h
  split at h
  · cases h
  · split at h
    · obtain ⟨literal, hread, hliteral⟩ := Result.map_eq_ok.mp h
      cases hliteral
      exact readNumber_narrow hread
    · split at h
      · obtain ⟨literal, hread, hliteral⟩ := Result.map_eq_ok.mp h
        cases hliteral
        exact readCharacter_narrow hread
      · obtain ⟨offset, -, h⟩ := Result.bind_eq_ok.mp h
        split at h <;> cases h

end Expression

namespace Operand

/-- The expression in an operand. -/
def value? : Operand → Option Expression
  | .none | .accumulator | .displacement _ => .none
  | .immediate value | .direct value | .indexedX value | .indexedY value | .indirect value
  | .indirectX value | .indirectY value => some value

theorem readWithin_eq_ok {form : Expression → Operand} {text : List Char} {operand : Operand} :
    readWithin form text = .ok operand ↔
      ∃ value, Expression.read text = .ok value ∧ form value = operand := by
  unfold readWithin
  cases Expression.read text <;> simp

theorem readDistance_eq_ok {sign : Char} {text : List Char} {operand : Operand} :
    readDistance sign text = .ok operand ↔
      ∃ number, readNumber text = .ok number ∧ .displacement (applySign sign number) = operand := by
  unfold readDistance
  cases readNumber text <;> simp

/-- **What can be read as an operand**: an expression in some form, a number with a sign,
or one of the two operands that have neither. -/
theorem exists_of_read {text : List Char} {operand : Operand} (h : read text = .ok operand) :
    (∃ value inner, operand.value? = some value ∧ Expression.read inner = .ok value) ∨
      (∃ sign number, operand = .displacement (applySign sign number)) ∨
      operand ∈ [.none, .accumulator] := by
  have hwithin : ∀ {form : Expression → Operand} {inner : List Char},
      (∀ value, (form value).value? = some value) → readWithin form inner = .ok operand →
        ∃ value inner, operand.value? = some value ∧ Expression.read inner = .ok value := by
    intro form inner hform hread
    obtain ⟨value, hvalue, rfl⟩ := readWithin_eq_ok.mp hread
    exact ⟨value, inner, hform value, hvalue⟩
  have hdistance : ∀ {sign : Char} {magnitude : List Char},
      readDistance sign magnitude = .ok operand →
        ∃ sign number, operand = .displacement (applySign sign number) := by
    intro sign magnitude hread
    obtain ⟨number, -, rfl⟩ := readDistance_eq_ok.mp hread
    exact ⟨sign, number, rfl⟩
  unfold read at h
  split at h
  · cases h
    exact .inr (.inr (by simp))
  · cases h
    exact .inr (.inr (by simp))
  · exact .inl (hwithin (fun _ => rfl) h)
  · exact .inr (.inl (hdistance h))
  · exact .inr (.inl (hdistance h))
  · unfold readIndirect at h
    split at h
    · exact .inl (hwithin (fun _ => rfl) h)
    · exact .inl (hwithin (fun _ => rfl) h)
    · exact .inl (hwithin (fun _ => rfl) h)
    · cases h
  · unfold readDirect at h
    split at h
    · exact .inl (hwithin (fun _ => rfl) h)
    · exact .inl (hwithin (fun _ => rfl) h)
    · exact .inl (hwithin (fun _ => rfl) h)

theorem read_narrow {text : List Char} {operand : Operand} {value : Expression}
    (h : read text = .ok operand) (hvalue : operand.value? = some value) : value.Narrow := by
  rcases exists_of_read h with ⟨other, inner, hother, hread⟩ | ⟨sign, number, rfl⟩ | hbare
  · obtain rfl : other = value := Option.some.inj (hother.symm.trans hvalue)
    exact Expression.read_narrow hread
  · cases hvalue
  · simp only [List.mem_cons, List.not_mem_nil, or_false] at hbare
    rcases hbare with rfl | rfl <;> cases hvalue

end Operand

theorem knownValue_narrow {symbols : SymbolTable} {text : List Char} {number : Number}
    (h : knownValue symbols text = .ok number) : number.Narrow := by
  unfold knownValue at h
  split at h
  · cases h
  · rename_i literal hread
    cases h
    exact Expression.read_narrow hread _ rfl
  · obtain ⟨value, -, h⟩ := Result.bind_eq_ok.mp h
    cases h
    intro hzeroPage
    exact of_decide_eq_true (Bool.and_eq_true_iff.mp hzeroPage).2

theorem Directive.read_eq_equate {symbols : SymbolTable} {hasLabel : Bool} {name : String}
    {operand : List Char} {number : Number}
    (h : Directive.read symbols hasLabel name operand = .ok (.equate number)) :
    knownValue symbols operand = .ok number := by
  unfold Directive.read at h
  split at h
  · obtain ⟨_, -, h⟩ := Result.bind_eq_ok.mp h
    cases h
  · obtain ⟨_, -, h⟩ := Result.bind_eq_ok.mp h
    cases h
  · obtain ⟨_, -, h⟩ := Result.bind_eq_ok.mp h
    cases h
  · split at h
    · obtain ⟨_, hvalue, h⟩ := Result.bind_eq_ok.mp h
      cases h
      exact hvalue
    · cases h
  · split at h <;> cases h
  · cases h

/-- A constant has the value of the operand of its line. -/
theorem Body.ofLine_eq_equate {symbols : SymbolTable} {line : Line} {number : Number}
    (h : Body.ofLine symbols line = .ok (.directive (.equate number))) :
    knownValue symbols line.operand = .ok number := by
  obtain ⟨name, hread⟩ := Body.ofLine_eq_directive h
  exact Directive.read_eq_equate hread

/-! ### Symbols -/

namespace Layout

theorem labelValue_narrow {symbols : SymbolTable} {line : Line} {body : Body} (counter : Nat)
    (h : Body.ofLine symbols line = .ok body) (hzeroPage : (labelValue counter body).2 = true) :
    (labelValue counter body).1 ≤ 0xFF := by
  cases body with
  | instruction | nothing => exact of_decide_eq_true hzeroPage
  | directive directive =>
    cases directive with
    | data | reserve | finish => exact of_decide_eq_true hzeroPage
    | origin address =>
      have hle : address ≤ 0xFF := of_decide_eq_true hzeroPage
      exact UInt16.le_iff_toNat_le.mp hle
    | equate number =>
      have hle : number.value ≤ 0xFF := knownValue_narrow (Body.ofLine_eq_equate h) hzeroPage
      exact UInt16.le_iff_toNat_le.mp hle

/-- Lines keep the symbols narrow. -/
theorem narrow_addLine {layout : Layout} (h : ∀ symbol ∈ layout.symbols.symbols, symbol.Narrow)
    (entry : List Char × Nat) : ∀ symbol ∈ (layout.addLine entry).symbols.symbols, symbol.Narrow := by
  obtain ⟨text, number⟩ := entry
  by_cases hgo : layout.finished = true
  · rwa [addLine_finished hgo]
  rcases addLine_cases (Bool.eq_false_iff.mpr hgo) text number with
    ⟨-, e⟩ | ⟨cause, e⟩ | ⟨line, body, -, hbody, e⟩ <;> rw [e]
  · exact h
  · exact h
  · rw [place_symbols]
    rcases define_cases layout line.label body number with
      ⟨-, e⟩ | ⟨name, symbols, -, hdefine, e⟩ | ⟨_, e⟩ <;> rw [e]
    · exact h
    · obtain ⟨-, -, -, rfl⟩ := defineLabel_eq_ok.mp hdefine
      refine List.forall_mem_append.mpr ⟨h, List.forall_mem_singleton.mpr fun hzeroPage => ?_⟩
      exact ofNat_le_byte (labelValue_narrow layout.counter hbody hzeroPage)
    · exact h

/-- **Whatever is read, symbols that count as addresses in page zero are.** -/
theorem narrow_foldl_addLine (lines : List (List Char × Nat)) :
    ∀ symbol ∈ (lines.foldl addLine empty).symbols.symbols, symbol.Narrow := by
  induction lines using List.reverseRecOn with
  | nil => exact List.forall_mem_nil _
  | append_singleton lines entry ih =>
    rw [List.foldl_concat]
    exact narrow_addLine ih entry

end Layout

end Assembler
end Mos6502
