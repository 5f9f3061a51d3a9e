/-
# Encoded instructions say what their operands say

The mode of an instruction is chosen before its operand is encoded, from the
form of the operand and the symbols known by then. Whatever the symbols are
when it is encoded, the bytes are then as many as the mode takes, the first
decodes to the mnemonic and the mode, and the others stand for the number that
the operand stands for (`encode_eq_ok`). The mode and the operand fit each
other because a mode without operand bytes is chosen only for an operand
without a number, and a branch only for a target (`requestedMode_fits`).

Key definitions: `Operand.number`, `readNumber`.
Key theorems: `requestedMode_fits`, `branchOffset_eq_ok`, `encode_eq_ok`,
`length_encode`.
-/
import Mos6502.Assembler.Encoding
import Mos6502.Proofs.Result
import Mos6502.Proofs.Table
import Mos6502.Proofs.Word

namespace Mos6502

/-- The number that the bytes after the opcode of an instruction stand for: the
target of a signed distance from the next instruction, a byte, or a word with
its low byte first. No bytes stand for no number. -/
def AddressingMode.readNumber (mode : AddressingMode) (address : UInt16) : List UInt8 → Option Int
  | [byte] =>
    if mode = .relative then some (address.toNat + 2 + byte.toInt8.toInt) else some (byte.toNat : Int)
  | [low, high] => some (low.toNat + 256 * high.toNat)
  | _ => none

namespace Assembler

/-- The number that the operand of an instruction stands for, if it has one:
the value of its expression, or the target of its distance. -/
def Operand.number (address : UInt16) (symbols : SymbolTable) : Operand → Except Cause (Option Int)
  | .none | .accumulator => .ok .none
  | .displacement distance => .ok (some (address.toNat + distance))
  | .immediate value | .direct value | .indexedX value | .indexedY value | .indirect value
  | .indirectX value | .indirectY value => (fun word => some (word.toNat : Int)) <$> value.resolve symbols

/-! ### The mode fits the operand -/

theorem selectMode_eq_ok {m : Mnemonic} {symbols : SymbolTable} {operand : Operand}
    {mode : AddressingMode} :
    selectMode m symbols operand = .ok mode ↔
      mode = requestedMode m symbols operand ∧ m.supports mode = true := by
  unfold selectMode
  by_cases h : m.supports (requestedMode m symbols operand) = true
  · simp only [h, if_true, Except.ok.injEq]
    exact ⟨fun e => ⟨e.symm, e ▸ h⟩, fun e => e.1.symm⟩
  · simp only [h, if_false, Bool.false_eq_true, reduceCtorEq, false_iff, not_and]
    exact fun e => e ▸ h

theorem sized_eq_or (m : Mnemonic) (zeroPage : Bool) (short long : AddressingMode) :
    sized m zeroPage short long = short ∨ sized m zeroPage short long = long := by
  unfold sized
  split
  · exact Or.inl rfl
  · exact Or.inr rfl

/-- An expression is asked for by a mode with operand bytes, a distance by the
mode of branches, and nothing by a mode without operand bytes. -/
theorem requestedMode_fits (m : Mnemonic) (symbols : SymbolTable) (operand : Operand) :
    match operand with
    | .none | .accumulator => (requestedMode m symbols operand).operandBytes = 0
    | .displacement _ => requestedMode m symbols operand = .relative
    | _ => (requestedMode m symbols operand).operandBytes = 1 ∨
        (requestedMode m symbols operand).operandBytes = 2 := by
  cases operand with
  | none =>
    simp only [requestedMode]
    split <;> rfl
  | accumulator | displacement => rfl
  | immediate | indirectX | indirectY => exact Or.inl rfl
  | indirect => exact Or.inr rfl
  | direct value =>
    simp only [requestedMode]
    split
    · exact Or.inl rfl
    · rcases sized_eq_or m (value.isZeroPage symbols) .zeroPage .absolute with h | h <;> rw [h]
      · exact Or.inl rfl
      · exact Or.inr rfl
  | indexedX value =>
    rcases sized_eq_or m (value.isZeroPage symbols) .zeroPageX .absoluteX with h | h <;>
      simp only [requestedMode, h]
    · exact Or.inl rfl
    · exact Or.inr rfl
  | indexedY value =>
    rcases sized_eq_or m (value.isZeroPage symbols) .zeroPageY .absoluteY with h | h <;>
      simp only [requestedMode, h]
    · exact Or.inl rfl
    · exact Or.inr rfl

/-! ### The operand bytes -/

/-- The offset of a branch, read as a signed number, leads to its target. -/
theorem branchOffset_eq_ok {address target : UInt16} {byte : UInt8}
    (h : branchOffset address target = .ok byte) :
    (address.toNat : Int) + 2 + byte.toInt8.toInt = target.toNat := by
  simp only [branchOffset] at h
  split at h
  · rename_i hrange
    rw [Except.ok.injEq] at h
    rw [← h, Word.toInt_toInt8_ofInt hrange.1 hrange.2]
    omega
  · cases h

theorem encodeDisplacement_eq_ok {address : UInt16} {distance : Int} {bytes : List UInt8}
    (h : encodeDisplacement address distance = .ok bytes) :
    bytes.length = 1 ∧
      AddressingMode.relative.readNumber address bytes = some (address.toNat + distance) := by
  simp only [encodeDisplacement] at h
  split at h
  · rename_i hrange
    obtain ⟨byte, hbyte, h⟩ := Result.bind_eq_ok.mp h
    cases h
    have htarget := branchOffset_eq_ok hbyte
    have hword : (UInt16.ofNat (address.toNat + distance : Int).toNat).toNat =
        (address.toNat + distance : Int).toNat := Word.toNat_ofNat (by omega)
    refine ⟨rfl, ?_⟩
    simp only [AddressingMode.readNumber, if_true, htarget, hword, Option.some.injEq]
    omega
  · cases h

theorem encodeValue_eq_ok {mode : AddressingMode} {address value : UInt16} {bytes : List UInt8}
    (hmode : mode.operandBytes = 1 ∨ mode.operandBytes = 2)
    (h : encodeValue mode address value = .ok bytes) :
    bytes.length = mode.operandBytes ∧ mode.readNumber address bytes = some (value.toNat : Int) := by
  unfold encodeValue at h
  by_cases hrel : mode = .relative
  · subst hrel
    obtain ⟨byte, hbyte, h⟩ := Result.bind_eq_ok.mp h
    cases h
    exact ⟨rfl, by simp [AddressingMode.readNumber, branchOffset_eq_ok hbyte]⟩
  rw [if_neg hrel] at h
  by_cases htwo : mode.operandBytes = 2
  · rw [if_pos htwo, Except.ok.injEq] at h
    subst h
    refine ⟨htwo.symm, ?_⟩
    simp only [AddressingMode.readNumber, Word.toNat_low, Word.toNat_high, Option.some.injEq]
    omega
  · rw [if_neg htwo] at h
    split at h
    · rename_i hsmall
      rw [Except.ok.injEq] at h
      subst h
      have hlt : value.toNat ≤ 0xFF := UInt16.le_iff_toNat_le.mp hsmall
      refine ⟨by simp only [List.length_singleton]; omega, ?_⟩
      simp only [AddressingMode.readNumber, if_neg hrel, UInt16.toNat_toUInt8, Option.some.injEq]
      omega
    · cases h

/-- The operand bytes are as many as the mode takes and stand for the number of
the operand. -/
theorem encodeOperand_eq_ok {m : Mnemonic} {earlier symbols : SymbolTable} {operand : Operand}
    {address : UInt16} {bytes : List UInt8}
    (h : encodeOperand (requestedMode m earlier operand) address symbols operand = .ok bytes) :
    bytes.length = (requestedMode m earlier operand).operandBytes ∧
      operand.number address symbols =
        .ok ((requestedMode m earlier operand).readNumber address bytes) := by
  have hfits := requestedMode_fits m earlier operand
  generalize requestedMode m earlier operand = mode at h hfits ⊢
  cases operand with
  | none | accumulator =>
    cases h
    exact ⟨hfits.symm, rfl⟩
  | displacement distance =>
    subst hfits
    obtain ⟨hlength, hnumber⟩ := encodeDisplacement_eq_ok h
    exact ⟨hlength, by rw [hnumber]; rfl⟩
  | immediate value | direct value | indexedX value | indexedY value | indirect value
  | indirectX value | indirectY value =>
    obtain ⟨word, hword, h⟩ := Result.bind_eq_ok.mp h
    obtain ⟨hlength, hnumber⟩ := encodeValue_eq_ok hfits h
    exact ⟨hlength, by rw [hnumber, Operand.number, hword]; rfl⟩

/-! ### The instruction -/

/-- **What is encoded decodes to what was encoded**: a row of the table with the
mnemonic and the mode, and bytes that stand for the number of the operand. -/
theorem encode_eq_ok {m : Mnemonic} {earlier symbols : SymbolTable} {operand : Operand}
    {mode : AddressingMode} {address : UInt16} {bytes : List UInt8}
    (hmode : selectMode m earlier operand = .ok mode)
    (h : encode m mode operand address symbols = .ok bytes) :
    ∃ opcode rest, bytes = opcode.code :: rest ∧ Opcode.find? m mode = some opcode ∧
      rest.length = mode.operandBytes ∧
      operand.number address symbols = .ok (mode.readNumber address rest) := by
  obtain ⟨rfl, -⟩ := selectMode_eq_ok.mp hmode
  unfold encode at h
  cases hfind : Opcode.find? m (requestedMode m earlier operand) with
  | none => simp [hfind] at h
  | some opcode =>
    simp only [hfind] at h
    obtain ⟨rest, hrest, h⟩ := Result.bind_eq_ok.mp h
    cases h
    obtain ⟨hlength, hnumber⟩ := encodeOperand_eq_ok hrest
    exact ⟨opcode, rest, rfl, rfl, hlength, hnumber⟩

/-- An instruction takes the bytes that were reserved for it. -/
theorem length_encode {m : Mnemonic} {earlier symbols : SymbolTable} {operand : Operand}
    {mode : AddressingMode} {address : UInt16} {bytes : List UInt8}
    (hmode : selectMode m earlier operand = .ok mode)
    (h : encode m mode operand address symbols = .ok bytes) :
    bytes.length = 1 + mode.operandBytes := by
  obtain ⟨opcode, rest, rfl, -, hlength, -⟩ := encode_eq_ok hmode h
  rw [List.length_cons, hlength, Nat.add_comm]

end Assembler
end Mos6502
