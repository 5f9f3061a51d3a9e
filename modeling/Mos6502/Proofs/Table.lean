/-
# The opcode table, read both ways

No byte stands in two rows of the table, and no mnemonic has two rows for one
addressing mode. So the row that encoding finds for an instruction is the row
that decoding finds for its byte.

Key theorems: `Opcode.decode?_code`, `Opcode.decode?_of_find?`.
-/
import Mos6502.Opcode

namespace Mos6502
namespace Opcode

theorem mem_of_decode? {code : UInt8} {op : Opcode} (h : decode? code = some op) :
    op ∈ documented ∧ op.code = code := by
  rw [decode?_eq_find?] at h
  exact ⟨List.mem_of_find?_eq_some h, by simpa using List.find?_some h⟩

/-- The byte of a row decodes to that row. -/
theorem decode?_code : ∀ op ∈ documented, decode? op.code = some op := by
  simp only [decode?_eq_find?]
  decide +kernel

theorem mem_of_find? {m : Mnemonic} {mode : AddressingMode} {op : Opcode}
    (h : find? m mode = some op) : op ∈ documented ∧ op.mnemonic = m ∧ op.mode = mode :=
  ⟨List.mem_of_find?_eq_some h, by simpa using List.find?_some h⟩

theorem find?_of_mem : ∀ op ∈ documented, find? op.mnemonic op.mode = some op := by
  decide +kernel

theorem find?_eq_some_iff {m : Mnemonic} {mode : AddressingMode} {op : Opcode} :
    find? m mode = some op ↔ op ∈ documented ∧ op.mnemonic = m ∧ op.mode = mode := by
  refine ⟨mem_of_find?, ?_⟩
  rintro ⟨hmem, rfl, rfl⟩
  exact find?_of_mem op hmem

/-- What encoding finds, decoding finds too. -/
theorem decode?_of_find? {m : Mnemonic} {mode : AddressingMode} {op : Opcode}
    (h : find? m mode = some op) : decode? op.code = some op :=
  decode?_code op (mem_of_find? h).1

end Opcode
end Mos6502
