/-
# Operand addresses as numbers

The number of an operand's address is made of the bytes after the opcode, of an index
register and of the two bytes of a pointer. Sums within page zero are taken modulo 256
and all others modulo 65536, and a pointer's bytes lie on one page (`definedAddress`).
The words that the processor adds have these numbers (`toNat_operandAddress`), at
whatever place the instruction lies and whatever it does at the address.

Key definitions: `Bus.byteAt`, `Bus.pairAt`, `definedAddress`.
Key theorems: `Bus.toNat_word`, `Bus.toNat_zeroPageWord`, `Bus.toNat_wordInPage`,
`toNat_operandAddress`, `effective_addresses_are_as_defined`.
-/
import Mos6502.Proofs.Memory
import Mos6502.Proofs.Processor.Operand

namespace Mos6502

universe u

/-! ### What the law says -/

namespace Bus

variable {β : Type u} [Bus β]

/-- The number of the byte at the address with a number. -/
def byteAt (bus : β) (number : Nat) : Nat := (read bus (UInt16.ofNat number)).toNat

/-- The number of the word whose low byte is at one address and whose high byte is at
another. -/
def pairAt (bus : β) (low high : Nat) : Nat := byteAt bus low + 256 * byteAt bus high

end Bus

namespace Processor

variable {β : Type u} [Bus β]

/-- The number of the operand's address in a mode, where the bytes after the opcode
begin at the program counter. A mode without an operand in memory leaves it there. -/
def definedAddress (p : Processor β) (mode : AddressingMode) : Nat :=
  let operand := Bus.byteAt p.bus p.pc.toNat
  let word := Bus.pairAt p.bus p.pc.toNat ((p.pc.toNat + 1) % 65536)
  match mode with
  | .zeroPage => operand
  | .zeroPageX => (operand + p.x.toNat) % 256
  | .zeroPageY => (operand + p.y.toNat) % 256
  | .absolute => word
  | .absoluteX => (word + p.x.toNat) % 65536
  | .absoluteY => (word + p.y.toNat) % 65536
  | .indirect => Bus.pairAt p.bus word (256 * (word / 256) + (word + 1) % 256)
  | .indirectX => Bus.pairAt p.bus ((operand + p.x.toNat) % 256) ((operand + p.x.toNat + 1) % 256)
  | .indirectY => (Bus.pairAt p.bus operand ((operand + 1) % 256) + p.y.toNat) % 65536
  | .immediate | .implicit | .accumulator | .relative => p.pc.toNat

end Processor

/-! ### Words on the bus -/

namespace Bus

variable {β : Type u} [Bus β]

theorem byteAt_of_toNat {address : UInt16} {number : Nat} (h : address.toNat = number) (bus : β) :
    byteAt bus number = (read bus address).toNat := by
  rw [← h, byteAt, UInt16.ofNat_toNat]

theorem toNat_ofBytes_read {low high : UInt16} {first second : Nat} (hlow : low.toNat = first)
    (hhigh : high.toNat = second) (bus : β) :
    (Word.ofBytes (read bus low) (read bus high)).toNat = pairAt bus first second := by
  rw [Word.toNat_ofBytes, pairAt, byteAt_of_toNat hlow, byteAt_of_toNat hhigh]

theorem toNat_word (bus : β) (address : UInt16) :
    (word bus address).toNat = pairAt bus address.toNat ((address.toNat + 1) % 65536) :=
  toNat_ofBytes_read rfl (UInt16.toNat_add address 1) bus

theorem toNat_zeroPageWord (bus : β) (pointer : UInt8) :
    (zeroPageWord bus pointer).toNat = pairAt bus pointer.toNat ((pointer.toNat + 1) % 256) :=
  toNat_ofBytes_read (UInt8.toNat_toUInt16 pointer)
    ((UInt8.toNat_toUInt16 _).trans (UInt8.toNat_add pointer 1)) bus

/-- The high byte of a pointer at the end of a page is at the page's beginning. -/
theorem toNat_wordInPage (bus : β) (address : UInt16) :
    (wordInPage bus address).toNat =
      pairAt bus address.toNat (256 * (address.toNat / 256) + (address.toNat + 1) % 256) := by
  refine toNat_ofBytes_read rfl ?_ bus
  rw [Word.toNat_ofBytes, UInt8.toNat_add, UInt8.toNat_one, Word.toNat_low, Word.toNat_high]
  omega

end Bus

namespace Processor

variable {β : Type u} [Bus β]

/-- **The address that a mode names has the number that the mode is defined by.** -/
theorem toNat_operandAddress (p : Processor β) (mode : AddressingMode) :
    (p.operandAddress p.pc mode).toNat = p.definedAddress mode := by
  have hbyte : Bus.byteAt p.bus p.pc.toNat = (Bus.read p.bus p.pc).toNat :=
    Bus.byteAt_of_toNat rfl p.bus
  have hword := Bus.toNat_word p.bus p.pc
  cases mode with
  | implicit | accumulator | relative | immediate => rfl
  | zeroPage => simp only [operandAddress, definedAddress, UInt8.toNat_toUInt16, hbyte]
  | zeroPageX | zeroPageY =>
    simp only [operandAddress, definedAddress, UInt8.toNat_toUInt16, UInt8.toNat_add, hbyte]
  | absolute => exact hword
  | absoluteX | absoluteY =>
    simp only [operandAddress, definedAddress, UInt16.toNat_add, UInt8.toNat_toUInt16, hword]
  | indirect => simp only [operandAddress, definedAddress, Bus.toNat_wordInPage, hword]
  | indirectX =>
    simp only [operandAddress, definedAddress, Bus.toNat_zeroPageWord, UInt8.toNat_add, hbyte,
      Nat.reducePow, Nat.mod_add_mod]
  | indirectY =>
    simp only [operandAddress, definedAddress, Bus.toNat_zeroPageWord, UInt16.toNat_add,
      UInt8.toNat_toUInt16, hbyte]

/-- All modes but those without an operand in memory fetch the bytes that they have. -/
theorem toNat_add_fetchedBytes {mode : AddressingMode}
    (h : mode ∉ [.implicit, .accumulator, .relative]) (address : UInt16) :
    (address + mode.fetchedBytes).toNat = (address.toNat + mode.operandBytes) % 65536 := by
  cases mode with
  | implicit | accumulator | relative => exact absurd (by decide) h
  | immediate | zeroPage | zeroPageX | zeroPageY | indirectX | indirectY =>
    exact UInt16.toNat_add address 1
  | absolute | absoluteX | absoluteY | indirect => exact UInt16.toNat_add address 2

/-- **Effective addresses are as the modes define them**, whatever is done there. Those
of page zero stay in it. To make one the processor moves past the bytes of the mode,
takes time and changes nothing else. -/
theorem effective_addresses_are_as_defined {mode : AddressingMode}
    (hmode : mode ∉ [.implicit, .accumulator, .relative]) (p : Processor β) (access : Access) :
    let address := (p.effectiveAddress mode access).1
    let q := (p.effectiveAddress mode access).2
    address.toNat = p.definedAddress mode ∧
      (mode ∈ [.zeroPage, .zeroPageX, .zeroPageY] → address.toNat < 256) ∧
      q.pc.toNat = (p.pc.toNat + mode.operandBytes) % 65536 ∧
      q = { p with pc := q.pc, cycles := q.cycles } ∧
      ∀ other, (p.effectiveAddress mode other).1 = address := by
  intro address q
  have haddress : address = p.operandAddress p.pc mode := fst_effectiveAddress p mode access
  have hq : q = { p with pc := p.pc + mode.fetchedBytes, cycles := q.cycles } :=
    congrArg Prod.snd (effectiveAddress_eq p mode access)
  have hpc : q.pc = p.pc + mode.fetchedBytes := congrArg Processor.pc hq
  refine ⟨?_, fun hzero => ?_, ?_, ?_, fun other => ?_⟩
  · rw [haddress, toNat_operandAddress]
  · have hbyte : ∃ byte : UInt8, address = byte.toUInt16 := by
      rw [haddress]
      simp only [List.mem_cons, List.not_mem_nil, or_false] at hzero
      rcases hzero with rfl | rfl | rfl <;> exact ⟨_, rfl⟩
    obtain ⟨byte, hbyte⟩ := hbyte
    rw [hbyte, UInt8.toNat_toUInt16]
    exact byte.toNat_lt
  · rw [hpc, toNat_add_fetchedBytes hmode]
  · rw [hpc]
    exact hq
  · rw [haddress, fst_effectiveAddress]

/-- The operand of a jump lies across the end of memory, and names a pointer at the end
of a page. -/
def pointerAcrossTheEnd : Processor Memory :=
  { powerOn (Bus.writeAll .zero
      [(0xFFFF, 0xFF), (0x0000, 0x30), (0x30FF, 0x80), (0x3000, 0x40), (0x3100, 0x50)]) with
    pc := 0xFFFF }

theorem pairAt_pointerAcrossTheEnd :
    Bus.pairAt pointerAcrossTheEnd.bus 0xFFFF 0x0000 = 0x30FF ∧
      Bus.pairAt pointerAcrossTheEnd.bus 0x30FF 0x3000 = 0x4080 := by
  have hbytes : Bus.byteAt pointerAcrossTheEnd.bus 0xFFFF = 0xFF ∧
      Bus.byteAt pointerAcrossTheEnd.bus 0x0000 = 0x30 ∧
      Bus.byteAt pointerAcrossTheEnd.bus 0x30FF = 0x80 ∧
      Bus.byteAt pointerAcrossTheEnd.bus 0x3000 = 0x40 := by
    refine ⟨?_, ?_, ?_, ?_⟩ <;> simp [Bus.byteAt, pointerAcrossTheEnd, powerOn, reset]
  obtain ⟨hlow, hhigh, hpointerLow, hpointerHigh⟩ := hbytes
  exact ⟨by rw [Bus.pairAt, hlow, hhigh], by rw [Bus.pairAt, hpointerLow, hpointerHigh]⟩

/-- It leads to 0x4080 and not to 0x5080. -/
theorem pointerAcrossTheEnd_is_as_defined :
    AddressingMode.indirect ∉ [.implicit, .accumulator, .relative] ∧
      (pointerAcrossTheEnd.effectiveAddress .indirect .read).1.toNat = 0x4080 ∧
      (pointerAcrossTheEnd.effectiveAddress .indirect .write).1.toNat = 0x4080 ∧
      (pointerAcrossTheEnd.effectiveAddress .indirect .read).2.pc.toNat = 1 := by
  have hmode : AddressingMode.indirect ∉ [.implicit, .accumulator, .relative] := by decide
  obtain ⟨haddress, -, hpc, -, hsame⟩ :=
    effective_addresses_are_as_defined hmode pointerAcrossTheEnd .read
  have hstart : pointerAcrossTheEnd.pc.toNat = 0xFFFF := rfl
  obtain ⟨hword, hpointer⟩ := pairAt_pointerAcrossTheEnd
  have hdefined : pointerAcrossTheEnd.definedAddress .indirect = 0x4080 := by
    simp only [definedAddress, hstart, Nat.reduceAdd, Nat.reduceMod, Nat.reduceDiv, Nat.reduceMul,
      hword, hpointer]
  rw [hdefined] at haddress
  exact ⟨hmode, haddress, (congrArg UInt16.toNat (hsame .write)).trans haddress, hpc⟩

end Processor
end Mos6502
