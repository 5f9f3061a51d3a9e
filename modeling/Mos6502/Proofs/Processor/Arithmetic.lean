/-
# Binary sums

With D clear the adder adds integers. Its byte is the total modulo 256 and its carry
and its overflow tell that the total, of the operands as unsigned or as signed
numbers, did not fit (`holds_addBinary`). The complement of a byte is 255 less the
byte, and as a signed number -1 less it, so the same adder subtracts, and its carry
is then that nothing was borrowed (`holds_subtractBinary`). The processor takes such
a sum over, whatever mode its operand is in.

Key definitions: `Sum.Holds`, `TakesSum`.
Key theorems: `Sum.holds_addBinary`, `Sum.holds_subtractBinary`,
`binary_sums_are_integer_sums`.
-/
import Mos6502.Proofs.Processor.Flow
import Mos6502.Proofs.Word

namespace Mos6502

universe u

/-! ### What the law says -/

/-- The adder has put out a total: its byte, whether it carries, and whether the total
of the signed operands left the signed range. -/
structure Sum.Holds (sum : Sum) (total signed : Int) (carries : Prop) : Prop where
  value_eq : (sum.value.toNat : Int) = total % 256
  /-- The carry tells that it carries. -/
  carry_iff : sum.carry = true ↔ carries
  /-- The overflow tells that no signed byte is the signed total. -/
  overflow_iff : sum.overflow = true ↔ ¬ (-128 ≤ signed ∧ signed ≤ 127)

namespace Processor

variable {β : Type u}

/-- The processor has taken a total over into A and the flags. The other registers, the
other flags and the bus are as they were. -/
structure TakesSum (p q : Processor β) (total signed : Int) (carries : Prop) : Prop where
  a_eq : (q.a.toNat : Int) = total % 256
  /-- C tells that the total carries. -/
  carry_iff : q.status.c = true ↔ carries
  /-- V tells that the signed total lies outside the signed range. -/
  overflow_iff : q.status.v = true ↔ ¬ (-128 ≤ signed ∧ signed ≤ 127)
  zero_iff : q.status.z = true ↔ q.a = 0
  /-- N tells that A is negative. -/
  negative_iff : q.status.n = true ↔ q.a.toInt8.toInt < 0
  registers_eq : q.x = p.x ∧ q.y = p.y ∧ q.sp = p.sp
  flags_eq : q.status.d = p.status.d ∧ q.status.i = p.status.i ∧ q.status.b = p.status.b
  bus_eq : q.bus = p.bus

end Processor

/-! ### The adder -/

namespace Sum

theorem toNat_value_addBinary (a m : UInt8) (carry : Bool) :
    (addBinary a m carry).value.toNat = (a.toNat + m.toNat + carry.toNat) % 256 :=
  UInt8.toNat_ofNat'

/-- The signs of the operands and of the sum tell that the signed total does not fit. -/
theorem overflow_addBinary_iff (a m : UInt8) (carry : Bool) :
    let signed := a.toInt8.toInt + m.toInt8.toInt + carry.toNat
    (addBinary a m carry).overflow = true ↔ ¬ (-128 ≤ signed ∧ signed ≤ 127) := by
  intro signed
  have ha := a.toNat_lt
  have hm := m.toNat_lt
  have hcarry := carry.toNat_le
  have hvalue := toNat_value_addBinary a m carry
  have hsigns : (addBinary a m carry).overflow = true ↔
      (128 ≤ a.toNat ↔ 128 ≤ m.toNat) ∧
        ¬ (128 ≤ (addBinary a m carry).value.toNat ↔ 128 ≤ a.toNat) := by
    simp only [← Word.isNegative_iff, ← Bool.eq_iff_iff]
    simp [addBinary]
  have hsigned : signed = (if 128 ≤ a.toNat then (a.toNat : Int) - 256 else a.toNat) +
      (if 128 ≤ m.toNat then (m.toNat : Int) - 256 else m.toNat) + carry.toNat := by
    simp only [signed, Word.toInt_toInt8, Word.isNegative_iff]
  rw [hsigns, hsigned, hvalue]
  omega

/-- **The adder adds integers.** -/
theorem holds_addBinary (a m : UInt8) (carry : Bool) :
    let total : Int := a.toNat + m.toNat + carry.toNat
    (addBinary a m carry).Holds total (a.toInt8.toInt + m.toInt8.toInt + carry.toNat)
      (255 < total) := by
  intro total
  have hvalue := toNat_value_addBinary a m carry
  refine ⟨by omega, ?_, overflow_addBinary_iff a m carry⟩
  simp only [addBinary, decide_eq_true_eq]
  omega

/-- **The adder of the complement subtracts them**, with the inverse of the carry as
the borrow. -/
theorem holds_subtractBinary (a m : UInt8) (carry : Bool) :
    let total : Int := a.toNat - m.toNat - (1 - carry.toNat)
    (subtractBinary a m carry).Holds total
      (a.toInt8.toInt - m.toInt8.toInt - (1 - carry.toNat)) (0 ≤ total) := by
  intro total
  have hm := m.toNat_lt
  obtain ⟨hvalue, hcarry, hoverflow⟩ := holds_addBinary a (~~~m) carry
  rw [UInt8.toNat_not, UInt8.size] at hvalue hcarry
  rw [Word.toInt_toInt8_not] at hoverflow
  refine ⟨?_, ?_, ?_⟩
  · rw [subtractBinary, hvalue]
    omega
  · rw [subtractBinary, hcarry]
    omega
  · rw [subtractBinary, hoverflow]
    omega

end Sum

namespace Processor

variable {β : Type u}

theorem takesSum_takeSum {sum : Sum} {total signed : Int} {carries : Prop}
    (h : sum.Holds total signed carries) (p : Processor β) (pc : UInt16) (cycles : Nat) :
    TakesSum p ({ p with pc := pc, cycles := cycles }.takeSum sum) total signed carries where
  a_eq := h.value_eq
  carry_iff := h.carry_iff
  overflow_iff := h.overflow_iff
  zero_iff := beq_iff_eq
  negative_iff := Word.isNegative_iff_toInt_lt sum.value
  registers_eq := ⟨rfl, rfl, rfl⟩
  flags_eq := ⟨rfl, rfl, rfl⟩
  bus_eq := rfl

variable [Bus β]

theorem add_eq {p : Processor β} (hd : p.status.d = false) (mode : AddressingMode) :
    p.add mode =
      { p with
        pc := p.pc + mode.fetchedBytes
        cycles := (p.operand mode).2.cycles }.takeSum
          (addBinary p.a (Bus.read p.bus (p.operandAddress p.pc mode)) p.status.c) := by
  simp only [add]
  rw [operand_eq]
  simp only [hd, Bool.false_eq_true, if_false]

theorem subtract_eq {p : Processor β} (hd : p.status.d = false) (mode : AddressingMode) :
    p.subtract mode =
      { p with
        pc := p.pc + mode.fetchedBytes
        cycles := (p.operand mode).2.cycles }.takeSum
          (subtractBinary p.a (Bus.read p.bus (p.operandAddress p.pc mode)) p.status.c) := by
  simp only [subtract]
  rw [operand_eq]
  simp only [hd, Bool.false_eq_true, if_false]

/-- **Binary sums are sums of integers in every mode.** With D clear ADC adds the byte
at its effective address and C to A, and SBC subtracts the byte and the inverse of C
from it. C tells that a sum exceeds a byte or that nothing was borrowed. -/
theorem binary_sums_are_integer_sums {p : Processor β} {op : Opcode}
    (hirq : p.irqPending = false) (hnmi : p.nmiPending = false) (hd : p.status.d = false)
    (hop : Opcode.decode? (Bus.read p.bus p.pc) = some op) :
    let address := (p.fetchByte.2.effectiveAddress op.mode .read).1
    let m := Bus.read p.bus address
    let carry : Int := p.status.c.toNat
    let sum : Int := p.a.toNat + m.toNat + carry
    let signedSum := p.a.toInt8.toInt + m.toInt8.toInt + carry
    let difference : Int := p.a.toNat - m.toNat - (1 - carry)
    let signedDifference := p.a.toInt8.toInt - m.toInt8.toInt - (1 - carry)
    address = p.operandAddress (p.pc + 1) op.mode ∧ p.step.fault = none ∧
      (op.mnemonic = .adc → TakesSum p p.step.after sum signedSum (255 < sum)) ∧
      (op.mnemonic = .sbc →
        TakesSum p p.step.after difference signedDifference (0 ≤ difference)) := by
  intro address m carry sum signedSum difference signedDifference
  have haddress : address = p.fetchByte.2.operandAddress p.fetchByte.2.pc op.mode :=
    fst_effectiveAddress p.fetchByte.2 op.mode .read
  have hbinary : p.fetchByte.2.status.d = false := hd
  have hstep := step_eq_perform hirq hnmi hop
  have hafter : p.step.after = p.fetchByte.2.perform op.mnemonic.operation op.mode :=
    congrArg Step.after hstep
  refine ⟨?_, congrArg Step.fault hstep, fun hadc => ?_, fun hsbc => ?_⟩
  · rw [haddress]
    exact operandAddress_fetchByte p (p.pc + 1) op.mode
  · rw [hafter, hadc, Mnemonic.operation, perform, add_eq hbinary, ← haddress]
    exact takesSum_takeSum (Sum.holds_addBinary p.a m p.status.c) p _ _
  · rw [hafter, hsbc, Mnemonic.operation, perform, subtract_eq hbinary, ← haddress]
    exact takesSum_takeSum (Sum.holds_subtractBinary p.a m p.status.c) p _ _

/-- One is added to the largest signed byte, or with a borrow subtracted from the
smallest. -/
def atSignedLimit (code a : UInt8) : Processor Memory := { acrossTheEnd code 0x01 0x00 with a := a }

theorem read_atSignedLimit (code a : UInt8) :
    let p := atSignedLimit code a
    Bus.read p.bus (p.operandAddress (p.pc + 1) .immediate) = 0x01 :=
  (read_acrossTheEnd code 0x01 0x00).2.1

/-- Both leave the signed range, and neither the unsigned one. -/
theorem atSignedLimit_is_integer_sum :
    (((atSignedLimit 0x69 0x7F).step.after.a.toNat : Int) = 0x80 ∧
      (atSignedLimit 0x69 0x7F).step.after.status.v = true ∧
      ¬ (atSignedLimit 0x69 0x7F).step.after.status.c = true) ∧
    (((atSignedLimit 0xE9 0x80).step.after.a.toNat : Int) = 0x7E ∧
      (atSignedLimit 0xE9 0x80).step.after.status.v = true ∧
      (atSignedLimit 0xE9 0x80).step.after.status.c = true) := by
  constructor
  · have hadc : ⟨0x69, .adc, .immediate, 2⟩ ∈ Opcode.documented := by decide
    have hop := decode?_acrossTheEnd hadc 0x01 0x00
    obtain ⟨haddress, -, hsum, -⟩ :=
      binary_sums_are_integer_sums (p := atSignedLimit 0x69 0x7F) rfl rfl rfl hop
    have htakes := hsum rfl
    rw [haddress, read_atSignedLimit 0x69 0x7F] at htakes
    exact ⟨htakes.a_eq, htakes.overflow_iff.mpr (by decide), htakes.carry_iff.not.mpr (by decide)⟩
  · have hsbc : ⟨0xE9, .sbc, .immediate, 2⟩ ∈ Opcode.documented := by decide
    have hop := decode?_acrossTheEnd hsbc 0x01 0x00
    obtain ⟨haddress, -, -, hdifference⟩ :=
      binary_sums_are_integer_sums (p := atSignedLimit 0xE9 0x80) rfl rfl rfl hop
    have htakes := hdifference rfl
    rw [haddress, read_atSignedLimit 0xE9 0x80] at htakes
    exact ⟨htakes.a_eq, htakes.overflow_iff.mpr (by decide), htakes.carry_iff.mpr (by decide)⟩

end Processor
end Mos6502
