/-
# Comparisons

A comparison is a difference that is not kept. With C set SBC borrows nothing, so it carries
just when its operand is not larger than A, and with D clear what it leaves in A is what CMP
notes (`compare_eq_subtract`). In decimal the carry is that of the binary difference
(`Sum.carry_subtractDecimal`). So the comparison tells how two bytes are in order, and does not
depend on C and D at all (`compares_compare`).

Key definition: `Compares`.
Key theorems: `compare_eq_subtract`, `compares_compare`,
`comparisons_are_differences_not_kept`.
-/
import Mos6502.Proofs.Processor.Arithmetic

namespace Mos6502

universe u

/-! ### What the law says -/

/-- The instructions that compare, each with its register. -/
def Mnemonic.comparing : List (Mnemonic × ByteRegister) := [(.cmp, .a), (.cpx, .x), (.cpy, .y)]

namespace Processor

variable {β : Type u}

/-- The flags tell how a value and an operand are in order. -/
structure Compares (q : Processor β) (value m : UInt8) : Prop where
  /-- C tells that the value is not below the operand. -/
  carry_iff : q.status.c = true ↔ m.toNat ≤ value.toNat
  zero_iff : q.status.z = true ↔ value = m
  /-- N is the top bit of their difference modulo 256. -/
  negative_eq : q.status.n = (((value.toNat : Int) - m.toNat) % 256).toNat.testBit 7

end Processor

/-! ### Differences -/

namespace Sum

theorem value_subtractBinary_true (a m : UInt8) : (subtractBinary a m true).value = a - m := by
  have hvalue := (holds_subtractBinary a m true).value_eq
  have ha := a.toNat_lt
  have hm := m.toNat_lt
  apply UInt8.toNat.inj
  rw [UInt8.toNat_sub]
  simp only [Bool.toNat_true] at hvalue
  omega

/-- Without a borrow it carries unless the second byte is larger. -/
theorem carry_subtractBinary_true (a m : UInt8) :
    (subtractBinary a m true).carry = decide (m ≤ a) := by
  have hcarry := (holds_subtractBinary a m true).carry_iff
  rw [Bool.eq_iff_iff, hcarry, decide_eq_true_iff, UInt8.le_iff_toNat_le]
  simp only [Bool.toNat_true]
  omega

theorem carry_subtractDecimal (a m : UInt8) (carry : Bool) :
    (subtractDecimal a m carry).carry = (subtractBinary a m carry).carry := rfl

end Sum

theorem Word.isNegative_sub (value m : UInt8) :
    isNegative (value - m) = (((value.toNat : Int) - m.toNat) % 256).toNat.testBit 7 := by
  have hvalue := value.toNat_lt
  have hm := m.toNat_lt
  rw [Bool.eq_iff_iff, Word.isNegative_iff, UInt8.toNat_sub, Nat.testBit_eq_decide_div_mod_eq,
    decide_eq_true_iff]
  omega

namespace Processor

variable {β : Type u} [Bus β]

theorem compare_eq (p : Processor β) (register : ByteRegister) (mode : AddressingMode) :
    let m := Bus.read p.bus (p.operandAddress p.pc mode)
    p.compare register mode = { p with
      pc := p.pc + mode.fetchedBytes
      status := { p.status with c := decide (m ≤ p.byte register) }.ofResult (p.byte register - m)
      cycles := (p.operand mode).2.cycles } := by
  simp only [compare]
  rw [operand_eq]
  cases register <;> rfl

theorem subtract_eq_of_decimal {p : Processor β} (hd : p.status.d = true) (mode : AddressingMode) :
    p.subtract mode =
      { p with
        pc := p.pc + mode.fetchedBytes
        cycles := (p.operand mode).2.cycles }.takeSum
          (subtractDecimal p.a (Bus.read p.bus (p.operandAddress p.pc mode)) p.status.c) := by
  simp only [subtract]
  rw [operand_eq]
  simp only [hd, if_true]

/-- **A comparison is a difference that is not kept**: from the same state it leaves all as
SBC does but A and V, which stay. -/
theorem compare_eq_subtract {p : Processor β} (hc : p.status.c = true) (hd : p.status.d = false)
    (mode : AddressingMode) :
    p.compare .a mode = { p.subtract mode with
      a := p.a
      status := { (p.subtract mode).status with v := p.status.v } } := by
  rw [compare_eq, subtract_eq hd, hc]
  simp only [takeSum, Sum.value_subtractBinary_true, Sum.carry_subtractBinary_true,
    Status.ofResult, byte]
  rfl

/-- A decimal difference, which has another value, still agrees but for Z and N. -/
theorem compare_eq_subtract_of_decimal {p : Processor β} (hc : p.status.c = true)
    (hd : p.status.d = true) (mode : AddressingMode) :
    p.compare .a mode = { p.subtract mode with
      a := p.a
      status := { (p.subtract mode).status with
        v := p.status.v
        z := (p.compare .a mode).status.z
        n := (p.compare .a mode).status.n } } := by
  rw [compare_eq, subtract_eq_of_decimal hd, hc]
  simp only [takeSum, Sum.carry_subtractDecimal, Sum.carry_subtractBinary_true,
    Status.ofResult, byte]
  rfl

/-- **A comparison tells how the register and the operand are in order**, in every state. -/
theorem compares_compare (p : Processor β) (register : ByteRegister) (mode : AddressingMode) :
    Compares (p.compare register mode) (p.byte register)
      (Bus.read p.bus (p.operandAddress p.pc mode)) := by
  rw [compare_eq]
  refine ⟨?_, ?_, Word.isNegative_sub _ _⟩
  · exact decide_eq_true_iff.trans UInt8.le_iff_toNat_le
  · exact beq_iff_eq.trans (by rw [UInt8.sub_eq_iff_eq_add, UInt8.zero_add])

/-- **Comparisons are differences that are not kept.** In every mode that CMP has, and with C
set, it leaves all as SBC does in that mode, but for A and V, which stay, and with D set for Z
and N. Whatever C and D are, CMP, CPX and CPY tell how their register and their operand are in
order. -/
theorem comparisons_are_differences_not_kept (p : Processor β) (mode : AddressingMode) :
    (mode ∈ Mnemonic.cmp.modes → p.status.c = true →
      let q := p.perform Mnemonic.cmp.operation mode
      let r := p.perform Mnemonic.sbc.operation mode
      mode ∈ Mnemonic.sbc.modes ∧
      (p.status.d = false →
        q = { r with a := p.a, status := { r.status with v := p.status.v } }) ∧
      (p.status.d = true → q = { r with
        a := p.a
        status := { r.status with v := p.status.v, z := q.status.z, n := q.status.n } })) ∧
    ∀ m register, (m, register) ∈ Mnemonic.comparing → mode ∈ m.modes →
      Compares (p.perform m.operation mode) (p.byte register)
        (Bus.read p.bus (p.operandAddress p.pc mode)) := by
  have hmodes : ∀ mode ∈ Mnemonic.cmp.modes, mode ∈ Mnemonic.sbc.modes := by decide +kernel
  have hoperations : ∀ pair ∈ Mnemonic.comparing, pair.1.operation = .compare pair.2 := by decide
  refine ⟨fun hmode hc => ⟨hmodes mode hmode, fun hd => compare_eq_subtract hc hd mode,
    fun hd => compare_eq_subtract_of_decimal hc hd mode⟩, fun m register hpair _ => ?_⟩
  rw [hoperations (m, register) hpair]
  exact compares_compare p register mode

/-- The operand is larger than A and lies on the page behind that of its base. -/
def comparing (decimal : Bool) : Processor Memory :=
  { powerOn (Bus.writeAll .zero [(0x0200, 0xFF), (0x0201, 0x02), (0x0301, 0x50)]) with
    a := 0x40
    x := 0x02
    pc := 0x0200
    status := { Status.reset with c := true, d := decimal } }

theorem read_operandAddress_comparing (decimal : Bool) :
    let p := comparing decimal
    Bus.read p.bus (p.operandAddress p.pc .absoluteX) = 0x50 := by
  have hbase : Bus.word (comparing decimal).bus 0x0200 = 0x02FF := by
    simp [comparing, powerOn, reset, Bus.word, Word.ofBytes]
  show Bus.read (comparing decimal).bus (Bus.word (comparing decimal).bus 0x0200 + 0x02) = 0x50
  rw [hbase]
  simp [comparing, powerOn, reset]

/-- The comparison finds that A is smaller, takes as long as the difference, and keeps A. With
D set it leaves the same carry. -/
theorem comparing_is_a_difference_not_kept :
    let q := (comparing false).perform Mnemonic.cmp.operation .absoluteX
    let r := (comparing false).perform Mnemonic.sbc.operation .absoluteX
    let s := (comparing true).perform Mnemonic.cmp.operation .absoluteX
    let t := (comparing true).perform Mnemonic.sbc.operation .absoluteX
    (q.cycles = r.cycles ∧ q.status.n = r.status.n ∧ q.a = 0x40) ∧
      (¬ q.status.c = true ∧ q.status.n = true) ∧ s.status.c = t.status.c := by
  intro q r s t
  have hmode : AddressingMode.absoluteX ∈ Mnemonic.cmp.modes := by decide
  obtain ⟨hbinary, hcompares⟩ := comparisons_are_differences_not_kept (comparing false) .absoluteX
  have hdecimal := (comparisons_are_differences_not_kept (comparing true) .absoluteX).1 hmode rfl
  have hq : q = { r with a := 0x40, status := { r.status with v := false } } :=
    (hbinary hmode rfl).2.1 rfl
  have hs : s = { t with
      a := 0x40
      status := { t.status with v := false, z := s.status.z, n := s.status.n } } :=
    hdecimal.2.2 rfl
  have horder : Compares q 0x40 0x50 :=
    read_operandAddress_comparing false ▸ hcompares .cmp .a (by decide) hmode
  clear_value q r s t
  refine ⟨?_, ⟨horder.carry_iff.not.mpr (by decide), horder.negative_eq⟩, ?_⟩
  · rw [hq]
    exact ⟨rfl, rfl, rfl⟩
  · rw [hs]

end Processor
end Mos6502
