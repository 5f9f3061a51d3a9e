/-
# Decimal sums

A byte whose two digits are decimal stands for a number below one hundred
(`IsDecimal`). With D set the adder works digit by digit. A digit that is too large, or
negative, is corrected by six, so that its low half is the digit modulo ten and what is
above goes to the next digit (`Sum.isDecimal_addDecimal`, `Sum.isDecimal_subtractDecimal`).
The carry of a difference is that of the binary one, which is the same because decimal
bytes are in the order of their numbers. So a sum adds an amount modulo one hundred, and
sums in a row add what their amounts come to, in whatever order they are made
(`Calculates.isDecimal`).

Key definitions: `IsDecimal`, `DecimalSum`, `TakesDecimal`, `Makes`, `Calculates`.
Key theorems: `Sum.isDecimal_addDecimal`, `Sum.isDecimal_subtractDecimal`,
`takesDecimal_step`, `Calculates.isDecimal`, `decimal_sums_count_modulo_hundred`.
-/
import Mos6502.Proofs.Processor.Arithmetic
import Mos6502.Proofs.Processor.Requests

namespace Mos6502

universe u

/-! ### What the law says -/

/-- The two digits of a byte are decimal and stand for a number. -/
structure IsDecimal (byte : UInt8) (number : Int) : Prop where
  nonneg : 0 ≤ number
  lt_hundred : number < 100
  /-- The high digit is the tens and the low one the units. -/
  toNat_eq : (byte.toNat : Int) = 16 * (number / 10) + number % 10

/-- A sum of decimal numbers. -/
inductive DecimalSum
  /-- Adds a number and the carry. -/
  | add (operand : Int) (carry : Bool)
  /-- Subtracts a number and the inverse of the carry. -/
  | subtract (operand : Int) (carry : Bool)

namespace DecimalSum

/-- The instruction that makes a sum. -/
def mnemonic : DecimalSum → Mnemonic
  | .add _ _ => .adc
  | .subtract _ _ => .sbc

/-- The number that a sum adds or subtracts. -/
def operand : DecimalSum → Int
  | .add operand _ | .subtract operand _ => operand

/-- The carry that goes into a sum. -/
def carry : DecimalSum → Bool
  | .add _ carry | .subtract _ carry => carry

/-- What a sum makes of a number. -/
def total (number : Int) : DecimalSum → Int
  | .add operand carry => number + operand + carry.toNat
  | .subtract operand carry => number - operand - (1 - carry.toNat)

/-- A total carries when it has three digits, and a difference when nothing is borrowed. -/
def Carries (number : Int) : DecimalSum → Prop
  | .add operand carry => 100 ≤ total number (.add operand carry)
  | .subtract operand carry => 0 ≤ total number (.subtract operand carry)

/-- A number is subtracted without a borrow and added again without a carry. -/
def undone (operand : Int) : List DecimalSum := [.subtract operand true, .add operand false]

end DecimalSum

namespace Processor

variable {β : Type u}

/-- The processor has taken a total modulo one hundred over into A, and C, Z and N tell
of it. All else but V, the program counter and the cycles is as it was. -/
structure TakesDecimal (p q : Processor β) (total : Int) (carries : Prop) : Prop where
  isDecimal : IsDecimal q.a (total % 100)
  carry_iff : q.status.c = true ↔ carries
  zero_iff : q.status.z = true ↔ q.a = 0
  negative_iff : q.status.n = true ↔ q.a.toInt8.toInt < 0
  status_eq : q.status =
    { p.status with n := q.status.n, v := q.status.v, z := q.status.z, c := q.status.c }
  after_eq : q = { p with a := q.a, status := q.status, pc := q.pc, cycles := q.cycles }

variable [Bus β]

/-- The next step of the processor makes a decimal sum, in whatever mode its operand is. -/
structure Makes (p : Processor β) (s : DecimalSum) : Prop where
  irq_eq : p.irqPending = false
  nmi_eq : p.nmiPending = false
  decimal_eq : p.status.d = true
  carry_eq : p.status.c = s.carry
  exists_opcode : ∃ op, Opcode.decode? (Bus.read p.bus p.pc) = some op ∧
    op.mnemonic = s.mnemonic ∧
    IsDecimal (Bus.read p.bus (p.operandAddress (p.pc + 1) op.mode)) s.operand

/-- The processor makes decimal sums one after the other. Between them anything may
happen that keeps A. -/
inductive Calculates : List DecimalSum → Processor β → Processor β → Prop
  | refl (p : Processor β) : Calculates [] p p
  | keep {sums : List DecimalSum} {p q r : Processor β} (h : Calculates sums p q)
      (ha : r.a = q.a) : Calculates sums p r
  | sum {sums : List DecimalSum} {p q : Processor β} {s : DecimalSum} (h : Calculates sums p q)
      (hs : q.Makes s) : Calculates (sums ++ [s]) p q.step.after

end Processor

/-! ### Digits -/

namespace IsDecimal

variable {byte other : UInt8} {number : Int}

theorem digits (h : IsDecimal byte number) :
    (byte.toNat : Int) / 16 = number / 10 ∧ (byte.toNat : Int) % 16 = number % 10 := by
  obtain ⟨hnonneg, hlt, hbyte⟩ := h
  omega

theorem byte_unique (h : IsDecimal byte number) (hother : IsDecimal other number) :
    byte = other := by
  apply UInt8.toNat.inj
  have hbyte := h.toNat_eq
  rw [← hother.toNat_eq] at hbyte
  exact Int.ofNat.inj hbyte

/-- Tens that were corrected by six, and units, are decimal without the hundreds. -/
theorem of_digits {tens units : Int}
    (h : (byte.toNat : Int) = (16 * (16 * (tens / 10) + tens % 10) + units % 10) % 256) :
    IsDecimal byte ((10 * tens + units % 10) % 100) := by
  have htens : (16 * (16 * (tens / 10) + tens % 10) + units % 10) % 256 =
      16 * (tens % 10) + units % 10 := by omega
  refine ⟨by omega, by omega, ?_⟩
  rw [h, htens]
  omega

end IsDecimal

namespace Sum

/-- Six makes a digit sum above nine carry. -/
theorem corrected_sum {sum : Nat} (h : sum ≤ 19) :
    (if 9 < sum then sum + 6 else sum) = 16 * (sum / 10) + sum % 10 := by
  split <;> omega

/-- Six makes a negative digit borrow no more than ten. -/
theorem corrected_difference {difference : Int} (hlow : -10 ≤ difference)
    (hhigh : difference ≤ 9) :
    (if difference < 0 then difference - 6 else difference) =
      16 * (difference / 10) + difference % 10 := by
  split <;> omega

variable {a m : UInt8} {x y : Int}

/-- **The digit adder adds decimal numbers modulo one hundred.** -/
theorem isDecimal_addDecimal (ha : IsDecimal a x) (hm : IsDecimal m y) (carry : Bool) :
    let total := x + y + carry.toNat
    IsDecimal (addDecimal a m carry).value (total % 100) ∧
      ((addDecimal a m carry).carry = true ↔ 100 ≤ total) := by
  intro total
  obtain ⟨hatens, haunits⟩ := ha.digits
  obtain ⟨hmtens, hmunits⟩ := hm.digits
  have hx := ha.lt_hundred
  have hy := hm.lt_hundred
  have hcarry := carry.toNat_le
  -- the sum of the units, and that of the tens with what the units carry
  obtain ⟨units, hunits⟩ : ∃ units, units = a.toNat % 16 + m.toNat % 16 + carry.toNat := ⟨_, rfl⟩
  obtain ⟨tens, htens⟩ : ∃ tens, tens = a.toNat / 16 + m.toNat / 16 + units / 10 := ⟨_, rfl⟩
  have hlow : (if 9 < units then units + 6 else units) = 16 * (units / 10) + units % 10 :=
    corrected_sum (by omega)
  have hdigit : (16 * (units / 10) + units % 10) % 16 = units % 10 := by omega
  have hcarried : (if 15 < 16 * (units / 10) + units % 10 then 1 else 0) = units / 10 := by
    split <;> omega
  have hhigh : (if 9 < tens then tens + 6 else tens) = 16 * (tens / 10) + tens % 10 :=
    corrected_sum (by omega)
  have htotal : total = 10 * tens + units % 10 := by omega
  simp only [addDecimal, decide_eq_true_eq, ← hunits, hlow, hdigit, hcarried, ← htens, hhigh]
  constructor
  · rw [htotal]
    exact .of_digits (by rw [UInt8.toNat_ofNat']; omega)
  · omega

/-- **The digit adder subtracts decimal numbers modulo one hundred**, with the inverse
of the carry as the borrow. -/
theorem isDecimal_subtractDecimal (ha : IsDecimal a x) (hm : IsDecimal m y) (carry : Bool) :
    let total := x - y - (1 - carry.toNat)
    IsDecimal (subtractDecimal a m carry).value (total % 100) ∧
      ((subtractDecimal a m carry).carry = true ↔ 0 ≤ total) := by
  intro total
  obtain ⟨hatens, haunits⟩ := ha.digits
  obtain ⟨hmtens, hmunits⟩ := hm.digits
  have hx := ha.lt_hundred
  have hy := hm.lt_hundred
  have hcarry := carry.toNat_le
  have hborrow : (if carry then 0 else 1 : Int) = 1 - carry.toNat := by cases carry <;> rfl
  -- the difference of the units, and that of the tens with what the units borrow
  obtain ⟨units, hunits⟩ : ∃ units : Int,
      units = (a.toNat % 16 : Int) - (m.toNat % 16 : Int) - (1 - carry.toNat) := ⟨_, rfl⟩
  obtain ⟨tens, htens⟩ : ∃ tens : Int,
      tens = (a.toNat / 16 : Int) - (m.toNat / 16 : Int) + units / 10 := ⟨_, rfl⟩
  have hlow : (if units < 0 then units - 6 else units) = 16 * (units / 10) + units % 10 :=
    corrected_difference (by omega) (by omega)
  have hdigit : (16 * (units / 10) + units % 10) % 16 = units % 10 := by omega
  have hborrowed : (if units < 0 then (a.toNat / 16 : Int) - (m.toNat / 16 : Int) - 1
      else (a.toNat / 16 : Int) - (m.toNat / 16 : Int)) = tens := by
    split <;> omega
  have hhigh : (if tens < 0 then tens - 6 else tens) = 16 * (tens / 10) + tens % 10 :=
    corrected_difference (by omega) (by omega)
  have htotal : total = 10 * tens + units % 10 := by omega
  constructor
  · simp only [subtractDecimal, hborrow, ← hunits, hlow, hdigit, hborrowed, hhigh, htotal]
    exact .of_digits (by rw [UInt8.ofInt, UInt8.toNat_ofNat']; omega)
  · -- decimal bytes are in the order of their numbers, so that both differences borrow
    rw [subtractDecimal, (holds_subtractBinary a m carry).carry_iff, ha.toNat_eq, hm.toNat_eq]
    omega

end Sum

/-! ### Sums in a row -/

namespace DecimalSum

theorem total_eq (number : Int) (s : DecimalSum) : s.total number = number + s.total 0 := by
  cases s <;> simp only [total] <;> omega

theorem total_emod (number : Int) (s : DecimalSum) :
    s.total (number % 100) % 100 = s.total number % 100 := by
  rw [total_eq, total_eq number]
  omega

/-- The order of sums does not matter. -/
instance : RightCommutative total where
  right_comm number s other := by
    rw [total_eq, total_eq number s, total_eq (total number other), total_eq number other,
      Int.add_right_comm]

/-- Sums that undo each other come to nothing, in whatever order they are made. -/
theorem foldl_total_of_perm_undone {sums : List DecimalSum} {operands : List Int}
    (h : sums.Perm (operands.flatMap undone)) (number : Int) : sums.foldl total number = number := by
  rw [h.foldl_eq number]
  clear h
  induction operands with
  | nil => rfl
  | cons operand operands ih =>
    have hpair : (undone operand).foldl total number = number := by
      simp only [undone, List.foldl_cons, List.foldl_nil, total, Bool.toNat_true, Bool.toNat_false]
      omega
    rw [List.flatMap_cons, List.foldl_append, hpair, ih]

end DecimalSum

namespace Processor

variable {β : Type u}

theorem takesDecimal_takeSum {sum : Sum} {total : Int} {carries : Prop}
    (hvalue : IsDecimal sum.value (total % 100)) (hcarry : sum.carry = true ↔ carries)
    (p : Processor β) (pc : UInt16) (cycles : Nat) :
    TakesDecimal p ({ p with pc := pc, cycles := cycles }.takeSum sum) total carries where
  isDecimal := hvalue
  carry_iff := hcarry
  zero_iff := beq_iff_eq
  negative_iff := Word.isNegative_iff_toInt_lt sum.value
  status_eq := rfl
  after_eq := rfl

variable [Bus β]

/-- **A step with D set makes its sum modulo one hundred**, in every mode. -/
theorem takesDecimal_step {p : Processor β} {s : DecimalSum} {a : Int} (ha : IsDecimal p.a a)
    (h : p.Makes s) :
    p.step.fault = none ∧ TakesDecimal p p.step.after (s.total a) (s.Carries a) := by
  obtain ⟨op, hop, hmnemonic, hm⟩ := h.exists_opcode
  have hstep := step_eq_perform h.irq_eq h.nmi_eq hop
  have hafter : p.step.after = p.fetchByte.2.perform op.mnemonic.operation op.mode :=
    congrArg Step.after hstep
  have hd : p.fetchByte.2.status.d = true := h.decimal_eq
  have hcarry : p.fetchByte.2.status.c = s.carry := h.carry_eq
  rw [← operandAddress_fetchByte p (p.pc + 1) op.mode] at hm
  refine ⟨congrArg Step.fault hstep, ?_⟩
  rw [hafter, hmnemonic]
  cases s with
  | add operand carry =>
    obtain ⟨hvalue, hcarries⟩ := Sum.isDecimal_addDecimal ha hm carry
    simp only [DecimalSum.mnemonic, Mnemonic.operation, perform, add]
    rw [operand_eq]
    simp only [hd, hcarry, if_true]
    exact takesDecimal_takeSum hvalue hcarries p _ _
  | subtract operand carry =>
    obtain ⟨hvalue, hcarries⟩ := Sum.isDecimal_subtractDecimal ha hm carry
    simp only [DecimalSum.mnemonic, Mnemonic.operation, perform, subtract]
    rw [operand_eq]
    simp only [hd, hcarry, if_true]
    exact takesDecimal_takeSum hvalue hcarries p _ _

/-- **Sums in a row keep A decimal**, and it stands for what they come to modulo one
hundred. -/
theorem Calculates.isDecimal {sums : List DecimalSum} {p q : Processor β} {a : Int}
    (h : Calculates sums p q) (ha : IsDecimal p.a a) :
    IsDecimal q.a (sums.foldl DecimalSum.total a % 100) := by
  -- the last sum is made of what those before it came to
  induction h with
  | refl p =>
    rw [List.foldl_nil, Int.emod_eq_of_lt ha.nonneg ha.lt_hundred]
    exact ha
  | keep _ hkeep ih =>
    rw [hkeep]
    exact ih ha
  | sum _ hs ih =>
    have htakes := (takesDecimal_step (ih ha) hs).2.isDecimal
    rwa [DecimalSum.total_emod, ← List.foldl_concat DecimalSum.total] at htakes

/-- **Decimal sums count modulo one hundred.** With D set and decimal operands, ADC and
SBC make their sum modulo one hundred in every mode, and C tells that it carries or that
nothing was borrowed. Any number of them keeps A decimal. When the same numbers are
subtracted without a borrow and added without a carry, A is as it was. -/
theorem decimal_sums_count_modulo_hundred {p : Processor β} {a : Int} (ha : IsDecimal p.a a) :
    (∀ s, p.Makes s →
      p.step.fault = none ∧ TakesDecimal p p.step.after (s.total a) (s.Carries a)) ∧
    (∀ sums q, Calculates sums p q → IsDecimal q.a (sums.foldl DecimalSum.total a % 100)) ∧
    (∀ sums q (operands : List Int), Calculates sums p q →
      sums.Perm (operands.flatMap DecimalSum.undone) → q.a = p.a) := by
  refine ⟨fun s hs => takesDecimal_step ha hs, fun sums q h => h.isDecimal ha,
    fun sums q operands h hundone => ?_⟩
  have hq := h.isDecimal ha
  rw [DecimalSum.foldl_total_of_perm_undone hundone,
    Int.emod_eq_of_lt ha.nonneg ha.lt_hundred] at hq
  exact hq.byte_unique ha

/-- One is subtracted from zero, and added again. -/
def belowZero : Processor Memory :=
  { powerOn (Bus.writeAll .zero
      [(0x0200, 0xE9), (0x0201, 0x01), (0x0202, 0x69), (0x0203, 0x01)]) with
    pc := 0x0200
    status := { Status.reset with d := true, c := true } }

theorem read_belowZero :
    (Bus.read belowZero.bus 0x0200 = 0xE9 ∧ Bus.read belowZero.bus 0x0201 = 0x01) ∧
      Bus.read belowZero.bus 0x0202 = 0x69 ∧ Bus.read belowZero.bus 0x0203 = 0x01 := by
  refine ⟨⟨?_, ?_⟩, ?_, ?_⟩ <;> simp [belowZero, powerOn, reset]

theorem decode?_belowZero :
    Opcode.decode? (Bus.read belowZero.bus 0x0200) = some ⟨0xE9, .sbc, .immediate, 2⟩ ∧
      Opcode.decode? (Bus.read belowZero.bus 0x0202) = some ⟨0x69, .adc, .immediate, 2⟩ := by
  rw [read_belowZero.1.1, read_belowZero.2.1]
  exact ⟨Opcode.decode?_code ⟨0xE9, .sbc, .immediate, 2⟩ (by decide),
    Opcode.decode?_code ⟨0x69, .adc, .immediate, 2⟩ (by decide)⟩

theorem makes_belowZero : belowZero.Makes (.subtract 1 true) := by
  refine ⟨rfl, rfl, rfl, rfl, _, decode?_belowZero.1, rfl, ?_⟩
  show IsDecimal (Bus.read belowZero.bus 0x0201) 1
  rw [read_belowZero.1.2]
  exact ⟨by decide, by decide, by decide⟩

theorem makes_step_belowZero : belowZero.step.after.Makes (.add 1 false) := by
  have ha : IsDecimal belowZero.a 0 := ⟨by decide, by decide, by decide⟩
  have htakes := (takesDecimal_step ha makes_belowZero).2
  obtain ⟨hirq, hnmi⟩ := Prod.mk.inj (lines_step belowZero)
  have hdecimal : belowZero.step.after.status.d = true := congrArg Status.d htakes.status_eq
  have hborrow : ¬ belowZero.step.after.status.c = true :=
    htakes.carry_iff.not.mpr (by simp [DecimalSum.Carries, DecimalSum.total])
  have hbus : belowZero.step.after.bus = belowZero.bus := by rw [htakes.after_eq]
  have hpc : belowZero.step.after.pc = 0x0202 := by
    rw [step_eq_perform rfl rfl decode?_belowZero.1]
    exact @pc_perform _ _ belowZero.fetchByte.2 .subtract .immediate _ rfl
  refine ⟨hirq, hnmi, hdecimal, Bool.eq_false_iff.mpr hborrow, ⟨0x69, .adc, .immediate, 2⟩, ?_, rfl,
    ?_⟩
  · rw [hbus, hpc]
    exact decode?_belowZero.2
  · show IsDecimal (Bus.read belowZero.step.after.bus (belowZero.step.after.pc + 1)) 1
    rw [hbus, hpc]
    show IsDecimal (Bus.read belowZero.bus 0x0203) 1
    rw [read_belowZero.2.2]
    exact ⟨by decide, by decide, by decide⟩

/-- A is ninety-nine when one is subtracted from zero, and zero again when it is added. -/
theorem belowZero_counts_modulo_hundred :
    IsDecimal belowZero.a 0 ∧ IsDecimal belowZero.step.after.a 99 ∧
      ¬ belowZero.step.after.status.c = true ∧
      Calculates [.subtract 1 true, .add 1 false] belowZero belowZero.step.after.step.after ∧
      belowZero.step.after.step.after.a = belowZero.a := by
  have ha : IsDecimal belowZero.a 0 := ⟨by decide, by decide, by decide⟩
  obtain ⟨hstep, -, hundone⟩ := decimal_sums_count_modulo_hundred ha
  obtain ⟨-, hfirst⟩ := hstep _ makes_belowZero
  have hborrow : ¬ belowZero.step.after.status.c = true :=
    hfirst.carry_iff.not.mpr (by simp [DecimalSum.Carries, DecimalSum.total])
  have hcalculates : Calculates [.subtract 1 true, .add 1 false] belowZero
      belowZero.step.after.step.after :=
    ((Calculates.refl _).sum makes_belowZero).sum makes_step_belowZero
  exact ⟨ha, hfirst.isDecimal, hborrow, hcalculates, hundone _ _ [1] hcalculates (.refl _)⟩

end Processor
end Mos6502
