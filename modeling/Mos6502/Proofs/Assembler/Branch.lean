/-
# Branches

The assembler takes the distance from behind a branch to its target as a signed number
that does not wrap, and encodes it if a byte can hold it. The processor adds the byte to
the word behind the branch, around the end of the address space. Where the assembler
encodes a target, the sum of the processor is that target
(`branchOffset_eq_ok_iff`, `displace_of_branchOffset`). A displacement is encoded as the
target that it leads to, if that is an address (`encode_displacement`).

Key definitions: `Processor.AtBranch`, `Reaches`.
Key theorems: `branchOffset_eq_ok_iff`, `displace_of_branchOffset`,
`Processor.AtBranch.step`, `encode_displacement`, `branches_reach_their_targets`.
-/
import Mos6502.Proofs.Assembler.Encoding
import Mos6502.Proofs.Processor.Flow

namespace Mos6502

universe u

namespace Word

theorem ofInt_toInt_toInt8 (byte : UInt8) : UInt8.ofInt byte.toInt8.toInt = byte := by
  revert byte
  exact forall_byte (by decide +kernel)

end Word

namespace Mnemonic

theorem supports_relative (m : Mnemonic) : m.supports .relative = m.condition?.isSome := by
  cases m <;> decide

theorem isBranch_eq (m : Mnemonic) : m.isBranch = m.condition?.isSome := by
  cases m <;> rfl

end Mnemonic

namespace Processor

variable {β : Type u} [Bus β]

/-- A processor that nothing interrupts has come to a branch at an address, with a byte
behind its opcode. -/
structure AtBranch (p : Processor β) (op : Opcode) (address : UInt16) (byte : UInt8) : Prop where
  irq_eq : p.irqPending = false
  nmi_eq : p.nmiPending = false
  pc_eq : p.pc = address
  opcode_eq : Bus.read p.bus address = op.code
  byte_eq : Bus.read p.bus (address + 1) = byte

/-- A branch goes on at its distance from behind itself when its flag has the value it
looks for, and else behind itself. -/
theorem AtBranch.step {p : Processor β} {op : Opcode} {address : UInt16} {byte : UInt8}
    {flag : Flag} {value : Bool} (h : p.AtBranch op address byte) (hop : op ∈ Opcode.documented)
    (hcondition : op.mnemonic.condition? = some (flag, value)) :
    p.step.fault = none ∧ p.step.after.pc = if p.status.get flag = value then
      Word.displace (address + 1 + 1) byte else address + 1 + 1 := by
  have hdecode : Opcode.decode? (Bus.read p.bus p.pc) = some op := by
    rw [h.pc_eq, h.opcode_eq]
    exact Opcode.decode?_code op hop
  rw [step_eq_perform h.irq_eq h.nmi_eq hdecode, Mnemonic.operation_of_condition? hcondition,
    perform, branch_eq, ← h.byte_eq, ← h.pc_eq]
  exact ⟨rfl, rfl⟩

end Processor

namespace Assembler

/-! ### Offsets -/

/-- **The offset of a branch is the byte that leads to its target.** -/
theorem branchOffset_eq_ok_iff {address target : UInt16} {byte : UInt8} :
    branchOffset address target = .ok byte ↔
      (address.toNat : Int) + 2 + byte.toInt8.toInt = target.toNat := by
  refine ⟨branchOffset_eq_ok, fun h => ?_⟩
  have hdistance : (target.toNat : Int) - (address.toNat + 2) = byte.toInt8.toInt := by omega
  have hlow := byte.toInt8.le_toInt
  have hhigh := byte.toInt8.toInt_lt
  simp only [branchOffset, hdistance]
  rw [if_pos (by omega), Word.ofInt_toInt_toInt8]

/-- A branch has an offset just when a signed byte holds its distance. -/
theorem exists_branchOffset_iff (address target : UInt16) :
    (∃ byte, branchOffset address target = .ok byte) ↔
      -128 ≤ (target.toNat : Int) - (address.toNat + 2) ∧
        (target.toNat : Int) - (address.toNat + 2) ≤ 127 := by
  constructor
  · rintro ⟨byte, h⟩
    have hreaches := branchOffset_eq_ok h
    have hlow := byte.toInt8.le_toInt
    have hhigh := byte.toInt8.toInt_lt
    omega
  · exact fun h => ⟨_, if_pos h⟩

theorem displace_of_branchOffset {address target : UInt16} {byte : UInt8}
    (h : branchOffset address target = .ok byte) :
    Word.displace (address + 1 + 1) byte = target := by
  have hreaches := branchOffset_eq_ok h
  have htarget := target.toNat_lt
  have hdisplace := Word.toNat_displace (address + 1 + 1) byte
  rw [UInt16.toNat_add, UInt16.toNat_add, UInt16.toNat_one] at hdisplace
  apply UInt16.toNat.inj
  omega

/-! ### Displacements -/

/-- The mode of a branch is that of a distance, whether this is written or its target. -/
theorem selectMode_of_condition? {m : Mnemonic} (hm : m.condition?.isSome = true)
    (symbols : SymbolTable) :
    (∀ distance, selectMode m symbols (.displacement distance) = .ok .relative) ∧
      ∀ value, selectMode m symbols (.direct value) = .ok .relative := by
  have hsupports : m.supports .relative = true := by rw [m.supports_relative, hm]
  refine ⟨fun distance => selectMode_eq_ok.mpr ⟨rfl, hsupports⟩,
    fun value => selectMode_eq_ok.mpr ⟨?_, hsupports⟩⟩
  rw [requestedMode, m.isBranch_eq, hm, if_pos rfl]

/-- **A displacement is encoded as the target that it leads to.** -/
theorem encode_displacement {address target : UInt16} {distance : Int}
    (htarget : (address.toNat : Int) + distance = target.toNat) {symbols : SymbolTable}
    {value : Expression} (hvalue : value.resolve symbols = .ok target) (m : Mnemonic) :
    encode m .relative (.displacement distance) address symbols =
      encode m .relative (.direct value) address symbols := by
  have hlt := target.toNat_lt
  have hword : UInt16.ofNat ((address.toNat : Int) + distance).toNat = target := by
    rw [htarget, Int.toNat_natCast, UInt16.ofNat_toNat]
  have hrange : 0 ≤ (address.toNat : Int) + distance ∧ (address.toNat : Int) + distance ≤ 0xFFFF := by
    omega
  have hoperand : encodeOperand .relative address symbols (.displacement distance) =
      encodeOperand .relative address symbols (.direct value) := by
    simp only [encodeOperand, encodeDisplacement, if_pos hrange, hword, hvalue]
    rfl
  simp only [encode, hoperand]

theorem encode_displacement_of_outside {address : UInt16} {distance : Int}
    (h : ¬ (0 ≤ (address.toNat : Int) + distance ∧ (address.toNat : Int) + distance ≤ 0xFFFF))
    {m : Mnemonic} {op : Opcode} (hop : Opcode.find? m .relative = some op)
    (symbols : SymbolTable) :
    encode m .relative (.displacement distance) address symbols =
      .error (.displacementOutside distance) := by
  simp only [encode, hop, encodeOperand, encodeDisplacement, if_neg h]
  rfl

/-! ### Reaching a target -/

/-- A branch at an address reaches a target. -/
structure Reaches (β : Type u) [Bus β] (m : Mnemonic) (address target : UInt16) : Prop where
  /-- With the offset of the target behind its opcode it goes on at the target when its
  flag has the value it looks for, and else behind itself. -/
  step : ∃ op flag value, Opcode.find? m .relative = some op ∧ m.condition? = some (flag, value) ∧
    ∀ (byte : UInt8) (p : Processor β), branchOffset address target = .ok byte →
      p.AtBranch op address byte → p.step.fault = none ∧
        (p.status.get flag = value → p.step.after.pc = target) ∧
        (p.status.get flag ≠ value → p.step.after.pc.toNat = (address.toNat + 2) % 65536)
  /-- A displacement that leads to the target is encoded as the target. -/
  displacement : ∀ distance : Int, (address.toNat : Int) + distance = target.toNat →
    ∀ (early symbols : SymbolTable) (value : Expression), value.resolve symbols = .ok target →
      selectMode m early (.displacement distance) = .ok .relative ∧
      selectMode m early (.direct value) = .ok .relative ∧
      encode m .relative (.displacement distance) address symbols =
        encode m .relative (.direct value) address symbols
  /-- A displacement that leads to no address is out of range. -/
  outside : ∀ distance : Int,
    ¬ (0 ≤ (address.toNat : Int) + distance ∧ (address.toNat : Int) + distance ≤ 0xFFFF) →
    ∀ early symbols : SymbolTable, selectMode m early (.displacement distance) = .ok .relative ∧
      ∃ cause, encode m .relative (.displacement distance) address symbols = .error cause ∧
        cause.kind = .rangeError

theorem reaches_of_isBranch {β : Type u} [Bus β] {m : Mnemonic} (hm : m.isBranch = true)
    (address target : UInt16) : Reaches β m address target := by
  rw [m.isBranch_eq] at hm
  obtain ⟨⟨flag, value⟩, hcondition⟩ := Option.isSome_iff_exists.mp hm
  obtain ⟨op, hop⟩ : ∃ op, Opcode.find? m .relative = some op := by
    rw [← m.supports_relative] at hm
    exact Option.isSome_iff_exists.mp hm
  obtain ⟨hmem, hmnemonic, -⟩ := Opcode.mem_of_find? hop
  refine ⟨⟨op, flag, value, hop, hcondition, fun byte p hoffset hp => ?_⟩,
    fun distance htarget early symbols value hvalue => ?_,
    fun distance houtside early symbols => ⟨(selectMode_of_condition? hm early).1 distance, ?_⟩⟩
  · obtain ⟨hfault, hpc⟩ := hp.step hmem (by rw [hmnemonic, hcondition])
    refine ⟨hfault, fun htaken => ?_, fun hpassed => ?_⟩
    · rw [hpc, if_pos htaken, displace_of_branchOffset hoffset]
    · rw [hpc, if_neg hpassed, UInt16.toNat_add, UInt16.toNat_add, UInt16.toNat_one]
      omega
  · obtain ⟨hdisplacement, hdirect⟩ := selectMode_of_condition? hm early
    exact ⟨hdisplacement distance, hdirect value, encode_displacement htarget hvalue m⟩
  · exact ⟨_, encode_displacement_of_outside houtside hop symbols, rfl⟩

/-- **Branches reach the targets that they were assembled for.** A target has an offset
just when a signed byte holds its distance from behind the branch, and the byte that
leads to an address is its offset. With it every branch reaches the target. -/
theorem branches_reach_their_targets {β : Type u} [Bus β] (address target : UInt16) :
    let distance : Int := target.toNat - (address.toNat + 2)
    ((∃ byte, branchOffset address target = .ok byte) ↔ -128 ≤ distance ∧ distance ≤ 127) ∧
    (∀ byte : UInt8, (address.toNat : Int) + 2 + byte.toInt8.toInt = target.toNat →
      branchOffset address target = .ok byte) ∧
    ∀ m : Mnemonic, m.isBranch = true → Reaches β m address target :=
  ⟨exists_branchOffset_iff address target, fun _ => branchOffset_eq_ok_iff.mpr,
    fun _ hm => reaches_of_isBranch hm address target⟩

/-- A branch across the end of memory reaches as far back as any, by its target or by its
displacement, and a displacement that goes on from there leads to no address. -/
theorem acrossTheEnd_reaches_its_target :
    branchOffset 0xFFFF 0xFF81 = .ok 0x80 ∧
      (Processor.acrossTheEnd 0xD0 0x80 0x00).step.after.pc = 0xFF81 ∧
      encode .bne .relative (.displacement (-126)) 0xFFFF .empty =
        encode .bne .relative (.direct (.literal ⟨0xFF81, false⟩)) 0xFFFF .empty ∧
      ∃ cause, encode .bne .relative (.displacement 1) 0xFFFF .empty = .error cause ∧
        cause.kind = .rangeError := by
  obtain ⟨-, hoffset, hreaches⟩ := branches_reach_their_targets (β := Memory) 0xFFFF 0xFF81
  have hbne := hreaches .bne rfl
  obtain ⟨op, flag, value, hop, hcondition, hstep⟩ := hbne.step
  have hcode : op.code = 0xD0 := by
    have hfind : Opcode.find? .bne .relative = some ⟨0xD0, .bne, .relative, 2⟩ := by decide
    rw [Option.some.inj (hop.symm.trans hfind)]
  obtain ⟨hopcode, hbyte, -⟩ := Processor.read_acrossTheEnd 0xD0 0x80 0x00
  have hat : (Processor.acrossTheEnd 0xD0 0x80 0x00).AtBranch op 0xFFFF 0x80 :=
    ⟨rfl, rfl, rfl, hopcode.trans hcode.symm, hbyte⟩
  cases hcondition
  have hoffset' : branchOffset 0xFFFF 0xFF81 = .ok 0x80 := hoffset 0x80 (by decide)
  obtain ⟨-, htaken, -⟩ := hstep 0x80 _ hoffset' hat
  obtain ⟨-, -, hback⟩ :=
    hbne.displacement (-126) (by decide) .empty .empty (.literal ⟨0xFF81, false⟩) rfl
  exact ⟨hoffset', htaken rfl, hback, (hbne.outside 1 (by decide) .empty .empty).2⟩

end Assembler
end Mos6502
