/-
# Bytes that are modified in their place

A shift or rotation modifies the accumulator or a byte of memory, and a count a byte of
memory. They make the same of the byte and of the carry wherever that is, write it back
there and note it in Z and N (`modified_perform`). So a shift of memory is one of the
accumulator in another place. What one such instruction does another may undo
(`Operation.modify_modify`), if it still finds the same operand
(`operandAddress_congr`).

Key definitions: `Mnemonic.undone`, `ShiftsInMemory`, `InTurn`, `Operation.modify`,
`located`, `Modified`.
Key theorems: `Operation.modify_modify`, `modified_perform`, `operandAddress_congr`,
`Meets.step`, `InTurn.located_eq`, `shifts_agree_and_rotations_invert`.
-/
import Mos6502.Proofs.Processor.Flow
import Mos6502.Proofs.Table

namespace Mos6502

universe u

/-! ### What the law says -/

/-- The instructions that move the bits of a byte. -/
def Mnemonic.shifts : List Mnemonic := [.asl, .lsr, .rol, .ror]

/-- Instructions, each with one that undoes it. -/
def Mnemonic.undone : List (Mnemonic × Mnemonic) := [(.rol, .ror), (.ror, .rol), (.inc, .dec)]

namespace Processor

/-- A processor that nothing interrupts has come to an instruction. -/
structure Meets (p : Processor Memory) (op : Opcode) : Prop where
  irq_eq : p.irqPending = false
  nmi_eq : p.nmiPending = false
  decode_eq : Opcode.decode? (Bus.read p.bus p.pc) = some op

/-- The step at a shift of a byte of memory succeeds, and does to that byte what the shift
of the accumulator does there. -/
structure ShiftsInMemory (p : Processor Memory) (op : Opcode) (address : UInt16) : Prop where
  succeeds : p.step.fault = none
  a_eq : p.step.after.a = p.a
  others_eq : ∀ other, other ≠ address → Bus.read p.step.after.bus other = Bus.read p.bus other
  /-- The same instruction with that byte in the accumulator, and with the same carry, gives
  what is written back and the flags that describe it. -/
  agrees : ∀ (q : Processor Memory) (inA : Opcode), q.Meets inA → inA.mnemonic = op.mnemonic →
    inA.mode = .accumulator → q.a = Bus.read p.bus address → q.status.c = p.status.c →
      q.step.fault = none ∧ Bus.read p.step.after.bus address = q.step.after.a ∧
        ∀ flag ∈ [Flag.c, .z, .n], p.step.after.status.get flag = q.step.after.status.get flag

/-- A processor has come to two instructions in the same mode, of which the second stands
behind the first and has the same operand. -/
structure InTurn (p : Processor Memory) (first second : Opcode) : Prop where
  meets : p.Meets first
  second_eq : Opcode.decode? (Bus.read p.bus (p.pc + UInt16.ofNat first.size)) = some second
  mode_eq : second.mode = first.mode
  operand_eq : ∀ i < first.mode.operandBytes,
    Bus.read p.bus (p.pc + UInt16.ofNat first.size + 1 + UInt16.ofNat i) =
      Bus.read p.bus (p.pc + 1 + UInt16.ofNat i)
  /-- The first does not write where the second stands. -/
  kept : first.mode ≠ .accumulator → ∀ i < second.size,
    p.operandAddress (p.pc + 1) first.mode ≠ p.pc + UInt16.ofNat first.size + UInt16.ofNat i

end Processor

/-! ### What is made of a byte -/

namespace Operation

/-- What an operation makes of a byte and of the carry. -/
def modify : Operation → UInt8 → Bool → UInt8 × Bool
  | .shift s, value, carry => s.apply value carry
  | .countMemory count, value, carry => (count.apply value, carry)
  | _, value, carry => (value, carry)

/-- The operation modifies a byte in the mode, be it that of the accumulator. -/
def modifies (mode : AddressingMode) : Operation → Bool
  | .shift _ => true
  | .countMemory _ => mode != .accumulator
  | _ => false

/-- **What is undone is as it was**, with the carry. -/
theorem modify_modify : ∀ pair ∈ Mnemonic.undone, ∀ (value : UInt8) (carry : Bool),
    pair.2.operation.modify (pair.1.operation.modify value carry).1
      (pair.1.operation.modify value carry).2 = (value, carry) := by
  intro pair hpair value carry
  simp only [Mnemonic.undone, List.mem_cons, List.not_mem_nil, or_false] at hpair
  revert value
  rcases hpair with rfl | rfl | rfl <;> cases carry <;>
    exact Word.forall_byte (by decide +kernel)

end Operation

/-- The instructions that modify a byte in its place. -/
def Mnemonic.modifying : List Mnemonic := shifts ++ [.inc, .dec]

theorem Opcode.modifies_of_mem : ∀ op ∈ Opcode.documented, op.mnemonic ∈ Mnemonic.modifying →
    op.mnemonic.operation.modifies op.mode = true ∧
      op.mode ∈ [.accumulator, .zeroPage, .zeroPageX, .absolute, .absoluteX] := by
  decide +kernel

theorem Mnemonic.modifying_of_undone : ∀ pair ∈ Mnemonic.undone,
    pair.1 ∈ Mnemonic.modifying ∧ pair.2 ∈ Mnemonic.modifying := by
  decide

theorem Mnemonic.stays_of_mem : ∀ m ∈ Mnemonic.modifying,
    m ∉ Mnemonic.leaving ∧ m.condition? = none := by
  decide

namespace Processor

section Modified

variable {β : Type u} [Bus β]

/-- The byte that an instruction modifies, where the bytes after its opcode begin at an
address. -/
def located (p : Processor β) (operand : UInt16) (mode : AddressingMode) : UInt8 :=
  if mode = .accumulator then p.a else Bus.read p.bus (p.operandAddress operand mode)

/-- One processor is as the other with a byte and the carry modified. -/
structure Modified (p q : Processor β) (operand : UInt16) (mode : AddressingMode)
    (result : UInt8 × Bool) : Prop where
  bus_eq : q.bus = if mode = .accumulator then p.bus
    else Bus.write p.bus (p.operandAddress operand mode) result.1
  a_eq : q.a = if mode = .accumulator then result.1 else p.a
  x_eq : q.x = p.x
  status_eq : q.status = ({ p.status with c := result.2 } : Status).ofResult result.1

/-- **A byte is modified in its place.** -/
theorem modified_perform (p : Processor β) {operation : Operation} {mode : AddressingMode}
    (h : operation.modifies mode = true) :
    Modified p (p.perform operation mode) p.pc mode
      (operation.modify (p.located p.pc mode) p.status.c) := by
  cases operation with
  | shift s =>
    by_cases hmode : mode = .accumulator
    · simp only [perform, shift, located, if_pos hmode]
      exact ⟨(if_pos hmode).symm, (if_pos hmode).symm, rfl, rfl⟩
    · simp only [perform, shift, located, if_neg hmode]
      rw [effectiveAddress_eq]
      exact ⟨(if_neg hmode).symm, (if_neg hmode).symm, rfl, rfl⟩
  | countMemory count =>
    have hmode : mode ≠ .accumulator := by
      rintro rfl
      cases h
    simp only [perform, countMemory, located, if_neg hmode]
    rw [effectiveAddress_eq]
    exact ⟨(if_neg hmode).symm, (if_neg hmode).symm, rfl, rfl⟩
  | _ => cases h

/-- The operand of an instruction is found again in another place. -/
theorem operandAddress_congr {p q : Processor β} {mode : AddressingMode} {here there : UInt16}
    (hmode : mode ∈ [.zeroPage, .zeroPageX, .absolute, .absoluteX]) (hx : q.x = p.x)
    (h : ∀ i < mode.operandBytes,
      Bus.read q.bus (there + UInt16.ofNat i) = Bus.read p.bus (here + UInt16.ofNat i)) :
    q.operandAddress there mode = p.operandAddress here mode := by
  have hbyte : 0 < mode.operandBytes → Bus.read q.bus there = Bus.read p.bus here := by
    intro hlt
    simpa using h 0 hlt
  have hword : 1 < mode.operandBytes → Bus.word q.bus there = Bus.word p.bus here := by
    intro hlt
    rw [Bus.word, Bus.word, hbyte (Nat.lt_of_succ_lt hlt)]
    exact congrArg _ (h 1 hlt)
  simp only [List.mem_cons, List.not_mem_nil, or_false] at hmode
  rcases hmode with rfl | rfl | rfl | rfl
  · rw [operandAddress, operandAddress, hbyte (by decide)]
  · rw [operandAddress, operandAddress, hbyte (by decide), hx]
  · exact hword (by decide)
  · rw [operandAddress, operandAddress, hword (by decide), hx]

end Modified

/-! ### Steps -/

variable {p : Processor Memory} {op first second : Opcode}

/-- A step at an instruction that modifies a byte succeeds, does so and goes on behind. -/
theorem Meets.step (h : p.Meets op) (hname : op.mnemonic ∈ Mnemonic.modifying) :
    p.step.fault = none ∧ p.step.after.pc = p.pc + UInt16.ofNat op.size ∧
      Modified p p.step.after (p.pc + 1) op.mode
        (op.mnemonic.operation.modify (p.located (p.pc + 1) op.mode) p.status.c) := by
  have hmem := (Opcode.mem_of_decode? h.decode_eq).1
  have hstep := step_eq_perform h.irq_eq h.nmi_eq h.decode_eq
  have hafter : p.step.after = p.fetchByte.2.perform op.mnemonic.operation op.mode :=
    congrArg Step.after hstep
  refine ⟨congrArg Step.fault hstep, ?_, ?_⟩
  · obtain ⟨hstays, hnone⟩ := Mnemonic.stays_of_mem _ hname
    have hpc : p.fetchByte.2.pc = p.pc + 1 := rfl
    rw [hafter, pc_perform _ (Opcode.fetchedBytes?_eq op hmem hstays hnone), hpc, Opcode.size,
      UInt16.ofNat_add, UInt16.add_assoc]
    rfl
  · have hlocated : p.fetchByte.2.located (p.pc + 1) op.mode = p.located (p.pc + 1) op.mode := by
      rw [located, located, operandAddress_fetchByte]
      rfl
    have hmodified := modified_perform p.fetchByte.2 (Opcode.modifies_of_mem op hmem hname).1
    rw [← hafter] at hmodified
    change Modified p.fetchByte.2 p.step.after (p.pc + 1) op.mode
      (op.mnemonic.operation.modify (p.fetchByte.2.located (p.pc + 1) op.mode) p.status.c)
      at hmodified
    rw [hlocated] at hmodified
    have hbus := hmodified.bus_eq
    rw [operandAddress_fetchByte] at hbus
    exact ⟨hbus, hmodified.a_eq, hmodified.x_eq, hmodified.status_eq⟩

/-- **The shift of a byte of memory is that of the accumulator.** -/
theorem Meets.shiftsInMemory (h : p.Meets op) (hname : op.mnemonic ∈ Mnemonic.shifts)
    (hmode : op.mode ≠ .accumulator) :
    p.ShiftsInMemory op (p.operandAddress (p.pc + 1) op.mode) := by
  have hnames : op.mnemonic ∈ Mnemonic.modifying := List.mem_append_left _ hname
  obtain ⟨hfault, -, hstep⟩ := h.step hnames
  have hbus := hstep.bus_eq
  have ha := hstep.a_eq
  rw [if_neg hmode] at hbus ha
  refine ⟨hfault, ha, fun other hne => ?_, fun q inA hq hsame haccumulator hvalue hcarry => ?_⟩
  · rw [hbus, Memory.bus_write, Memory.bus_read, Memory.read_write, if_neg hne.symm]
    rfl
  · obtain ⟨hqfault, -, hqstep⟩ := hq.step (hsame.symm ▸ hnames)
    have hlocated : q.located (q.pc + 1) inA.mode = p.located (p.pc + 1) op.mode := by
      rw [located, located, if_pos haccumulator, if_neg hmode, hvalue]
    rw [hsame, hlocated, hcarry] at hqstep
    have hqa := hqstep.a_eq
    rw [if_pos haccumulator] at hqa
    refine ⟨hqfault, ?_, fun flag hflag => ?_⟩
    · rw [hbus, hqa, Memory.bus_write, Memory.bus_read, Memory.read_write, if_pos rfl]
    · rw [hstep.status_eq, hqstep.status_eq]
      simp only [List.mem_cons, List.not_mem_nil, or_false] at hflag
      rcases hflag with rfl | rfl | rfl <;> rfl

/-- What the first instruction leaves where the second stands. -/
theorem InTurn.read_eq (h : p.InTurn first second) (hname : first.mnemonic ∈ Mnemonic.modifying)
    {i : Nat} (hi : i < second.size) :
    Bus.read p.step.after.bus (p.pc + UInt16.ofNat first.size + UInt16.ofNat i) =
      Bus.read p.bus (p.pc + UInt16.ofNat first.size + UInt16.ofNat i) := by
  obtain ⟨-, -, hstep⟩ := h.meets.step hname
  rw [hstep.bus_eq]
  by_cases hmode : first.mode = .accumulator
  · rw [if_pos hmode]
  · rw [if_neg hmode, Memory.bus_write, Memory.bus_read, Memory.read_write,
      if_neg (h.kept hmode i hi)]
    rfl

/-- The second instruction is met behind the first one. -/
theorem InTurn.meets_second (h : p.InTurn first second)
    (hname : first.mnemonic ∈ Mnemonic.modifying) : p.step.after.Meets second := by
  obtain ⟨-, hpc, -⟩ := h.meets.step hname
  obtain ⟨hirq, hnmi⟩ := Prod.mk.inj (lines_step p)
  have hread := h.read_eq hname (i := 0) (by rw [Opcode.size]; omega)
  change Bus.read _ (_ + 0) = Bus.read _ (_ + 0) at hread
  rw [UInt16.add_zero] at hread
  refine ⟨hirq, hnmi, ?_⟩
  rw [hpc, hread]
  exact h.second_eq

theorem InTurn.operandAddress_eq (h : p.InTurn first second)
    (hname : first.mnemonic ∈ Mnemonic.modifying) (hmemory : first.mode ≠ .accumulator) :
    p.step.after.operandAddress (p.step.after.pc + 1) first.mode =
      p.operandAddress (p.pc + 1) first.mode := by
  obtain ⟨-, hpc, hstep⟩ := h.meets.step hname
  have hmode : first.mode ∈ [.zeroPage, .zeroPageX, .absolute, .absoluteX] := by
    have hmem := (Opcode.mem_of_decode? h.meets.decode_eq).1
    exact (List.mem_cons.mp (Opcode.modifies_of_mem first hmem hname).2).resolve_left hmemory
  refine operandAddress_congr hmode hstep.x_eq fun i hi => ?_
  have hread := h.read_eq hname (i := 1 + i) (by rw [Opcode.size, h.mode_eq]; omega)
  rw [UInt16.ofNat_add, ← UInt16.add_assoc] at hread
  rw [hpc, ← h.operand_eq i hi]
  exact hread

/-- Both instructions modify the same byte. -/
theorem InTurn.located_eq (h : p.InTurn first second)
    (hname : first.mnemonic ∈ Mnemonic.modifying) :
    p.step.after.located (p.step.after.pc + 1) second.mode =
      (first.mnemonic.operation.modify (p.located (p.pc + 1) first.mode) p.status.c).1 := by
  obtain ⟨-, -, hstep⟩ := h.meets.step hname
  rw [h.mode_eq, located]
  by_cases hmode : first.mode = .accumulator
  · rw [if_pos hmode, hstep.a_eq, if_pos hmode]
  · rw [if_neg hmode, h.operandAddress_eq hname hmode, hstep.bus_eq, if_neg hmode,
      Memory.bus_write, Memory.bus_read, Memory.read_write, if_pos rfl]

/-- **What two instructions undo is as it was.** -/
theorem InTurn.undone (h : p.InTurn first second)
    (hundone : (first.mnemonic, second.mnemonic) ∈ Mnemonic.undone) :
    p.step.fault = none ∧ p.step.after.step.fault = none ∧
      p.step.after.step.after.bus = p.bus ∧ p.step.after.step.after.a = p.a ∧
      p.step.after.step.after.status.c = p.status.c := by
  have hnames := Mnemonic.modifying_of_undone _ hundone
  obtain ⟨hfault, -, hfirst⟩ := h.meets.step hnames.1
  obtain ⟨hfault', -, hsecond⟩ := (h.meets_second hnames.1).step hnames.2
  -- the second instruction is given just what the first one made of the byte and the carry
  have hcarry : p.step.after.status.c = (first.mnemonic.operation.modify
      (p.located (p.pc + 1) first.mode) p.status.c).2 := congrArg Status.c hfirst.status_eq
  rw [h.located_eq hnames.1, hcarry, Operation.modify_modify _ hundone, h.mode_eq] at hsecond
  have hrestored : p.step.after.step.after.status.c = p.status.c := by
    rw [hsecond.status_eq]
    rfl
  refine ⟨hfault, hfault', ?_, ?_, hrestored⟩
  · rw [hsecond.bus_eq]
    by_cases hmode : first.mode = .accumulator
    · rw [if_pos hmode, hfirst.bus_eq, if_pos hmode]
    · rw [if_neg hmode, h.operandAddress_eq hnames.1 hmode, hfirst.bus_eq, if_neg hmode, located,
        if_neg hmode]
      exact Memory.write_write_read p.bus _ _
  · rw [hsecond.a_eq]
    by_cases hmode : first.mode = .accumulator
    · rw [if_pos hmode, located, if_pos hmode]
    · rw [if_neg hmode, hfirst.a_eq, if_neg hmode]

/-- **Shifts agree and rotations invert.** A shift of a byte of memory does to it what the
shift of the accumulator does there, and changes nothing else in memory. A rotation is undone
by the other one, and a count up by a count down, if that has the same operand and comes
next, and still stands there. -/
theorem shifts_agree_and_rotations_invert :
    (∀ (p : Processor Memory) (op : Opcode), p.Meets op → op.mnemonic ∈ Mnemonic.shifts →
      op.mode ≠ .accumulator → p.ShiftsInMemory op (p.operandAddress (p.pc + 1) op.mode)) ∧
    ∀ (p : Processor Memory) (first second : Opcode), p.InTurn first second →
      (first.mnemonic, second.mnemonic) ∈ Mnemonic.undone →
        p.step.fault = none ∧ p.step.after.step.fault = none ∧
          p.step.after.step.after.bus = p.bus ∧ p.step.after.step.after.a = p.a ∧
          p.step.after.step.after.status.c = p.status.c :=
  ⟨fun _ _ h hname hmode => h.shiftsInMemory hname hmode,
    fun _ _ _ h hundone => h.undone hundone⟩

/-- A rotation of a byte, one back of the same byte, and elsewhere a rotation of the
accumulator. -/
def rotating : Processor Memory :=
  { powerOn (Bus.writeAll .zero [(0x0014, 0x81), (0x0200, 0x36), (0x0201, 0xF0), (0x0202, 0x76),
      (0x0203, 0xF0), (0x0300, 0x2A)]) with
    x := 0x24
    pc := 0x0200 }

/-- The processor at the rotation of the accumulator. -/
def rotatingInA : Processor Memory := { rotating with a := 0x81, pc := 0x0300 }

theorem read_rotating : Bus.read rotating.bus 0x0014 = 0x81 ∧
    (Bus.read rotating.bus 0x0200 = 0x36 ∧ Bus.read rotating.bus 0x0201 = 0xF0) ∧
    (Bus.read rotating.bus 0x0202 = 0x76 ∧ Bus.read rotating.bus 0x0203 = 0xF0) ∧
    Bus.read rotating.bus 0x0300 = 0x2A := by
  simp [rotating, powerOn, reset]

theorem meets_rotating : rotating.Meets ⟨0x36, .rol, .zeroPageX, 6⟩ := by
  refine ⟨rfl, rfl, ?_⟩
  show Opcode.decode? (Bus.read rotating.bus 0x0200) = _
  rw [read_rotating.2.1.1]
  exact Opcode.decode?_code ⟨0x36, .rol, .zeroPageX, 6⟩ (by decide)

theorem meets_rotatingInA : rotatingInA.Meets ⟨0x2A, .rol, .accumulator, 2⟩ := by
  refine ⟨rfl, rfl, ?_⟩
  show Opcode.decode? (Bus.read rotating.bus 0x0300) = _
  rw [read_rotating.2.2.2]
  exact Opcode.decode?_code ⟨0x2A, .rol, .accumulator, 2⟩ (by decide)

theorem operandAddress_rotating :
    rotating.operandAddress (rotating.pc + 1) .zeroPageX = 0x0014 := by
  show (Bus.read rotating.bus 0x0201 + 0x24).toUInt16 = 0x0014
  rw [read_rotating.2.1.2]
  decide

theorem inTurn_rotating :
    rotating.InTurn ⟨0x36, .rol, .zeroPageX, 6⟩ ⟨0x76, .ror, .zeroPageX, 6⟩ := by
  obtain ⟨-, ⟨-, hoperand⟩, ⟨hcode, hsecond⟩, -⟩ := read_rotating
  refine ⟨meets_rotating, ?_, rfl, fun i hi => ?_, fun _ => ?_⟩
  · show Opcode.decode? (Bus.read rotating.bus 0x0202) = _
    rw [hcode]
    exact Opcode.decode?_code ⟨0x76, .ror, .zeroPageX, 6⟩ (by decide)
  · obtain rfl : i = 0 := Nat.lt_one_iff.mp hi
    exact hsecond.trans hoperand.symm
  · rw [operandAddress_rotating]
    decide

/-- The byte, to which the index comes around the end of page zero, becomes what the
accumulator becomes, and is as it was when it has been rotated back. -/
theorem rotating_agrees_and_inverts :
    Bus.read rotating.step.after.bus 0x0014 = rotatingInA.step.after.a ∧
      rotating.step.after.step.after.bus = rotating.bus := by
  obtain ⟨hshifts, hundone⟩ := shifts_agree_and_rotations_invert
  have hmemory := hshifts rotating _ meets_rotating (by decide) (by decide)
  rw [operandAddress_rotating] at hmemory
  obtain ⟨-, hvalue, -⟩ := hmemory.agrees rotatingInA _ meets_rotatingInA rfl rfl
    read_rotating.1.symm rfl
  exact ⟨hvalue, (hundone rotating _ _ inTurn_rotating (by decide)).2.2.1⟩

end Processor
end Mos6502
