/-
# A setup builds what it describes

The lists of a setup are read from the front, and each entry takes the place of
those before it for the same key. So the last one counts (`Setup.last?`), wherever
the others stand; but an entry that does not fit is an error even if a later one
would have taken its place. The reset vector is read after the overlay is laid and
before the registers are set, and the program goes over the overlay.

Key definitions: `Setup.last?`, `Setup.start`, `Setup.Describes`.
Key theorems: `Setup.overlayOn_eq`, `Setup.setRegisters_of_fit`,
`Setup.builds_what_it_describes`.
-/
import Mos6502.Proofs.Memory
import Mos6502.Setup

namespace Mos6502
namespace Setup

universe u v

/-! ### The last setting -/

section Last

variable {κ : Type u} {υ : Type v} [DecidableEq κ]

/-- The last value that settings give to a key. -/
def last? (settings : List (κ × υ)) (key : κ) : Option υ := settings.reverse.lookup key

@[simp]
theorem last?_nil (key : κ) : last? ([] : List (κ × υ)) key = none := rfl

theorem getD_last?_cons (setting : κ × υ) (settings : List (κ × υ)) (key : κ) (default : υ) :
    (last? (setting :: settings) key).getD default =
      (last? settings key).getD (if setting.1 = key then setting.2 else default) := by
  obtain ⟨other, value⟩ := setting
  rw [last?, List.reverse_cons, List.lookup_append, ← last?]
  cases last? settings key with
  | some last => rfl
  | none =>
    rw [Option.none_or, List.lookup_cons, List.lookup_nil]
    by_cases heq : other = key
    · subst heq
      simp
    · have hbeq : (key == other) = false := beq_eq_false_iff_ne.mpr (Ne.symm heq)
      simp [hbeq, heq]

end Last

/-! ### The description -/

/-- The byte that the program has for an address. -/
def programByte? (start : UInt16) (program : List UInt8) (address : UInt16) : Option UInt8 :=
  if start.toNat ≤ address.toNat then program[address.toNat - start.toNat]? else none

/-- What a register holds before it is set. The program counter then comes from
the reset vector, as the overlay leaves it. -/
def unset (s : Setup) : Register → UInt16
  | .byte .sp => 0xFD
  | .byte _ => 0
  | .pc => Word.ofBytes ((last? s.overlay 0xFFFC).getD 0) ((last? s.overlay 0xFFFD).getD 0)

def register (s : Setup) (r : Register) : UInt16 := (last? s.registers r).getD (s.unset r)

def start (s : Setup) : UInt16 := s.register .pc

/-- A processor is as a setup says. -/
structure Describes (s : Setup) (p : Processor Memory) : Prop where
  /-- A byte is the program's, else the last of the overlay, else zero. -/
  read_eq : ∀ address, p.bus.read address =
    ((programByte? s.start s.program address).or (last? s.overlay address.toNat)).getD 0
  /-- A register has its last value, else that of a reset. -/
  register_eq : ∀ r, p.register r = s.register r
  /-- A flag has its last value, else that of a reset, which only sets I. -/
  flag_eq : ∀ flag, p.status.get flag = (last? s.flags flag).getD (decide (flag = .i))
  cycles_eq : p.cycles = 0
  irqPending_eq : p.irqPending = false
  nmiPending_eq : p.nmiPending = false

/-! ### The overlay -/

/-- The first address that is too high is the error; without one all bytes are
written. -/
theorem overlayOn_eq (memory : Memory) (overlay : List (Nat × UInt8)) :
    overlayOn memory overlay =
      match overlay.find? (0xFFFF < ·.1) with
      | some entry => .error (.addressOutOfRange entry.1)
      | none => .ok (Bus.writeAll memory (overlay.map fun entry => (.ofNat entry.1, entry.2))) := by
  induction overlay generalizing memory with
  | nil => rfl
  | cons entry overlay ih =>
    obtain ⟨address, value⟩ := entry
    rw [overlayOn]
    by_cases hhigh : 0xFFFF < address
    · rw [if_pos hhigh, List.find?_cons_of_pos (by simpa using hhigh)]
    · rw [if_neg hhigh, List.find?_cons_of_neg (by simpa using hhigh), ih]
      rfl

/-- A memory that bytes were laid over reads as the last of them for an
address. -/
theorem read_writeAll_overlay {overlay : List (Nat × UInt8)}
    (h : ∀ entry ∈ overlay, entry.1 ≤ 0xFFFF) (memory : Memory) (address : UInt16) :
    (Bus.writeAll memory (overlay.map fun entry => (.ofNat entry.1, entry.2))).read address =
      (last? overlay address.toNat).getD (memory.read address) := by
  induction overlay generalizing memory with
  | nil => rfl
  | cons entry overlay ih =>
    obtain ⟨hentry, hoverlay⟩ := List.forall_mem_cons.mp h
    have hkey : UInt16.ofNat entry.1 = address ↔ entry.1 = address.toNat := by
      rw [← UInt16.toNat_inj, Word.toNat_ofNat hentry]
    rw [List.map_cons, Bus.writeAll_cons, ih hoverlay, Memory.bus_write, Memory.read_write,
      getD_last?_cons]
    simp only [hkey]

/-! ### Registers and flags -/

theorem setRegister_of_wide (p : Processor Memory) {r : Register} {value : UInt16}
    (h : r.limit < value) : p.setRegister r value = .error ⟨r, value⟩ := if_pos h

/-- A register that can hold its value takes it, and nothing else changes. -/
theorem setRegister_of_fit (p : Processor Memory) {r : Register} {value : UInt16}
    (h : ¬ r.limit < value) :
    ∃ q, p.setRegister r value = .ok q ∧
      (∀ other, q.register other = if r = other then value else p.register other) ∧
      q = { p with a := q.a, x := q.x, y := q.y, sp := q.sp, pc := q.pc } := by
  cases r with
  | pc =>
    refine ⟨{ p with pc := value }, if_neg h, fun other => ?_, rfl⟩
    cases other <;> rfl
  | byte r =>
    have hvalue : value.toUInt8.toUInt16 = value := by
      have hle : value.toNat ≤ 0xFF := Nat.le_of_not_lt h
      apply UInt16.toNat.inj
      rw [UInt8.toNat_toUInt16, UInt16.toNat_toUInt8]
      omega
    refine ⟨p.setByte r value.toUInt8, if_neg h, fun other => ?_, by cases r <;> rfl⟩
    cases other with
    | pc => cases r <;> rfl
    | byte other =>
      simp only [Processor.register, Processor.byte_setByte, Register.byte.injEq]
      split
      · exact hvalue
      · rfl

theorem setRegisters_of_wide {registers : List (Register × UInt16)} {entry : Register × UInt16}
    (h : registers.find? (fun entry => entry.1.limit < entry.2) = some entry)
    (p : Processor Memory) :
    setRegisters p registers = .error (.register ⟨entry.1, entry.2⟩) := by
  induction registers generalizing p with
  | nil => cases h
  | cons first registers ih =>
    obtain ⟨r, value⟩ := first
    rw [setRegisters]
    by_cases hwide : r.limit < value
    · rw [List.find?_cons_of_pos (by simpa using hwide)] at h
      cases h
      rw [setRegister_of_wide p hwide]
    · rw [List.find?_cons_of_neg (by simpa using hwide)] at h
      obtain ⟨q, hq, -, -⟩ := setRegister_of_fit p hwide
      rw [hq]
      exact ih h q

/-- Registers that can hold their values have the last of them, and nothing else
changes. -/
theorem setRegisters_of_fit {registers : List (Register × UInt16)}
    (h : ∀ entry ∈ registers, ¬ entry.1.limit < entry.2) (p : Processor Memory) :
    ∃ q, setRegisters p registers = .ok q ∧
      (∀ r, q.register r = (last? registers r).getD (p.register r)) ∧
      q = { p with a := q.a, x := q.x, y := q.y, sp := q.sp, pc := q.pc } := by
  induction registers generalizing p with
  | nil => exact ⟨p, rfl, fun _ => rfl, rfl⟩
  | cons entry registers ih =>
    obtain ⟨hentry, hregisters⟩ := List.forall_mem_cons.mp h
    obtain ⟨p', hp', hset, hrest'⟩ := setRegister_of_fit p hentry
    obtain ⟨q, hq, hlast, hrest⟩ := ih hregisters p'
    refine ⟨q, ?_, fun r => ?_, ?_⟩
    · rw [setRegisters, hp']
      exact hq
    · rw [hlast, hset, getD_last?_cons]
    · rw [hrest, hrest']

/-- The status with flags set one after the other. -/
def setAll (status : Status) (flags : List (Flag × Bool)) : Status :=
  flags.foldl (fun status entry => status.set entry.1 entry.2) status

theorem foldl_setFlag (p : Processor Memory) (flags : List (Flag × Bool)) :
    flags.foldl (fun p entry => p.setFlag entry.1 entry.2) p =
      { p with status := setAll p.status flags } := by
  induction flags generalizing p with
  | nil => rfl
  | cons entry flags ih => exact ih (p.setFlag entry.1 entry.2)

theorem get_setAll (status : Status) (flags : List (Flag × Bool)) (flag : Flag) :
    (setAll status flags).get flag = (last? flags flag).getD (status.get flag) := by
  induction flags generalizing status with
  | nil => rfl
  | cons entry flags ih =>
    rw [setAll, List.foldl_cons, ← setAll, ih, Status.get_set, getD_last?_cons]

/-! ### The program -/

theorem read_writeAll_program {start : UInt16} {program : List UInt8}
    (h : start.toNat + program.length ≤ 0x10000) (memory : Memory) (address : UInt16) :
    (Bus.writeAll memory (Image.consecutive start program)).read address =
      (programByte? start program address).getD (memory.read address) := by
  have hget := Image.get?_insertBytes .empty h address
  rw [Image.get?_empty, Option.or_none] at hget
  rw [Memory.read_writeAll, programByte?, ← hget]
  rfl

theorem register_powerOn {s : Setup} {memory : Memory}
    (h : ∀ address, memory.read address = (last? s.overlay address.toNat).getD 0) (r : Register) :
    (Processor.powerOn memory).register r = s.unset r := by
  cases r with
  | byte r => cases r <;> rfl
  | pc =>
    show Word.ofBytes (memory.read 0xFFFC) (memory.read (0xFFFC + 1)) = _
    rw [h, h]
    rfl

@[simp]
theorem programByte?_nil (start address : UInt16) : programByte? start [] address = none :=
  ite_self none

/-- The setup without its program. -/
def withoutProgram (s : Setup) : Setup := { s with program := [] }

/-- A setup whose overlay and registers fit has its program placed on a processor
that is otherwise as it says. -/
theorem exists_build_eq_place {s : Setup} (hlow : ∀ entry ∈ s.overlay, entry.1 ≤ 0xFFFF)
    (hfit : ∀ entry ∈ s.registers, ¬ entry.1.limit < entry.2) :
    ∃ p, s.build = place p s.program ∧ s.withoutProgram.Describes p := by
  obtain ⟨memory, hmemory, hread⟩ : ∃ memory, overlayOn .zero s.overlay = .ok memory ∧
      ∀ address, memory.read address = (last? s.overlay address.toNat).getD 0 := by
    have hnone : s.overlay.find? (0xFFFF < ·.1) = none := by
      simpa using hlow
    refine ⟨_, (overlayOn_eq _ _).trans (by rw [hnone]), fun address => ?_⟩
    rw [read_writeAll_overlay hlow, Memory.read_zero]
  obtain ⟨p, hp, hregister, hrest⟩ := setRegisters_of_fit hfit (.powerOn memory)
  have hstatus : p.status = .reset := congrArg Processor.status hrest
  have hbus : p.bus = memory := congrArg Processor.bus hrest
  refine ⟨{ p with status := setAll p.status s.flags }, ?_, fun address => ?_, fun r => ?_,
    fun flag => ?_, ?_, ?_, ?_⟩
  · rw [build, hmemory]
    show (setRegisters (.powerOn memory) s.registers >>= _) = _
    rw [hp, ← foldl_setFlag]
    rfl
  · show p.bus.read address = ((programByte? s.start [] address).or (last? s.overlay _)).getD 0
    rw [hbus, hread, programByte?_nil, Option.none_or]
  · exact (hregister r).trans (by rw [register_powerOn hread]; rfl)
  · show (setAll p.status s.flags).get flag = _
    rw [get_setAll, hstatus]
    cases flag <;> rfl
  · exact congrArg Processor.cycles hrest
  · exact congrArg Processor.irqPending hrest
  · exact congrArg Processor.nmiPending hrest

theorem exists_place {s : Setup} {p : Processor Memory} (h : s.withoutProgram.Describes p)
    (hends : s.start.toNat + s.program.length ≤ 0x10000) :
    ∃ q, place p s.program = .ok q ∧ s.Describes q := by
  have hpc : p.pc = s.start := h.register_eq .pc
  have hread : ∀ address, p.bus.read address = (last? s.overlay address.toNat).getD 0 :=
    fun address => by simpa [withoutProgram] using h.read_eq address
  refine ⟨{ p with bus := Bus.writeAll p.bus (Image.consecutive p.pc s.program) }, if_neg ?_,
    fun address => ?_, h.register_eq, h.flag_eq, h.cycles_eq, h.irqPending_eq, h.nmiPending_eq⟩
  · rw [hpc]
    exact Nat.not_lt.mpr hends
  show (Bus.writeAll p.bus (Image.consecutive p.pc s.program)).read address = _
  rw [hpc, read_writeAll_program hends, hread]
  cases programByte? s.start s.program address <;> rfl

/-- **A setup builds what it describes.** The first address of the overlay that
is too high is the error, else the first value that its register cannot hold, else
a program that goes past the end of memory from where the program counter is; in
all other cases there is a processor, and it is as the setup says. -/
theorem builds_what_it_describes (s : Setup) :
    match s.overlay.find? (0xFFFF < ·.1),
      s.registers.find? (fun entry => entry.1.limit < entry.2) with
    | some entry, _ => s.build = .error (.addressOutOfRange entry.1)
    | none, some entry => s.build = .error (.register ⟨entry.1, entry.2⟩)
    | none, none =>
      if 0x10000 < s.start.toNat + s.program.length then
        s.build = .error (.programOutOfRange s.start s.program.length)
      else ∃ p, s.build = .ok p ∧ s.Describes p := by
  have hoverlayOn := overlayOn_eq .zero s.overlay
  cases hoverlay : s.overlay.find? (0xFFFF < ·.1) with
  | some entry =>
    rw [hoverlay] at hoverlayOn
    show s.build = _
    rw [build, hoverlayOn]
    rfl
  | none =>
    rw [hoverlay] at hoverlayOn
    cases hregisters : s.registers.find? (fun entry => entry.1.limit < entry.2) with
    | some entry =>
      show s.build = _
      rw [build, hoverlayOn]
      show (setRegisters _ s.registers >>= _) = _
      rw [setRegisters_of_wide hregisters]
      rfl
    | none =>
      obtain ⟨p, hbuild, hp⟩ := exists_build_eq_place (s := s) (by simpa using hoverlay)
        (by simpa using hregisters)
      have hpc : p.pc = s.start := hp.register_eq .pc
      show ite _ _ _
      split
      · rename_i hpast
        rw [hbuild, place, hpc, if_pos hpast]
      · rename_i hends
        rw [hbuild]
        exact exists_place hp (Nat.le_of_not_lt hends)

end Setup
end Mos6502
