/-
# Buses that cannot be told apart

A processor knows its bus by the bytes that reads give. If two buses read alike,
and still do after the same writes, then processors that are otherwise equal stay
so whatever they are told to do: they answer alike, account for the same events
and leave their buses alike (`indistinguishable_buses_run_alike`).

The proof follows the processor: each cycle keeps processors alike, so each
instruction made of cycles does (`Alike.perform`), and so do steps and runs.

Key definitions: `Indistinguishable`, `Alike`, `Command`, `Processor.obey`.
Key theorems: `Alike.perform`, `Alike.step`, `Alike.runUntil`, `Alike.obey`,
`indistinguishable_buses_run_alike`.
-/
import Mos6502.Bus.Guard
import Mos6502.Bus.Recorder
import Mos6502.Memory
import Mos6502.Processor.Run
import Mos6502.Proofs.Processor.Requests

namespace Mos6502

universe u v w

/-- Related buses cannot be told apart: they read alike at every address, and
still do after the same write. -/
structure Indistinguishable {β : Type u} {γ : Type v} [Bus β] [Bus γ] (R : β → γ → Prop) :
    Prop where
  /-- They read alike. -/
  read_eq : ∀ {b : β} {c : γ}, R b c → ∀ address, Bus.read b address = Bus.read c address
  /-- The same write keeps them related. -/
  write : ∀ {b : β} {c : γ}, R b c → ∀ address value,
    R (Bus.write b address value) (Bus.write c address value)

/-! ### What a processor is told to do -/

/-- What a processor can be told to do. -/
inductive Command
  /-- A call that makes a step, starts over or moves a line. -/
  | call (call : Call)
  | run (budget : Nat)
  | setByte (register : ByteRegister) (value : UInt8)
  | setPc (address : UInt16)
  | setRegister (register : Register) (value : UInt16)
  | setFlag (flag : Flag) (value : Bool)
  | setStatus (byte : UInt8)

/-- What a processor answers to a command. -/
inductive Answer
  | done
  | stepped (records : List Record) (fault : Option UndefinedInstruction)
  | ran (result : Except UndefinedInstruction Nat)
  | refused (error : RegisterError)

namespace Processor

variable {β : Type u} {γ : Type v}

/-- The answer to a command, and the processor after it. -/
def follow [Bus β] (p : Processor β) : Command → Answer × Processor β
  | .call .step => (.stepped p.step.records p.step.fault, p.step.after)
  | .call call => (.done, call.apply p)
  | .run budget => (.ran (p.runFor budget).result, (p.runFor budget).after)
  | .setByte register value => (.done, p.setByte register value)
  | .setPc address => (.done, { p with pc := address })
  | .setRegister register value =>
    match p.setRegister register value with
    | .ok p => (.done, p)
    | .error error => (.refused error, p)
  | .setFlag flag value => (.done, p.setFlag flag value)
  | .setStatus byte => (.done, { p with status := .ofByte byte })

/-- The answers to commands in order, and the processor after the last. -/
def obey [Bus β] (p : Processor β) : List Command → List Answer × Processor β
  | [] => ([], p)
  | command :: commands =>
    let (answer, q) := p.follow command
    let (answers, r) := q.obey commands
    (answer :: answers, r)

/-! ### Processors that differ in the bus -/

/-- The processor with another bus. -/
def withBus (p : Processor β) (bus : γ) : Processor γ :=
  ⟨p.a, p.x, p.y, p.sp, p.pc, p.status, p.cycles, p.irqPending, p.nmiPending, bus⟩

/-- Processors with the same registers, flags, cycles and lines, on related buses. -/
structure Alike (R : β → γ → Prop) (p : Processor β) (q : Processor γ) : Prop where
  eq_withBus : q = p.withBus q.bus
  bus_rel : R p.bus q.bus

/-- The same value on both sides, with processors that are alike. -/
structure Agree {α : Type w} (R : β → γ → Prop) (r : α × Processor β)
    (s : α × Processor γ) : Prop where
  fst_eq : r.1 = s.1
  snd_alike : Alike R r.2 s.2

section

variable {R : β → γ → Prop} {p : Processor β} {q : Processor γ}

theorem alike_withBus {c : γ} (h : R p.bus c) : Alike R p (p.withBus c) := ⟨rfl, h⟩

theorem Alike.exists_eq (h : Alike R p q) : ∃ c, R p.bus c ∧ q = p.withBus c :=
  ⟨q.bus, h.bus_rel, h.eq_withBus⟩

theorem Agree.exists_eq {α : Type w} {r : α × Processor β} {s : α × Processor γ}
    (h : Agree R r s) : ∃ c, R r.2.bus c ∧ s = (r.1, r.2.withBus c) := by
  obtain ⟨c, hc, heq⟩ := h.snd_alike.exists_eq
  exact ⟨c, hc, Prod.ext h.fst_eq.symm heq⟩

theorem Alike.pc_eq (h : Alike R p q) : p.pc = q.pc := by
  obtain ⟨c, hc, rfl⟩ := h.exists_eq
  rfl

theorem Alike.status_eq (h : Alike R p q) : p.status = q.status := by
  obtain ⟨c, hc, rfl⟩ := h.exists_eq
  rfl

theorem Alike.byte_eq (h : Alike R p q) (register : ByteRegister) :
    p.byte register = q.byte register := by
  obtain ⟨c, hc, rfl⟩ := h.exists_eq
  cases register <;> rfl

theorem Alike.cycles_eq (h : Alike R p q) : p.cycles = q.cycles := by
  obtain ⟨c, hc, rfl⟩ := h.exists_eq
  rfl

theorem Alike.record_eq (h : Alike R p q) (address : UInt16) (start : Nat) (event : Event) :
    record address start event p = record address start event q := by
  obtain ⟨c, hc, rfl⟩ := h.exists_eq
  rfl

/-! ### What does not use the bus -/

theorem Alike.tick (h : Alike R p q) : Alike R p.tick q.tick := by
  obtain ⟨c, hc, rfl⟩ := h.exists_eq
  exact ⟨rfl, hc⟩

theorem Alike.setPc (h : Alike R p q) {address other : UInt16} (heq : address = other) :
    Alike R { p with pc := address } { q with pc := other } := by
  obtain ⟨c, hc, rfl⟩ := h.exists_eq
  exact ⟨heq ▸ rfl, hc⟩

theorem Alike.setStatus (h : Alike R p q) {status other : Status} (heq : status = other) :
    Alike R { p with status := status } { q with status := other } := by
  obtain ⟨c, hc, rfl⟩ := h.exists_eq
  exact ⟨heq ▸ rfl, hc⟩

theorem Alike.mapStatus (h : Alike R p q) (f : Status → Status) :
    Alike R { p with status := f p.status } { q with status := f q.status } :=
  h.setStatus (congrArg f h.status_eq)

theorem Alike.setByte (h : Alike R p q) (register : ByteRegister) {value other : UInt8}
    (heq : value = other) : Alike R (p.setByte register value) (q.setByte register other) := by
  subst heq
  obtain ⟨c, hc, rfl⟩ := h.exists_eq
  cases register <;> exact ⟨rfl, hc⟩

theorem Alike.note (h : Alike R p q) {result other : UInt8} (heq : result = other) :
    Alike R (p.note result) (q.note other) :=
  h.setStatus (congrArg₂ Status.ofResult h.status_eq heq)

theorem Alike.indexed (h : Alike R p q) {base other : UInt16} (hbase : base = other)
    {index second : UInt8} (hindex : index = second) (access : Access) :
    Agree R (p.indexed base index access) (q.indexed other second access) := by
  subst hbase hindex
  refine ⟨rfl, ?_⟩
  unfold Processor.indexed
  by_cases hcycle : (access != .read || crossesPage base (base + index.toUInt16)) = true
  · simp only [hcycle, if_true]
    exact h.tick
  · simp only [hcycle, if_false, Bool.false_eq_true]
    exact h

theorem Alike.transfer (h : Alike R p q) (source target : ByteRegister) :
    Alike R (p.transfer source target) (q.transfer source target) := by
  have hvalue := h.byte_eq source
  have hset := h.tick.setByte target hvalue
  unfold Processor.transfer
  by_cases htarget : target = .sp
  · rw [if_pos htarget, if_pos htarget]
    exact hset
  · rw [if_neg htarget, if_neg htarget]
    exact hset.note hvalue

theorem Alike.interrupts_eq (h : Alike R p q) : p.interrupts = q.interrupts := by
  obtain ⟨c, hc, rfl⟩ := h.exists_eq
  rfl

theorem Alike.lowerLines (h : Alike R p q) : Alike R p.lowerLines q.lowerLines := by
  obtain ⟨c, hc, rfl⟩ := h.exists_eq
  exact ⟨rfl, hc⟩

/-! ### Cycles -/

variable [Bus β] [Bus γ]

theorem Alike.readByte (h : Alike R p q) (hR : Indistinguishable R) {address other : UInt16}
    (heq : address = other) : Agree R (p.readByte address) (q.readByte other) :=
  ⟨heq ▸ hR.read_eq h.bus_rel address, h.tick⟩

theorem Alike.writeByte (h : Alike R p q) (hR : Indistinguishable R) {address other : UInt16}
    (haddress : address = other) {value second : UInt8} (hvalue : value = second) :
    Alike R (p.writeByte address value) (q.writeByte other second) := by
  subst haddress hvalue
  obtain ⟨c, hc, rfl⟩ := h.exists_eq
  exact ⟨rfl, hR.write hc address value⟩

theorem Alike.readWord (h : Alike R p q) (hR : Indistinguishable R) (address : UInt16) :
    Agree R (p.readWord address) (q.readWord address) := by
  obtain ⟨hlow, h⟩ := h.readByte hR (rfl : address = address)
  obtain ⟨hhigh, h⟩ := h.readByte hR (rfl : address + 1 = address + 1)
  exact ⟨congrArg₂ Word.ofBytes hlow hhigh, h⟩

theorem Alike.fetchByte (h : Alike R p q) (hR : Indistinguishable R) :
    Agree R p.fetchByte q.fetchByte := by
  obtain ⟨hbyte, h'⟩ := h.readByte hR h.pc_eq
  exact ⟨hbyte, h'.setPc (congrArg (· + 1) h.pc_eq)⟩

theorem Alike.fetchWord (h : Alike R p q) (hR : Indistinguishable R) :
    Agree R p.fetchWord q.fetchWord := by
  obtain ⟨hlow, h⟩ := h.fetchByte hR
  obtain ⟨hhigh, h⟩ := h.fetchByte hR
  exact ⟨congrArg₂ Word.ofBytes hlow hhigh, h⟩

theorem Alike.push (h : Alike R p q) (hR : Indistinguishable R) {value other : UInt8}
    (heq : value = other) : Alike R (p.push value) (q.push other) := by
  subst heq
  obtain ⟨c, hc, rfl⟩ := h.exists_eq
  exact ⟨rfl, hR.write hc _ _⟩

theorem Alike.pushWord (h : Alike R p q) (hR : Indistinguishable R) {value other : UInt16}
    (heq : value = other) : Alike R (p.pushWord value) (q.pushWord other) :=
  (h.push hR (congrArg Word.high heq)).push hR (congrArg Word.low heq)

theorem Alike.pull (h : Alike R p q) (hR : Indistinguishable R) : Agree R p.pull q.pull := by
  obtain ⟨c, hc, rfl⟩ := h.exists_eq
  exact ⟨hR.read_eq hc _, rfl, hc⟩

theorem Alike.pullWord (h : Alike R p q) (hR : Indistinguishable R) :
    Agree R p.pullWord q.pullWord := by
  obtain ⟨hlow, h⟩ := h.pull hR
  obtain ⟨hhigh, h⟩ := h.pull hR
  exact ⟨congrArg₂ Word.ofBytes hlow hhigh, h⟩

/-! ### Operands -/

theorem Alike.readZeroPageWord (h : Alike R p q) (hR : Indistinguishable R) {pointer other : UInt8}
    (heq : pointer = other) : Agree R (p.readZeroPageWord pointer) (q.readZeroPageWord other) := by
  subst heq
  obtain ⟨hlow, h⟩ := h.readByte hR (rfl : pointer.toUInt16 = _)
  obtain ⟨hhigh, h⟩ := h.readByte hR (rfl : (pointer + 1).toUInt16 = _)
  exact ⟨congrArg₂ Word.ofBytes hlow hhigh, h⟩

theorem Alike.readWordInPage (h : Alike R p q) (hR : Indistinguishable R) {pointer other : UInt16}
    (heq : pointer = other) : Agree R (p.readWordInPage pointer) (q.readWordInPage other) := by
  subst heq
  obtain ⟨hlow, h⟩ := h.readByte hR (rfl : pointer = _)
  obtain ⟨hhigh, h⟩ :=
    h.readByte hR (rfl : Word.ofBytes (Word.low pointer + 1) (Word.high pointer) = _)
  exact ⟨congrArg₂ Word.ofBytes hlow hhigh, h⟩

/-- Every mode makes the same address. -/
theorem Alike.effectiveAddress (h : Alike R p q) (hR : Indistinguishable R)
    (mode : AddressingMode) (access : Access) :
    Agree R (p.effectiveAddress mode access) (q.effectiveAddress mode access) := by
  have hx : p.x = q.x := h.byte_eq .x
  have hy : p.y = q.y := h.byte_eq .y
  obtain ⟨hbyte, hfetched⟩ := h.fetchByte hR
  obtain ⟨hword, hfetchedWord⟩ := h.fetchWord hR
  cases mode with
  | implicit | accumulator | relative => exact ⟨h.pc_eq, h⟩
  | immediate => exact ⟨h.pc_eq, h.setPc (congrArg (· + 1) h.pc_eq)⟩
  | zeroPage => exact ⟨congrArg UInt8.toUInt16 hbyte, hfetched⟩
  | zeroPageX => exact ⟨congrArg UInt8.toUInt16 (congrArg₂ (· + ·) hbyte hx), hfetched.tick⟩
  | zeroPageY => exact ⟨congrArg UInt8.toUInt16 (congrArg₂ (· + ·) hbyte hy), hfetched.tick⟩
  | absolute => exact h.fetchWord hR
  | absoluteX => exact hfetchedWord.indexed hword hx access
  | absoluteY => exact hfetchedWord.indexed hword hy access
  | indirect => exact hfetchedWord.readWordInPage hR hword
  | indirectX => exact hfetched.tick.readZeroPageWord hR (congrArg₂ (· + ·) hbyte hx)
  | indirectY =>
    obtain ⟨hbase, hread⟩ := hfetched.readZeroPageWord hR hbyte
    exact hread.indexed hbase hy access

theorem Alike.operand (h : Alike R p q) (hR : Indistinguishable R) (mode : AddressingMode) :
    Agree R (p.operand mode) (q.operand mode) := by
  obtain ⟨haddress, h⟩ := h.effectiveAddress hR mode .read
  exact h.readByte hR haddress

/-! ### Operations -/

theorem Alike.branch (h : Alike R p q) (hR : Indistinguishable R) (flag : Flag) (value : Bool) :
    Alike R (p.branch flag value) (q.branch flag value) := by
  obtain ⟨c, hc, heq⟩ := (h.fetchByte hR).exists_eq
  have hflag : (p.fetchByte.2.withBus c).status = p.fetchByte.2.status := rfl
  have hpc : (p.fetchByte.2.withBus c).pc = p.fetchByte.2.pc := rfl
  have hfetched : Alike R p.fetchByte.2 (p.fetchByte.2.withBus c) := ⟨rfl, hc⟩
  simp only [Processor.branch, heq, hflag, hpc]
  split
  · split
    · exact hfetched.tick.tick.setPc rfl
    · exact hfetched.tick.setPc rfl
  · exact hfetched

theorem Alike.shift (h : Alike R p q) (hR : Indistinguishable R) (s : Shift)
    (mode : AddressingMode) : Alike R (p.shift s mode) (q.shift s mode) := by
  unfold Processor.shift
  by_cases hmode : mode = .accumulator
  · rw [if_pos hmode, if_pos hmode]
    obtain ⟨c, hc, rfl⟩ := h.exists_eq
    exact ⟨rfl, hc⟩
  · rw [if_neg hmode, if_neg hmode]
    obtain ⟨haddress, h⟩ := h.effectiveAddress hR mode .modify
    obtain ⟨hvalue, h⟩ := h.readByte hR haddress
    have hmoved := congrArg₂ s.apply hvalue (congrArg Status.c h.status_eq)
    have hresult := congrArg Prod.fst hmoved
    have hstatus := congrArg₂ (fun status : Status => status.set .c) h.status_eq
      (congrArg Prod.snd hmoved)
    exact ((h.tick.setStatus hstatus).writeByte hR haddress hresult).note hresult

theorem Alike.countMemory (h : Alike R p q) (hR : Indistinguishable R) (count : Count)
    (mode : AddressingMode) : Alike R (p.countMemory count mode) (q.countMemory count mode) := by
  obtain ⟨haddress, h⟩ := h.effectiveAddress hR mode .modify
  obtain ⟨hvalue, h⟩ := h.readByte hR haddress
  have hresult := congrArg count.apply hvalue
  exact (h.tick.writeByte hR haddress hresult).note hresult

theorem Alike.call (h : Alike R p q) (hR : Indistinguishable R) : Alike R p.call q.call := by
  obtain ⟨hlow, h⟩ := h.fetchByte hR
  have hpushed := h.tick.pushWord hR h.pc_eq
  obtain ⟨hhigh, hread⟩ := hpushed.readByte hR hpushed.pc_eq
  exact hread.setPc (congrArg₂ Word.ofBytes hlow hhigh)

theorem Alike.returnFromCall (h : Alike R p q) (hR : Indistinguishable R) :
    Alike R p.returnFromCall q.returnFromCall := by
  obtain ⟨haddress, h⟩ := h.tick.tick.pullWord hR
  exact h.tick.setPc (congrArg (· + 1) haddress)

theorem Alike.breakOff (h : Alike R p q) (hR : Indistinguishable R) :
    Alike R p.breakOff q.breakOff := by
  obtain ⟨-, h⟩ := h.fetchByte hR
  have hbyte := congrArg Status.breakByte h.status_eq
  have hstacked := (h.pushWord hR h.pc_eq).push hR hbyte
  have hmasked := hstacked.mapStatus fun status => { status with b := true, i := true }
  obtain ⟨haddress, hread⟩ := hmasked.readWord hR irqVector
  exact hread.setPc haddress

theorem Alike.returnFromInterrupt (h : Alike R p q) (hR : Indistinguishable R) :
    Alike R p.returnFromInterrupt q.returnFromInterrupt := by
  obtain ⟨hbyte, h⟩ := h.tick.tick.pull hR
  have hstatus := congrArg₂ Status.restore h.status_eq hbyte
  have hrestored := (h.setStatus hstatus).mapStatus fun status => { status with b := false }
  obtain ⟨haddress, h⟩ := hrestored.pullWord hR
  exact h.setPc haddress

/-- **Every operation keeps processors alike.** -/
theorem Alike.perform (h : Alike R p q) (hR : Indistinguishable R) (operation : Operation)
    (mode : AddressingMode) : Alike R (p.perform operation mode) (q.perform operation mode) := by
  cases operation with
  | add | subtract | combine logic | testBits =>
    obtain ⟨c, hc, heq⟩ := (h.operand hR mode).exists_eq
    simp only [Processor.perform, add, subtract, combine, testBits, heq]
    exact ⟨rfl, hc⟩
  | compare register =>
    obtain ⟨c, hc, heq⟩ := (h.operand hR mode).exists_eq
    simp only [Processor.perform, compare, heq]
    cases register <;> exact ⟨rfl, hc⟩
  | load register =>
    obtain ⟨hvalue, h⟩ := h.operand hR mode
    exact (h.setByte register hvalue).note hvalue
  | store register =>
    obtain ⟨haddress, h⟩ := h.effectiveAddress hR mode .write
    exact h.writeByte hR haddress (h.byte_eq register)
  | countMemory count => exact h.countMemory hR count mode
  | countRegister register count =>
    have hresult := congrArg count.apply (h.byte_eq register)
    exact (h.tick.setByte register hresult).note hresult
  | branch flag value => exact h.branch hR flag value
  | shift s => exact h.shift hR s mode
  | jump =>
    obtain ⟨haddress, h⟩ := h.effectiveAddress hR mode .read
    exact h.setPc haddress
  | call => exact h.call hR
  | returnFromCall => exact h.returnFromCall hR
  | «break» => exact h.breakOff hR
  | returnFromInterrupt => exact h.returnFromInterrupt hR
  | idle => exact h.tick
  | pushAccumulator => exact h.tick.push hR (h.byte_eq .a)
  | pushStatus => exact h.tick.push hR (congrArg Status.breakByte h.status_eq)
  | pullAccumulator =>
    obtain ⟨hvalue, h⟩ := h.tick.tick.pull hR
    exact (h.setByte .a hvalue).note hvalue
  | pullStatus =>
    obtain ⟨hbyte, h⟩ := h.tick.tick.pull hR
    exact h.setStatus (congrArg₂ Status.restore h.status_eq hbyte)
  | setFlag flag value =>
    exact h.tick.mapStatus fun status => status.set flag value
  | transfer source target => exact h.transfer source target

/-! ### Steps -/

theorem Alike.enter (h : Alike R p q) (hR : Indistinguishable R) (vector : UInt16) :
    Alike R (p.enter vector) (q.enter vector) := by
  have hbyte := congrArg Status.interruptByte h.status_eq
  have hstacked := (h.tick.tick.pushWord hR h.pc_eq).push hR hbyte
  have hmasked := hstacked.mapStatus fun status => { status with i := true }
  obtain ⟨haddress, hread⟩ := hmasked.readWord hR vector
  exact hread.setPc haddress

theorem Alike.enterAll (h : Alike R p q) (hR : Indistinguishable R) (vectors : List UInt16) :
    Agree R (p.enterAll vectors) (q.enterAll vectors) := by
  induction vectors generalizing p q with
  | nil => exact ⟨rfl, h⟩
  | cons vector vectors ih =>
    have henter := h.enter hR vector
    obtain ⟨hrecords, hall⟩ := ih henter
    have hrecord := henter.record_eq p.pc p.cycles (.interrupt vector)
    constructor
    · simp only [Processor.enterAll, ← h.pc_eq, ← h.cycles_eq, hrecord, hrecords]
    · rw [enterAll_cons, enterAll_cons]
      exact hall

/-- Steps with the same events and the same end, from and to processors that are
alike. -/
structure AlikeSteps (R : β → γ → Prop) (s : Step β) (t : Step γ) : Prop where
  records_eq : s.records = t.records
  fault_eq : s.fault = t.fault
  after_alike : Alike R s.after t.after

theorem Alike.execute (h : Alike R p q) (hR : Indistinguishable R) :
    AlikeSteps R p.execute q.execute := by
  obtain ⟨hcode, hfetched⟩ := h.fetchByte hR
  simp only [Processor.execute, ← hcode, ← h.pc_eq, ← h.cycles_eq]
  cases Opcode.decode? p.fetchByte.1 with
  | none => exact ⟨rfl, rfl, hfetched⟩
  | some op =>
    have hdone := hfetched.perform hR op.mnemonic.operation op.mode
    exact ⟨congrArg (fun record => [record]) (hdone.record_eq _ _ _), rfl, hdone⟩

/-- **Steps of processors that are alike are alike.** -/
theorem Alike.step (h : Alike R p q) (hR : Indistinguishable R) :
    AlikeSteps R p.step q.step := by
  obtain ⟨hentries, hentered⟩ := h.lowerLines.enterAll hR p.interrupts
  obtain ⟨hrecords, hfault, hafter⟩ := hentered.execute hR
  simp only [Processor.step, ← h.interrupts_eq]
  exact ⟨congrArg₂ (· ++ ·) hentries hrecords, hfault, hafter⟩

/-! ### Runs -/

theorem Alike.runUntil (h : Alike R p q) (hR : Indistinguishable R) (target : Nat) :
    Agree R (runUntil target p) (runUntil target q) := by
  have hcycles := h.cycles_eq
  induction p using runUntil_induction (β := β) target generalizing q with
  | ended p hended =>
    rw [runUntil_of_le hended, runUntil_of_le (hcycles ▸ hended)]
    exact ⟨rfl, h⟩
  | fails p fault hlt hfails =>
    obtain ⟨-, hfault, hafter⟩ := h.step hR
    rw [runUntil_of_fault hlt hfails, runUntil_of_fault (hcycles ▸ hlt) (hfault ▸ hfails)]
    exact ⟨rfl, hafter⟩
  | goesOn p hlt hok ih =>
    obtain ⟨-, hfault, hafter⟩ := h.step hR
    rw [runUntil_of_step hlt hok, runUntil_of_step (p := q) (hcycles ▸ hlt) (hfault ▸ hok)]
    exact ih hafter hafter.cycles_eq

theorem Alike.runFor (h : Alike R p q) (hR : Indistinguishable R) (budget : Nat) :
    (p.runFor budget).result = (q.runFor budget).result ∧
      Alike R (p.runFor budget).after (q.runFor budget).after := by
  obtain ⟨c, hc, heq⟩ := (h.runUntil hR (min (p.cycles + budget) cycleLimit)).exists_eq
  simp only [Processor.runFor, ← h.cycles_eq, heq]
  cases (Processor.runUntil (min (p.cycles + budget) cycleLimit) p).1 with
  | none => exact ⟨rfl, rfl, hc⟩
  | some fault => exact ⟨rfl, rfl, hc⟩

/-! ### Commands -/

theorem Alike.reset (h : Alike R p q) (hR : Indistinguishable R) : Alike R p.reset q.reset := by
  obtain ⟨c, hc, rfl⟩ := h.exists_eq
  have haddress : Word.ofBytes (Bus.read p.bus resetVector) (Bus.read p.bus (resetVector + 1)) =
      Word.ofBytes (Bus.read c resetVector) (Bus.read c (resetVector + 1)) :=
    congrArg₂ Word.ofBytes (hR.read_eq hc _) (hR.read_eq hc _)
  refine ⟨?_, hc⟩
  simp only [Processor.reset, withBus, haddress]

theorem Alike.apply (h : Alike R p q) (hR : Indistinguishable R) (call : Call) :
    Alike R (call.apply p) (call.apply q) := by
  cases call with
  | step => exact (h.step hR).after_alike
  | reset => exact h.reset hR
  | requestIrq | clearIrq | requestNmi =>
    obtain ⟨c, hc, rfl⟩ := h.exists_eq
    exact ⟨rfl, hc⟩

theorem Alike.follow (h : Alike R p q) (hR : Indistinguishable R) (command : Command) :
    Agree R (p.follow command) (q.follow command) := by
  cases command with
  | call call =>
    have happly := h.apply hR call
    cases call with
    | step =>
      obtain ⟨hrecords, hfault, -⟩ := h.step hR
      exact ⟨congrArg₂ Answer.stepped hrecords hfault, happly⟩
    | requestIrq | clearIrq | requestNmi | reset => exact ⟨rfl, happly⟩
  | run budget =>
    obtain ⟨hresult, hafter⟩ := h.runFor hR budget
    exact ⟨congrArg Answer.ran hresult, hafter⟩
  | setByte register value => exact ⟨rfl, h.setByte register rfl⟩
  | setPc address => exact ⟨rfl, h.setPc rfl⟩
  | setRegister register value =>
    simp only [Processor.follow, Processor.setRegister]
    by_cases hlimit : register.limit < value
    · simp only [hlimit, if_true]
      exact ⟨rfl, h⟩
    · simp only [hlimit, if_false]
      cases register with
      | byte register => exact ⟨rfl, h.setByte register rfl⟩
      | pc => exact ⟨rfl, h.setPc rfl⟩
  | setFlag flag value => exact ⟨rfl, h.mapStatus fun status => status.set flag value⟩
  | setStatus byte => exact ⟨rfl, h.setStatus rfl⟩

/-- Processors that are alike answer all commands alike. -/
theorem Alike.obey (h : Alike R p q) (hR : Indistinguishable R) (commands : List Command) :
    Agree R (p.obey commands) (q.obey commands) := by
  induction commands generalizing p q with
  | nil => exact ⟨rfl, h⟩
  | cons command commands ih =>
    obtain ⟨hanswer, hfollow⟩ := h.follow hR command
    obtain ⟨hanswers, hobey⟩ := ih hfollow
    exact ⟨congrArg₂ List.cons hanswer hanswers, hobey⟩

end

/-! ### Memory behind a recorder -/

/-- Memory behind a recorder and a guard that covers nothing. -/
def logged (memory : Memory) (writes : Array (UInt16 × UInt8)) : Recorder (Guard Memory) :=
  ⟨⟨memory, [], []⟩, writes⟩

/-- The bus is the memory behind a recorder, whatever that has recorded. -/
def IsLogged (memory : Memory) (bus : Recorder (Guard Memory)) : Prop :=
  ∃ writes, bus = logged memory writes

/-- A memory cannot be told from the same memory behind a recorder. -/
theorem indistinguishable_logged : Indistinguishable IsLogged := by
  constructor
  · rintro memory _ ⟨writes, rfl⟩ address
    rfl
  · rintro memory _ ⟨writes, rfl⟩ address value
    exact ⟨writes.push (address, value), rfl⟩

/-- **A bus matters by what it reads as, and by nothing else.** On buses that
cannot be told apart, processors that are otherwise equal give the same answers to
all commands, and are left equal on such buses. So a memory whose writes are
recorded does as the memory alone does. -/
theorem indistinguishable_buses_run_alike [Bus β] [Bus γ] :
    (∀ R : β → γ → Prop, Indistinguishable R → ∀ (p : Processor β) (q : Processor γ),
      Alike R p q → ∀ commands, (p.obey commands).1 = (q.obey commands).1 ∧
        Alike R (p.obey commands).2 (q.obey commands).2) ∧
    ∀ (p : Processor Memory) (writes : Array (UInt16 × UInt8)) (commands : List Command),
      let q := p.withBus (logged p.bus writes)
      (p.obey commands).1 = (q.obey commands).1 ∧
        ∃ writes, (q.obey commands).2 =
          (p.obey commands).2.withBus (logged (p.obey commands).2.bus writes) := by
  refine ⟨fun R hR p q h commands => ?_, fun p writes commands => ?_⟩
  · obtain ⟨hanswers, hobey⟩ := h.obey hR commands
    exact ⟨hanswers, hobey⟩
  · have hstart : IsLogged p.bus (logged p.bus writes) := ⟨writes, rfl⟩
    obtain ⟨hanswers, hobey⟩ := (alike_withBus hstart).obey indistinguishable_logged commands
    obtain ⟨_, ⟨writes, rfl⟩, heq⟩ := hobey.exists_eq
    exact ⟨hanswers, writes, heq⟩

/-- A memory with a program that stores the accumulator at 0300. -/
def storingProgram : Memory :=
  Bus.writeAll .zero [(0xFFFD, 0x02), (0x0200, 0x8D), (0x0202, 0x03)]

/-- What was recorded before makes no difference: a recorder that has forgotten its
writes does as one that has not. -/
theorem storingProgram_runs_alike :
    let R := fun r s : Recorder Memory => r.bus = s.bus
    let p := powerOn (Recorder.start storingProgram)
    let q := powerOn (Recorder.mk storingProgram #[(0xFFFD, 0x02), (0x0200, 0x8D), (0x0202, 0x03)])
    let commands := [.setByte .a 0x2A, .call .requestIrq, .call .step, .setFlag .i false, .run 20,
      .setRegister (.byte .sp) 0x0100, .call .reset]
    Indistinguishable R ∧ Alike R p q ∧ (p.obey commands).1 = (q.obey commands).1 ∧
      Alike R (p.obey commands).2 (q.obey commands).2 := by
  intro R p q commands
  have hR : Indistinguishable R := by
    constructor
    · intro r s hbus address
      exact congrArg (fun memory : Memory => Bus.read memory address) hbus
    · intro r s hbus address value
      exact congrArg (fun memory : Memory => Bus.write memory address value) hbus
  have halike : Alike R p q := ⟨rfl, rfl⟩
  exact ⟨hR, halike, indistinguishable_buses_run_alike.1 R hR p q halike commands⟩

end Processor
end Mos6502
