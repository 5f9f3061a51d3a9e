/-
# Calls inside calls

A subroutine may call another one before it returns. The stack then holds the address
of the last byte of every call that is open, the innermost on top, so each return goes
on behind its own call. Page one has room for 128 of these addresses, wherever the
stack begins.

A call opens one more (`Inside.call`), a return closes the innermost (`Inside.return`).
So the calls are made one after the other, and then are done in reverse.

Key definitions: `Nested`, `returnBytes`, `Inside`.
Key theorems: `Inside.call`, `Inside.return`, `nested_calls_unwind`.
-/
import Mos6502.Proofs.Processor.StackUse

namespace Mos6502

/-! ### What the law says -/

/-- Calls that lie inside one another. At each place but the last there is a call of the
next, and at the last a return; all calls but the outermost have a return behind them.
None of this lies on the stack. -/
structure Nested (m : Memory) (place : Nat → UInt16) (depth : Nat) : Prop where
  /-- No place is in page one, nor are the three bytes behind it. -/
  off_stack : ∀ i ≤ depth, ∀ k ∈ [0, 1, 2, 3], Word.page (place i + k) ≠ 1
  call_eq : ∀ i < depth, m.read (place i) = 0x20
  target_eq : ∀ i < depth, Bus.word m (place i + 1) = place (i + 1)
  last_eq : m.read (place depth) = 0x60
  return_eq : ∀ i, 0 < i → i < depth → m.read (place i + 3) = 0x60

theorem Nested.page_ne {m : Memory} {place : Nat → UInt16} {depth i : Nat}
    (h : Nested m place depth) (hi : i ≤ depth) : Word.page (place i) ≠ 1 := by
  simpa using h.off_stack i hi 0 (by decide)

namespace Processor

/-- The stack when the first of the calls are open: the address of the last byte of
each, the innermost first. -/
def returnBytes (place : Nat → UInt16) : Nat → List UInt8
  | 0 => []
  | k + 1 => Word.low (place k + 2) :: Word.high (place k + 2) :: returnBytes place k

/-- A processor that started as `p` is at an address and has spent some cycles, and the
first `k` calls are open. -/
structure Inside (p : Processor Memory) (place : Nat → UInt16) (k : Nat) (address : UInt16)
    (spent : Nat) (q : Processor Memory) : Prop where
  pc_eq : q.pc = address
  cycles_eq : q.cycles = p.cycles + spent
  stack : Represents p.sp (returnBytes place k) q
  /-- Memory outside of the stack is as it was. -/
  read_eq : ∀ other, Word.page other ≠ 1 → q.bus.read other = p.bus.read other
  /-- So is everything else. -/
  rest_eq : { q with pc := p.pc, sp := p.sp, cycles := p.cycles, bus := p.bus } = p

variable {p q : Processor Memory} {place : Nat → UInt16} {depth k spent : Nat} {address : UInt16}

@[simp]
theorem length_returnBytes (place : Nat → UInt16) (k : Nat) :
    (returnBytes place k).length = 2 * k := by
  induction k with
  | zero => rfl
  | succ k ih =>
    rw [returnBytes, List.length_cons, List.length_cons, ih]
    omega

/-! ### One step -/

theorem inside_start (p : Processor Memory) (place : Nat → UInt16) :
    Inside p place 0 p.pc 0 p :=
  ⟨rfl, rfl, represents_nil p, fun _ _ => rfl, rfl⟩

/-- Nothing interrupts a processor that nothing interrupted at first. -/
theorem Inside.step_eq (h : Inside p place k address spent q) (hquiet : p.lines = (false, false))
    (hpage : Word.page address ≠ 1) {op : Opcode} (hop : op ∈ Opcode.documented)
    (hcode : p.bus.read address = op.code) :
    q.step.fault = none ∧
      q.step.after = q.fetchByte.2.perform op.mnemonic.operation op.mode := by
  have hlines : q.lines = (false, false) := (congrArg lines h.rest_eq).trans hquiet
  have hread : Bus.read q.bus q.pc = op.code := by
    rw [h.pc_eq, Memory.bus_read, h.read_eq address hpage, hcode]
  have hdecode : Opcode.decode? (Bus.read q.bus q.pc) = some op := by
    rw [hread]
    exact Opcode.decode?_code op hop
  rw [step_eq_perform (congrArg Prod.fst hlines) (congrArg Prod.snd hlines) hdecode]
  exact ⟨rfl, rfl⟩

/-- **A call opens one more**, if there is room for its address: it goes on at its
place. -/
theorem Inside.call (h : Inside p place k (place k) spent q) (hquiet : p.lines = (false, false))
    (hnested : Nested p.bus place depth) (hdepth : depth ≤ 128) (hk : k < depth) :
    q.step.fault = none ∧ Inside p place (k + 1) (place (k + 1)) (spent + 6) q.step.after := by
  have hoff : ∀ offset ∈ [0, 1, 2, 3], Word.page (place k + offset) ≠ 1 :=
    hnested.off_stack k (Nat.le_of_lt hk)
  have hcall : ⟨0x20, .jsr, .absolute, 6⟩ ∈ Opcode.documented := by decide
  obtain ⟨hfault, hperform⟩ :=
    h.step_eq hquiet (hnested.page_ne (Nat.le_of_lt hk)) hcall (hnested.call_eq k hk)
  have hkeeps : q.KeepsOperand := by
    refine keepsOperand_of_ne ?_ ?_ <;> rw [h.pc_eq, ← stackAddress_eq_or] <;>
      exact stackAddress_ne (hoff 2 (by decide)) _
  have htarget : Bus.word q.bus (q.pc + 1) = place (k + 1) := by
    have hnext : place k + 1 + 1 = place k + 2 := by grind
    rw [h.pc_eq, ← hnested.target_eq k hk]
    simp only [Bus.word, Memory.bus_read, hnext, h.read_eq _ (hoff 1 (by decide)),
      h.read_eq _ (hoff 2 (by decide))]
  have hafter : q.step.after = { q with
      pc := place (k + 1)
      sp := (q.pushWord (place k + 2)).sp
      cycles := q.cycles + 6
      bus := (q.pushWord (place k + 2)).bus } := by
    rw [hperform, ← htarget, ← h.pc_eq]
    exact call_eq hkeeps
  have hroom : (returnBytes place k).length + 2 ≤ 256 := by
    rw [length_returnBytes]
    omega
  have hstack : Represents p.sp (returnBytes place (k + 1)) (q.pushWord (place k + 2)) :=
    h.stack.pushWord (place k + 2) hroom
  rw [hafter]
  refine ⟨hfault, rfl, ?_, hstack.of_eq rfl rfl, fun other hother => ?_, h.rest_eq⟩
  · show q.cycles + 6 = _
    rw [h.cycles_eq, Nat.add_assoc]
  · have huses : Uses (fun _ => False) q (wordPushes (place k + 2)) (q.pushWord (place k + 2)) :=
      .pushWord q (place k + 2)
    exact (read_eq_of_uses huses hother id).trans (h.read_eq other hother)

/-- **A return closes the innermost call** and goes on behind it. -/
theorem Inside.return (h : Inside p place (k + 1) address spent q)
    (hquiet : p.lines = (false, false)) (hpage : Word.page address ≠ 1)
    (hcode : p.bus.read address = 0x60) :
    q.step.fault = none ∧ Inside p place k (place k + 3) (spent + 6) q.step.after := by
  have hreturn : ⟨0x60, .rts, .implicit, 6⟩ ∈ Opcode.documented := by decide
  obtain ⟨hfault, hperform⟩ := h.step_eq hquiet hpage hreturn hcode
  obtain ⟨hpulled, hrest⟩ := h.stack.pullWord
  have hafter : q.step.after = { q with
      pc := place k + 3
      sp := q.pullWord.2.sp
      cycles := q.cycles + 6 } := by
    have hnext : place k + 2 + 1 = place k + 3 := by grind
    rw [hperform, ← hnext, ← Word.ofBytes_low_high (place k + 2), ← hpulled]
    exact returnFromCall_eq q
  rw [hafter]
  refine ⟨hfault, rfl, ?_, hrest.of_eq rfl rfl, h.read_eq, h.rest_eq⟩
  show q.cycles + 6 = _
  rw [h.cycles_eq, Nat.add_assoc]

/-! ### All of them -/

/-- The calls are made one after the other. -/
theorem exists_inside_of_le (hquiet : p.lines = (false, false)) (hpc : p.pc = place 0)
    (hnested : Nested p.bus place depth) (hdepth : depth ≤ 128) (hk : k ≤ depth) :
    ∃ q, p.steps k = ⟨k, none, q⟩ ∧ Inside p place k (place k) (6 * k) q := by
  induction k with
  | zero => exact ⟨p, rfl, hpc ▸ inside_start p place⟩
  | succ k ih =>
    obtain ⟨q, hsteps, hinside⟩ := ih (Nat.le_of_succ_le hk)
    obtain ⟨hfault, hnext⟩ := hinside.call hquiet hnested hdepth hk
    exact ⟨q.step.after, steps_succ hsteps hfault, hnext⟩

/-- Where a subroutine goes on when the calls in it are done: the last one makes none. -/
def resumed (place : Nat → UInt16) (depth k : Nat) : UInt16 :=
  if k = depth then place depth else place k + 3

/-- There it returns, unless it is the outermost. -/
theorem resumed_eq {m : Memory} (h : Nested m place depth) (hpos : 0 < k) (hle : k ≤ depth) :
    Word.page (resumed place depth k) ≠ 1 ∧ m.read (resumed place depth k) = 0x60 := by
  unfold resumed
  split
  · exact ⟨h.page_ne (Nat.le_refl depth), h.last_eq⟩
  · exact ⟨h.off_stack k hle 3 (by decide), h.return_eq k hpos (by omega)⟩

/-- Then they are done, the innermost first. -/
theorem exists_inside_of_done (hquiet : p.lines = (false, false)) (hpc : p.pc = place 0)
    (hnested : Nested p.bus place depth) (hdepth : depth ≤ 128) {done : Nat}
    (hk : k + done = depth) :
    ∃ q, p.steps (depth + done) = ⟨depth + done, none, q⟩ ∧
      Inside p place k (resumed place depth k) (6 * (depth + done)) q := by
  induction done generalizing k with
  | zero =>
    obtain rfl : k = depth := hk
    obtain ⟨q, hsteps, hinside⟩ :=
      exists_inside_of_le hquiet hpc hnested hdepth (Nat.le_refl k)
    exact ⟨q, hsteps, by rwa [resumed, if_pos rfl]⟩
  | succ done ih =>
    obtain ⟨q, hsteps, hinside⟩ := ih (k := k + 1) (by omega)
    obtain ⟨hpage, hcode⟩ := resumed_eq hnested (Nat.succ_pos k) (by omega)
    obtain ⟨hfault, hnext⟩ := hinside.return hquiet hpage hcode
    refine ⟨q.step.after, steps_succ hsteps hfault, ?_⟩
    rwa [resumed, if_neg (by omega)]

/-- **Nested calls unwind**, up to 128 of them, wherever the stack begins: every call and
every return takes a step of six cycles, and behind the last return the processor is
behind the first call. Nothing has changed but the stack, which is empty again. -/
theorem nested_calls_unwind {p : Processor Memory} {place : Nat → UInt16} {depth : Nat}
    (hpos : 1 ≤ depth) (hdepth : depth ≤ 128) (hirq : p.irqPending = false)
    (hnmi : p.nmiPending = false) (hnested : Nested p.bus place depth) (hpc : p.pc = place 0) :
    ∃ m : Memory, (∀ address, Word.page address ≠ 1 → m.read address = p.bus.read address) ∧
      p.steps (2 * depth) = ⟨2 * depth, none,
        { p with pc := place 0 + 3, cycles := p.cycles + 12 * depth, bus := m }⟩ := by
  have hquiet : p.lines = (false, false) := Prod.ext hirq hnmi
  obtain ⟨q, hsteps, hinside⟩ :=
    exists_inside_of_done hquiet hpc hnested hdepth (Nat.zero_add depth)
  rw [← Nat.two_mul] at hsteps hinside
  rw [resumed, if_neg (by omega)] at hinside
  have hsp : q.sp = p.sp := hinside.stack.sp_eq.trans (represents_nil p).sp_eq.symm
  have hcycles : q.cycles = p.cycles + 12 * depth := by
    rw [hinside.cycles_eq]
    omega
  refine ⟨q.bus, hinside.read_eq, ?_⟩
  have hq : q = { p with pc := q.pc, sp := q.sp, cycles := q.cycles, bus := q.bus } :=
    congrArg (fun r : Processor Memory =>
      { r with pc := q.pc, sp := q.sp, cycles := q.cycles, bus := q.bus }) hinside.rest_eq
  rw [hinside.pc_eq, hsp, hcycles] at hq
  rw [hsteps, ← hq]

/-- A subroutine that calls another one. It is called across the end of memory. -/
def twoCalls : Memory :=
  Bus.writeAll .zero
    [(0xFFFE, 0x20), (0xFFFF, 0x00), (0x0000, 0x03), (0x0300, 0x20), (0x0301, 0x00),
      (0x0302, 0x04), (0x0303, 0x60), (0x0400, 0x60)]

/-- Where the first call and the two subroutines are. -/
def twoCallsPlace : Nat → UInt16
  | 0 => 0xFFFE
  | 1 => 0x0300
  | _ => 0x0400

theorem nested_twoCalls : Nested twoCalls twoCallsPlace 2 where
  off_stack i hi := by
    obtain rfl | rfl | rfl : i = 0 ∨ i = 1 ∨ i = 2 := by omega
    all_goals simp [twoCallsPlace, Word.page]
  call_eq i hi := by
    obtain rfl | rfl : i = 0 ∨ i = 1 := by omega
    all_goals simp [twoCalls, twoCallsPlace]
  target_eq i hi := by
    obtain rfl | rfl : i = 0 ∨ i = 1 := by omega
    all_goals
      simp only [Bus.word, twoCalls, twoCallsPlace]
      simp
      decide
  last_eq := by simp [twoCalls, twoCallsPlace]
  return_eq i hpos hi := by
    obtain rfl : i = 1 := by omega
    simp [twoCalls, twoCallsPlace]

/-- The second return address lies across the bottom of the stack. -/
theorem twoCalls_unwind :
    let p : Processor Memory := { powerOn twoCalls with pc := 0xFFFE, sp := 0x02 }
    Nested p.bus twoCallsPlace 2 ∧
      ∃ m : Memory, m.read 0x0300 = 0x20 ∧
        p.steps 4 = ⟨4, none, { p with pc := 0x0001, cycles := 24, bus := m }⟩ := by
  intro p
  obtain ⟨m, hread, hsteps⟩ := nested_calls_unwind (p := p) (by decide) (by decide) rfl rfl
    nested_twoCalls rfl
  refine ⟨nested_twoCalls, m, ?_, hsteps⟩
  rw [hread 0x0300 (by decide)]
  exact nested_twoCalls.call_eq 1 (by decide)

end Processor
end Mos6502
