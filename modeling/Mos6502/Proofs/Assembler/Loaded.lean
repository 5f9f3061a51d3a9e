/-
# Assembled instructions are executed

The table of opcodes is searched by mnemonic and mode when an instruction is
encoded, and by byte when one is decoded. Both find the same row, so that a
processor executes the instructions of a loaded program as they were written,
unless a later line put other bytes in their place.

Key definitions: `DecodesTo`, `Program.Keeps`.
Key theorems: `MadeOf.get?_image_of_keeps`, `MadeOf.exists_opcode`,
`encoded_instructions_are_executed`.
-/
import Mathlib.Data.List.Nodup
import Mos6502.Proofs.Assembler.Agreement
import Mos6502.Proofs.Memory
import Mos6502.Proofs.Processor.Step

namespace Mos6502
namespace Assembler

open Text

/-- Bytes decode to an instruction: the first of them to its mnemonic and mode,
of which the instruction has the size, and the others to the number that its
operand stands for. -/
def DecodesTo (bytes : List UInt8) (m : Mnemonic) (mode : AddressingMode) (operand : Operand)
    (address : UInt16) (symbols : SymbolTable) : Prop :=
  ∃ opcode rest, bytes = opcode.code :: rest ∧ Opcode.decode? opcode.code = some opcode ∧
    opcode.mnemonic = m ∧ opcode.mode = mode ∧ opcode.size = bytes.length ∧
    operand.number address symbols = .ok (mode.readNumber address rest)

/-- What is encoded decodes to what was encoded. -/
theorem decodesTo_of_encode {m : Mnemonic} {earlier symbols : SymbolTable} {operand : Operand}
    {mode : AddressingMode} {address : UInt16} {bytes : List UInt8}
    (hmode : selectMode m earlier operand = .ok mode)
    (h : encode m mode operand address symbols = .ok bytes) :
    DecodesTo bytes m mode operand address symbols := by
  obtain ⟨opcode, rest, rfl, hfind, hlength, hnumber⟩ := encode_eq_ok hmode h
  obtain ⟨-, hm, hmode⟩ := Opcode.mem_of_find? hfind
  have hsize : opcode.size = (opcode.code :: rest).length := by
    rw [Opcode.size, hmode, List.length_cons, hlength, Nat.add_comm]
  exact ⟨opcode, rest, rfl, Opcode.decode?_of_find? hfind, hm, hmode, hsize, hnumber⟩

/-! ### What the image holds of a line -/

namespace Program

/-- No later line puts a byte where a line has put one. -/
def Keeps (program : Program) (number : Nat) : Prop :=
  ∀ entry ∈ program.listing, ∀ later ∈ program.listing, entry.line = number →
    number < later.line → ∀ e ∈ emissions entry, ∀ other ∈ emissions later,
      other.address ≠ e.address

instance (program : Program) (number : Nat) : Decidable (program.Keeps number) := by
  unfold Keeps
  infer_instance

end Program

namespace MadeOf

variable {source : String} {program : Program} {rows : List Row}
  {emitted : List (Statement × Listing.Field)}

theorem nodup_address (h : MadeOf source program rows emitted) {entry : Listing.Entry}
    (hentry : entry ∈ program.listing) :
    ((Program.emissions entry).map Program.Emission.address).Nodup := by
  obtain ⟨row, -, hshow⟩ := h.exists_shows hentry
  have hnumbers : (((Program.emissions entry).map Program.Emission.address).map UInt16.toNat).Nodup := by
    rw [List.map_map]
    show ((Program.emissions entry).map fun e => e.address.toNat).Nodup
    rw [hshow.addresses]
    exact List.nodup_range'
  exact List.Nodup.of_map _ hnumbers

/-- **The image holds the bytes of a line** that no later line replaced. -/
theorem get?_image_of_keeps (h : MadeOf source program rows emitted) {entry : Listing.Entry}
    (hentry : entry ∈ program.listing) (hkeeps : program.Keeps entry.line) :
    ∀ e ∈ Program.emissions entry, program.image.get? e.address = some e.value := by
  intro e he
  have horder := h.pairwise_line
  have hnodup := h.nodup_address hentry
  obtain ⟨before, after, hlisting⟩ := List.append_of_mem hentry
  obtain ⟨first, second, hemissions⟩ := List.append_of_mem he
  -- the byte stands in the middle of all that are shown; those behind it go elsewhere
  have hshown : Program.shown program.listing =
      ((before.flatMap Program.emissions ++ first).map fun e => (e.address, e.value)) ++
        (e.address, e.value) ::
          (second ++ after.flatMap Program.emissions).map fun e => (e.address, e.value) := by
    simp only [Program.shown, hlisting, List.flatMap_append, List.flatMap_cons, hemissions,
      List.map_append, List.map_cons, List.append_assoc, List.cons_append]
  rw [h.image_eq, hshown]
  refine Image.get?_insertAll_append_cons _ _ _ _ _ fun byte hbyte => ?_
  obtain ⟨other, hother, rfl⟩ := List.mem_map.mp hbyte
  rcases List.mem_append.mp hother with hother | hother
  · rw [hemissions, List.map_append, List.map_cons] at hnodup
    have hnotin := (List.nodup_cons.mp (List.nodup_append.mp hnodup).2.1).1
    intro heq
    exact hnotin (List.mem_map.mpr ⟨other, hother, heq⟩)
  · obtain ⟨later, hlater, hother⟩ := List.mem_flatMap.mp hother
    rw [hlisting] at horder
    have hlt := (List.pairwise_cons.mp (List.pairwise_append.mp horder).2.1).1 later hlater
    have hlater : later ∈ program.listing := by
      rw [hlisting]
      exact List.mem_append_right _ (List.mem_cons_of_mem _ hlater)
    exact hkeeps entry hentry later hlater rfl hlt e he other hother

end MadeOf

/-! ### Execution -/

namespace MadeOf

variable {source : String} {program : Program} {rows : List Row}
  {emitted : List (Statement × Listing.Field)}

/-- An instruction of an accepted source was encoded in the mode chosen for it,
and the listing shows its bytes. -/
theorem exists_encode (h : MadeOf source program rows emitted) {s : Statement}
    (hs : s ∈ (Layout.ofSource source).statements.toList) {m : Mnemonic} {mode : AddressingMode}
    {operand : Operand} (hbody : s.body = .instruction m mode operand) :
    ∃ early bytes, selectMode m early operand = .ok mode ∧
      encode m mode operand s.address ⟨program.symbols⟩ = .ok bytes ∧
      ⟨s.location.line, .code s.address bytes⟩ ∈ program.listing := by
  rw [h.statements_eq] at hs
  obtain ⟨row, hrow, rfl⟩ := List.mem_map.mp hs
  have hread := h.body_eq hrow
  rw [show row.body = .instruction m mode operand from hbody] at hread
  rw [h.emitted_eq] at hs
  obtain ⟨pair, hpair, heq⟩ := List.mem_map.mp hs
  have hfield := h.emit_eq pair hpair
  simp only [heq, Statement.emit, hbody] at hfield
  obtain ⟨bytes, hbytes, hfield⟩ := Result.map_eq_ok.mp hfield
  refine ⟨_, bytes, Body.ofLine_eq_instruction hread, hbytes, ?_⟩
  rw [h.listing_eq, hfield, ← heq]
  exact List.mem_map.mpr ⟨pair, hpair, rfl⟩

/-- A loaded memory holds the opcode of an instruction whose bytes no later line
replaced. -/
theorem exists_opcode (h : MadeOf source program rows emitted) {s : Statement}
    (hs : s ∈ (Layout.ofSource source).statements.toList) {m : Mnemonic} {mode : AddressingMode}
    {operand : Operand} (hbody : s.body = .instruction m mode operand)
    (hkeeps : program.Keeps s.location.line) (memory : Memory) :
    ∃ opcode, Opcode.decode? ((program.image.loadInto memory).read s.address) = some opcode ∧
      opcode.mnemonic = m ∧ opcode.mode = mode := by
  obtain ⟨early, bytes, hmode, hbytes, hentry⟩ := h.exists_encode hs hbody
  obtain ⟨opcode, rest, rfl, hdecode, hm, hopmode, -, -⟩ := decodesTo_of_encode hmode hbytes
  have hfirst : (⟨s.location.line, s.address, opcode.code⟩ : Program.Emission) ∈
      Program.emissions ⟨s.location.line, .code s.address (opcode.code :: rest)⟩ :=
    List.mem_cons_self
  have hheld := h.get?_image_of_keeps hentry hkeeps _ hfirst
  refine ⟨opcode, ?_, hm, hopmode⟩
  rw [Memory.read_loadInto, hheld, Option.getD_some, hdecode]

end MadeOf

/-- **Encoded instructions are executed as they were written.** Whatever the
symbols were when the mode was chosen and are when the bytes are made, the bytes
decode to the mnemonic, the mode and the number of the operand. So a processor
that stands at an instruction of a loaded source, none of whose bytes a later
line replaced, executes that instruction if no interrupt waits. -/
theorem encoded_instructions_are_executed :
    (∀ (m : Mnemonic) (operand : Operand) (early full : SymbolTable) (address : UInt16)
      (mode : AddressingMode) (bytes : List UInt8), selectMode m early operand = .ok mode →
      encode m mode operand address full = .ok bytes →
      DecodesTo bytes m mode operand address full) ∧
    ∀ (source : String) (program : Program), assemble source = .ok program →
      ∀ s ∈ (Layout.ofSource source).statements.toList, ∀ m mode operand,
      s.body = .instruction m mode operand → program.Keeps s.location.line →
      ∀ (memory : Memory) (p : Processor Memory), p.bus = program.image.loadInto memory →
      p.pc = s.address → p.irqPending = false → p.nmiPending = false →
      p.step.fault = none ∧ ∃ record opcode, p.step.records = [record] ∧
        record.address = s.address ∧ record.event = .instruction opcode ∧
        opcode.mnemonic = m ∧ opcode.mode = mode := by
  constructor
  · intro m operand early full address mode bytes hmode hbytes
    exact decodesTo_of_encode hmode hbytes
  · intro source program h s hs m mode operand hbody hkeeps memory p hbus hpc hirq hnmi
    obtain ⟨rows, emitted, hmade⟩ := madeOf_of_assemble h
    obtain ⟨opcode, hdecode, hm, hmode⟩ := hmade.exists_opcode hs hbody hkeeps memory
    rw [← hbus, ← hpc] at hdecode
    rw [Processor.step_eq_perform hirq hnmi hdecode]
    exact ⟨rfl, _, opcode, rfl, hpc, rfl, hm, hmode⟩

/-- A source whose last line puts a branch in the place of another. -/
def patchedSource : String :=
  " .ORG $200\nLOOP LDA (PTR),Y\n BNE LOOP\n .ORG $202\n BEQ LOOP\nPTR .EQU $20"

theorem patchedSource_is_executed :
    DecodesTo [0xF0, 0xFC] .beq .relative (.direct (.symbol "LOOP" 0)) 0x202
      ⟨[⟨"LOOP", 0x200, false, 2⟩, ⟨"PTR", 0x20, true, 6⟩]⟩ ∧
    ∃ program, assemble patchedSource = .ok program ∧ ¬program.Keeps 3 ∧ program.Keeps 5 ∧
      ∀ p : Processor Memory, p = { Processor.powerOn (program.image.loadInto Memory.zero) with
        pc := 0x202 } → ∃ record opcode, p.step.records = [record] ∧ record.address = 0x202 ∧
        record.event = .instruction opcode ∧ opcode.mnemonic = .beq ∧ opcode.mode = .relative := by
  refine ⟨encoded_instructions_are_executed.1 _ _ .empty _ _ _ _ rfl (by decide), ?_⟩
  have hkeeps : (assemble patchedSource).toOption.map
      (fun program => (decide (program.Keeps 3), decide (program.Keeps 5))) =
        some (false, true) := by
    decide +kernel
  have hs : (⟨0x202, ⟨5, 1, 8⟩, .instruction .beq .relative (.direct (.symbol "LOOP" 0))⟩ : Statement) ∈
      (Layout.ofSource patchedSource).statements.toList := by
    decide +kernel
  obtain ⟨program, h, hkeeps⟩ := Result.exists_of_map_toOption hkeeps
  rw [Prod.mk.injEq, decide_eq_false_iff_not, decide_eq_true_iff] at hkeeps
  refine ⟨program, h, hkeeps.1, hkeeps.2, fun p hp => ?_⟩
  subst hp
  exact (encoded_instructions_are_executed.2 patchedSource program h _ hs _ _ _ rfl hkeeps.2
    Memory.zero _ rfl rfl rfl rfl).2

end Assembler
end Mos6502
