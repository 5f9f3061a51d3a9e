/-
# Frames on the stack

An address and a status byte are pushed high byte first, and found again above
the stack pointer. All sums of stack pointers wrap inside page one, so a frame
may lie across the bottom of the stack.

Key definitions: `stacked`, `Frame`, `frameAddresses`, `wordAt`.
Key theorems: `stackAddress_inj`, `page_stackAddress`, `frame_stacked`,
`frame_stacked_of_frame`, `read_stacked_of_notMem`, `push_pushWord`.
-/
import Mos6502.Memory
import Mos6502.Processor.Cycle

namespace Mos6502
namespace Processor

/-! ### Addresses on the stack -/

theorem toNat_stackAddress (sp : UInt8) : (stackAddress sp).toNat = 0x100 + sp.toNat := by
  have hlt := sp.toNat_lt
  have hbase : (0x0100 : UInt16).toNat = 0x100 := rfl
  rw [stackAddress, UInt16.toNat_add, UInt8.toNat_toUInt16, hbase]
  omega

/-- Stack pointers that differ stand for addresses that differ. -/
@[simp]
theorem stackAddress_inj {first second : UInt8} :
    stackAddress first = stackAddress second ↔ first = second := by
  refine ⟨fun h => ?_, fun h => h ▸ rfl⟩
  have hnat := congrArg UInt16.toNat h
  rw [toNat_stackAddress, toNat_stackAddress] at hnat
  exact UInt8.toNat.inj (Nat.add_left_cancel hnat)

theorem page_stackAddress (sp : UInt8) : Word.page (stackAddress sp) = 1 := by
  have hlt := sp.toNat_lt
  apply UInt16.toNat.inj
  rw [Word.toNat_page, toNat_stackAddress, UInt16.toNat_one]
  omega

theorem stackAddress_ne {address : UInt16} (h : Word.page address ≠ 1) (sp : UInt8) :
    stackAddress sp ≠ address := by
  intro heq
  rw [← heq] at h
  exact h (page_stackAddress sp)

/-- Memory after an address and a status byte were pushed. -/
def stacked (m : Memory) (sp : UInt8) (address : UInt16) (status : UInt8) : Memory :=
  ((m.write (stackAddress sp) (Word.high address)).write (stackAddress (sp - 1))
    (Word.low address)).write (stackAddress (sp - 2)) status

/-- What a return from an interrupt takes from the stack: a status byte and an
address. -/
structure Frame (m : Memory) (sp : UInt8) (address : UInt16) (status : UInt8) : Prop where
  status_eq : m.read (stackAddress (sp + 1)) = status
  low_eq : m.read (stackAddress (sp + 2)) = Word.low address
  high_eq : m.read (stackAddress (sp + 3)) = Word.high address

/-- What was pushed is found there, wherever the stack wraps. -/
theorem frame_stacked (m : Memory) (sp : UInt8) (address : UInt16) (status : UInt8) :
    Frame (stacked m sp address status) (sp - 3) address status := by
  have hone : sp - 3 + 1 = sp - 2 := by grind
  have htwo : sp - 3 + 2 = sp - 1 := by grind
  have hthree : sp - 3 + 3 = sp := by grind
  have h₂ : sp - 2 ≠ sp - 1 := by grind
  have h₁ : sp - 2 ≠ sp := by grind
  have h₀ : sp - 1 ≠ sp := by grind
  refine ⟨?_, ?_, ?_⟩
  · rw [hone, stacked, Memory.read_write, if_pos rfl]
  · rw [htwo, stacked, Memory.read_write, if_neg (mt stackAddress_inj.mp h₂), Memory.read_write,
      if_pos rfl]
  · rw [hthree, stacked, Memory.read_write, if_neg (mt stackAddress_inj.mp h₁), Memory.read_write,
      if_neg (mt stackAddress_inj.mp h₀), Memory.read_write, if_pos rfl]

theorem frame_of_eq {m n : Memory} {sp : UInt8} {address : UInt16} {byte : UInt8}
    (h : ∀ k ∈ [1, 2, 3], n.read (stackAddress (sp + k)) = m.read (stackAddress (sp + k)))
    (hframe : Frame m sp address byte) : Frame n sp address byte := by
  have hone := h 1 (by decide)
  have htwo := h 2 (by decide)
  have hthree := h 3 (by decide)
  exact ⟨hone.trans hframe.status_eq, htwo.trans hframe.low_eq, hthree.trans hframe.high_eq⟩

theorem frame_stacked_of_frame {m : Memory} {sp : UInt8} {address : UInt16} {byte : UInt8}
    (hframe : Frame m sp address byte) (pushed : UInt16) (status : UInt8) :
    Frame (stacked m sp pushed status) sp address byte := by
  refine frame_of_eq (fun k hk => ?_) hframe
  have habove : k = 1 ∨ k = 2 ∨ k = 3 := by simpa using hk
  have h₀ : sp ≠ sp + k := by grind
  have h₁ : sp - 1 ≠ sp + k := by grind
  have h₂ : sp - 2 ≠ sp + k := by grind
  simp only [stacked, Memory.read_write, stackAddress_inj, if_neg h₀, if_neg h₁, if_neg h₂]

/-! ### What is not on the stack -/

/-- The addresses of a frame that is pushed. -/
def frameAddresses (sp : UInt8) : List UInt16 :=
  [stackAddress sp, stackAddress (sp - 1), stackAddress (sp - 2)]

theorem read_stacked_of_notMem {sp : UInt8} {address : UInt16} (h : address ∉ frameAddresses sp)
    (m : Memory) (pushed : UInt16) (byte : UInt8) :
    (stacked m sp pushed byte).read address = m.read address := by
  simp only [frameAddresses, List.mem_cons, List.not_mem_nil, or_false, not_or] at h
  obtain ⟨h₀, h₁, h₂⟩ := h
  simp only [stacked, Memory.read_write, if_neg (Ne.symm h₀), if_neg (Ne.symm h₁),
    if_neg (Ne.symm h₂)]

theorem page_of_mem_frameAddresses {sp : UInt8} {address : UInt16}
    (h : address ∈ frameAddresses sp) : Word.page address = 1 := by
  simp only [frameAddresses, List.mem_cons, List.not_mem_nil, or_false] at h
  rcases h with rfl | rfl | rfl <;> exact page_stackAddress _

theorem read_stacked_of_page {address : UInt16} (h : Word.page address ≠ 1) (m : Memory)
    (sp : UInt8) (pushed : UInt16) (byte : UInt8) :
    (stacked m sp pushed byte).read address = m.read address :=
  read_stacked_of_notMem (fun hmem => h (page_of_mem_frameAddresses hmem)) m pushed byte

/-- The word at an address, low byte first. -/
def wordAt (m : Memory) (address : UInt16) : UInt16 :=
  Word.ofBytes (m.read address) (m.read (address + 1))

theorem wordAt_stacked_of_page {address : UInt16} (hlow : Word.page address ≠ 1)
    (hhigh : Word.page (address + 1) ≠ 1) (m : Memory) (sp : UInt8) (pushed : UInt16)
    (byte : UInt8) : wordAt (stacked m sp pushed byte) address = wordAt m address := by
  rw [wordAt, wordAt, read_stacked_of_page hlow, read_stacked_of_page hhigh]

/-! ### Pushing -/

theorem push_pushWord (p : Processor Memory) (address : UInt16) (byte : UInt8) :
    (p.pushWord address).push byte =
      { p with sp := p.sp - 3, cycles := p.cycles + 3, bus := stacked p.bus p.sp address byte } := by
  have htwo : p.sp - 1 - 1 = p.sp - 2 := by grind
  have hthree : p.sp - 2 - 1 = p.sp - 3 := by grind
  simp only [pushWord, push, writeByte, tick, htwo, hthree]
  rfl

end Processor
end Mos6502
