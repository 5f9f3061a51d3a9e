/-
# Loading is all or nothing

A source or a file of records is loaded when it has become an image, and not
before. An image overlays the memory and points the program counter at its
lowest address (`Simulator.overlays_load`); a text that does not become one
changes nothing, and of a rejected source the first error is told, which lies on
the first line that has one.

Key definition: `Simulator.Overlays`.
Key theorems: `Simulator.overlays_load`, `Simulator.loading_is_all_or_nothing`.
-/
import Mos6502.Proofs.Assembler.Rejection
import Mos6502.Proofs.Memory
import Mos6502.Simulator

namespace Mos6502
namespace Simulator

open Assembler (assemble)

/-- A simulator has come from another by loading an image, which starts at an
address. -/
structure Overlays (image : Image) (start : UInt16) (before after : Simulator) : Prop where
  /-- Memory has the bytes of the image, and elsewhere those it had. -/
  read_eq : ∀ address, after.processor.bus.read address =
    (image.get? address).getD (before.processor.bus.read address)
  /-- The start is the lowest address of the image, or zero if it has none. -/
  lowest : ((image.get? start).isSome ∧ ∀ address, (image.get? address).isSome → start ≤ address) ∨
    ((∀ address, image.get? address = none) ∧ start = 0)
  pc_eq : after.processor.pc = start
  rest_eq : { after.processor with bus := before.processor.bus, pc := before.processor.pc } =
    before.processor

/-- **A loaded image overlays the memory.** -/
theorem overlays_load (s : Simulator) (image : Image) :
    Overlays image (s.load image).1 s (s.load image).2 := by
  have hstart : (s.load image).1 = image.lowest?.getD 0 := rfl
  refine ⟨Memory.read_loadInto image s.processor.bus, ?_, rfl, rfl⟩
  rw [hstart]
  cases hlowest : image.lowest? with
  | some start => exact .inl (Image.lowest?_eq_some_iff.mp hlowest)
  | none => exact .inr ⟨Image.lowest?_eq_none_iff.mp hlowest, rfl⟩

/-- The first error of a rejected source lies on the first line that has one. -/
theorem head?_of_rejected {source : String} {errors : List Assembler.Error}
    (h : assemble source = .error errors) :
    ∃ first ∈ errors, errors.head? = some first ∧ ∀ error ∈ errors, first.line ≤ error.line := by
  obtain ⟨hne, hordered, -, -⟩ := Assembler.inOrder_of_rejected h
  obtain ⟨first, rest, rfl⟩ := List.exists_cons_of_ne_nil hne
  refine ⟨first, List.mem_cons_self, rfl, List.forall_mem_cons.mpr ⟨Nat.le_refl _, ?_⟩⟩
  exact (List.pairwise_cons.mp hordered).1

/-- **Loading is all or nothing.** A text that becomes no image leaves the
simulator as it is; of a source the error is told that lies on the first line with
one. Any other text overlays the memory with its image. -/
theorem loading_is_all_or_nothing (s : Simulator) (text : String) :
    (match s.loadSource text with
      | (.failure error, after) => after = s ∧ ∃ errors, assemble text = .error errors ∧
          ∃ first ∈ errors, error = some first ∧ ∀ other ∈ errors, first.line ≤ other.line
      | (.program start size, after) => ∃ program, assemble text = .ok program ∧
          Overlays program.image start s after ∧
          size = (Finset.univ.filter fun address => (program.image.get? address).isSome).card) ∧
    (match s.loadHex text with
      | (.error error, after) => after = s ∧ IntelHex.read text = .error error
      | (.ok start, after) => ∃ image, IntelHex.read text = .ok image ∧
          Overlays image start s after) := by
  constructor
  · unfold loadSource
    cases h : assemble text with
    | ok program =>
      exact ⟨program, rfl, overlays_load s program.image, program.image.size_eq_card⟩
    | error errors =>
      obtain ⟨first, hmem, hfirst, hle⟩ := head?_of_rejected h
      exact ⟨rfl, errors, rfl, first, hmem, hfirst, hle⟩
  · unfold loadHex
    cases IntelHex.read text with
    | ok image => exact ⟨image, rfl, overlays_load s image⟩
    | error error => exact ⟨rfl, rfl⟩

end Simulator
end Mos6502
