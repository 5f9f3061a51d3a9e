/-
# A statement emits the bytes it reserved

A body is sized when its line is read and emitted when all symbols are known.
An instruction takes a byte for its opcode and those of its mode, a data
directive one for each expression and those of its texts; both take at least
one (`Body.size_pos`) and emit as many as they take (`Statement.emit_eq_ok`).

Key definitions: `Body.isCode`, `Body.isPlaced`.
Key theorems: `length_emitData`, `Body.size_pos`, `Statement.emit_eq_ok`.
-/
import Mos6502.Assembler.Program
import Mos6502.Proofs.Assembler.Encoding

namespace Mos6502
namespace Assembler

open Text

/-! ### What a line asks for -/

/-- A body that emits bytes. -/
def Body.isCode : Body → Bool
  | .instruction _ _ _ | .directive (.data _) => true
  | _ => false

/-- A body that stands at the location counter: it neither moves the counter nor has a
value of its own. -/
def Body.isPlaced : Body → Bool
  | .directive (.origin _) | .directive (.equate _) => false
  | _ => true

theorem Body.isPlaced_of_isCode {body : Body} (h : body.isCode = true) : body.isPlaced = true := by
  cases body with
  | instruction => rfl
  | nothing => cases h
  | directive directive =>
    cases directive with
    | data => rfl
    | origin | reserve | equate | finish => cases h

theorem readData_eq_ok {text : List Char} {items : List Datum} :
    readData text = .ok items ↔
      Datum.readList text = .ok items ∧ Datum.totalSize items ≤ 0xFFFF := by
  unfold readData
  cases Datum.readList text with
  | error error => exact ⟨nofun, fun h => nomatch h.1⟩
  | ok read =>
    simp only [Except.ok.injEq]
    by_cases hle : Datum.totalSize read ≤ 0xFFFF
    · rw [if_pos hle, Except.ok.injEq]
      exact ⟨fun heq => ⟨heq, heq ▸ hle⟩, And.left⟩
    · rw [if_neg hle]
      exact ⟨nofun, fun ⟨heq, hitems⟩ => absurd (heq ▸ hitems) hle⟩

theorem Directive.read_eq_data {symbols : SymbolTable} {hasLabel : Bool} {name : String}
    {operand : List Char} {items : List Datum}
    (h : Directive.read symbols hasLabel name operand = .ok (.data items)) :
    Datum.readList operand = .ok items ∧ Datum.totalSize items ≤ 0xFFFF := by
  unfold Directive.read at h
  split at h
  · obtain ⟨_, -, h⟩ := Result.bind_eq_ok.mp h
    cases h
  · obtain ⟨_, -, h⟩ := Result.bind_eq_ok.mp h
    cases h
  · obtain ⟨read, hread, h⟩ := Result.bind_eq_ok.mp h
    cases h
    exact readData_eq_ok.mp hread
  · split at h
    · obtain ⟨_, -, h⟩ := Result.bind_eq_ok.mp h
      cases h
    · cases h
  · split at h <;> cases h
  · cases h

theorem Body.ofLine_eq_directive {symbols : SymbolTable} {line : Line} {directive : Directive}
    (h : Body.ofLine symbols line = .ok (.directive directive)) :
    ∃ name, Directive.read symbols line.label.isSome name line.operand = .ok directive := by
  unfold Body.ofLine at h
  split at h
  · cases h
  · split at h
    · obtain ⟨_, hread, h⟩ := Result.bind_eq_ok.mp h
      cases h
      exact ⟨_, hread⟩
    · unfold Body.readInstruction at h
      split at h
      · cases h
      · split at h
        · cases h
        · obtain ⟨_, -, h⟩ := Result.bind_eq_ok.mp h
          cases h

/-- An end directive asks for the end, and nothing else does. -/
theorem Body.ofLine_eq_finish {symbols : SymbolTable} {line : Line} :
    Body.ofLine symbols line = .ok (.directive .finish) ↔
      line.operation = some ".END" ∧ line.operand = [] := by
  constructor
  · intro h
    unfold Body.ofLine at h
    split at h
    · cases h
    · rename_i name hname
      split at h
      · obtain ⟨directive, hread, heq⟩ := Result.bind_eq_ok.mp h
        cases heq
        unfold Directive.read at hread
        split at hread
        · obtain ⟨_, -, heq⟩ := Result.bind_eq_ok.mp hread
          cases heq
        · obtain ⟨_, -, heq⟩ := Result.bind_eq_ok.mp hread
          cases heq
        · obtain ⟨_, -, heq⟩ := Result.bind_eq_ok.mp hread
          cases heq
        · split at hread
          · obtain ⟨_, -, heq⟩ := Result.bind_eq_ok.mp hread
            cases heq
          · cases hread
        · split at hread
          · rename_i hoperand
            exact ⟨hname, hoperand⟩
          · cases hread
        · cases hread
      · unfold Body.readInstruction at h
        split at h
        · cases h
        · split at h
          · cases h
          · obtain ⟨_, -, heq⟩ := Result.bind_eq_ok.mp h
            cases heq
  · rintro ⟨hoperation, hoperand⟩
    have hdot : (".END".toList).head? = some '.' := rfl
    simp only [Body.ofLine, hoperation, hdot, if_true, Directive.read, hoperand]
    rfl

theorem Body.ofLine_eq_nothing {symbols : SymbolTable} {line : Line}
    (h : Body.ofLine symbols line = .ok .nothing) : line.operation = none := by
  unfold Body.ofLine at h
  split at h
  · assumption
  · split at h
    · obtain ⟨_, -, h⟩ := Result.bind_eq_ok.mp h
      cases h
    · unfold Body.readInstruction at h
      split at h
      · cases h
      · split at h
        · cases h
        · obtain ⟨_, -, h⟩ := Result.bind_eq_ok.mp h
          cases h

theorem Body.ofLine_eq_data {symbols : SymbolTable} {line : Line} {items : List Datum}
    (h : Body.ofLine symbols line = .ok (.directive (.data items))) :
    Datum.readList line.operand = .ok items ∧ Datum.totalSize items ≤ 0xFFFF := by
  obtain ⟨name, hread⟩ := Body.ofLine_eq_directive h
  exact Directive.read_eq_data hread

/-- An instruction is read from the operand of its line, and its mode is the one
chosen for it. -/
theorem Body.read_of_ofLine_eq_instruction {symbols : SymbolTable} {line : Line} {m : Mnemonic}
    {mode : AddressingMode} {operand : Operand}
    (h : Body.ofLine symbols line = .ok (.instruction m mode operand)) :
    Operand.read line.operand = .ok operand ∧ selectMode m symbols operand = .ok mode := by
  unfold Body.ofLine at h
  split at h
  · cases h
  · split at h
    · obtain ⟨_, -, h⟩ := Result.bind_eq_ok.mp h
      cases h
    · unfold Body.readInstruction at h
      split at h
      · cases h
      · split at h
        · cases h
        · rename_i hread
          obtain ⟨mode, hmode, h⟩ := Result.bind_eq_ok.mp h
          cases h
          exact ⟨hread, hmode⟩

/-- The mode of an instruction is the one chosen for its operand. -/
theorem Body.ofLine_eq_instruction {symbols : SymbolTable} {line : Line} {m : Mnemonic}
    {mode : AddressingMode} {operand : Operand}
    (h : Body.ofLine symbols line = .ok (.instruction m mode operand)) :
    selectMode m symbols operand = .ok mode :=
  (Body.read_of_ofLine_eq_instruction h).2

/-! ### Data -/

theorem byteLength_pos {text : List Char} (h : text ≠ []) : 0 < byteLength text := by
  obtain ⟨c, text, rfl⟩ := List.exists_cons_of_ne_nil h
  have := Char.utf8Size_pos c
  rw [byteLength_cons]
  omega

theorem Datum.size_pos {text : List Char} {datum : Datum} (h : Datum.read text = .ok datum) :
    0 < datum.size := by
  unfold Datum.read at h
  split at h
  · cases h
  · rename_i inner hne _
    cases h
    rw [Datum.size, length_bytes]
    exact byteLength_pos fun h => hne h
  · split at h
    · cases h
      exact Nat.one_pos
    · cases h

theorem Datum.totalSize_pos {text : List Char} {items : List Datum}
    (h : Datum.readList text = .ok items) : 0 < Datum.totalSize items := by
  unfold Datum.readList at h
  split at h
  · cases h
  · have hne : cutUnquoted ',' text ≠ [] := fun h => cut_ne_nil _ _ (List.map_eq_nil_iff.mp h)
    obtain ⟨piece, pieces, hpieces⟩ := List.exists_cons_of_ne_nil hne
    rw [hpieces, Result.mapM_eq_ok, List.forall₂_cons_left_iff] at h
    obtain ⟨datum, data, hread, -, rfl⟩ := h
    exact Nat.add_pos_left (Datum.size_pos hread) _

theorem Datum.length_emit {symbols : SymbolTable} {datum : Datum} {bytes : List UInt8}
    (h : Datum.emit symbols datum = .ok bytes) : bytes.length = datum.size := by
  cases datum with
  | text _ =>
    cases h
    rfl
  | byte value =>
    obtain ⟨word, -, h⟩ := Result.bind_eq_ok.mp h
    split at h
    · cases h
      rfl
    · cases h

/-- Data take the bytes that were reserved for them. -/
theorem length_emitData {symbols : SymbolTable} {items : List Datum} {bytes : List UInt8}
    (h : emitData symbols items = .ok bytes) : bytes.length = Datum.totalSize items := by
  obtain ⟨pieces, hpieces, hbytes⟩ := Result.bind_eq_ok.mp h
  cases hbytes
  clear h
  rw [Result.mapM_eq_ok] at hpieces
  induction hpieces with
  | nil => rfl
  | cons hpiece _ ih =>
    rw [List.flatten_cons, List.length_append, Datum.length_emit hpiece, ih]
    rfl

/-! ### Statements -/

/-- A body that emits bytes takes some. -/
theorem Body.size_pos {symbols : SymbolTable} {line : Line} {body : Body}
    (h : Body.ofLine symbols line = .ok body) (hcode : body.isCode = true) : 0 < body.size := by
  cases body with
  | instruction => exact Nat.add_pos_left Nat.one_pos _
  | nothing => cases hcode
  | directive directive =>
    cases directive with
    | data items => exact Datum.totalSize_pos (Body.ofLine_eq_data h).1
    | origin | reserve | equate | finish => cases hcode

theorem Body.size_le {symbols : SymbolTable} {line : Line} {body : Body}
    (h : Body.ofLine symbols line = .ok body) (hcode : body.isCode = true) :
    body.size ≤ 0xFFFF := by
  cases body with
  | instruction m mode operand =>
    show 1 + mode.operandBytes ≤ 0xFFFF
    cases mode <;> decide
  | nothing => cases hcode
  | directive directive =>
    cases directive with
    | data items => exact (Body.ofLine_eq_data h).2
    | origin | reserve | equate | finish => cases hcode

/-- **A statement emits as many bytes as were reserved for it**, at its address,
or none if its body emits none. -/
theorem Statement.emit_eq_ok {earlier symbols : SymbolTable} {line : Line} {s : Statement}
    {field : Listing.Field} (hbody : Body.ofLine earlier line = .ok s.body)
    (h : s.emit symbols = .ok field) :
    (s.body.isCode = true ∧ ∃ bytes, field = .code s.address bytes ∧ bytes.length = s.body.size) ∨
      (s.body.isCode = false ∧ ∀ address bytes, field ≠ .code address bytes) := by
  obtain ⟨address, location, body⟩ := s
  cases body with
  | instruction m mode operand =>
    obtain ⟨bytes, hbytes, rfl⟩ := Result.map_eq_ok.mp h
    exact .inl ⟨rfl, bytes, rfl, length_encode (Body.ofLine_eq_instruction hbody) hbytes⟩
  | nothing =>
    cases h
    exact .inr ⟨rfl, fun _ _ => nofun⟩
  | directive directive =>
    cases directive with
    | data items =>
      obtain ⟨bytes, hbytes, rfl⟩ := Result.map_eq_ok.mp h
      exact .inl ⟨rfl, bytes, rfl, length_emitData hbytes⟩
    | origin | reserve | equate | finish =>
      cases h
      exact .inr ⟨rfl, fun _ _ => nofun⟩

end Assembler
end Mos6502
