/-
# The form of an address is chosen for good

The short form of an address is chosen when its line is read, and its byte is
made when all symbols are known. By then no symbol has changed
(`SymbolTable.find?_of_prefix`), so what was a byte still is one, and the same
(`Settled.short_holds`). A symbol that is not known when its line is read takes
the long form (`Settled.long_holds`).

Key definitions: `Operand.sizes?`, `symbolsBefore`, `Settled`.
Key theorems: `SymbolTable.find?_of_prefix`, `Layout.read_of_mem_statements`,
`encode_of_resolve`, `settled_of_ofLine`, `zeroPage_choices_hold`.
-/
import Mos6502.Proofs.Assembler.Encoding
import Mos6502.Proofs.Assembler.Width

namespace Mos6502
namespace Assembler

open Text

/-- The expression of an address that may take one byte or two, with the modes
for both. -/
def Operand.sizes? : Operand → Option (Expression × AddressingMode × AddressingMode)
  | .direct value => some (value, .zeroPage, .absolute)
  | .indexedX value => some (value, .zeroPageX, .absoluteX)
  | .indexedY value => some (value, .zeroPageY, .absoluteY)
  | _ => .none

/-- The symbols that the lines before a line of a source define. -/
def symbolsBefore (source : String) (number : Nat) : SymbolTable :=
  (((numberedLines source.toList).take (number - 1)).foldl Layout.addLine .empty).symbols

/-- The mode of an address is chosen by the symbols that are known early, and it
is right for those that are known in the end. -/
structure Settled (early final : SymbolTable) (m : Mnemonic) (mode : AddressingMode)
    (operand : Operand) (value : Expression) (short long : AddressingMode) : Prop where
  /-- The mode was chosen early. -/
  chosen : selectMode m early operand = .ok mode
  /-- The short form is chosen for a literal or a symbol that is known, whose
  value is a byte and stays what it is, and can be encoded. -/
  short_holds : mode = short →
    (∀ name offset, value = .symbol name offset → (early.find? name).isSome = true) ∧
    ∃ word, value.resolve early = .ok word ∧ value.resolve final = .ok word ∧ word ≤ 0xFF ∧
      ∃ code, ∀ address, encode m mode operand address final = .ok [code, word.toUInt8]
  /-- A symbol that is not known takes the long form. -/
  long_holds : ∀ name offset, value = .symbol name offset → early.find? name = none →
    mode = long ∧ mode.operandBytes = 2

/-! ### Symbols stay -/

namespace SymbolTable

theorem find?_of_prefix {table extended : SymbolTable} (h : table.symbols <+: extended.symbols)
    {name : String} {symbol : Symbol} (hfind : table.find? name = some symbol) :
    extended.find? name = some symbol := by
  obtain ⟨added, hadded⟩ := h
  rw [find?] at hfind ⊢
  rw [← hadded, List.find?_append, hfind, Option.some_or]

end SymbolTable

namespace Layout

theorem symbols_prefix_foldl_addLine (lines : List (List Char × Nat)) (layout : Layout) :
    layout.symbols.symbols <+: (lines.foldl addLine layout).symbols.symbols := by
  induction lines generalizing layout with
  | nil => exact List.prefix_rfl
  | cons entry lines ih =>
    obtain ⟨added, hadded, -⟩ := addLine_symbols layout entry.1 entry.2
    exact List.IsPrefix.trans ⟨added, hadded.symm⟩ (ih (layout.addLine entry))

end Layout

theorem prefix_symbolsBefore (source : String) (number : Nat) :
    (symbolsBefore source number).symbols <+: (Layout.ofSource source).symbols.symbols := by
  have hsplit := List.take_append_drop (number - 1) (numberedLines source.toList)
  unfold Layout.ofSource symbolsBefore
  generalize numberedLines source.toList = lines at hsplit ⊢
  nth_rewrite 2 [← hsplit]
  rw [List.foldl_append]
  exact Layout.symbols_prefix_foldl_addLine _ _

/-! ### Statements -/

namespace Layout

theorem mem_statements_addLine {layout : Layout} {text : List Char} {number : Nat} {s : Statement}
    (h : s ∈ (layout.addLine (text, number)).statements) :
    s ∈ layout.statements ∨
      (s.location.line = number ∧ ∃ line, Body.ofLine layout.symbols line = .ok s.body) := by
  by_cases hgo : layout.finished = true
  · rw [addLine_finished hgo] at h
    exact .inl h
  rcases addLine_cases (Bool.eq_false_iff.mpr hgo) text number with
    ⟨-, e⟩ | ⟨cause, e⟩ | ⟨line, body, -, hbody, e⟩ <;> rw [e] at h
  · exact .inl h
  · exact .inl h
  have hdefine : (layout.define line.label body number).statements = layout.statements := by
    rcases define_cases layout line.label body number with ⟨-, e⟩ | ⟨_, _, -, -, e⟩ | ⟨_, e⟩ <;>
      rw [e]
    rfl
  rcases place_cases (layout.define line.label body number) body
    ⟨number, line.column, line.length⟩ with ⟨-, e⟩ | ⟨-, e⟩ <;> rw [e] at h
  · rcases Array.mem_push.mp h with h | rfl
    · exact .inl (hdefine ▸ h)
    · exact .inr ⟨rfl, line, hbody⟩
  · exact .inl (hdefine ▸ h)

/-- **Each statement is read with the symbols of the lines before its own.** -/
theorem read_of_mem_statements {texts : List (List Char)} {s : Statement}
    (h : s ∈ ((texts.zipIdx 1).foldl addLine empty).statements) :
    s.location.line ≤ texts.length ∧ ∃ line,
      Body.ofLine (((texts.zipIdx 1).take (s.location.line - 1)).foldl addLine empty).symbols line =
        .ok s.body := by
  induction texts using List.reverseRecOn with
  | nil => exact absurd h (Array.not_mem_empty s)
  | append_singleton texts text ih =>
    have hlines : (texts ++ [text]).zipIdx 1 = texts.zipIdx 1 ++ [(text, 1 + texts.length)] :=
      List.zipIdx_append
    have hlength : (texts.zipIdx 1).length = texts.length := List.length_zipIdx
    rw [hlines, List.foldl_concat] at h
    rw [hlines, List.length_append, List.length_singleton]
    -- an older statement stands before the last line, so that line is not before it
    rcases mem_statements_addLine h with h | ⟨hline, hbody⟩
    · obtain ⟨hle, hbody⟩ := ih h
      rw [List.take_append_of_le_length (by omega)]
      exact ⟨by omega, hbody⟩
    · rw [hline, Nat.add_sub_cancel_left, ← hlength, List.take_left]
      exact ⟨by omega, hbody⟩

end Layout

/-! ### Expressions -/

namespace Expression

variable {symbols final : SymbolTable} {value : Expression}

/-- What is known to be an address in page zero has a value of one byte. -/
theorem resolve_of_isZeroPage (hnarrow : value.Narrow) (h : value.isZeroPage symbols = true) :
    (∀ name offset, value = .symbol name offset → (symbols.find? name).isSome = true) ∧
      ∃ word, value.resolve symbols = .ok word ∧ word ≤ 0xFF := by
  cases value with
  | literal number => exact ⟨nofun, number.value, rfl, hnarrow number rfl h⟩
  | symbol name offset =>
    simp only [isZeroPage] at h
    cases hfind : symbols.find? name with
    | none => simp [hfind] at h
    | some entry =>
      simp only [hfind, Bool.and_eq_true, decide_eq_true_eq] at h
      obtain ⟨⟨-, hlow⟩, hhigh⟩ := h
      refine ⟨?_, UInt16.ofNat ((entry.value.toNat : Int) + offset).toNat, ?_, ofNat_le_byte (by omega)⟩
      · rintro _ _ ⟨⟩
        rw [hfind]
        rfl
      · simp only [resolve, hfind]
        exact if_pos ⟨hlow, by omega⟩

theorem isZeroPage_of_find?_eq_none {name : String} (offset : Int)
    (h : symbols.find? name = none) : (symbol name offset).isZeroPage symbols = false := by
  simp only [isZeroPage, h]

/-- A value stays what it is when symbols are added. -/
theorem resolve_of_prefix (h : symbols.symbols <+: final.symbols) {word : UInt16}
    (hword : value.resolve symbols = .ok word) : value.resolve final = .ok word := by
  cases value with
  | literal => exact hword
  | symbol name offset =>
    simp only [resolve] at hword ⊢
    cases hfind : symbols.find? name with
    | none => simp [hfind] at hword
    | some entry =>
      rw [hfind] at hword
      rw [SymbolTable.find?_of_prefix h hfind]
      exact hword

end Expression

/-! ### Operands -/

namespace Operand

variable {operand : Operand} {value : Expression} {short long : AddressingMode}

theorem value?_of_sizes? (h : operand.sizes? = some (value, short, long)) :
    operand.value? = some value := by
  cases operand with
  | direct | indexedX | indexedY =>
    cases h
    rfl
  | none | accumulator | immediate | indirect | indirectX | indirectY | displacement => cases h

theorem sizes?_operandBytes (h : operand.sizes? = some (value, short, long)) :
    short.operandBytes = 1 ∧ short ≠ .relative ∧ long.operandBytes = 2 := by
  cases operand with
  | direct | indexedX | indexedY =>
    cases h
    decide
  | none | accumulator | immediate | indirect | indirectX | indirectY | displacement => cases h

theorem encodeOperand_eq (h : operand.sizes? = some (value, short, long)) (mode : AddressingMode)
    (address : UInt16) (symbols : SymbolTable) :
    encodeOperand mode address symbols operand =
      (do encodeValue mode address (← value.resolve symbols)) := by
  cases operand with
  | direct | indexedX | indexedY =>
    cases h
    rfl
  | none | accumulator | immediate | indirect | indirectX | indirectY | displacement => cases h

theorem not_isBranch_of_supports_absolute {m : Mnemonic} (h : m.supports .absolute = true) :
    m.isBranch = false := by
  revert h
  cases m <;> decide +kernel

/-- Where there is a long form, the short one is taken if the address is known
to fit. -/
theorem requestedMode_eq (h : operand.sizes? = some (value, short, long)) {m : Mnemonic}
    (hlong : m.supports long = true) (symbols : SymbolTable) :
    requestedMode m symbols operand =
      if m.supports short && value.isZeroPage symbols then short else long := by
  have hsized : sized m (value.isZeroPage symbols) short long =
      if m.supports short && value.isZeroPage symbols then short else long := by
    rw [sized, hlong, Bool.not_true, Bool.or_false]
  rw [← hsized]
  cases operand with
  | direct =>
    cases h
    simp only [requestedMode, not_isBranch_of_supports_absolute hlong, Bool.false_eq_true, if_false]
  | indexedX | indexedY =>
    cases h
    rfl
  | none | accumulator | immediate | indirect | indirectX | indirectY | displacement => cases h

end Operand

/-- A value of one byte is encoded in the short form. -/
theorem encode_of_resolve {operand : Operand} {value : Expression} {short long : AddressingMode}
    (hsizes : operand.sizes? = some (value, short, long)) {m : Mnemonic}
    (hshort : m.supports short = true) {symbols : SymbolTable} {word : UInt16}
    (hword : value.resolve symbols = .ok word) (hbyte : word ≤ 0xFF) :
    ∃ code, ∀ address, encode m short operand address symbols = .ok [code, word.toUInt8] := by
  obtain ⟨opcode, hopcode⟩ := Option.isSome_iff_exists.mp hshort
  obtain ⟨hbytes, hrelative, -⟩ := Operand.sizes?_operandBytes hsizes
  refine ⟨opcode.code, fun address => ?_⟩
  have hvalue : encodeValue short address word = .ok [word.toUInt8] := by
    rw [encodeValue, if_neg hrelative, hbytes, if_neg (by decide), if_pos hbyte]
  simp only [encode, hopcode, Operand.encodeOperand_eq hsizes, hword]
  rw [show (Except.ok word >>= encodeValue short address) = encodeValue short address word from rfl,
    hvalue]
  rfl

/-- An address that was read is settled when its mode is chosen. -/
theorem settled_of_ofLine {early final : SymbolTable} {line : Line} {m : Mnemonic}
    {mode : AddressingMode} {operand : Operand} {value : Expression} {short long : AddressingMode}
    (hkept : early.symbols <+: final.symbols)
    (hbody : Body.ofLine early line = .ok (.instruction m mode operand))
    (hsizes : operand.sizes? = some (value, short, long)) (hlong : m.supports long = true) :
    Settled early final m mode operand value short long := by
  obtain ⟨hread, hmode⟩ := Body.read_of_ofLine_eq_instruction hbody
  have hnarrow := Operand.read_narrow hread (Operand.value?_of_sizes? hsizes)
  obtain ⟨hbytes, -, htwo⟩ := Operand.sizes?_operandBytes hsizes
  obtain ⟨hrequested, hsupports⟩ := selectMode_eq_ok.mp hmode
  rw [Operand.requestedMode_eq hsizes hlong] at hrequested
  refine ⟨hmode, ?_, ?_⟩
  · rintro rfl
    -- the long form takes two bytes, so the short one was chosen because the address is known
    have hknown : value.isZeroPage early = true := by
      by_contra hunknown
      rw [Bool.not_eq_true] at hunknown
      rw [hunknown, Bool.and_false, if_neg Bool.false_ne_true] at hrequested
      rw [← hrequested, hbytes] at htwo
      cases htwo
    obtain ⟨hdefined, word, hword, hbyte⟩ := Expression.resolve_of_isZeroPage hnarrow hknown
    have hfinal := Expression.resolve_of_prefix hkept hword
    exact ⟨hdefined, word, hword, hfinal, hbyte, encode_of_resolve hsizes hsupports hfinal hbyte⟩
  · rintro name offset rfl hnone
    rw [Expression.isZeroPage_of_find?_eq_none offset hnone, Bool.and_false,
      if_neg Bool.false_ne_true] at hrequested
    exact ⟨hrequested, hrequested ▸ htwo⟩

/-- **The form of an address is chosen for good.** What is read counts as one
byte wide only if it is; a symbol keeps its value once it is defined; so every
instruction that may take an address in both forms is settled by the symbols of
the lines before it. -/
theorem zeroPage_choices_hold (source : String) :
    (∀ text number, Number.read text = .ok number → number.Narrow) ∧
    (∀ text value, Expression.read text = .ok value → value.Narrow) ∧
    (∀ symbol ∈ (Layout.ofSource source).symbols.symbols, symbol.Narrow) ∧
    (∀ number name symbol, (symbolsBefore source number).find? name = some symbol →
      (Layout.ofSource source).symbols.find? name = some symbol) ∧
    ∀ s ∈ (Layout.ofSource source).statements, ∀ m mode operand value short long,
      s.body = .instruction m mode operand → operand.sizes? = some (value, short, long) →
      m.supports long = true →
      Settled (symbolsBefore source s.location.line) (Layout.ofSource source).symbols m mode operand
        value short long := by
  refine ⟨fun _ _ => Number.read_narrow, fun _ _ => Expression.read_narrow,
    Layout.narrow_foldl_addLine _, fun number name symbol => ?_, ?_⟩
  · exact SymbolTable.find?_of_prefix (prefix_symbolsBefore source number)
  · intro s hs m mode operand value short long hbody hsizes hlong
    obtain ⟨-, line, hline⟩ := Layout.read_of_mem_statements hs
    rw [hbody] at hline
    exact settled_of_ofLine (prefix_symbolsBefore source _) hline hsizes hlong

/-- A source with a constant, an address in page zero that is reached through
it, and one that is only known later. -/
def zeroPageSource : String :=
  "BASE .EQU $10\n LDA BASE+2,X\n LDA LATER\n LDX $44,Y\nLATER .EQU $20"

/-- The constant is in reach of one byte; the label is not, though it turns out
to be small. -/
theorem zeroPageSource_settled :
    (∃ code, ∀ address, encode .lda .zeroPageX (.indexedX (.symbol "BASE" 2)) address
        (Layout.ofSource zeroPageSource).symbols = .ok [code, 0x12]) ∧
      ((symbolsBefore zeroPageSource 3).find? "LATER" = none ∧
        selectMode .lda (symbolsBefore zeroPageSource 3) (.direct (.symbol "LATER" 0)) =
          .ok .absolute) ∧
      ∃ code, ∀ address, encode .ldx .zeroPageY (.indexedY (.literal ⟨0x44, true⟩)) address
        (Layout.ofSource zeroPageSource).symbols = .ok [code, 0x44] := by
  obtain ⟨-, -, -, -, hsettled⟩ := zeroPage_choices_hold zeroPageSource
  have hconstant := hsettled
    ⟨0, ⟨2, 1, 12⟩, .instruction .lda .zeroPageX (.indexedX (.symbol "BASE" 2))⟩
    (by decide +kernel) _ _ _ _ _ _ rfl rfl (by decide +kernel)
  have hlater := hsettled
    ⟨2, ⟨3, 1, 9⟩, .instruction .lda .absolute (.direct (.symbol "LATER" 0))⟩
    (by decide +kernel) _ _ _ _ _ _ rfl rfl (by decide +kernel)
  have hliteral := hsettled
    ⟨5, ⟨4, 1, 9⟩, .instruction .ldx .zeroPageY (.indexedY (.literal ⟨0x44, true⟩))⟩
    (by decide +kernel) _ _ _ _ _ _ rfl rfl (by decide +kernel)
  have hbase : (Expression.symbol "BASE" 2).resolve (Layout.ofSource zeroPageSource).symbols =
      .ok 0x12 := by decide +kernel
  have hunknown : (symbolsBefore zeroPageSource 3).find? "LATER" = none := by decide +kernel
  refine ⟨?_, ⟨hunknown, ?_⟩, ?_⟩
  · obtain ⟨-, word, -, hword, -, hencode⟩ := hconstant.short_holds rfl
    cases hbase.symm.trans hword
    exact hencode
  · exact hlater.chosen
  · obtain ⟨-, word, -, hword, -, hencode⟩ := hliteral.short_holds rfl
    cases hword
    exact hencode

end Assembler
end Mos6502
