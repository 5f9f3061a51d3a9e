/-
# A constant and what it stands for

Where a name is defined as a constant, it can stand in an operand or the literal of
the constant can. An operand is read with the one as with the other
(`Operand.read_of_shape`, `exists_cutUnquoted`), and both have the same value and width
where the name is known. So the body of a line agrees with that of the line with the
literal in place of the name (`Constant.exists_agrees`).

Key definitions: `Knows`, `Shape`, `Slot`.
Key theorems: `Operand.read_of_shape`, `exists_cutUnquoted`, `Constant.resolve_eq`,
`Constant.isZeroPage_eq`, `Constant.exists_datum`, `Constant.exists_agrees`.
-/
import Mos6502.Proofs.Assembler.Literal
import Mos6502.Proofs.Assembler.SideBySide
import Mos6502.Proofs.Assembler.Width

namespace Mos6502
namespace Assembler

open Text

/-- The name has the value and width of the number. -/
def Knows (name : String) (number : Number) (symbols : SymbolTable) : Prop :=
  symbols.number? name = some number

/-- What an operand has before and behind its expression, for each of its forms. -/
inductive Shape : (Expression → Operand) → List Char → List Char → Prop
  | immediate : Shape .immediate ['#'] []
  | direct : Shape .direct [] []
  | indexedX : Shape .indexedX [] [',', 'X']
  | indexedY : Shape .indexedY [] [',', 'Y']
  | indirect : Shape .indirect ['('] [')']
  | indirectX : Shape .indirectX ['('] [',', 'X', ')']
  | indirectY : Shape .indirectY ['('] [')', ',', 'Y']

/-- What the operand of an operation can have before and behind an expression. -/
inductive Slot : String → List Char → List Char → Prop
  /-- In the operand of an instruction, what its form has. -/
  | instruction {operation : String} {m : Mnemonic} {form : Expression → Operand}
      {before after : List Char} (hmnemonic : Mnemonic.read? operation.toList = some m)
      (hshape : Shape form before after) : Slot operation before after
  /-- Nothing, where the value must be known. -/
  | value {operation : String} (hname : operation ∈ [".ORG", ".DS", ".EQU"]) : Slot operation [] []
  /-- Other data, with commas between. -/
  | data {before after : List Char} (hbefore : before = [] ∨ before.getLast? = some ',')
      (hafter : after = [] ∨ after.head? = some ',') : Slot ".DB" before after

/-! ### Operands of instructions -/

theorem before?_append (text ending : List Char) : before? ending (text ++ ending) = some text := by
  have hsuffix : ending.isSuffixOf (text ++ ending) = true :=
    List.isSuffixOf_iff_suffix.mpr (List.suffix_append text ending)
  rw [before?, if_pos hsuffix, List.length_append, Nat.add_sub_cancel, List.take_left]

theorem before?_eq_none {text ending : List Char} (h : ¬ending <:+ text) :
    before? ending text = none := by
  rw [before?, if_neg fun hsuffix => h (List.isSuffixOf_iff_suffix.mp hsuffix)]

theorem not_suffix_of_last_ne {start ending : List Char} {c d : Char} (hne : c ≠ d) :
    ¬(ending ++ [c]) <:+ (start ++ [d]) := by
  rintro ⟨rest, heq⟩
  rw [← List.append_assoc] at heq
  exact hne (List.append_inj_right' heq rfl |> List.cons.inj).1

namespace Operand

theorem read_eq_readDirect {text : List Char} (hhead : ∀ c ∈ text.head?, c ∉ ['#', '+', '-', '('])
    (hne : text ≠ []) (haccumulator : text ≠ ['A']) : read text = readDirect text := by
  obtain ⟨c, rest, rfl⟩ := List.exists_cons_of_ne_nil hne
  have hc := hhead c rfl
  simp only [List.mem_cons, List.not_mem_nil, or_false, not_or] at hc
  unfold read
  split
  · rename_i heq
    exact absurd heq hne
  · rename_i heq
    exact absurd heq haccumulator
  · rename_i heq
    exact absurd (List.cons.inj heq).1 hc.1
  · rename_i heq
    exact absurd (List.cons.inj heq).1 hc.2.1
  · rename_i heq
    exact absurd (List.cons.inj heq).1 hc.2.2.1
  · rename_i heq
    exact absurd (List.cons.inj heq).1 hc.2.2.2
  · rfl

/-- **An operand is read as the form that stands round its expression.** -/
theorem read_of_shape {form : Expression → Operand} {before after text : List Char}
    (h : Shape form before after) (hatom : IsAtom text) :
    read (before ++ (text ++ after)) = readWithin form text := by
  have hX : ¬[',', 'X'] <:+ text := hatom.not_suffix (by decide)
  have hY : ¬[',', 'Y'] <:+ text := hatom.not_suffix (by decide)
  have hindexed : ∀ index, read (text ++ [',', index]) = readDirect (text ++ [',', index]) := by
    intro index
    refine read_eq_readDirect (fun c hc => hatom.head c ?_) ?_ ?_
    · rwa [List.head?_append_of_ne_nil text hatom.ne_nil] at hc
    · exact List.append_ne_nil_of_left_ne_nil hatom.ne_nil _
    · intro heq
      have hlength := congrArg List.length heq
      rw [List.length_append] at hlength
      simp at hlength
  cases h with
  | immediate =>
    rw [List.append_nil]
    rfl
  | direct =>
    rw [List.append_nil, List.nil_append,
      read_eq_readDirect hatom.head hatom.ne_nil hatom.ne_accumulator, readDirect,
      before?_eq_none hX, before?_eq_none hY]
  | indexedX => rw [List.nil_append, hindexed, readDirect, before?_append]
  | indexedY =>
    have hnot : ¬[',', 'X'] <:+ text ++ [',', 'Y'] := by
      have hlast := @not_suffix_of_last_ne (text ++ [',']) [','] 'X' 'Y' (by decide)
      rwa [List.append_assoc] at hlast
    rw [List.nil_append, hindexed, readDirect, before?_eq_none hnot, before?_append]
  | indirect =>
    have hnotY : ¬[')', ',', 'Y'] <:+ text ++ [')'] :=
      @not_suffix_of_last_ne text [')', ','] 'Y' ')' (by decide)
    have hnotX : ¬[',', 'X', ')'] <:+ text ++ [')'] := by
      rintro ⟨start, heq⟩
      have hsplit : start ++ [',', 'X'] ++ [')'] = text ++ [')'] := by
        rw [List.append_assoc]
        exact heq
      exact hX ⟨start, List.append_cancel_right hsplit⟩
    show readIndirect (text ++ [')']) = _
    rw [readIndirect, before?_eq_none hnotY, before?_eq_none hnotX, before?_append]
  | indirectX =>
    have hnotY : ¬[')', ',', 'Y'] <:+ text ++ [',', 'X', ')'] := by
      have hlast := @not_suffix_of_last_ne (text ++ [',', 'X']) [')', ','] 'Y' ')' (by decide)
      rwa [List.append_assoc] at hlast
    show readIndirect (text ++ [',', 'X', ')']) = _
    rw [readIndirect, before?_eq_none hnotY, before?_append]
  | indirectY =>
    show readIndirect (text ++ [')', ',', 'Y']) = _
    rw [readIndirect, before?_append]

end Operand
/-! ### Data -/

/-- **An atom among data is one of the pieces.** The others do not depend on it. -/
theorem exists_cutUnquoted {before after : List Char} (hclosed : endsOpen before = false)
    (hbefore : before = [] ∨ before.getLast? = some ',')
    (hafter : after = [] ∨ after.head? = some ',') :
    ∃ first last, ∀ text, IsAtom text →
      cutUnquoted ',' (before ++ (text ++ after)) = first ++ text :: last := by
  have hcomma : ',' ≠ quote := by decide
  obtain ⟨last, hlast⟩ : ∃ last, ∀ text, IsAtom text →
      cutUnquoted ',' (text ++ after) = text :: last := by
    rcases hafter with rfl | hhead
    · exact ⟨[], fun text htext => by rw [List.append_nil, cutUnquoted_eq_singleton htext.quoted]⟩
    · obtain ⟨rest, rfl⟩ := List.head?_eq_some_iff.mp hhead
      refine ⟨cutUnquoted ',' rest, fun text htext => ?_⟩
      rw [cutUnquoted_append_cons hcomma htext.closed, cutUnquoted_eq_singleton htext.quoted]
      rfl
  rcases hbefore with rfl | hend
  · exact ⟨[], last, hlast⟩
  · obtain ⟨start, rfl⟩ := List.getLast?_eq_some_iff.mp hend
    have hstart : endsOpen start = false := by
      rwa [endsOpen_append, endsOpen_singleton, beq_false_of_ne hcomma, Bool.bne_false] at hclosed
    refine ⟨cutUnquoted ',' start, last, fun text htext => ?_⟩
    rw [List.append_assoc, List.singleton_append, cutUnquoted_append_cons hcomma hstart,
      hlast text htext]

theorem totalSize_append (first second : List Datum) :
    Datum.totalSize (first ++ second) = Datum.totalSize first + Datum.totalSize second := by
  induction first with
  | nil => exact (Nat.zero_add _).symm
  | cons datum first ih =>
    show datum.size + Datum.totalSize (first ++ second) =
      datum.size + Datum.totalSize first + Datum.totalSize second
    rw [ih, Nat.add_assoc]

/-- Data come to the same if one of them is replaced by one that does. -/
theorem emitData_replace {symbols : SymbolTable} {datum other : Datum}
    (h : other.emit symbols = datum.emit symbols) (first last : List Datum) :
    emitData symbols (first ++ other :: last) = emitData symbols (first ++ datum :: last) := by
  simp only [emitData, List.mapM_append, List.mapM_cons, h]

namespace Constant

variable {name : String} {literal : List Char} {number : Number}

/-! ### Values -/

section Values

variable {symbols : SymbolTable} (hknows : Knows name number symbols)

include hknows

theorem resolve_eq : (Expression.symbol name 0).resolve symbols = .ok number.value := by
  have hlt := number.value.toNat_lt
  have hrange : 0 ≤ (number.value.toNat + 0 : Int) ∧ (number.value.toNat + 0 : Int) ≤ 0xFFFF := by
    omega
  rw [Expression.resolve_symbol, show symbols.number? name = some number from hknows]
  refine (if_pos hrange).trans ?_
  rw [Int.add_zero, Int.toNat_natCast, UInt16.ofNat_toNat]

theorem isZeroPage_eq (h : Constant name literal number) :
    (Expression.symbol name 0).isZeroPage symbols = number.zeroPage := by
  have hnarrow : number.Narrow := Expression.read_narrow h.read_eq number rfl
  rw [Expression.isZeroPage_symbol, show symbols.number? name = some number from hknows]
  cases hzero : number.zeroPage with
  | false => simp only [hzero, Bool.false_and]
  | true =>
    have hle : number.value.toNat ≤ 0xFF := UInt16.le_iff_toNat_le.mp (hnarrow hzero)
    have hlow : (0 : Int) ≤ number.value.toNat + 0 := by omega
    have hhigh : (number.value.toNat + 0 : Int) ≤ 0xFF := by omega
    simp only [hzero, decide_eq_true hlow, decide_eq_true hhigh, Bool.and_self]

/-- Where the value must be known, the name and the literal give the number. -/
theorem knownValue_eq (h : Constant name literal number) :
    knownValue symbols name.toList = .ok number ∧ knownValue symbols literal = .ok number := by
  refine ⟨?_, by simp only [knownValue, h.read_eq]⟩
  have hnarrow : number.Narrow := Expression.read_narrow h.read_eq number rfl
  have hwidth : (symbols.find? name).any Symbol.zeroPage = number.zeroPage := by
    have hnumber : symbols.number? name = some number := hknows
    rw [SymbolTable.number?, Option.map_eq_some_iff] at hnumber
    obtain ⟨symbol, hfind, rfl⟩ := hnumber
    rw [hfind]
    rfl
  have hbyte : (number.zeroPage && decide (number.value ≤ 0xFF)) = number.zeroPage := by
    cases hzero : number.zeroPage with
    | false => rfl
    | true => rw [decide_eq_true (hnarrow hzero), Bool.and_self]
  simp only [knownValue, h.read_name, resolve_eq hknows, hwidth]
  show Except.ok (⟨number.value, number.zeroPage && decide (number.value ≤ 0xFF)⟩ : Number) = _
  rw [hbyte]

theorem selectMode_eq (h : Constant name literal number) {form : Expression → Operand}
    {before after : List Char} (hshape : Shape form before after) (m : Mnemonic) :
    selectMode m symbols (form (.literal number)) =
      selectMode m symbols (form (.symbol name 0)) := by
  have hwidth : (Expression.literal number).isZeroPage symbols =
      (Expression.symbol name 0).isZeroPage symbols := (h.isZeroPage_eq hknows).symm
  have hmode : requestedMode m symbols (form (.literal number)) =
      requestedMode m symbols (form (.symbol name 0)) := by
    cases hshape <;> simp only [requestedMode, hwidth]
  rw [selectMode, selectMode, hmode]

theorem encode_eq {form : Expression → Operand} {before after : List Char}
    (hshape : Shape form before after) (m : Mnemonic) (mode : AddressingMode) (address : UInt16) :
    encode m mode (form (.literal number)) address symbols =
      encode m mode (form (.symbol name 0)) address symbols := by
  have hvalue : (Expression.literal number).resolve symbols =
      (Expression.symbol name 0).resolve symbols := (resolve_eq hknows).symm
  have hoperand : encodeOperand mode address symbols (form (.literal number)) =
      encodeOperand mode address symbols (form (.symbol name 0)) := by
    cases hshape <;> simp only [encodeOperand, hvalue]
  simp only [encode, hoperand]

end Values

/-- **As a datum the literal comes to the same as the name**: one byte. -/
theorem exists_datum (h : Constant name literal number) :
    ∃ datum, Datum.read literal = .ok datum ∧ datum.size = 1 ∧
      ∀ symbols, Knows name number symbols →
        datum.emit symbols = Datum.emit symbols (.byte (.symbol name 0)) := by
  rcases literal_cases h.read_eq h.closed with
    ⟨-, hquote, -, -⟩ | ⟨c, byte, rfl, -, hbytes, rfl⟩
  · refine ⟨.byte (.literal number), ?_, rfl, ?_⟩
    · simp only [Datum.read, strip?_eq_none hquote, h.read_eq]
    intro symbols hknows
    rw [Datum.emit, Datum.emit, resolve_eq hknows]
    rfl
  · refine ⟨.text [byte], ?_, rfl, fun symbols hknows => ?_⟩
    · have hstrip : strip? [quote, c, quote] = some [c] := rfl
      simp only [Datum.read, hstrip, hbytes]
    · have hlt := byte.toNat_lt
      have hle : byte.toUInt16 ≤ 0xFF := by
        rw [UInt16.le_iff_toNat_le, UInt8.toNat_toUInt16]
        exact Nat.le_of_lt_succ hlt
      simp only [Datum.emit, resolve_eq hknows]
      show Except.ok [byte] = if byte.toUInt16 ≤ 0xFF then _ else _
      rw [if_pos hle, UInt8.toUInt8_toUInt16]
      rfl

/-! ### Bodies -/

theorem ofLine_of_mnemonic (symbols : SymbolTable) {line : Line} {operation : String} {m : Mnemonic}
    (hoperation : line.operation = some operation)
    (hmnemonic : Mnemonic.read? operation.toList = some m) :
    Body.ofLine symbols line = Body.readInstruction symbols operation line.operand := by
  have hdot : operation.toList.head? ≠ some '.' := by
    intro hhead
    have hupper : (upper operation.toList).head? = some '.' := by
      rw [upper, List.head?_map, hhead]
      rfl
    rw [← letters_of_read? hmnemonic] at hupper
    revert hupper
    cases m <;> decide
  simp only [Body.ofLine, hoperation, if_neg hdot]

theorem ofLine_data (symbols : SymbolTable) {line : Line}
    (hoperation : line.operation = some ".DB") :
    Body.ofLine symbols line =
      (fun items => .directive (.data items)) <$> readData line.operand := by
  have hdot : ".DB".toList.head? = some '.' := rfl
  simp only [Body.ofLine, hoperation, hdot, if_true, Directive.read]
  cases readData line.operand <;> rfl

section Bodies

variable (h : Constant name literal number) {line otherLine : Line}
  {before after : List Char} (hoperand : line.operand = before ++ (name.toList ++ after))
  (hotherOperand : otherLine.operand = before ++ (literal ++ after)) {symbols : SymbolTable}
  (hknows : Knows name number symbols) {body : Body}

include h hoperand hotherOperand hknows

theorem exists_agrees_instruction {operation : String} {m : Mnemonic} {form : Expression → Operand}
    (hmnemonic : Mnemonic.read? operation.toList = some m) (hshape : Shape form before after)
    (hoperation : line.operation = some operation)
    (hotherOperation : otherLine.operation = some operation)
    (hbody : Body.ofLine symbols line = .ok body) :
    ∃ otherBody, Body.ofLine symbols otherLine = .ok otherBody ∧
      body.Agrees (Knows name number) otherBody := by
  have hread : Operand.read line.operand = .ok (form (.symbol name 0)) := by
    rw [hoperand, Operand.read_of_shape hshape h.isAtom_name, Operand.readWithin, h.read_name]
  have hother : Operand.read otherLine.operand = .ok (form (.literal number)) := by
    rw [hotherOperand, Operand.read_of_shape hshape h.isAtom_literal, Operand.readWithin, h.read_eq]
  rw [ofLine_of_mnemonic symbols hoperation hmnemonic] at hbody
  simp only [Body.readInstruction, hmnemonic, hread] at hbody
  obtain ⟨mode, hmode, hsame⟩ := Result.bind_eq_ok.mp hbody
  cases hsame
  refine ⟨.instruction m mode (form (.literal number)), ?_, rfl, fun _ => rfl, fun _ => rfl, ?_, ?_⟩
  · rw [ofLine_of_mnemonic symbols hotherOperation hmnemonic]
    simp only [Body.readInstruction, hmnemonic, hother, h.selectMode_eq hknows hshape, hmode]
    rfl
  · simp only [reduceCtorEq]
  · intro symbols hknows address _ _
    simp only [Statement.emit, encode_eq hknows hshape]

omit hknows in
theorem exists_agrees_data (hclosed : endsOpen before = false)
    (hbefore : before = [] ∨ before.getLast? = some ',')
    (hafter : after = [] ∨ after.head? = some ',') (hoperation : line.operation = some ".DB")
    (hotherOperation : otherLine.operation = some ".DB")
    (hbody : Body.ofLine symbols line = .ok body) :
    ∃ otherBody, Body.ofLine symbols otherLine = .ok otherBody ∧
      body.Agrees (Knows name number) otherBody := by
  obtain ⟨datum, hdatum, hsize, hemit⟩ := h.exists_datum
  obtain ⟨pieces, morePieces, hcut⟩ := exists_cutUnquoted hclosed hbefore hafter
  have hlist : ∀ text, IsAtom text →
      Datum.readList (before ++ (text ++ after)) =
        (pieces ++ text :: morePieces).mapM Datum.read := by
    intro text htext
    have hne : before ++ (text ++ after) ≠ [] := List.append_ne_nil_of_right_ne_nil before
      (List.append_ne_nil_of_left_ne_nil htext.ne_nil after)
    rw [Datum.readList, if_neg hne, hcut text htext]
  have hname : Datum.read name.toList = .ok (.byte (.symbol name 0)) := by
    simp only [Datum.read, strip?_eq_none h.quote_notMem_name, h.read_name]
  -- the data of the line, with the name as one of them
  rw [ofLine_data symbols hoperation, Result.map_eq_ok] at hbody
  obtain ⟨items, hitems, rfl⟩ := hbody
  obtain ⟨hread, hle⟩ := readData_eq_ok.mp hitems
  rw [hoperand, hlist _ h.isAtom_name, List.mapM_append, Result.bind_eq_ok] at hread
  obtain ⟨first, hfirst, hread⟩ := hread
  obtain ⟨rest, hrest, hsame⟩ := Result.bind_eq_ok.mp hread
  cases hsame
  rw [List.mapM_cons, hname] at hrest
  obtain ⟨_, hsame, hrest⟩ := Result.bind_eq_ok.mp hrest
  cases hsame
  obtain ⟨last, hlast, hsame⟩ := Result.bind_eq_ok.mp hrest
  cases hsame
  have htotal : Datum.totalSize (first ++ datum :: last) =
      Datum.totalSize (first ++ .byte (.symbol name 0) :: last) := by
    rw [totalSize_append, totalSize_append]
    show _ + (datum.size + _) = _ + (1 + _)
    rw [hsize]
  have hother : readData otherLine.operand = .ok (first ++ datum :: last) := by
    rw [readData_eq_ok, htotal]
    refine ⟨?_, hle⟩
    rw [hotherOperand, hlist _ h.isAtom_literal]
    simp only [List.mapM_append, List.mapM_cons, hfirst, hdatum, hlast]
    rfl
  refine ⟨.directive (.data (first ++ datum :: last)), ?_, htotal, fun _ => rfl, fun _ => rfl,
    ?_, ?_⟩
  · rw [ofLine_data symbols hotherOperation, hother]
    rfl
  · simp only [Body.directive.injEq, reduceCtorEq]
  · intro symbols hknows address _ _
    simp only [Statement.emit, emitData_replace (hemit symbols hknows)]

/-- **With the literal in place of the name a line asks for a body that agrees.** -/
theorem exists_agrees {operation : String} (hslot : Slot operation before after)
    (hclosed : endsOpen before = false) (hlabel : otherLine.label = line.label)
    (hoperation : line.operation = some operation)
    (hotherOperation : otherLine.operation = some operation)
    (hbody : Body.ofLine symbols line = .ok body) :
    ∃ otherBody, Body.ofLine symbols otherLine = .ok otherBody ∧
      body.Agrees (Knows name number) otherBody := by
  cases hslot with
  | instruction hmnemonic hshape =>
    exact h.exists_agrees_instruction hoperand hotherOperand hknows hmnemonic hshape hoperation
      hotherOperation hbody
  | data hbefore hafter =>
    exact h.exists_agrees_data hoperand hotherOperand hclosed hbefore hafter hoperation
      hotherOperation hbody
  | value hname =>
    obtain ⟨hknown, hotherKnown⟩ := h.knownValue_eq hknows
    rw [List.nil_append, List.append_nil] at hoperand hotherOperand
    refine ⟨body, ?_, .refl body⟩
    rw [← hbody]
    simp only [List.mem_cons, List.not_mem_nil, or_false] at hname
    have hdot : operation.toList.head? = some '.' := by
      rcases hname with rfl | rfl | rfl <;> rfl
    simp only [Body.ofLine, hoperation, hotherOperation, hlabel, hoperand, hotherOperand,
      if_pos hdot]
    rcases hname with rfl | rfl | rfl <;> simp only [Directive.read, hknown, hotherKnown]

end Bodies

end Constant
end Assembler
end Mos6502
