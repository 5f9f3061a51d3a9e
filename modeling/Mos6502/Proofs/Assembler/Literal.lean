/-
# Names and literals in expressions

A constant has a name and a literal, which is a number or a quoted character
(`literal_cases`). Either is an expression of its own (`IsAtom`): it begins and ends with
nothing that could belong to the operand round it, and no comma divides it.

Key definitions: `Constant`, `IsAtom`.
Key theorems: `literal_cases`, `Expression.read_name_append`, `Constant.read_name`,
`Constant.isAtom_name`, `Constant.isAtom_literal`, `Constant.isCode_literal`.
-/
import Mos6502.Proofs.Assembler.Fields

namespace Mos6502

namespace Assembler

open Text

/-- A name that can be a label, and the literal of the constant that it is defined as. -/
structure Constant (name : String) (literal : List Char) (number : Number) : Prop where
  named : validateLabel name.toList = .ok ()
  read_eq : Expression.read literal = .ok (.literal number)
  closed : endsOpen literal = false

/-- The text is an expression of its own: nothing at its start or end can be taken for
the form of an operand, and no comma divides it. -/
structure IsAtom (text : List Char) : Prop where
  ne_nil : text ≠ []
  head : ∀ c ∈ text.head?, c ∉ ['#', '+', '-', '(']
  ne_accumulator : text ≠ ['A']
  closed : endsOpen text = false
  quoted : ∀ entry ∈ marked false text, entry.1 = ',' → entry.2 = true

/-- A text without quote marks and commas is one, unless its head tells a form. -/
theorem isAtom_of_notMem {c : Char} {rest : List Char} (hhead : c ∉ ['#', '+', '-', '('])
    (hname : c :: rest ≠ ['A']) (hquote : quote ∉ c :: rest) (hcomma : ',' ∉ c :: rest) :
    IsAtom (c :: rest) := by
  refine ⟨List.cons_ne_nil c rest, ?_, hname, endsOpen_of_notMem hquote, fun entry hentry heq => ?_⟩
  · rintro _ ⟨⟩
    exact hhead
  · have hmem := mem_of_mem_marked hentry
    rw [heq] at hmem
    exact absurd hmem hcomma

/-- No atom ends like an indexed operand. -/
theorem IsAtom.not_suffix {text : List Char} (h : IsAtom text) {index : Char}
    (hindex : index ≠ quote) : ¬[',', index] <:+ text := by
  rintro ⟨start, rfl⟩
  have hclosed := h.closed
  have hquoted := h.quoted
  rw [endsOpen_append, endsOpen_cons, endsOpen_singleton, beq_false_of_ne hindex] at hclosed
  rw [marked_append] at hquoted
  have hcomma := hquoted (',', false != endsOpen start)
    (List.mem_append_right _ List.mem_cons_self) rfl
  cases hopen : endsOpen start with
  | true =>
    rw [hopen] at hclosed
    revert hclosed
    decide
  | false =>
    rw [hopen] at hcomma
    cases hcomma

/-! ### Names and literals -/

theorem Number.notMem_of_read {c : Char} (hblank : isBlank c = false) (hhex : c ≠ '$')
    (hbinary : c ≠ '%') (hdigit : ∀ radix : Radix, digitValue? radix.base c = none)
    {text : List Char} {number : Number} (h : Number.read text = .ok number) : c ∉ text := by
  have hgap : ∀ gap, IsGap gap → c ∉ gap := fun gap hgap hmem => by
    rw [hgap c hmem] at hblank
    cases hblank
  have hdigits : ∀ {radix : Radix} {digits : List Char},
      Number.ofDigits radix digits = .ok number → c ∉ digits := by
    intro radix digits hread hmem
    unfold Number.ofDigits at hread
    split at hread
    · rename_i first rest hvalues
      have hsome := isSome_of_mapM hvalues c hmem
      rw [hdigit radix] at hsome
      cases hsome
    · cases hread
  have htrim : c ∉ trim text := by
    unfold Number.read at h
    split at h
    · cases h
    · rename_i digits heq
      rw [heq, List.mem_cons, not_or]
      exact ⟨hhex, hdigits h⟩
    · rename_i digits heq
      rw [heq, List.mem_cons, not_or]
      exact ⟨hbinary, hdigits h⟩
    · exact hdigits h
  obtain ⟨trail, htrail, heq⟩ := exists_trim text
  rw [← heq, List.mem_append, List.mem_append, not_or, not_or]
  exact ⟨hgap _ (isGap_takeWhile text), htrim, hgap trail htrail⟩

theorem Expression.readCharacter_eq_ok {text : List Char} {number : Number}
    (h : readCharacter text = .ok number) :
    ∃ c byte, text = [quote, c, quote] ∧ bytes [c] = [byte] ∧ number = ⟨byte.toUInt16, true⟩ := by
  unfold readCharacter at h
  split at h
  · cases h
  · rename_i inner hstrip
    split at h
    · rename_i byte hbytes
      cases h
      have hinner : ∃ c, inner = [c] := by
        have hlength : byteLength inner = 1 := by rw [← length_bytes, hbytes]; rfl
        cases inner with
        | nil => cases hlength
        | cons c rest =>
          have hpos := c.utf8Size_pos
          rw [byteLength_cons] at hlength
          cases rest with
          | nil => exact ⟨c, rfl⟩
          | cons d rest =>
            have hnext := d.utf8Size_pos
            rw [byteLength_cons] at hlength
            omega
      obtain ⟨c, rfl⟩ := hinner
      refine ⟨c, byte, ?_, hbytes, rfl⟩
      cases text with
      | nil => cases hstrip
      | cons first rest =>
        obtain ⟨⟨rfl, hlast⟩, hrest⟩ := Option.ite_none_right_eq_some.mp hstrip
        have hsplit := List.dropLast_append_getLast? quote hlast
        rw [Option.some.inj hrest] at hsplit
        rw [← hsplit]
        rfl
    · cases h

/-- A literal is a number without quote marks, commas and semicolons, or a quoted
character. -/
theorem literal_cases {literal : List Char} {number : Number}
    (h : Expression.read literal = .ok (.literal number)) (hclosed : endsOpen literal = false) :
    ((∃ c rest, literal = c :: rest ∧ (c = '$' ∨ c = '%' ∨ c.isDigit = true)) ∧
        quote ∉ literal ∧ ',' ∉ literal ∧ ';' ∉ literal) ∨
      ∃ c byte, literal = [quote, c, quote] ∧ c ≠ quote ∧ bytes [c] = [byte] ∧
        number = ⟨byte.toUInt16, true⟩ := by
  cases literal with
  | nil => cases h
  | cons c rest =>
    simp only [Expression.read] at h
    split at h
    · rename_i hhead
      obtain ⟨read, hread, hsame⟩ := Result.map_eq_ok.mp h
      cases hsame
      unfold readNumber at hread
      split at hread
      · rename_i hnumber
        have hnone : ∀ c : Char, digitValue? 16 c = none → digitValue? 2 c = none →
            digitValue? 10 c = none → ∀ radix : Radix, digitValue? radix.base c = none :=
          fun c hhex hbinary hdecimal radix => by cases radix <;> assumption
        refine .inl ⟨⟨c, rest, rfl, hhead⟩, ?_, ?_, ?_⟩ <;>
        exact Number.notMem_of_read (by decide) (by decide) (by decide)
          (hnone _ (by decide) (by decide) (by decide)) hnumber
      · cases hread
    · split at h
      · obtain ⟨read, hread, hsame⟩ := Result.map_eq_ok.mp h
        cases hsame
        obtain ⟨d, byte, hliteral, hbytes, hnumber⟩ := Expression.readCharacter_eq_ok hread
        refine .inr ⟨d, byte, hliteral, ?_, hbytes, hnumber⟩
        rintro rfl
        rw [hliteral] at hclosed
        revert hclosed
        decide
      · obtain ⟨offset, -, h⟩ := Result.bind_eq_ok.mp h
        split at h <;> cases h

theorem marked_quoted {c : Char} (h : c ≠ quote) :
    marked false [quote, c, quote] = [(quote, false), (c, true), (quote, true)] :=
  @marked_quotation [c] fun hmem => h (List.mem_singleton.mp hmem).symm

theorem isDigit_of_beginsName {c : Char} (h : beginsName c = true) : c.isDigit = false := by
  have hlow : ∀ n < 58, beginsName (Char.ofNat n) = false := by decide
  by_contra hdigit
  rw [Bool.not_eq_false, Char.isDigit_iff_toNat] at hdigit
  have hname := hlow c.toNat (Nat.lt_succ_of_le hdigit.2)
  rw [Char.ofNat_toNat, h] at hname
  cases hname

theorem strip?_eq_none {text : List Char} (h : quote ∉ text) : strip? text = none := by
  cases text with
  | nil => rfl
  | cons c rest =>
    refine if_neg ?_
    rintro ⟨rfl, -⟩
    exact h List.mem_cons_self

theorem isSign_of_isSymbolName {name : List Char} (h : isSymbolName name = true) :
    ∀ c ∈ name, isSign c = false := by
  intro c hc
  have hcontinues := continuesName_of_isSymbolName h c hc
  rw [isSign, Bool.or_eq_false_iff, beq_eq_false_iff_ne, beq_eq_false_iff_ne]
  constructor
  · rintro rfl
    exact absurd hcontinues (by decide)
  · rintro rfl
    exact absurd hcontinues (by decide)

/-- **A name is read up to the sign behind it**, or to the end. -/
theorem Expression.read_name_append {name rest : List Char} {offset : Int}
    (hname : isSymbolName name = true) (hrest : ∀ c ∈ rest.head?, isSign c = true)
    (hoffset : readOffset rest = .ok offset) :
    read (name ++ rest) = .ok (.symbol (String.ofList name) offset) := by
  have hsolid : ∀ c ∈ name, (!isSign c) = true := fun c hc => by
    rw [isSign_of_isSymbolName hname c hc]
    rfl
  have hstop : rest.takeWhile (fun c => !isSign c) = [] ∧
      rest.dropWhile (fun c => !isSign c) = rest := by
    cases rest with
    | nil => exact ⟨rfl, rfl⟩
    | cons c rest =>
      have hc : ¬(!isSign c) = true := by
        rw [hrest c rfl]
        decide
      exact ⟨List.takeWhile_cons_of_neg hc, List.dropWhile_cons_of_neg hc⟩
  have hsymbol : readSymbol (name ++ rest) = .ok (.symbol (String.ofList name) offset) := by
    simp only [readSymbol, List.takeWhile_append_of_pos hsolid,
      List.dropWhile_append_of_pos hsolid, hstop.1, hstop.2, List.append_nil, hoffset, hname,
      if_true]
    rfl
  cases name with
  | nil => cases hname
  | cons c tail =>
    rw [isSymbolName, Bool.and_eq_true] at hname
    have hhead : ¬(c = '$' ∨ c = '%' ∨ c.isDigit = true) := by
      rintro (rfl | rfl | hdigit)
      · exact absurd hname.1 (by decide)
      · exact absurd hname.1 (by decide)
      · rw [isDigit_of_beginsName hname.1] at hdigit
        cases hdigit
    have hquote : c ≠ quote := by
      rintro rfl
      exact absurd hname.1 (by decide)
    rw [List.cons_append] at hsymbol ⊢
    rw [read, if_neg hhead, if_neg hquote, hsymbol]

/-- A name is an expression of its own, whatever without quote marks and commas is behind it. -/
theorem isAtom_name_append {name rest : List Char} (hname : isSymbolName name = true)
    (haccumulator : name ++ rest ≠ ['A']) (hquote : quote ∉ rest) (hcomma : ',' ∉ rest) :
    IsAtom (name ++ rest) := by
  have hcontinues := continuesName_of_isSymbolName hname
  have hnotMem : ∀ {c}, continuesName c = false → c ∉ rest → c ∉ name ++ rest := by
    intro c hfalse hrest hmem
    rcases List.mem_append.mp hmem with hmem | hmem
    · rw [hcontinues c hmem] at hfalse
      cases hfalse
    · exact hrest hmem
  cases name with
  | nil => cases hname
  | cons c tail =>
    refine isAtom_of_notMem (fun hmem => ?_) haccumulator (hnotMem (by decide) hquote)
      (hnotMem (by decide) hcomma)
    have hc := hcontinues c List.mem_cons_self
    simp only [List.mem_cons, List.not_mem_nil, or_false] at hmem
    rcases hmem with rfl | rfl | rfl | rfl <;> exact absurd hc (by decide)

namespace Constant

variable {name : String} {literal : List Char} {number : Number}

theorem quote_notMem_name (h : Constant name literal number) : quote ∉ name.toList :=
  quote_notMem_of_isSymbolName (validateLabel_eq_ok h.named).1

theorem read_name (h : Constant name literal number) :
    Expression.read name.toList = .ok (.symbol name 0) := by
  have hread := @Expression.read_name_append _ [] _ (validateLabel_eq_ok h.named).1 nofun rfl
  rwa [List.append_nil, String.ofList_toList] at hread

/-- **A name is an expression of its own.** -/
theorem isAtom_name (h : Constant name literal number) : IsAtom name.toList := by
  obtain ⟨hname, hreserved⟩ := validateLabel_eq_ok h.named
  have hne : name.toList ≠ ['A'] := by
    intro heq
    rw [isReserved, heq] at hreserved
    cases hreserved
  have hatom := @isAtom_name_append _ [] hname (by rwa [List.append_nil]) List.not_mem_nil
    List.not_mem_nil
  rwa [List.append_nil] at hatom

/-- **A literal is an expression of its own.** -/
theorem isAtom_literal (h : Constant name literal number) : IsAtom literal := by
  rcases literal_cases h.read_eq h.closed with
    ⟨⟨c, rest, rfl, hhead⟩, hquote, hcomma, -⟩ | ⟨c, byte, rfl, hquote, -, -⟩
  · have hnot : ∀ d : Char, d ∉ ['$', '%'] → d.isDigit = false → c ≠ d := by
      rintro d hd hdigit rfl
      simp only [List.mem_cons, List.not_mem_nil, or_false, not_or] at hd
      rcases hhead with heq | heq | heq
      · exact hd.1 heq
      · exact hd.2 heq
      · rw [hdigit] at heq
        cases heq
    refine isAtom_of_notMem (fun hmem => ?_) (fun heq => ?_) hquote hcomma
    · simp only [List.mem_cons, List.not_mem_nil, or_false] at hmem
      rcases hmem with heq | heq | heq | heq <;> exact hnot _ (by decide) (by decide) heq
    · exact hnot 'A' (by decide) (by decide) (List.cons.inj heq).1
  · refine ⟨List.cons_ne_nil _ _, fun d hd hmem => ?_, fun heq => ?_, h.closed,
      fun entry hentry heq => ?_⟩
    · cases hd
      revert hmem
      decide
    · cases heq
    · rw [marked_quoted hquote] at hentry
      simp only [List.mem_cons, List.not_mem_nil, or_false] at hentry
      rcases hentry with rfl | rfl | rfl
      · revert heq
        decide
      · rfl
      · rfl

/-- A literal has no comment in it. -/
theorem isCode_literal (h : Constant name literal number) : IsCode literal := by
  rcases literal_cases h.read_eq h.closed with
    ⟨-, hquote, -, hsemicolon⟩ | ⟨c, byte, rfl, hquote, -, -⟩
  · exact isCode_of_notMem hquote hsemicolon
  · exact @isCode_quotation [c] fun hmem => hquote (List.mem_singleton.mp hmem).symm

end Constant

end Assembler
end Mos6502
