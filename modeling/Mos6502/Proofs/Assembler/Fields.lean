/-
# What a line is made of

The code of a line is blank, or it splits into a front, which is a label, an
operation or both, and the operand behind that (`Splits`). A line with these parts
is read as them (`Line.read_of_splits`), and there is no other way to be read
(`Line.read_cases`).

Key definitions: `Text.IsWord`, `Text.StartsBlank`, `Front`, `Splits`,
`Line.Has`, `Line.Quoteless`.
Key theorems: `exists_splits`, `Line.read_of_splits`, `Line.read_plainText`,
`Line.read_cases`, `Line.exists_splits_of_read`, `Line.Has.endsOpen_front`,
`Line.quoteless_of_ofLine`.
-/
import Mos6502.Proofs.Assembler.Code
import Mos6502.Proofs.Assembler.Layout

namespace Mos6502

namespace Text

/-- The text is a word. -/
structure IsWord (text : List Char) : Prop where
  ne_nil : text ≠ []
  solid : ∀ c ∈ text, isBlank c = false

instance (text : List Char) : Decidable (IsWord text) :=
  decidable_of_iff (text ≠ [] ∧ text.all (fun c => !isBlank c) = true) <| by
    simp only [List.all_eq_true, Bool.not_eq_true']
    exact ⟨fun ⟨hne, hsolid⟩ => ⟨hne, hsolid⟩, fun hword => ⟨hword.ne_nil, hword.solid⟩⟩

/-- No word goes on at the start of the text. -/
def StartsBlank (text : List Char) : Prop := ∀ c ∈ text.head?, isBlank c = true

theorem startsBlank_nil : StartsBlank [] := nofun

theorem IsGap.startsBlank {gap : List Char} (h : IsGap gap) : StartsBlank gap := fun c hc =>
  h c (List.mem_of_mem_head? hc)

theorem StartsBlank.append {first second : List Char} (h : StartsBlank first) (hne : first ≠ []) :
    StartsBlank (first ++ second) := by
  intro c hc
  rw [List.head?_append_of_ne_nil first hne] at hc
  exact h c hc

theorem StartsBlank.of_prefix {text start : List Char} (h : StartsBlank text)
    (hinit : start <+: text) : StartsBlank start := by
  obtain ⟨rest, rfl⟩ := hinit
  intro c hc
  exact h c (List.mem_head?_append_of_mem_head? hc)

theorem trimStart_append_of_isGap {gap : List Char} (h : IsGap gap) (text : List Char) :
    trimStart (gap ++ text) = trimStart text := List.dropWhile_append_of_pos h

theorem trimStart_append_of_isWord {word : List Char} (h : IsWord word) (text : List Char) :
    trimStart (word ++ text) = word ++ text := by
  obtain ⟨c, rest, rfl⟩ := List.exists_cons_of_ne_nil h.ne_nil
  exact trimStart_cons_of_not_blank (h.solid c List.mem_cons_self) _

theorem trimEnd_of_isGap {gap : List Char} (h : IsGap gap) : trimEnd gap = [] := by
  rw [trimEnd, List.dropWhile_eq_nil_iff.mpr fun c hc => h c (List.mem_reverse.mp hc)]
  rfl

theorem trimEnd_append_of_isWord (first : List Char) {word : List Char} (h : IsWord word)
    (rest : List Char) :
    trimEnd (first ++ word ++ rest) = first ++ word ++ trimEnd rest := by
  have hword := @trimEnd_append first word h.ne_nil h.solid
  unfold trimEnd at hword ⊢
  rw [List.reverse_append, List.dropWhile_append]
  split
  · rename_i hempty
    rw [List.isEmpty_iff.mp hempty, hword, List.reverse_nil, List.append_nil]
  · rw [List.reverse_append, List.reverse_reverse]

theorem trimEnd_append_of_isGap (text : List Char) {gap : List Char} (h : IsGap gap) :
    trimEnd (text ++ gap) = trimEnd text := by
  rw [trimEnd, List.reverse_append,
    List.dropWhile_append_of_pos fun c hc => h c (List.mem_reverse.mp hc), ← trimEnd]

theorem StartsBlank.trimEnd {text : List Char} (h : StartsBlank text) :
    StartsBlank (trimEnd text) := by
  obtain ⟨gap, -, heq⟩ := exists_trimEnd text
  exact h.of_prefix ⟨gap, heq.symm⟩

/-- A word ends where a blank or nothing follows. -/
theorem nextWord_eq {gap word rest : List Char} (hgap : IsGap gap) (hword : IsWord word)
    (hrest : StartsBlank rest) : nextWord (gap ++ word ++ rest) = (word, rest) := by
  have hstart : trimStart (gap ++ word ++ rest) = word ++ rest := by
    rw [List.append_assoc, trimStart_append_of_isGap hgap, trimStart_append_of_isWord hword]
  have hsolid : ∀ c ∈ word, (!isBlank c) = true := fun c hc => by rw [hword.solid c hc]; rfl
  have hstop : rest.takeWhile (fun c => !isBlank c) = [] ∧
      rest.dropWhile (fun c => !isBlank c) = rest := by
    cases rest with
    | nil => exact ⟨rfl, rfl⟩
    | cons c rest =>
      have hc : ¬(!isBlank c) = true := by
        rw [hrest c rfl]
        decide
      exact ⟨List.takeWhile_cons_of_neg hc, List.dropWhile_cons_of_neg hc⟩
  rw [nextWord, hstart, List.takeWhile_append_of_pos hsolid, List.dropWhile_append_of_pos hsolid,
    hstop.1, hstop.2, List.append_nil]

/-- What is dropped ends where the test fails. -/
theorem not_of_mem_head?_dropWhile (p : Char → Bool) (text : List Char) :
    ∀ c ∈ (text.dropWhile p).head?, p c = false := by
  intro c hc
  have hhead := List.head?_dropWhile_not p text
  rwa [Option.mem_def.mp hc] at hhead

theorem exists_word (text : List Char) :
    IsGap text ∨ ∃ gap word rest, text = gap ++ word ++ rest ∧ IsGap gap ∧ IsWord word ∧
      StartsBlank rest := by
  have hhead := not_of_mem_head?_dropWhile isBlank text
  have hrest := not_of_mem_head?_dropWhile (fun c => !isBlank c) (text.dropWhile isBlank)
  have hgap : IsGap (text.takeWhile isBlank) := fun c hc => List.mem_takeWhile_imp hc
  have hsolid : ∀ c ∈ (text.dropWhile isBlank).takeWhile (fun c => !isBlank c),
      isBlank c = false := fun c hc =>
    (Bool.not_eq_true' _).mp (List.mem_takeWhile_imp (p := fun c => !isBlank c) hc)
  cases hdrop : text.dropWhile isBlank with
  | nil => exact .inl (List.dropWhile_eq_nil_iff.mp hdrop)
  | cons c tail =>
    have hne : (text.dropWhile isBlank).takeWhile (fun c => !isBlank c) ≠ [] := by
      have hc : (!isBlank c) = true := by
        rw [hhead c (by rw [hdrop]; rfl)]
        rfl
      rw [hdrop, List.takeWhile_cons_of_pos (p := fun c => !isBlank c) hc]
      exact List.cons_ne_nil c _
    refine .inr ⟨_, _, _, ?_, hgap, ⟨hne, hsolid⟩,
      fun d hd => (Bool.not_eq_false' _).mp (hrest d hd)⟩
    rw [List.append_assoc, List.takeWhile_append_dropWhile, List.takeWhile_append_dropWhile]

end Text

namespace Assembler

open Text

/-! ### Parts -/

/-- The start of a line: its label, its operation or both. -/
inductive Front : List Char → Option (List Char) → Option (List Char) → Prop
  | label {gap label : List Char} (hgap : IsGap gap) (hlabel : IsWord label)
      (hname : isOperation label = false) : Front (gap ++ label) (some label) none
  | operation {gap word : List Char} (hgap : IsGap gap) (hword : IsWord word)
      (hname : isOperation word = true) : Front (gap ++ word) none (some word)
  | labelled {gap label between word : List Char} (hgap : IsGap gap) (hlabel : IsWord label)
      (hname : isOperation label = false) (hbetween : IsGap between) (hne : between ≠ [])
      (hword : IsWord word) : Front (gap ++ label ++ (between ++ word)) (some label) (some word)

/-- The code of a line is a front with an operand behind it. -/
structure Splits (code front : List Char) (label operation : Option (List Char))
    (operand : List Char) : Prop where
  code_eq : code = front ++ operand
  front : Front front label operation
  startsBlank : StartsBlank operand
  /-- Without an operation there is no operand. -/
  isGap_of_none : operation = none → IsGap operand

/-- **Code that is not blank has parts.** -/
theorem exists_splits (code : List Char) :
    IsGap code ∨ ∃ front label operation operand, Splits code front label operation operand := by
  rcases exists_word code with hgap | ⟨gap, first, rest, rfl, hgap, hfirst, hrest⟩
  · exact .inl hgap
  refine .inr ?_
  cases hname : isOperation first with
  | true => exact ⟨_, _, _, rest, rfl, .operation hgap hfirst hname, hrest, nofun⟩
  | false =>
    rcases exists_word rest with
      hblank | ⟨between, second, operand, rfl, hbetween, hsecond, hoperand⟩
    · exact ⟨_, _, _, rest, rfl, .label hgap hfirst hname, hrest, fun _ => hblank⟩
    · have hne : between ≠ [] := by
        rintro rfl
        obtain ⟨c, second, rfl⟩ := List.exists_cons_of_ne_nil hsecond.ne_nil
        have hblank := hrest c rfl
        rw [hsecond.solid c List.mem_cons_self] at hblank
        cases hblank
      refine ⟨_, _, _, operand, ?_, .labelled hgap hfirst hname hbetween hne hsecond, hoperand,
        nofun⟩
      simp only [List.append_assoc]

/-- The name that a label gives. -/
def labelName (label : List Char) : String := String.ofList (upper (dropColons label))

/-- The name that an operation gives. -/
def operationName (operation : List Char) : String := String.ofList (upper operation)

namespace Line

/-- The fields of a line are those that its parts give. -/
structure Has (line : Line) (label operation : Option (List Char)) (operand : List Char) :
    Prop where
  label_eq : line.label = label.map labelName
  operation_eq : line.operation = operation.map operationName
  operand_eq : line.operand = compact (trimEnd operand)

theorem words_label {label : List Char} (hlabel : IsWord label)
    (hname : isOperation label = false) :
    words label = (some (dropColons label), none, []) := by
  have hfirst := @nextWord_eq [] label [] nofun hlabel startsBlank_nil
  rw [List.nil_append, List.append_nil] at hfirst
  simp only [words, hfirst, hname]
  rfl

theorem words_operation {word operand : List Char} (hword : IsWord word)
    (hname : isOperation word = true) (hoperand : StartsBlank operand) :
    words (word ++ operand) = (none, some word, operand) := by
  have hfirst := @nextWord_eq [] word operand nofun hword hoperand
  rw [List.nil_append] at hfirst
  simp only [words, hfirst, hname, if_true]

theorem words_labelled {label between word operand : List Char} (hlabel : IsWord label)
    (hname : isOperation label = false) (hbetween : IsGap between) (hne : between ≠ [])
    (hword : IsWord word) (hoperand : StartsBlank operand) :
    words (label ++ (between ++ word ++ operand)) =
      (some (dropColons label), some word, operand) := by
  have hstart : StartsBlank (between ++ word ++ operand) := by
    rw [List.append_assoc]
    exact hbetween.startsBlank.append hne
  have hfirst := @nextWord_eq [] label _ nofun hlabel hstart
  rw [List.nil_append] at hfirst
  simp only [words, hfirst, hname, nextWord_eq hbetween hword hoperand, Bool.false_eq_true, if_false,
    if_neg hword.ne_nil]

/-- Without blanks at its ends, code gives the fields of its parts. -/
theorem words_trim {code front operand : List Char} {label operation : Option (List Char)}
    (h : Splits code front label operation operand) :
    trim code ≠ [] ∧
      words (trim code) = (label.map dropColons, operation, trimEnd operand) := by
  obtain ⟨rfl, hfront, hstart, hgap⟩ := h
  cases hfront with
  | @label gap label hlead hlabel hname =>
    have htrim : trim (gap ++ label ++ operand) = label := by
      have hend := trimEnd_append_of_isWord [] hlabel operand
      rw [List.nil_append, trimEnd_of_isGap (hgap rfl), List.append_nil] at hend
      rw [trim, List.append_assoc, trimStart_append_of_isGap hlead, trimStart_append_of_isWord hlabel,
        hend]
    rw [htrim, words_label hlabel hname, trimEnd_of_isGap (hgap rfl)]
    exact ⟨hlabel.ne_nil, rfl⟩
  | @operation gap word hlead hword hname =>
    have htrim : trim (gap ++ word ++ operand) = word ++ trimEnd operand := by
      have hend := trimEnd_append_of_isWord [] hword operand
      rw [List.nil_append] at hend
      rw [trim, List.append_assoc, trimStart_append_of_isGap hlead, trimStart_append_of_isWord hword,
        hend]
    rw [htrim, words_operation hword hname hstart.trimEnd]
    exact ⟨List.append_ne_nil_of_left_ne_nil hword.ne_nil _, rfl⟩
  | @labelled gap label between word hlead hlabel hname hbetween hne hword =>
    have htrim : trim (gap ++ label ++ (between ++ word) ++ operand) =
        label ++ (between ++ word ++ trimEnd operand) := by
      have hend := trimEnd_append_of_isWord (label ++ between) hword operand
      rw [trim, List.append_assoc, List.append_assoc, trimStart_append_of_isGap hlead,
        trimStart_append_of_isWord hlabel]
      simpa only [List.append_assoc] using hend
    rw [htrim, words_labelled hlabel hname hbetween hne hword hstart.trimEnd]
    exact ⟨List.append_ne_nil_of_left_ne_nil hlabel.ne_nil _, rfl⟩

/-- **A line is read as the parts of its code.** -/
theorem read_of_splits {text code front operand : List Char} {label operation : Option (List Char)}
    (hcode : uncomment text = .ok code) (h : Splits code front label operation operand) :
    ∃ line, read text = .ok (some line) ∧ line.Has label operation operand := by
  obtain ⟨hne, hwords⟩ := words_trim h
  simp only [read, hcode, if_neg hne, hwords]
  exact ⟨_, rfl, by rw [Option.map_map]; rfl, rfl, rfl⟩

/-- **A line of an operation and an operand is read as these two.** -/
theorem read_plainText {operation operand : List Char} (hword : IsWord operation)
    (hname : isOperation operation = true) (hoperation : IsCode operation)
    (hoperand : IsCode operand) :
    ∃ line, read (plainText operation operand) = .ok (some line) ∧ line.label = none ∧
      line.operation = some (operationName operation) ∧ line.operand = compact operand := by
  have hspace : IsGap [' '] := List.forall_mem_singleton.mpr (by decide)
  have hblank : IsCode (' ' :: operand) := (isCode_of_isGap hspace).append hoperand
  have hsplits : Splits (plainText operation operand) ([' '] ++ operation) none (some operation)
      (' ' :: operand) := by
    refine ⟨?_, .operation hspace hword hname, ?_, nofun⟩
    · rw [List.append_assoc]
      rfl
    · exact hspace.startsBlank.append (List.cons_ne_nil _ _)
  have hcode : IsCode (plainText operation operand) :=
    (isCode_of_isGap hspace).append (hoperation.append hblank)
  obtain ⟨line, hread, hline⟩ := read_of_splits hcode.uncomment_eq hsplits
  refine ⟨line, hread, hline.label_eq, hline.operation_eq, ?_⟩
  rw [hline.operand_eq, compact_trimEnd hblank.endsOpen_eq,
    compact_cons_of_blank (by decide) (by decide)]

theorem read_of_isGap {text code : List Char} (hcode : uncomment text = .ok code)
    (h : IsGap code) : read text = .ok none := by
  have htrim : trim code = [] := by
    rw [trim, trimStart, List.dropWhile_eq_nil_iff.mpr h]
    rfl
  simp only [read, hcode, htrim, if_true]

theorem read_of_endsOpen {text : List Char} (h : endsOpen (codeFrom false text) = true) :
    read text = .error .unterminatedQuote := by
  have hcode := uncomment_eq text
  rw [if_pos h] at hcode
  simp only [read, hcode]

/-- **How a line can be read**: not at all, as nothing, or as the parts of its code. -/
theorem read_cases (text : List Char) :
    (uncomment text = .error .unterminatedQuote ∧ read text = .error .unterminatedQuote) ∨
    ∃ code, uncomment text = .ok code ∧
      (IsGap code ∧ read text = .ok none ∨
        ∃ front label operation operand line, Splits code front label operation operand ∧
          read text = .ok (some line) ∧ line.Has label operation operand) := by
  cases hcode : uncomment text with
  | error error =>
    cases error
    refine .inl ⟨rfl, ?_⟩
    simp only [read, hcode]
  | ok code =>
    refine .inr ⟨code, rfl, ?_⟩
    rcases exists_splits code with hgap | ⟨front, label, operation, operand, hsplits⟩
    · exact .inl ⟨hgap, read_of_isGap hcode hgap⟩
    · obtain ⟨line, hline⟩ := read_of_splits hcode hsplits
      exact .inr ⟨front, label, operation, operand, line, hsplits, hline⟩

theorem exists_splits_of_read {text : List Char} {line : Line} (h : read text = .ok (some line)) :
    ∃ code front label operation operand, uncomment text = .ok code ∧
      Splits code front label operation operand ∧ line.Has label operation operand := by
  rcases read_cases text with ⟨-, hfailed⟩ | ⟨code, hcode, ⟨-, hblank⟩ |
    ⟨front, label, operation, operand, found, hsplits, hsome, hline⟩⟩
  · rw [h] at hfailed
    cases hfailed
  · rw [h] at hblank
    cases hblank
  · rw [h] at hsome
    cases hsome
    exact ⟨code, front, label, operation, operand, hcode, hsplits, hline⟩

/-- A line that was read has a label or an operation. -/
theorem label_or_operation {text : List Char} {line : Line} (h : read text = .ok (some line)) :
    line.label.isSome = true ∨ line.operation.isSome = true := by
  obtain ⟨_, _, _, _, _, -, hsplits, hline⟩ := exists_splits_of_read h
  rw [hline.label_eq, hline.operation_eq, Option.isSome_map, Option.isSome_map]
  cases hsplits.front with
  | label | labelled => exact .inl rfl
  | operation => exact .inr rfl

/-- Neither the label nor the operation of the line has a quote mark. -/
structure Quoteless (line : Line) : Prop where
  label : ∀ name ∈ line.label, quote ∉ name.toList
  operation : ∀ name ∈ line.operation, quote ∉ name.toList

end Line

theorem quote_mem_upper {text : List Char} : quote ∈ upper text ↔ quote ∈ text := by
  rw [upper, List.mem_map]
  constructor
  · rintro ⟨c, hc, heq⟩
    rwa [← eq_of_toUpper_eq heq (by decide)]
  · exact fun h => ⟨quote, h, rfl⟩

theorem exists_dropColons (label : List Char) :
    ∃ colons, (∀ c ∈ colons, c = ':') ∧ label = dropColons label ++ colons := by
  refine ⟨(label.reverse.takeWhile (· == ':')).reverse, fun c hc => ?_, ?_⟩
  · exact beq_iff_eq.mp (List.mem_takeWhile_imp (p := (· == ':')) (List.mem_reverse.mp hc))
  · rw [dropColons, ← List.reverse_append, List.takeWhile_append_dropWhile, List.reverse_reverse]

theorem quote_mem_dropColons {label : List Char} : quote ∈ dropColons label ↔ quote ∈ label := by
  obtain ⟨colons, hcolons, heq⟩ := exists_dropColons label
  have hquote : quote ∉ colons := fun hmem => absurd (hcolons quote hmem) (by decide)
  conv => rhs; rw [heq, List.mem_append, or_iff_left hquote]

theorem Front.endsOpen_eq {front : List Char} {label operation : Option (List Char)}
    (h : Front front label operation) (hlabel : ∀ word ∈ label, quote ∉ word)
    (hoperation : ∀ word ∈ operation, quote ∉ word) : endsOpen front = false := by
  cases h with
  | label hgap _ _ =>
    rw [endsOpen_append, hgap.endsOpen, endsOpen_of_notMem (hlabel _ rfl)]
    rfl
  | operation hgap _ _ =>
    rw [endsOpen_append, hgap.endsOpen, endsOpen_of_notMem (hoperation _ rfl)]
    rfl
  | labelled hgap _ _ hbetween _ _ =>
    rw [endsOpen_append, endsOpen_append, endsOpen_append, hgap.endsOpen, hbetween.endsOpen,
      endsOpen_of_notMem (hlabel _ rfl), endsOpen_of_notMem (hoperation _ rfl)]
    rfl

/-- Without quote marks in label and operation, no quotation is open before the operand. -/
theorem Line.Has.endsOpen_front {line : Line} {front operand : List Char}
    {label operation : Option (List Char)} (h : line.Has label operation operand)
    (hfront : Front front label operation) (hquoteless : line.Quoteless) :
    endsOpen front = false := by
  refine hfront.endsOpen_eq (fun word hword hmem => ?_) (fun word hword hmem => ?_)
  · refine hquoteless.label (labelName word) ?_ ?_
    · rw [h.label_eq, Option.mem_def.mp hword]
      rfl
    · rw [labelName, String.toList_ofList, quote_mem_upper, quote_mem_dropColons]
      exact hmem
  · refine hquoteless.operation (operationName word) ?_ ?_
    · rw [h.operation_eq, Option.mem_def.mp hword]
      rfl
    · rw [operationName, String.toList_ofList, quote_mem_upper]
      exact hmem

/-! ### Lines that ask for something -/

theorem continuesName_iff_beginsName {c : Char} :
    continuesName c = true ↔ beginsName c = true ∨ ('0' ≤ c ∧ c ≤ '9') := by
  simp only [continuesName, beginsName, Char.isAlphanum, Char.isDigit, Bool.or_eq_true,
    Bool.and_eq_true, decide_eq_true_eq, beq_iff_eq]
  rw [or_right_comm]
  rfl

theorem continuesName_of_isSymbolName {name : List Char} (h : isSymbolName name = true) :
    ∀ c ∈ name, continuesName c = true := by
  cases name with
  | nil => exact List.forall_mem_nil _
  | cons first rest =>
    rw [isSymbolName, Bool.and_eq_true, List.all_eq_true] at h
    exact List.forall_mem_cons.mpr ⟨continuesName_iff_beginsName.mpr (.inl h.1), h.2⟩

theorem quote_notMem_of_isSymbolName {name : List Char} (h : isSymbolName name = true) :
    quote ∉ name := fun hmem =>
  absurd (continuesName_of_isSymbolName h quote hmem) (by decide)

theorem letters_of_read? {name : List Char} {m : Mnemonic} (h : Mnemonic.read? name = some m) :
    m.letters = upper name :=
  eq_of_beq (List.find?_some (p := fun m : Mnemonic => m.letters == upper name) h)

theorem quote_notMem_of_mnemonic {name : List Char} {m : Mnemonic}
    (h : Mnemonic.read? name = some m) : quote ∉ name := by
  rw [← quote_mem_upper, ← letters_of_read? h]
  cases m <;> decide

theorem Directive.quote_notMem {symbols : SymbolTable} {hasLabel : Bool} {name : String}
    {operand : List Char} {directive : Directive}
    (h : Directive.read symbols hasLabel name operand = .ok directive) : quote ∉ name.toList := by
  unfold Directive.read at h
  split at h
  case h_6 => cases h
  all_goals decide

/-- A line that asks for something has no quote mark before its operand. -/
theorem Line.quoteless_of_ofLine {line : Line} {symbols : SymbolTable} {body : Body}
    (hnamed : line.Named) (h : Body.ofLine symbols line = .ok body) : line.Quoteless := by
  refine ⟨fun name hname => ?_, fun name hname => ?_⟩
  · exact quote_notMem_of_isSymbolName (validateLabel_eq_ok (hnamed name hname)).1
  · rw [Option.mem_def] at hname
    simp only [Body.ofLine, hname] at h
    split at h
    · obtain ⟨directive, hdirective, -⟩ := Result.bind_eq_ok.mp h
      exact Directive.quote_notMem hdirective
    · unfold Body.readInstruction at h
      split at h
      · cases h
      · rename_i m hmnemonic
        exact quote_notMem_of_mnemonic hmnemonic

end Assembler
end Mos6502
