/-
# Spelling does not matter

A source may be spelled in other ways (`Edit`): outside quotations a letter can have
either case, blanks can be put into an operand, and a line can have any comment or
none; and there can be further lines with nothing but blanks and a comment. A line
spelled in another way gives the same fields (`LineEdit.readsAlike`), unless there is
a quote mark in its label or operation, when it is not accepted. So an accepted source
is accepted in every spelling, with the same image, the same symbols and the same
warnings (`spelling_does_not_matter`).

Key definitions: `LineEdit`, `Edit`, `Respelled`, `ReadsAlike`, `Program.SameResult`.
Key theorems: `ReadsAlike.of_splits`, `LineEdit.readsAlike`, `readsAs_of_readsAlike`,
`StandsBeside.carries`, `spelling_does_not_matter`.
-/
import Mos6502.Proofs.Assembler.Case
import Mos6502.Proofs.Assembler.SideBySide
import Mathlib.Logic.Relation

namespace Mos6502
namespace Assembler

open Text

/-! ### Other spellings -/

/-- A line is spelled in another way. -/
inductive LineEdit : List Char → List Char → Prop
  /-- A character outside quotations gets the other case. -/
  | recase {before after : List Char} {c d : Char} (hcase : c.toUpper = d.toUpper)
      (hclosed : endsOpen before = false) : LineEdit (before ++ c :: after) (before ++ d :: after)
  /-- A blank is put somewhere behind the operation, outside quotations. -/
  | space {front before after operation : List Char} {label : Option (List Char)} {blank : Char}
      (hfront : Front front label (some operation)) (hclosed : endsOpen (front ++ before) = false)
      (hblank : isBlank blank = true) (hstart : StartsBlank (before ++ after))
      (hnext : StartsBlank (before ++ blank :: after)) :
      LineEdit (front ++ (before ++ after)) (front ++ (before ++ blank :: after))
  /-- A comment is put behind the line, with blanks before it. -/
  | comment {code gap comment : List Char} (hclosed : endsOpen code = false) (hgap : IsGap gap) :
      LineEdit code (code ++ (gap ++ ';' :: comment))

/-- A line has nothing but blanks and perhaps a comment. -/
inductive IsVoid : List Char → Prop
  | blank {gap : List Char} (hgap : IsGap gap) : IsVoid gap
  | comment {gap comment : List Char} (hgap : IsGap gap) : IsVoid (gap ++ ';' :: comment)

/-- The lines of a source are spelled in another way: one line is, or there is a further
one that has nothing. -/
inductive Edit : List (List Char) → List (List Char) → Prop
  | line {before after : List (List Char)} {text other : List Char} (h : LineEdit text other) :
      Edit (before ++ text :: after) (before ++ other :: after)
  | insert {before after : List (List Char)} {text : List Char} (h : IsVoid text) :
      Edit (before ++ after) (before ++ text :: after)

/-- A source arises from another one by edits, each made or undone. -/
def Respelled (source respelled : String) : Prop :=
  Relation.EqvGen Edit (lines source.toList) (lines respelled.toList)

/-- Programs with the same image, the same symbols and the same warnings. -/
structure Program.SameResult (program other : Program) : Prop where
  image_eq : other.image = program.image
  symbols_eq : other.symbols.map (fun symbol => (symbol.name, symbol.value, symbol.zeroPage)) =
    program.symbols.map fun symbol => (symbol.name, symbol.value, symbol.zeroPage)
  warnings_eq : other.warnings.map Warning.message = program.warnings.map Warning.message

/-! ### Lines that are read alike -/

/-- Two texts are read alike: both not, both as nothing, or both as fields. The operands
have to be the same where nothing before them is quoted. -/
inductive ReadsAlike (text other : List Char) : Prop
  | failed {error otherError : LineError} (hread : Line.read text = .error error)
      (hother : Line.read other = .error otherError)
  | blank (hread : Line.read text = .ok none) (hother : Line.read other = .ok none)
  | filled {line otherLine : Line} (hread : Line.read text = .ok (some line))
      (hother : Line.read other = .ok (some otherLine)) (hlabel : otherLine.label = line.label)
      (hoperation : otherLine.operation = line.operation)
      (hoperand : line.Quoteless → otherLine.operand = line.operand)

namespace ReadsAlike

variable {text other : List Char}

theorem symm (h : ReadsAlike text other) : ReadsAlike other text := by
  cases h with
  | failed hread hother => exact .failed hother hread
  | blank hread hother => exact .blank hother hread
  | filled hread hother hlabel hoperation hoperand =>
    refine .filled hother hread hlabel.symm hoperation.symm fun hquoteless => (hoperand ?_).symm
    exact ⟨hlabel ▸ hquoteless.label, hoperation ▸ hquoteless.operation⟩

theorem of_uncomment_eq (h : uncomment text = uncomment other) : ReadsAlike text other := by
  have hread : Line.read text = Line.read other := by
    rw [Line.read, h]
    rfl
  cases hother : Line.read other with
  | error error => exact .failed (hread.trans hother) hother
  | ok fields =>
    cases fields with
    | none => exact .blank (hread.trans hother) hother
    | some line => exact .filled (hread.trans hother) hother rfl rfl fun _ => rfl

/-- **Texts whose codes have parts that give the same fields** are read alike. -/
theorem of_splits {code otherCode front otherFront operand otherOperand : List Char}
    {label otherLabel operation otherOperation : Option (List Char)}
    (hcode : uncomment text = .ok code) (hsplits : Splits code front label operation operand)
    (hotherCode : uncomment other = .ok otherCode)
    (hotherSplits : Splits otherCode otherFront otherLabel otherOperation otherOperand)
    (hlabel : otherLabel.map labelName = label.map labelName)
    (hoperation : otherOperation.map operationName = operation.map operationName)
    (hoperand : endsOpen front = false →
      compact (trimEnd otherOperand) = compact (trimEnd operand)) : ReadsAlike text other := by
  obtain ⟨line, hread, hline⟩ := Line.read_of_splits hcode hsplits
  obtain ⟨otherLine, hother, hotherLine⟩ := Line.read_of_splits hotherCode hotherSplits
  refine .filled hread hother ?_ ?_ fun hquoteless => ?_
  · rw [hline.label_eq, hotherLine.label_eq, hlabel]
  · rw [hline.operation_eq, hotherLine.operation_eq, hoperation]
  · rw [hline.operand_eq, hotherLine.operand_eq]
    exact hoperand (hline.endsOpen_front hsplits.front hquoteless)

end ReadsAlike

/-- What is read alike can be read, whatever the symbols are. -/
theorem readsAs_of_readsAlike {text other : List Char} (h : ReadsAlike text other) :
    ReadsAs (fun _ => True) text other := by
  refine ⟨fun hblank => ?_, fun {symbols line body} _ hline hnamed hbody => ?_⟩
  · cases h with
    | failed hread _ =>
      rw [hread] at hblank
      cases hblank
    | blank _ hother => exact hother
    | filled hread _ _ _ _ =>
      rw [hread] at hblank
      cases hblank
  · cases h with
    | failed hread _ =>
      rw [hread] at hline
      cases hline
    | blank hread _ =>
      rw [hread] at hline
      cases hline
    | filled hread hother hlabel hoperation hoperand =>
      rw [hread] at hline
      cases hline
      have hsame := hoperand (Line.quoteless_of_ofLine hnamed hbody)
      refine ⟨_, body, hother, hlabel, ?_, Body.Agrees.refl body⟩
      rw [Body.ofLine_congr rfl hlabel hoperation hsame]
      exact hbody

/-! ### Comments and blanks -/

theorem readsAlike_comment {code gap : List Char} (hclosed : endsOpen code = false)
    (hgap : IsGap gap) (comment : List Char) :
    ReadsAlike code (code ++ (gap ++ ';' :: comment)) := by
  cases hcomment : hasComment false code with
  | true => exact .of_uncomment_eq (uncomment_append_of_hasComment hcomment _).symm
  | false =>
    have hcode : IsCode code := ⟨hcomment, hclosed⟩
    have hread := hcode.uncomment_eq
    have hother : uncomment (code ++ (gap ++ ';' :: comment)) = .ok (code ++ gap) := by
      rw [← List.append_assoc]
      exact (hcode.append (isCode_of_isGap hgap)).uncomment_append (.inr rfl)
    rcases exists_splits code with hblank | ⟨front, label, operation, operand, hsplits⟩
    · refine .blank (Line.read_of_isGap hread hblank) (Line.read_of_isGap hother ?_)
      exact fun c hc => (List.mem_append.mp hc).elim (hblank c) (hgap c)
    · have hstart : StartsBlank (operand ++ gap) := by
        by_cases hne : operand = []
        · rw [hne]
          exact hgap.startsBlank
        · exact hsplits.startsBlank.append hne
      have hotherSplits : Splits (code ++ gap) front label operation (operand ++ gap) := by
        refine ⟨?_, hsplits.front, hstart, fun hnone c hc => ?_⟩
        · rw [hsplits.code_eq, List.append_assoc]
        · exact (List.mem_append.mp hc).elim (hsplits.isGap_of_none hnone c) (hgap c)
      refine .of_splits hread hsplits hother hotherSplits rfl rfl fun _ => ?_
      rw [trimEnd_append_of_isGap operand hgap]

/-- A blank in an operand is not read. -/
theorem readsAlike_space {front before after operation : List Char} {label : Option (List Char)}
    {blank : Char} (hfront : Front front label (some operation))
    (hclosed : endsOpen (front ++ before) = false) (hblank : isBlank blank = true)
    (hstart : StartsBlank (before ++ after)) (hnext : StartsBlank (before ++ blank :: after)) :
    ReadsAlike (front ++ (before ++ after)) (front ++ (before ++ blank :: after)) := by
  rw [← List.append_assoc, ← List.append_assoc]
  cases hcomment : hasComment false (front ++ before) with
  | true =>
    refine .of_uncomment_eq ?_
    rw [uncomment_append_of_hasComment hcomment, uncomment_append_of_hasComment hcomment]
  | false =>
    have hcode : IsCode (front ++ before) := ⟨hcomment, hclosed⟩
    have hblankCode : codeFrom false (blank :: after) = blank :: codeFrom false after :=
      (isCode_of_isGap (List.forall_mem_singleton.mpr hblank)).codeFrom_append after
    have hread := hcode.codeFrom_append after
    have hother := hcode.codeFrom_append (blank :: after)
    have hquote := ne_quote_of_isBlank hblank
    have hends : endsOpen (blank :: codeFrom false after) = endsOpen (codeFrom false after) := by
      rw [endsOpen_cons, beq_false_of_ne hquote, Bool.false_bne]
    rw [hblankCode] at hother
    cases hopen : endsOpen (codeFrom false after) with
    | true =>
      refine .failed (Line.read_of_endsOpen ?_) (Line.read_of_endsOpen ?_)
      · rw [hread, endsOpen_append, hclosed, hopen]
        rfl
      · rw [hother, endsOpen_append, hclosed, hends, hopen]
        rfl
    | false =>
      have hinit := codeFrom_prefix false after
      have hsplits : Splits (front ++ before ++ codeFrom false after) front label (some operation)
          (before ++ codeFrom false after) :=
        ⟨List.append_assoc _ _ _, hfront,
          hstart.of_prefix ((List.prefix_append_right_inj before).mpr hinit), nofun⟩
      have hotherSplits : Splits (front ++ before ++ blank :: codeFrom false after) front label
          (some operation) (before ++ blank :: codeFrom false after) :=
        ⟨List.append_assoc _ _ _, hfront, hnext.of_prefix ((List.prefix_append_right_inj before).mpr
          (List.cons_prefix_cons.mpr ⟨rfl, hinit⟩)), nofun⟩
      have hendsOpen : ∀ rest, endsOpen rest = false → endsOpen (front ++ before ++ rest) = false :=
        fun rest hrest => by rw [endsOpen_append, hclosed, hrest]; rfl
      refine .of_splits (uncomment_eq_ok_iff.mpr ⟨hread, hendsOpen _ hopen⟩) hsplits
        (uncomment_eq_ok_iff.mpr ⟨hother, hendsOpen _ (hends.trans hopen)⟩) hotherSplits rfl rfl
        fun hclosedFront => ?_
      rw [endsOpen_append, hclosedFront, Bool.false_bne] at hclosed
      have hoperand : ∀ rest, endsOpen rest = false →
          compact (trimEnd (before ++ rest)) = compact before ++ compact rest := by
        intro rest hrest
        rw [compact_trimEnd (by rw [endsOpen_append, hclosed, hrest]; rfl), compact_append hclosed]
      rw [hoperand _ hopen, hoperand _ (hends.trans hopen), compact_cons_of_blank hblank hquote]

/-! ### Case -/

/-- **In another case outside quotations**, a text is read alike. -/
theorem readsAlike_of_upperFrom_eq {text other : List Char}
    (h : upperFrom false other = upperFrom false text) : ReadsAlike text other := by
  have hcode : upperFrom false (codeFrom false other) = upperFrom false (codeFrom false text) := by
    rw [← codeFrom_upperFrom, h, codeFrom_upperFrom]
  have hends : endsOpen (codeFrom false other) = endsOpen (codeFrom false text) := by
    rw [← endsOpen_upperFrom false, hcode, endsOpen_upperFrom]
  cases hopen : endsOpen (codeFrom false text) with
  | true => exact .failed (Line.read_of_endsOpen hopen) (Line.read_of_endsOpen (hends.trans hopen))
  | false =>
    have hread := uncomment_eq_ok_iff.mpr ⟨rfl, hopen⟩
    have hother := uncomment_eq_ok_iff.mpr ⟨rfl, hends.trans hopen⟩
    rcases exists_splits (codeFrom false text) with
      hblank | ⟨front, label, operation, operand, hsplits⟩
    · have hupper : upper (codeFrom false other) = upper (codeFrom false text) := by
        rw [← upper_upperFrom false, hcode, upper_upperFrom]
      exact .blank (Line.read_of_isGap hread hblank)
        (Line.read_of_isGap hother (isGap_of_upper_eq hupper hblank))
    · rw [hsplits.code_eq] at hcode
      obtain ⟨otherFront, otherOperand, hotherCode, hfront, hoperand⟩ :=
        exists_append_of_upperFrom_eq hcode
      have hupper : upper otherOperand = upper operand := by
        rw [← upper_upperFrom, hoperand, upper_upperFrom]
      obtain ⟨otherLabel, otherOperation, hotherFront, hlabel, hoperation⟩ :=
        hsplits.front.of_upper_eq hfront
      have hotherSplits : Splits (codeFrom false other) otherFront otherLabel otherOperation
          otherOperand := by
        refine ⟨hotherCode, hotherFront, startsBlank_of_upper_eq hupper hsplits.startsBlank,
          fun hnone => isGap_of_upper_eq hupper (hsplits.isGap_of_none ?_)⟩
        rw [hnone, Option.map_none] at hoperation
        exact Option.map_eq_none_iff.mp hoperation.symm
      refine .of_splits hread hsplits hother hotherSplits hlabel hoperation fun hclosed => ?_
      rw [hclosed] at hoperand
      have hclosedOperand : endsOpen operand = false := by
        rwa [hsplits.code_eq, endsOpen_append, hclosed, Bool.false_bne] at hopen
      have hotherClosed : endsOpen otherOperand = false := by
        rw [← endsOpen_upperFrom (false != false), hoperand, endsOpen_upperFrom, hclosedOperand]
      rw [compact_trimEnd hclosedOperand, compact_trimEnd hotherClosed, compact_eq, compact_eq,
        ← compactFrom_upperFrom, ← compactFrom_upperFrom false operand]
      exact congrArg _ hoperand

/-- **A line spelled in another way** is read alike. -/
theorem LineEdit.readsAlike {text other : List Char} (h : LineEdit text other) :
    ReadsAlike text other := by
  cases h with
  | @recase before after c d hcase hclosed =>
    refine readsAlike_of_upperFrom_eq ?_
    have hquote : (d == quote) = (c == quote) := by
      rw [← toUpper_beq (by decide) d, ← hcase, toUpper_beq (by decide)]
    rw [upperFrom_append, upperFrom_append, hclosed, Bool.bne_false]
    simp only [upperFrom, marked, List.map_cons, hquote, raised, Bool.false_eq_true, if_false,
      hcase]
  | space hfront hclosed hblank hstart hnext =>
    exact readsAlike_space hfront hclosed hblank hstart hnext
  | comment hclosed hgap => exact readsAlike_comment hclosed hgap _

/-! ### Sources -/

theorem read_of_isVoid {text : List Char} (h : IsVoid text) : Line.read text = .ok none := by
  cases h with
  | blank hgap => exact Line.read_of_isGap (isCode_of_isGap hgap).uncomment_eq hgap
  | comment hgap =>
    exact Line.read_of_isGap ((isCode_of_isGap hgap).uncomment_append (.inr rfl)) hgap

/-- Lines stand beside others, whatever numbers they have and whatever is known. -/
def StandsBeside (texts others : List (List Char)) : Prop :=
  ∀ number otherNumber, Alongside (fun _ _ => True) (fun _ => True) (texts.zipIdx number)
    (others.zipIdx otherNumber)

theorem StandsBeside.refl : ∀ texts : List (List Char), StandsBeside texts texts
  | [], _, _ => .nil
  | _ :: texts, number, otherNumber =>
    .both (.refl _) trivial
      (StandsBeside.refl texts (number + 1) (otherNumber + 1))

theorem StandsBeside.append_left {texts others : List (List Char)} (h : StandsBeside texts others) :
    ∀ before : List (List Char), StandsBeside (before ++ texts) (before ++ others)
  | [] => h
  | _ :: before => fun number otherNumber =>
    .both (.refl _) trivial
      (h.append_left before (number + 1) (otherNumber + 1))

/-- **Lines spelled in another way** stand beside those they were, and these beside them. -/
theorem Edit.standsBeside {texts others : List (List Char)} (h : Edit texts others) :
    StandsBeside texts others ∧ StandsBeside others texts := by
  cases h with
  | @line before after text other hedit =>
    have hreads := hedit.readsAlike
    refine ⟨StandsBeside.append_left (fun _ _ => ?_) before,
      StandsBeside.append_left (fun _ _ => ?_) before⟩
    · exact .both (readsAs_of_readsAlike hreads) trivial (StandsBeside.refl after _ _)
    · exact .both (readsAs_of_readsAlike hreads.symm) trivial (StandsBeside.refl after _ _)
  | @insert before after text hvoid =>
    have hread := read_of_isVoid hvoid
    refine ⟨StandsBeside.append_left (fun _ _ => ?_) before,
      StandsBeside.append_left (fun _ _ => ?_) before⟩
    · exact .right hread (StandsBeside.refl after _ _)
    · exact .left hread (StandsBeside.refl after _ _)

/-- The lines of a source make a program. -/
def Makes (texts : List (List Char)) (program : Program) : Prop :=
  Program.ofLayout ((texts.zipIdx 1).foldl Layout.addLine .empty) = .ok program

theorem Program.Agrees.sameResult {program other : Program}
    (h : program.Agrees (fun _ _ => True) other) : program.SameResult other := by
  refine ⟨h.image_eq, ?_, ?_⟩
  · rw [← List.forall₂_eq_eq_eq, List.forall₂_map_left_iff, List.forall₂_map_right_iff]
    exact h.symbols.flip.imp fun _ _ hsymbol => by
      rw [hsymbol.name_eq, hsymbol.value_eq, hsymbol.zeroPage_eq]
  · rw [← List.forall₂_eq_eq_eq, List.forall₂_map_left_iff, List.forall₂_map_right_iff]
    exact h.warnings.flip.imp fun _ _ hwarning => by
      rw [Warning.message, Warning.message, hwarning.2]

/-- Whenever some lines make a program, others make one with the same result. -/
def Carries (texts others : List (List Char)) : Prop :=
  ∀ program, Makes texts program → ∃ other, Makes others other ∧ program.SameResult other

theorem Carries.refl (texts : List (List Char)) : Carries texts texts := fun program h =>
  ⟨program, h, rfl, rfl, rfl⟩

theorem Carries.trans {first second third : List (List Char)} (hfirst : Carries first second)
    (hsecond : Carries second third) : Carries first third := by
  intro program hprogram
  obtain ⟨between, hbetween, hone⟩ := hfirst program hprogram
  obtain ⟨other, hother, htwo⟩ := hsecond between hbetween
  exact ⟨other, hother, htwo.image_eq.trans hone.image_eq, htwo.symbols_eq.trans hone.symbols_eq,
    htwo.warnings_eq.trans hone.warnings_eq⟩

/-- **Lines that stand beside others** make a program with the same result. -/
theorem StandsBeside.carries {texts others : List (List Char)} (h : StandsBeside texts others) :
    Carries texts others := by
  intro program hprogram
  have hstart : Layout.empty.Agrees (fun _ _ => True) (fun _ => True) Layout.empty :=
    .refl (fun _ => trivial) rfl
  have hagrees := Layout.Agrees.foldl_addLine (fun _ _ => trivial) (h 1 1) hstart (Nat.zero_le _)
    trivial (Program.ofLayout_eq_ok hprogram).1
  obtain ⟨other, hother, hsame⟩ := hagrees.ofLayout trivial hprogram
  exact ⟨other, hother, hsame.sameResult⟩

/-- Edits that are made or undone carry a program over, in both directions. -/
theorem carries_of_edits {texts others : List (List Char)} (h : Relation.EqvGen Edit texts others) :
    Carries texts others ∧ Carries others texts := by
  induction h with
  | rel texts others hedit => exact hedit.standsBeside.imp StandsBeside.carries StandsBeside.carries
  | refl texts => exact ⟨.refl texts, .refl texts⟩
  | symm texts others _ ih => exact ih.symm
  | trans first second third _ _ hfirst hsecond =>
    exact ⟨hfirst.1.trans hsecond.1, hsecond.2.trans hfirst.2⟩

/-- **Spelling does not matter.** A source that is accepted is accepted in every other
spelling: with other cases outside quotations, other blanks in its operands, other comments
or none, and further lines of blanks and comments or fewer of them. The image, the symbols
and the warnings are the same. -/
theorem spelling_does_not_matter {source respelled : String} {program : Program}
    (h : assemble source = .ok program) (hspelling : Respelled source respelled) :
    ∃ other, assemble respelled = .ok other ∧ program.SameResult other :=
  (carries_of_edits hspelling).1 program h

/-- A source with a comment, a quotation and bytes that are replaced. -/
def commentedSource : String := "LOOP LDA $10,X ;fetch\n .DB 'a;B',7\n .ORG 1\n JMP LOOP"

/-- The same without the comment, with a letter in lower case, another line and another
blank. -/
def respelledSource : String :=
  "LOOP LDA $10,x\n ; data\n .DB 'a;B', 7\n .ORG 1\n JMP LOOP"

theorem respelled_commentedSource : Respelled commentedSource respelledSource := by
  have hlines : lines commentedSource.toList = ["LOOP LDA $10,X ;fetch".toList,
      " .DB 'a;B',7".toList, " .ORG 1".toList, " JMP LOOP".toList] := by
    decide +kernel
  have hothers : lines respelledSource.toList = ["LOOP LDA $10,x".toList, " ; data".toList,
      " .DB 'a;B', 7".toList, " .ORG 1".toList, " JMP LOOP".toList] := by
    decide +kernel
  have hgap : IsGap " ".toList := List.forall_mem_singleton.mpr (by decide)
  have hfront : Front " .DB".toList none (some ".DB".toList) :=
    @Front.operation " ".toList ".DB".toList hgap (by decide) (by decide)
  have hstart : ∀ text : List Char, StartsBlank (' ' :: text) := fun _ c hc => by
    cases hc
    decide
  have hcomment :=
    @LineEdit.comment "LOOP LDA $10,X".toList " ".toList "fetch".toList (by decide) hgap
  have hcase := @LineEdit.recase "LOOP LDA $10,".toList [] 'X' 'x' (by decide) (by decide)
  have hspace := @LineEdit.space " .DB".toList " 'a;B',".toList "7".toList _ _ ' ' hfront
    (by decide) (by decide) (hstart _) (hstart _)
  have hvoid := @IsVoid.comment " ".toList " data".toList hgap
  rw [Respelled, hlines, hothers]
  refine .trans _ _ _ (.symm _ _ (.rel _ _ (@Edit.line [] _ _ _ hcomment))) ?_
  refine .trans _ _ _ (.rel _ _ (@Edit.line [] _ _ _ hcase)) ?_
  refine .trans _ _ _ (.rel _ _ (@Edit.line ["LOOP LDA $10,x".toList] _ _ _ hspace)) ?_
  exact .rel _ _ (@Edit.insert ["LOOP LDA $10,x".toList] _ _ hvoid)

theorem commentedSource_can_be_respelled :
    ∃ program other, assemble commentedSource = .ok program ∧
      program.warnings.map (fun warning => (warning.line, warning.address)) =
        [(4, 1), (4, 2), (4, 3)] ∧
      Respelled commentedSource respelledSource ∧ assemble respelledSource = .ok other ∧
      program.SameResult other := by
  have hresult : (assemble commentedSource).toOption.map (fun program =>
      program.warnings.map fun warning => (warning.line, warning.address)) =
        some [(4, 1), (4, 2), (4, 3)] := by
    decide +kernel
  obtain ⟨program, h, hwarnings⟩ := Result.exists_of_map_toOption hresult
  obtain ⟨other, hother, hsame⟩ := spelling_does_not_matter h respelled_commentedSource
  exact ⟨program, other, h, hwarnings, respelled_commentedSource, hother, hsame⟩

end Assembler
end Mos6502
