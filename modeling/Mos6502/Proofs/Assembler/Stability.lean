/-
# Lines that are read again

The fields of a line are stable. The text that they are read from, without the comment and
the blanks round it, gives them again (`IsContent.read_eq`), and so does the canonical line
that is put together from them (`Line.Has.exists_read_canonical`). Where a comment begins and
whether a quotation is open at the end is a matter of the quote marks and semicolons alone,
and these are the same in the canonical line (`Line.Has.delimiters_canonical`).

Key definitions: `CommentAt`, `CodeOf`, `delimiters`, `Line.canonical`, `Line.Stable`.
Key theorems: `hasComment_eq_true_iff`, `codeOf_append`, `IsCode.of_delimiters_eq`,
`compact_compact`, `Line.Has.canonical_splits`, `line_splitting_is_stable`.
-/
import Mos6502.Proofs.Assembler.Case
import Mos6502.Proofs.Assembler.SourceMap
import Mos6502.Proofs.Text.Unquoted
import Mathlib.Data.List.DropRight

namespace Mos6502

namespace Text

theorem trimEnd_eq_self {text : List Char} (h : ∀ c ∈ text.getLast?, isBlank c = false) :
    trimEnd text = text := by
  cases text using List.reverseRecOn with
  | nil => rfl
  | append_singleton start c =>
    have hc : isBlank c = false := h c List.getLast?_concat
    exact trimEnd_append (List.cons_ne_nil c []) (List.forall_mem_singleton.mpr hc)

theorem IsTrimmed.trim_eq {text : List Char} (h : IsTrimmed text) : trim text = text := by
  obtain ⟨c, rest, rfl⟩ := List.exists_cons_of_ne_nil h.ne_nil
  rw [trim, trimStart_cons_of_not_blank (h.head c rfl), trimEnd_eq_self h.last]

theorem not_isBlank_of_mem_getLast?_trimEnd (text : List Char) :
    ∀ c ∈ (trimEnd text).getLast?, isBlank c = false := by
  intro c hc
  rw [trimEnd, List.getLast?_reverse] at hc
  exact not_of_mem_head?_dropWhile isBlank _ c hc

end Text

namespace Assembler

open Text

/-! ### Where the code ends -/

/-- A comment begins at the place: there is a semicolon behind an even number of quote
marks. -/
def CommentAt (text : List Char) (place : Nat) : Prop :=
  text[place]? = some ';' ∧ (text.take place).count quote % 2 = 0

/-- The code of a text is what stands before the first comment, or all of it if there is
none. -/
def CodeOf (text code : List Char) : Prop :=
  (∃ place, CommentAt text place ∧ (∀ earlier < place, ¬CommentAt text earlier) ∧
      code = text.take place) ∨
    (∀ place, ¬CommentAt text place) ∧ code = text

theorem commentAt_iff_unquotedAt {text : List Char} {place : Nat} :
    CommentAt text place ↔ UnquotedAt ';' text place :=
  Iff.rfl

/-- There is a comment if it begins at some place. -/
theorem hasComment_eq_true_iff {text : List Char} :
    hasComment false text = true ↔ ∃ place, CommentAt text place := by
  simp only [commentAt_iff_unquotedAt, ← mem_marked_iff, hasComment, List.any_eq_true,
    beginsComment, Bool.and_eq_true, beq_iff_eq, Bool.not_eq_true']
  constructor
  · rintro ⟨⟨_, _⟩, hentry, rfl, rfl⟩
    exact hentry
  · exact fun hentry => ⟨_, hentry, rfl, rfl⟩

theorem hasComment_eq_false_iff {text : List Char} :
    hasComment false text = false ↔ ∀ place, ¬CommentAt text place := by
  rw [← Bool.not_eq_true, hasComment_eq_true_iff, not_exists]

theorem commentAt_append_iff {first second : List Char} {place : Nat} (h : place < first.length) :
    CommentAt (first ++ second) place ↔ CommentAt first place :=
  unquotedAt_append_iff h

/-- **Code with a comment behind it, or nothing, is the code of the text.** -/
theorem codeOf_append {code comment : List Char} (h : IsCode code)
    (hcomment : comment = [] ∨ comment.head? = some ';') : CodeOf (code ++ comment) code := by
  have hnone := hasComment_eq_false_iff.mp h.hasComment_eq
  rcases hcomment with rfl | hhead
  · exact .inr ⟨by rwa [List.append_nil], (List.append_nil code).symm⟩
  · refine .inl ⟨code.length, ⟨?_, ?_⟩, fun earlier hlt => ?_, List.take_left.symm⟩
    · rw [List.getElem?_append_right (Nat.le_refl _), Nat.sub_self, ← List.head?_eq_getElem?, hhead]
    · have hclosed := h.endsOpen_eq
      rw [endsOpen, beq_eq_false_iff_ne] at hclosed
      rw [List.take_left]
      exact Nat.mod_two_ne_one.mp hclosed
    · rw [commentAt_append_iff hlt]
      exact hnone earlier

/-- A text is not read if it has no comment and a quotation is open at its end. -/
theorem uncomment_eq_error_iff {text : List Char} {error : LineError} :
    uncomment text = .error error ↔
      (∀ place, ¬CommentAt text place) ∧ text.count quote % 2 = 1 := by
  rw [← hasComment_eq_false_iff, uncomment_eq]
  cases hcomment : hasComment false text with
  | true =>
    rw [endsOpen_codeFrom_of_hasComment hcomment, if_neg Bool.false_ne_true]
    exact ⟨nofun, nofun⟩
  | false =>
    rw [codeFrom_of_not_hasComment hcomment, ← beq_iff_eq (b := 1), ← endsOpen]
    cases endsOpen text <;> simp

theorem Line.read_eq_error_iff {text : List Char} :
    (∃ error, read text = .error error) ↔
      (∀ place, ¬CommentAt text place) ∧ text.count quote % 2 = 1 := by
  rw [← @uncomment_eq_error_iff text .unterminatedQuote]
  rcases read_cases text with ⟨huncomment, hread⟩ | ⟨code, huncomment, hread⟩
  · rw [huncomment, hread]
    exact ⟨fun _ => rfl, fun _ => ⟨_, rfl⟩⟩
  · rw [huncomment]
    refine ⟨fun ⟨error, herror⟩ => ?_, nofun⟩
    rcases hread with ⟨-, hnone⟩ | ⟨_, _, _, _, line, -, hsome, -⟩
    · rw [herror] at hnone
      cases hnone
    · rw [herror] at hsome
      cases hsome

/-! ### Delimiters -/

/-- The character is a quote mark or a semicolon. -/
def isDelimiter (c : Char) : Bool := c == quote || c == ';'

/-- The quote marks and semicolons of a text. -/
def delimiters (text : List Char) : List Char := text.filter isDelimiter

theorem delimiters_append (first second : List Char) :
    delimiters (first ++ second) = delimiters first ++ delimiters second :=
  List.filter_append first second

/-- The delimiters of a text tell where it is quoted and whether it has a comment. -/
theorem hasComment_delimiters (isOpen : Bool) (text : List Char) :
    hasComment isOpen (delimiters text) = hasComment isOpen text := by
  -- what is no delimiter neither begins a comment nor opens or ends a quotation
  induction text generalizing isOpen with
  | nil => rfl
  | cons c text ih =>
    simp only [hasComment, delimiters] at ih ⊢
    by_cases hc : isDelimiter c = true
    · rw [List.filter_cons_of_pos hc, marked, marked, List.any_cons, List.any_cons, ih]
    · rw [List.filter_cons_of_neg hc, marked, List.any_cons, ih]
      rw [isDelimiter, Bool.or_eq_true, not_or, Bool.not_eq_true, Bool.not_eq_true] at hc
      rw [beginsComment, hc.1, hc.2, Bool.bne_false, Bool.false_and, Bool.false_or]

theorem endsOpen_delimiters (text : List Char) : endsOpen (delimiters text) = endsOpen text := by
  rw [endsOpen, endsOpen, delimiters, List.count_filter (by decide)]

/-- **A text with the delimiters of code is code.** -/
theorem IsCode.of_delimiters_eq {text other : List Char} (h : IsCode text)
    (heq : delimiters other = delimiters text) : IsCode other := by
  refine ⟨?_, ?_⟩
  · rw [← hasComment_delimiters, heq, hasComment_delimiters, h.hasComment_eq]
  · rw [← endsOpen_delimiters, heq, endsOpen_delimiters, h.endsOpen_eq]

theorem delimiters_eq_nil {text : List Char} (h : ∀ c ∈ text, isDelimiter c = false) :
    delimiters text = [] := by
  rw [delimiters, List.filter_eq_nil_iff]
  exact fun c hc => Bool.eq_false_iff.mp (h c hc)

theorem isDelimiter_of_isBlank {c : Char} (h : isBlank c = true) : isDelimiter c = false := by
  rw [isDelimiter, beq_false_of_ne (ne_quote_of_isBlank h), Bool.false_or, beq_eq_false_iff_ne]
  rintro rfl
  exact absurd h (by decide)

theorem delimiters_of_isGap {gap : List Char} (h : IsGap gap) : delimiters gap = [] :=
  delimiters_eq_nil fun c hc => isDelimiter_of_isBlank (h c hc)

theorem delimiters_trimEnd (text : List Char) : delimiters (trimEnd text) = delimiters text := by
  obtain ⟨gap, hgap, heq⟩ := exists_trimEnd text
  conv => rhs; rw [heq, delimiters_append, delimiters_of_isGap hgap, List.append_nil]

theorem isDelimiter_toUpper (c : Char) : isDelimiter c.toUpper = isDelimiter c := by
  rw [isDelimiter, toUpper_beq (by decide), toUpper_beq (by decide), ← isDelimiter]

theorem toUpper_of_isDelimiter {c : Char} (h : isDelimiter c = true) : c.toUpper = c := by
  rw [isDelimiter, Bool.or_eq_true, beq_iff_eq, beq_iff_eq] at h
  rcases h with rfl | rfl <;> rfl

theorem delimiters_upper (text : List Char) : delimiters (upper text) = delimiters text := by
  have hcomp : isDelimiter ∘ Char.toUpper = isDelimiter := funext isDelimiter_toUpper
  rw [delimiters, upper, List.filter_map, hcomp]
  refine (List.map_congr_left fun c hc => ?_).trans (List.map_id _)
  exact toUpper_of_isDelimiter (List.mem_filter.mp hc).2

theorem delimiters_dropColons (label : List Char) :
    delimiters (dropColons label) = delimiters label := by
  obtain ⟨colons, hcolons, heq⟩ := exists_dropColons label
  have hnone : delimiters colons = [] := delimiters_eq_nil fun c hc => by
    rw [hcolons c hc]
    rfl
  conv => rhs; rw [heq, delimiters_append, hnone, List.append_nil]

theorem filter_kept (entry : Char × Bool) :
    (kept entry).filter isDelimiter = Option.guard isDelimiter entry.1 := by
  obtain ⟨c, isOpen⟩ := entry
  rw [kept]
  split
  · rfl
  · split
    · rename_i hblank
      rw [Option.guard, isDelimiter_of_isBlank hblank]
      rfl
    · rw [Option.filter_some, Option.guard, isDelimiter_toUpper]
      split
      · rename_i hc
        rw [toUpper_of_isDelimiter hc]
      · rfl

theorem delimiters_compact (text : List Char) : delimiters (compact text) = delimiters text := by
  calc
    _ = (marked false text).filterMap fun entry => (kept entry).filter isDelimiter :=
      List.filter_filterMap
    _ = (marked false text).filterMap (Option.guard isDelimiter ∘ Prod.fst) :=
      List.filterMap_congr fun entry _ => filter_kept entry
    _ = delimiters text := by
      rw [← List.filterMap_map, map_fst_marked, List.filterMap_eq_filter, delimiters]

/-! ### Fields that are read again -/

theorem kept_of_kept {c d : Char} {isOpen : Bool} (h : kept (c, isOpen) = some d) :
    kept (d, isOpen) = some d := by
  unfold kept at h ⊢
  simp only at h ⊢
  split at h
  · rename_i hkeep
    cases h
    rw [if_pos hkeep]
  · rename_i hkeep
    split at h
    · cases h
    · rename_i hblank
      cases h
      rw [toUpper_beq (by decide), if_neg hkeep, isBlank_toUpper, if_neg hblank, toUpper_toUpper]

/-- **Nothing is left out twice.** -/
theorem compact_compact (text : List Char) : compact (compact text) = compact text := by
  rw [compact_eq, compact_eq, compactFrom, marked_compactFrom, List.filterMap_filterMap,
    compactFrom]
  refine List.filterMap_congr fun entry _ => ?_
  cases hkept : kept entry with
  | none => rfl
  | some d => exact kept_of_kept hkept

theorem not_isBlank_of_mem_getLast?_compact {text : List Char}
    (h : ∀ c ∈ text.getLast?, isBlank c = false) :
    ∀ c ∈ (compact text).getLast?, isBlank c = false := by
  cases text using List.reverseRecOn with
  | nil => nofun
  | append_singleton start c =>
    have hc : isBlank c = false := h c List.getLast?_concat
    -- the last character stays, in one case or the other
    have hlast : ∀ isOpen, ∃ d, compactFrom isOpen [c] = [d] ∧ isBlank d = false := by
      intro isOpen
      by_cases hkeep : (isOpen || c == quote) = true
      · exact ⟨c, by simp [compactFrom, marked, kept, hkeep], hc⟩
      · have hupper : isBlank c.toUpper = false := by rw [isBlank_toUpper, hc]
        exact ⟨c.toUpper, by simp [compactFrom, marked, kept, hkeep, hc], hupper⟩
    obtain ⟨d, hd, hsolid⟩ := hlast (false != endsOpen start)
    rw [compact_eq, compactFrom_append, hd, List.getLast?_concat]
    rintro _ ⟨⟩
    exact hsolid

/-- Behind a space, what is left of a text without the blanks at its end is left of it again. -/
theorem compact_trimEnd_space (text : List Char) :
    compact (trimEnd (' ' :: compact (trimEnd text))) = compact (trimEnd text) := by
  have hlast := not_isBlank_of_mem_getLast?_compact (not_isBlank_of_mem_getLast?_trimEnd text)
  cases hcompact : compact (trimEnd text) with
  | nil => rfl
  | cons c rest =>
    rw [hcompact] at hlast
    rw [trimEnd_eq_self (by rwa [List.getLast?_cons_cons]),
      compact_cons_of_blank (by decide) (by decide), ← hcompact, compact_compact]

/-- A label with one colon behind it. -/
def colonLabel (label : List Char) : List Char := upper (dropColons label) ++ [':']

theorem labelName_colonLabel (label : List Char) :
    labelName (colonLabel label) = labelName label := by
  have hdrop : dropColons (colonLabel label) = upper (dropColons label) := by
    rw [colonLabel, upper_dropColons]
    exact (List.rdropWhile_concat_pos (· == ':') _ ':' rfl).trans (List.rdropWhile_idempotent _ _)
  rw [labelName, hdrop, upper_upper, labelName]

theorem isWord_colonLabel {label : List Char} (h : IsWord label) : IsWord (colonLabel label) := by
  refine ⟨List.append_ne_nil_of_right_ne_nil _ (List.cons_ne_nil _ _), ?_⟩
  refine List.forall_mem_append.mpr ⟨?_, List.forall_mem_singleton.mpr (by decide)⟩
  rw [upper, List.forall_mem_map]
  intro c hc
  rw [isBlank_toUpper]
  exact h.solid c ((List.rdropWhile_prefix (· == ':') label).mem hc)

/-- A label with a colon behind it is no operation. -/
theorem isOperation_colonLabel {label : List Char} (h : isOperation label = false) :
    isOperation (colonLabel label) = false := by
  rw [isOperation, Bool.or_eq_false_iff] at h ⊢
  constructor
  · obtain ⟨colons, -, heq⟩ := exists_dropColons label
    cases hdrop : dropColons label with
    | nil =>
      rw [colonLabel, hdrop]
      rfl
    | cons c rest =>
      have hhead := h.1
      rw [heq, hdrop] at hhead
      rw [colonLabel, hdrop]
      exact (toUpper_beq (by decide) c).trans hhead
  · rw [Option.isSome_eq_false_iff, Option.isNone_iff_eq_none]
    by_contra hread
    obtain ⟨m, hm⟩ := Option.ne_none_iff_exists'.mp hread
    have hcolon : ':' ∈ m.letters := by
      rw [letters_of_read? hm, upper]
      exact List.mem_map_of_mem (f := Char.toUpper) (List.mem_append_right _ List.mem_cons_self)
    cases m <;> revert hcolon <;> decide

/-! ### Lines that are put together again -/

/-- The fields of a line with a space before the operation and one behind it, and a colon
behind the label. -/
def Line.canonical (line : Line) : List Char :=
  (line.label.elim [] fun name => name.toList ++ [':']) ++
    ' ' :: (line.operation.elim [] String.toList ++ ' ' :: line.operand)

theorem Line.Has.canonical_eq {line : Line} {label operation : Option (List Char)}
    {operand : List Char} (h : line.Has label operation operand) :
    line.canonical = (label.map colonLabel).getD [] ++
      ' ' :: ((operation.map upper).getD [] ++ ' ' :: compact (trimEnd operand)) := by
  rw [canonical, h.label_eq, h.operation_eq, h.operand_eq]
  cases label <;> cases operation <;>
    simp [colonLabel, labelName, operationName, String.toList_ofList]

theorem Front.delimiters_eq {front : List Char} {label operation : Option (List Char)}
    (h : Front front label operation) :
    delimiters front = delimiters (label.getD []) ++ delimiters (operation.getD []) := by
  cases h with
  | label hgap =>
    rw [delimiters_append, delimiters_of_isGap hgap]
    exact (List.append_nil _).symm
  | operation hgap =>
    rw [delimiters_append, delimiters_of_isGap hgap]
    rfl
  | labelled hgap _ _ hbetween =>
    simp only [delimiters_append, delimiters_of_isGap hgap, delimiters_of_isGap hbetween,
      List.nil_append, Option.getD_some]

theorem delimiters_colonLabel (label : List Char) :
    delimiters (colonLabel label) = delimiters label := by
  rw [colonLabel, delimiters_append, delimiters_upper, delimiters_dropColons]
  exact List.append_nil _

theorem Line.Has.delimiters_canonical {line : Line} {code front operand : List Char}
    {label operation : Option (List Char)} (h : line.Has label operation operand)
    (hsplits : Splits code front label operation operand) :
    delimiters line.canonical = delimiters code := by
  have hspace : ∀ text, delimiters (' ' :: text) = delimiters text := fun _ => rfl
  have hlabel : delimiters ((label.map colonLabel).getD []) = delimiters (label.getD []) := by
    cases label with
    | none => rfl
    | some label => exact delimiters_colonLabel label
  have hoperation : delimiters ((operation.map upper).getD []) =
      delimiters (operation.getD []) := by
    cases operation with
    | none => rfl
    | some word => exact delimiters_upper word
  rw [h.canonical_eq, delimiters_append, hspace, delimiters_append, hspace, hlabel, hoperation,
    delimiters_compact, delimiters_trimEnd, hsplits.code_eq, delimiters_append,
    hsplits.front.delimiters_eq, List.append_assoc]

/-- **The canonical line has the parts of the code again.** -/
theorem Line.Has.canonical_splits {line : Line} {code front operand : List Char}
    {label operation : Option (List Char)} (h : line.Has label operation operand)
    (hsplits : Splits code front label operation operand) :
    ∃ start rest, Splits line.canonical start (label.map colonLabel) (operation.map upper) rest ∧
      compact (trimEnd rest) = line.operand := by
  have hspace : IsGap [' '] := List.forall_mem_singleton.mpr (by decide)
  have hstarts : ∀ text, StartsBlank (' ' :: text) := by
    rintro text c ⟨⟩
    decide
  have hrest := compact_trimEnd_space operand
  rw [← h.operand_eq] at hrest
  have hupper : ∀ {word}, IsWord word → IsWord (upper word) := isWord_of_upper_eq (upper_upper _)
  rw [h.canonical_eq, ← h.operand_eq]
  cases hsplits.front with
  | @label gap label hgap hlabel hname =>
    -- without an operation there is no operand, and both spaces are blanks behind the label
    have hnone : line.operand = [] := by
      rw [h.operand_eq, trimEnd_of_isGap (hsplits.isGap_of_none rfl)]
      rfl
    refine ⟨[] ++ colonLabel label, [' ', ' '], ⟨?_, ?_, hstarts _, fun _ => ?_⟩, ?_⟩
    · rw [hnone]
      rfl
    · exact .label nofun (isWord_colonLabel hlabel) (isOperation_colonLabel hname)
    · exact List.forall_mem_cons.mpr ⟨by decide, hspace⟩
    · rw [hnone]
      rfl
  | @operation gap word hgap hword hname =>
    refine ⟨[' '] ++ upper word, ' ' :: line.operand, ⟨rfl, ?_, hstarts _, nofun⟩, hrest⟩
    exact .operation hspace (hupper hword)
      ((isOperation_of_upper_eq (upper_upper word)).trans hname)
  | @labelled gap label between word hgap hlabel hname hbetween hne hword =>
    refine ⟨[] ++ colonLabel label ++ ([' '] ++ upper word), ' ' :: line.operand,
      ⟨?_, ?_, hstarts _, nofun⟩, hrest⟩
    · simp
    · exact .labelled nofun (isWord_colonLabel hlabel) (isOperation_colonLabel hname) hspace
        (List.cons_ne_nil _ _) (hupper hword)

/-! ### The law -/

/-- The fields of a line are stable: they give the place of a content of the text from which
they are read again, as they are from the canonical line. -/
structure Line.Stable (line : Line) (text : List Char) : Prop where
  /-- The content is within the text. -/
  le_byteLength : line.column + line.length ≤ byteLength text
  /-- It is the code of the text without the blanks round it, and has the same fields. -/
  content : ∃ code lead content trail, CodeOf text code ∧ code = lead ++ content ++ trail ∧
    IsGap lead ∧ IsTrimmed content ∧ IsGap trail ∧
    ((bytes text).drop line.column).take line.length = bytes content ∧
    Line.read content = .ok (some { line with column := 0 })
  /-- The canonical line has the same fields, up to its place. -/
  canonical : ∃ again, Line.read line.canonical = .ok (some again) ∧ again.label = line.label ∧
    again.operation = line.operation ∧ again.operand = line.operand

/-- **Content is read as it was in its text.** -/
theorem IsContent.read_eq {text lead content : List Char} (h : IsContent text lead content)
    (column : Nat) : Line.read content =
      .ok (some { Line.ofContent content column with column := 0 }) := by
  have htrim := h.trimmed.trim_eq
  have hread := Line.read_eq_ofContent h.isCode.uncomment_eq (htrim.symm ▸ h.trimmed.ne_nil)
  have hlead : content.takeWhile isBlank = [] := by
    obtain ⟨c, rest, rfl⟩ := List.exists_cons_of_ne_nil h.trimmed.ne_nil
    exact List.takeWhile_cons_of_neg (Bool.eq_false_iff.mp (h.trimmed.head c rfl))
  rw [hread, htrim, hlead]
  rfl

theorem Line.Has.exists_read_canonical {line : Line} {code front operand : List Char}
    {label operation : Option (List Char)} (h : line.Has label operation operand)
    (hsplits : Splits code front label operation operand) (hcode : IsCode code) :
    ∃ again, Line.read line.canonical = .ok (some again) ∧ again.label = line.label ∧
      again.operation = line.operation ∧ again.operand = line.operand := by
  obtain ⟨start, rest, hparts, hrest⟩ := h.canonical_splits hsplits
  have hcanonical := hcode.of_delimiters_eq (h.delimiters_canonical hsplits)
  obtain ⟨again, hread, hagain⟩ := Line.read_of_splits hcanonical.uncomment_eq hparts
  refine ⟨again, hread, ?_, ?_, hagain.operand_eq.trans hrest⟩
  · rw [hagain.label_eq, h.label_eq, Option.map_map]
    exact congrArg (Option.map · label) (funext labelName_colonLabel)
  · rw [hagain.operation_eq, h.operation_eq, Option.map_map]
    have hname : operationName ∘ upper = operationName := funext fun word => by
      rw [Function.comp_apply, operationName, upper_upper, operationName]
    rw [hname]

/-- **Splitting a line is stable.** A text fails to be read just when it has no comment and an
odd number of quote marks, and the fields of a line that is read are stable. -/
theorem line_splitting_is_stable (text : List Char) :
    ((∃ error, Line.read text = .error error) ↔
      (∀ place, ¬CommentAt text place) ∧ text.count quote % 2 = 1) ∧
    ∀ line, Line.read text = .ok (some line) → line.Stable text := by
  refine ⟨Line.read_eq_error_iff, fun line h => ?_⟩
  obtain ⟨code, front, label, operation, operand, hcode, hsplits, hline⟩ :=
    Line.exists_splits_of_read h
  have hcanonical := hline.exists_read_canonical hsplits (exists_comment hcode).1
  obtain ⟨lead, content, hcontent, rfl⟩ := Line.exists_content h
  obtain ⟨trail, comment, htext, htrail, hparts, hcomment⟩ := hcontent.parts
  refine ⟨?_, ⟨lead ++ content ++ trail, lead, content, trail, ?_, rfl, hcontent.gap,
    hcontent.trimmed, htrail, ?_, hcontent.read_eq _⟩, hcanonical⟩
  · show (bytes lead).length + byteLength content ≤ byteLength text
    rw [length_bytes]
    exact hcontent.byteLength_le
  · rw [htext]
    exact codeOf_append hparts hcomment
  · show ((bytes text).drop (bytes lead).length).take (byteLength content) = bytes content
    rw [← length_bytes content]
    exact hcontent.bytes_eq

/-- A label with a quote mark, for which the first semicolon is quoted and is part of the
operand, and the second one begins the comment. -/
theorem quotedLabel_is_stable :
    ∃ line, Line.read " a'b:: lda ; x' ;'".toList = .ok (some line) ∧
      line.Stable " a'b:: lda ; x' ;'".toList :=
  ⟨⟨some "A'B", some "LDA", ";X'".toList, 1, 14⟩, by decide,
    (line_splitting_is_stable _).2 _ (by decide)⟩

end Assembler
end Mos6502
