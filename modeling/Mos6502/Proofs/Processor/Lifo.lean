/-
# Last in, first out

Page one holds a stack of up to 256 bytes that may begin anywhere and wraps at both
ends. While it neither overflows nor runs dry and nothing else touches it, a pull
gives the byte of the last push that was not pulled, and the stack pointer tells
how many bytes are left.

A processor represents a list of bytes when they lie above its stack pointer in
order (`Represents`). Pushes and pulls keep it so, and so does work that leaves the
stack alone; a run of these is an induction (`Represents.of_uses`).

Key definitions: `StackUse`, `outstanding`, `Fits`, `TakesTop`, `Uses`, `Represents`.
Key theorems: `Represents.push`, `Represents.pull`, `Represents.pushWord`,
`Represents.pullWord`, `Represents.of_uses`, `read_eq_of_uses`, `Fits.length_foldl`.
-/
import Mos6502.Proofs.Processor.Stack

namespace Mos6502

/-! ### What the law says -/

/-- A byte goes to the stack or comes from it. -/
inductive StackUse
  | push (value : UInt8)
  | pull (value : UInt8)
  deriving DecidableEq

namespace StackUse

/-- How many bytes are added to the stack. -/
def weight : StackUse → Int
  | push _ => 1
  | pull _ => -1

/-- The bytes on a stack after one was pushed or pulled, the last one first. -/
def apply (bytes : List UInt8) : StackUse → List UInt8
  | push value => value :: bytes
  | pull _ => bytes.tail

end StackUse

/-- The pushes less the pulls. -/
def outstanding : List StackUse → Int
  | [] => 0
  | use :: uses => use.weight + outstanding uses

/-- A stack with so many bytes on it never runs dry and never overflows. -/
def Fits (height : Nat) (uses : List StackUse) : Prop :=
  ∀ first, first <+: uses → 0 ≤ height + outstanding first ∧ height + outstanding first ≤ 256

/-- Every pull takes the byte on top, when some bytes lie on the stack at first. -/
def TakesTop (bytes : List UInt8) (uses : List StackUse) : Prop :=
  ∀ first value, first ++ [.pull value] <+: uses →
    (first.foldl StackUse.apply bytes).head? = some value

/-- The pushes of a word, high byte first. -/
def wordPushes (word : UInt16) : List StackUse := [.push (Word.high word), .push (Word.low word)]

namespace Processor

/-- The processor works without its stack: the stack pointer stays, and so does every
byte, but for some elsewhere. -/
structure Works (elsewhere : UInt16 → Prop) (p q : Processor Memory) : Prop where
  sp_eq : q.sp = p.sp
  read_eq : ∀ address, ¬ elsewhere address → q.bus.read address = p.bus.read address

/-- What a processor does between two states: it pushes and pulls bytes, and works
without its stack in between. -/
inductive Uses (elsewhere : UInt16 → Prop) :
    Processor Memory → List StackUse → Processor Memory → Prop
  | nil (p : Processor Memory) : Uses elsewhere p [] p
  | work {p r q : Processor Memory} {uses : List StackUse} (first : Works elsewhere p r)
    (rest : Uses elsewhere r uses q) : Uses elsewhere p uses q
  | push {p q : Processor Memory} {uses : List StackUse} (value : UInt8)
    (rest : Uses elsewhere (p.push value) uses q) : Uses elsewhere p (.push value :: uses) q
  | pull {p q : Processor Memory} {uses : List StackUse} (rest : Uses elsewhere p.pull.2 uses q) :
    Uses elsewhere p (.pull p.pull.1 :: uses) q

end Processor

/-! ### Counting -/

@[simp]
theorem outstanding_nil : outstanding [] = 0 := rfl

@[simp]
theorem outstanding_cons (use : StackUse) (uses : List StackUse) :
    outstanding (use :: uses) = use.weight + outstanding uses := rfl

section

variable {height : Nat} {value : UInt8} {bytes : List UInt8} {use : StackUse}
  {uses : List StackUse}

theorem Fits.cons (h : Fits height (use :: uses)) {first : List StackUse}
    (hfirst : first <+: uses) :
    0 ≤ height + (use.weight + outstanding first) ∧
      height + (use.weight + outstanding first) ≤ 256 := by
  have hcons := h (use :: first) ((List.prefix_cons_inj use).mpr hfirst)
  rwa [outstanding_cons] at hcons

theorem Fits.push (h : Fits height (.push value :: uses)) :
    height < 256 ∧ Fits (height + 1) uses := by
  have hrest : Fits (height + 1) uses := by
    intro first hfirst
    have hcons := h.cons hfirst
    rw [StackUse.weight] at hcons
    omega
  have hroom := (hrest [] List.nil_prefix).2
  rw [outstanding_nil] at hroom
  exact ⟨by omega, hrest⟩

theorem Fits.pull (h : Fits (height + 1) (.pull value :: uses)) : Fits height uses := by
  intro first hfirst
  have hcons := h.cons hfirst
  rw [StackUse.weight] at hcons
  omega

/-- There is a byte to be pulled. -/
theorem not_fits_pull : ¬ Fits 0 (.pull value :: uses) := by
  intro h
  have hdry := (h.cons List.nil_prefix).1
  rw [StackUse.weight, outstanding_nil] at hdry
  omega

theorem Fits.length_foldl (h : Fits bytes.length uses) :
    ((uses.foldl StackUse.apply bytes).length : Int) = bytes.length + outstanding uses := by
  induction uses generalizing bytes with
  | nil => rw [List.foldl_nil, outstanding_nil, Int.add_zero]
  | cons use uses ih =>
    rw [outstanding_cons, List.foldl_cons]
    cases use with
    | push value =>
      have hrest : Fits (value :: bytes).length uses := h.push.2
      have hlength := ih hrest
      rw [StackUse.apply, hlength, List.length_cons, StackUse.weight]
      omega
    | pull value =>
      cases bytes with
      | nil => exact absurd h not_fits_pull
      | cons top bytes =>
        rw [StackUse.apply, List.tail_cons, ih h.pull, List.length_cons, StackUse.weight]
        omega

theorem takesTop_nil (bytes : List UInt8) : TakesTop bytes [] := by
  intro first value hprefix
  have hnil := List.prefix_nil.mp hprefix
  exact absurd hnil (List.append_ne_nil_of_right_ne_nil _ (List.cons_ne_nil _ _))

theorem TakesTop.push (h : TakesTop (value :: bytes) uses) :
    TakesTop bytes (.push value :: uses) := by
  intro first other hprefix
  cases first with
  | nil => cases (List.cons_prefix_cons.mp hprefix).1
  | cons use first =>
    obtain ⟨rfl, hrest⟩ := List.cons_prefix_cons.mp hprefix
    exact h first other hrest

theorem TakesTop.pull (h : TakesTop bytes uses) :
    TakesTop (value :: bytes) (.pull value :: uses) := by
  intro first other hprefix
  cases first with
  | nil =>
    cases (List.cons_prefix_cons.mp hprefix).1
    rfl
  | cons use first =>
    obtain ⟨rfl, hrest⟩ := List.cons_prefix_cons.mp hprefix
    exact h first other hrest

end

namespace Processor

variable {elsewhere : UInt16 → Prop} {p q r : Processor Memory}

theorem Works.of_eq (hsp : q.sp = p.sp) (hbus : q.bus = p.bus) : Works elsewhere p q :=
  ⟨hsp, fun _ _ => by rw [hbus]⟩

/-! ### A stack in page one -/

/-- Bytes lie on the stack of a processor, the last one first, above which there was
nothing when the stack pointer had its base. -/
structure Represents (base : UInt8) (bytes : List UInt8) (p : Processor Memory) : Prop where
  length_le : bytes.length ≤ 256
  /-- The stack pointer counts them. -/
  sp_eq : p.sp = base - UInt8.ofNat bytes.length
  /-- They lie above it in order. -/
  read_eq : ∀ (i : Nat) (value : UInt8), bytes[i]? = some value →
    p.bus.read (stackAddress (p.sp + 1 + UInt8.ofNat i)) = value

theorem represents_nil (p : Processor Memory) : Represents p.sp [] p where
  length_le := Nat.zero_le _
  sp_eq := by
    have hzero : p.sp - 0 = p.sp := by grind
    exact hzero.symm
  read_eq := by
    intro i value h
    cases h

/-- Work without the stack keeps what is on it. -/
theorem Represents.work {base : UInt8} {bytes : List UInt8} (h : Represents base bytes p)
    (hoff : ∀ address, elsewhere address → Word.page address ≠ 1) (hworks : Works elsewhere p q) :
    Represents base bytes q := by
  have hread : ∀ sp, q.bus.read (stackAddress sp) = p.bus.read (stackAddress sp) := fun sp =>
    hworks.read_eq _ fun helse => hoff _ helse (page_stackAddress sp)
  refine ⟨h.length_le, hworks.sp_eq.trans h.sp_eq, fun i value hi => ?_⟩
  rw [hread, hworks.sp_eq]
  exact h.read_eq i value hi

/-- So does whatever changes neither the stack pointer nor memory. -/
theorem Represents.of_eq {base : UInt8} {bytes : List UInt8} (h : Represents base bytes p)
    (hsp : q.sp = p.sp) (hbus : q.bus = p.bus) : Represents base bytes q := by
  have hworks : Works (fun _ => False) p q := .of_eq hsp hbus
  exact h.work (fun _ hfalse => hfalse.elim) hworks

/-- A push puts a byte on the stack, if there is room: it lies at none of the others. -/
theorem Represents.push {base : UInt8} {bytes : List UInt8} (h : Represents base bytes p)
    (value : UInt8) (hroom : bytes.length < 256) :
    Represents base (value :: bytes) (p.push value) := by
  have hsp : (p.push value).sp = p.sp - 1 := rfl
  have hbus : (p.push value).bus = p.bus.write (stackAddress p.sp) value := rfl
  refine ⟨hroom, ?_, fun i other hi => ?_⟩
  · rw [hsp, h.sp_eq, List.length_cons, UInt8.ofNat_add]
    grind
  · rw [hsp, hbus, Memory.read_write]
    cases i with
    | zero =>
      have hback : p.sp - 1 + 1 + UInt8.ofNat 0 = p.sp := by
        have hzero : UInt8.ofNat 0 = 0 := rfl
        grind
      rw [hback, if_pos rfl]
      exact Option.some.inj hi
    | succ i =>
      have hlt : i < 255 := by
        have hlength : i + 1 < (value :: bytes).length := (List.getElem?_eq_some_iff.mp hi).1
        rw [List.length_cons] at hlength
        omega
      have habove : p.sp - 1 + 1 + UInt8.ofNat (i + 1) = p.sp + 1 + UInt8.ofNat i := by
        rw [UInt8.ofNat_add]
        grind
      -- only the 256th byte could lie where the stack pointer is, and it is not there yet
      have hne : p.sp ≠ p.sp + 1 + UInt8.ofNat i := by
        intro heq
        have hnat := congrArg UInt8.toNat heq
        have hbound := p.sp.toNat_lt
        rw [UInt8.toNat_add, UInt8.toNat_add, UInt8.toNat_ofNat', UInt8.toNat_one] at hnat
        omega
      rw [habove, if_neg (by simpa using hne)]
      exact h.read_eq i other hi

theorem Represents.pull {base value : UInt8} {bytes : List UInt8}
    (h : Represents base (value :: bytes) p) :
    p.pull.1 = value ∧ Represents base bytes p.pull.2 := by
  have hsp : p.pull.2.sp = p.sp + 1 := rfl
  have hbus : p.pull.2.bus = p.bus := rfl
  refine ⟨?_, ?_, ?_, fun i other hi => ?_⟩
  · have htop := h.read_eq 0 value rfl
    have hzero : p.sp + 1 + UInt8.ofNat 0 = p.sp + 1 := by
      have hzero : UInt8.ofNat 0 = 0 := rfl
      grind
    rw [hzero] at htop
    exact htop
  · have hlength := h.length_le
    rw [List.length_cons] at hlength
    omega
  · rw [hsp, h.sp_eq, List.length_cons, UInt8.ofNat_add]
    grind
  · have hbelow := h.read_eq (i + 1) other hi
    have hnext : p.sp + 1 + UInt8.ofNat (i + 1) = p.sp + 1 + 1 + UInt8.ofNat i := by
      rw [UInt8.ofNat_add]
      grind
    rw [hnext] at hbelow
    rw [hsp, hbus]
    exact hbelow

/-- A word is pushed high byte first, so its low byte comes to lie on top. -/
theorem Represents.pushWord {base : UInt8} {bytes : List UInt8} (h : Represents base bytes p)
    (word : UInt16) (hroom : bytes.length + 2 ≤ 256) :
    Represents base (Word.low word :: Word.high word :: bytes) (p.pushWord word) :=
  (h.push (Word.high word) (by omega)).push (Word.low word) (by rw [List.length_cons]; omega)

/-- The last two bytes make a word, the upper one of them its low byte. -/
theorem Represents.pullWord {base low high : UInt8} {bytes : List UInt8}
    (h : Represents base (low :: high :: bytes) p) :
    p.pullWord.1 = Word.ofBytes low high ∧ Represents base bytes p.pullWord.2 := by
  obtain ⟨hlow, hbelow⟩ := h.pull
  obtain ⟨hhigh, hrest⟩ := hbelow.pull
  have hword : p.pullWord.1 = Word.ofBytes p.pull.1 p.pull.2.pull.1 := rfl
  exact ⟨by rw [hword, hlow, hhigh], hrest⟩

/-- **A run that fits keeps the stack in order.** What it pulls is what lies on top,
and what lies on the stack in the end is what was not pulled. -/
theorem Represents.of_uses {base : UInt8} {bytes : List UInt8} {uses : List StackUse}
    (h : Represents base bytes p)
    (hoff : ∀ address, elsewhere address → Word.page address ≠ 1) (huses : Uses elsewhere p uses q)
    (hfits : Fits bytes.length uses) :
    Represents base (uses.foldl StackUse.apply bytes) q ∧ TakesTop bytes uses := by
  -- along the run, for whatever lies on the stack where the rest of it begins
  induction huses generalizing bytes with
  | nil p => exact ⟨h, takesTop_nil bytes⟩
  | work first _ ih => exact ih (h.work hoff first) hfits
  | push value _ ih =>
    obtain ⟨hroom, hrest⟩ := hfits.push
    obtain ⟨hend, hpulls⟩ := ih (h.push value hroom) hrest
    exact ⟨hend, hpulls.push⟩
  | pull _ ih =>
    cases bytes with
    | nil => exact absurd hfits not_fits_pull
    | cons top bytes =>
      obtain ⟨htop, hbelow⟩ := h.pull
      obtain ⟨hend, hpulls⟩ := ih hbelow hfits.pull
      rw [htop]
      exact ⟨hend, hpulls.pull⟩

theorem read_eq_of_uses {uses : List StackUse} (huses : Uses elsewhere p uses q) {address : UInt16}
    (hpage : Word.page address ≠ 1) (helse : ¬ elsewhere address) :
    q.bus.read address = p.bus.read address := by
  induction huses with
  | nil p => rfl
  | work first _ ih => rw [ih, first.read_eq address helse]
  | @push p q uses value _ ih =>
    have hbus : (p.push value).bus = p.bus.write (stackAddress p.sp) value := rfl
    rw [ih, hbus, Memory.read_write, if_neg (stackAddress_ne hpage p.sp)]
  | pull _ ih =>
    rw [ih]
    rfl

/-! ### Runs, put together -/

theorem Uses.append {first second : List StackUse} (hfirst : Uses elsewhere p first q)
    (hsecond : Uses elsewhere q second r) : Uses elsewhere p (first ++ second) r := by
  induction hfirst with
  | nil p => exact hsecond
  | work works _ ih => exact .work works (ih hsecond)
  | push value _ ih => exact .push value (ih hsecond)
  | pull _ ih => exact .pull (ih hsecond)

theorem Uses.of_works (h : Works elsewhere p q) : Uses elsewhere p [] q := .work h (.nil q)

theorem Uses.pull_of_eq {value : UInt8} {uses : List StackUse} (h : p.pull.1 = value)
    (rest : Uses elsewhere p.pull.2 uses q) : Uses elsewhere p (.pull value :: uses) q := by
  rw [← h]
  exact .pull rest

theorem Uses.pushWord (p : Processor Memory) (word : UInt16) :
    Uses elsewhere p (wordPushes word) (p.pushWord word) :=
  .push _ (.push _ (.nil _))

end Processor
end Mos6502
