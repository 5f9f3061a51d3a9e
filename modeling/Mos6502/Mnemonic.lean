/-
# Mnemonics

The three-letter names of the documented instructions.

Key definitions: `Mnemonic`, `Mnemonic.letters`, `Mnemonic.read?`.
Key theorem: `Mnemonic.read?_letters`.
-/

namespace Mos6502

/-- The documented instructions. -/
inductive Mnemonic
  | adc | and | asl | bcc | bcs | beq | bit | bmi
  | bne | bpl | brk | bvc | bvs | clc | cld | cli
  | clv | cmp | cpx | cpy | dec | dex | dey | eor
  | inc | inx | iny | jmp | jsr | lda | ldx | ldy
  | lsr | nop | ora | pha | php | pla | plp | rol
  | ror | rti | rts | sbc | sec | sed | sei | sta
  | stx | sty | tax | tay | tsx | txa | txs | tya
  deriving DecidableEq

namespace Mnemonic

/-- Every mnemonic, in alphabetical order. -/
def all : List Mnemonic :=
  [.adc, .and, .asl, .bcc, .bcs, .beq, .bit, .bmi, .bne, .bpl, .brk, .bvc, .bvs, .clc, .cld,
    .cli, .clv, .cmp, .cpx, .cpy, .dec, .dex, .dey, .eor, .inc, .inx, .iny, .jmp, .jsr, .lda,
    .ldx, .ldy, .lsr, .nop, .ora, .pha, .php, .pla, .plp, .rol, .ror, .rti, .rts, .sbc, .sec,
    .sed, .sei, .sta, .stx, .sty, .tax, .tay, .tsx, .txa, .txs, .tya]

/-- The letters of a mnemonic, in upper case. -/
def letters : Mnemonic → List Char
  | .adc => ['A', 'D', 'C']
  | .and => ['A', 'N', 'D']
  | .asl => ['A', 'S', 'L']
  | .bcc => ['B', 'C', 'C']
  | .bcs => ['B', 'C', 'S']
  | .beq => ['B', 'E', 'Q']
  | .bit => ['B', 'I', 'T']
  | .bmi => ['B', 'M', 'I']
  | .bne => ['B', 'N', 'E']
  | .bpl => ['B', 'P', 'L']
  | .brk => ['B', 'R', 'K']
  | .bvc => ['B', 'V', 'C']
  | .bvs => ['B', 'V', 'S']
  | .clc => ['C', 'L', 'C']
  | .cld => ['C', 'L', 'D']
  | .cli => ['C', 'L', 'I']
  | .clv => ['C', 'L', 'V']
  | .cmp => ['C', 'M', 'P']
  | .cpx => ['C', 'P', 'X']
  | .cpy => ['C', 'P', 'Y']
  | .dec => ['D', 'E', 'C']
  | .dex => ['D', 'E', 'X']
  | .dey => ['D', 'E', 'Y']
  | .eor => ['E', 'O', 'R']
  | .inc => ['I', 'N', 'C']
  | .inx => ['I', 'N', 'X']
  | .iny => ['I', 'N', 'Y']
  | .jmp => ['J', 'M', 'P']
  | .jsr => ['J', 'S', 'R']
  | .lda => ['L', 'D', 'A']
  | .ldx => ['L', 'D', 'X']
  | .ldy => ['L', 'D', 'Y']
  | .lsr => ['L', 'S', 'R']
  | .nop => ['N', 'O', 'P']
  | .ora => ['O', 'R', 'A']
  | .pha => ['P', 'H', 'A']
  | .php => ['P', 'H', 'P']
  | .pla => ['P', 'L', 'A']
  | .plp => ['P', 'L', 'P']
  | .rol => ['R', 'O', 'L']
  | .ror => ['R', 'O', 'R']
  | .rti => ['R', 'T', 'I']
  | .rts => ['R', 'T', 'S']
  | .sbc => ['S', 'B', 'C']
  | .sec => ['S', 'E', 'C']
  | .sed => ['S', 'E', 'D']
  | .sei => ['S', 'E', 'I']
  | .sta => ['S', 'T', 'A']
  | .stx => ['S', 'T', 'X']
  | .sty => ['S', 'T', 'Y']
  | .tax => ['T', 'A', 'X']
  | .tay => ['T', 'A', 'Y']
  | .tsx => ['T', 'S', 'X']
  | .txa => ['T', 'X', 'A']
  | .txs => ['T', 'X', 'S']
  | .tya => ['T', 'Y', 'A']

/-- The name of a mnemonic, in upper case. -/
def name (m : Mnemonic) : String := String.ofList m.letters

/-- Reads a mnemonic in either case. Letters beyond ASCII have no case here. -/
def read? (text : List Char) : Option Mnemonic :=
  all.find? fun m => m.letters == text.map Char.toUpper

theorem read?_letters (m : Mnemonic) : read? m.letters = some m := by
  cases m <;> decide

end Mnemonic
end Mos6502
