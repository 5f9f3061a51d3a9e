/-
# What the instructions do

Instructions that differ only in the register, flag or function they use are
one operation. Branches are the operations whose operand is a distance.

Key definitions: `Operation`, `Mnemonic.operation`, `Mnemonic.isBranch`.
-/
import Mos6502.Mnemonic
import Mos6502.Processor.Arithmetic
import Mos6502.Register
import Mos6502.Status

namespace Mos6502

/-- What an instruction does with its operand. -/
inductive Operation
  | add
  | subtract
  /-- Combines it with the accumulator bit by bit. -/
  | combine (logic : Logic)
  | compare (register : ByteRegister)
  | testBits
  /-- Goes on at another place when a flag has a value. -/
  | branch (flag : Flag) (value : Bool)
  | shift (shift : Shift)
  | load (register : ByteRegister)
  | store (register : ByteRegister)
  | countMemory (count : Count)
  | countRegister (register : ByteRegister) (count : Count)
  | jump
  | call
  | returnFromCall
  | break
  | returnFromInterrupt
  | idle
  | pushAccumulator
  | pushStatus
  | pullAccumulator
  | pullStatus
  | setFlag (flag : Flag) (value : Bool)
  | transfer (source target : ByteRegister)
  deriving DecidableEq

namespace Mnemonic

/-- The operation a mnemonic stands for. -/
def operation : Mnemonic → Operation
  | .adc => .add
  | .sbc => .subtract
  | .and => .combine .and
  | .ora => .combine .or
  | .eor => .combine .exclusiveOr
  | .cmp => .compare .a
  | .cpx => .compare .x
  | .cpy => .compare .y
  | .bit => .testBits
  | .bcc => .branch .c false
  | .bcs => .branch .c true
  | .bne => .branch .z false
  | .beq => .branch .z true
  | .bpl => .branch .n false
  | .bmi => .branch .n true
  | .bvc => .branch .v false
  | .bvs => .branch .v true
  | .asl => .shift .asl
  | .lsr => .shift .lsr
  | .rol => .shift .rol
  | .ror => .shift .ror
  | .lda => .load .a
  | .ldx => .load .x
  | .ldy => .load .y
  | .sta => .store .a
  | .stx => .store .x
  | .sty => .store .y
  | .inc => .countMemory .up
  | .dec => .countMemory .down
  | .inx => .countRegister .x .up
  | .iny => .countRegister .y .up
  | .dex => .countRegister .x .down
  | .dey => .countRegister .y .down
  | .jmp => .jump
  | .jsr => .call
  | .rts => .returnFromCall
  | .brk => .break
  | .rti => .returnFromInterrupt
  | .nop => .idle
  | .pha => .pushAccumulator
  | .php => .pushStatus
  | .pla => .pullAccumulator
  | .plp => .pullStatus
  | .clc => .setFlag .c false
  | .sec => .setFlag .c true
  | .cli => .setFlag .i false
  | .sei => .setFlag .i true
  | .cld => .setFlag .d false
  | .sed => .setFlag .d true
  | .clv => .setFlag .v false
  | .tax => .transfer .a .x
  | .tay => .transfer .a .y
  | .txa => .transfer .x .a
  | .tya => .transfer .y .a
  | .tsx => .transfer .sp .x
  | .txs => .transfer .x .sp

/-- The mnemonic is one of the eight conditional branches. -/
def isBranch (m : Mnemonic) : Bool :=
  match m.operation with
  | .branch _ _ => true
  | _ => false

end Mnemonic
end Mos6502
