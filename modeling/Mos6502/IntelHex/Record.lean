/-
# Records

A record is a line: a colon and bytes in hexadecimal. The bytes are the number
of data bytes, a 16-bit offset, the kind of the record, the data and a byte
that brings the sum of all to zero.

Key definitions: `IntelHex.Record`, `IntelHex.Record.text`,
`IntelHex.Record.read`, `IntelHex.Defect`.
-/
import Mos6502.Text.Blank
import Mos6502.Text.Digit

namespace Mos6502
namespace IntelHex

open Text

/-- A line of a file. -/
structure Record where
  offset : UInt16
  kind : UInt8
  data : List UInt8
  deriving DecidableEq

/-- What is wrong with a line. -/
inductive Defect
  | missingStartCode
  | invalidDigits
  | lengthMismatch
  | checksumMismatch
  | unsupportedKind (kind : UInt8)
  /-- It moves the data that follows out of the address space. -/
  | nonZeroOffset (kind : UInt8)
  /-- Its data goes past the end of memory, where the address is the first
  that is too high. -/
  | addressOverflow (address : Nat)
  deriving DecidableEq

def Defect.message : Defect → String
  | .missingStartCode => "record does not start with ':'"
  | .invalidDigits => "record contains non-hex characters or an odd digit count"
  | .lengthMismatch => "record length does not match its byte count"
  | .checksumMismatch => "checksum mismatch"
  | .unsupportedKind kind => "unsupported record type " ++ String.ofList (hexByte kind)
  | .nonZeroOffset kind =>
    "record type " ++ String.ofList (hexByte kind) ++ " selects a non-zero address offset"
  | .addressOverflow address =>
    "data at $" ++ String.ofList (hexPadded 1 address) ++ " runs past $FFFF"

def sum (bytes : List UInt8) : UInt8 := bytes.foldl (· + ·) 0

/-- The byte of a pair of digits. A plus sign may stand for a leading zero. -/
def pairValue? (first second : Char) : Option UInt8 :=
  let high := if first = '+' then some 0 else digitValue? 16 first
  match high, digitValue? 16 second with
  | some high, some low => some (UInt8.ofNat (16 * high + low))
  | _, _ => none

/-- The bytes of pairs of digits. -/
def pairs? : List Char → Option (List UInt8)
  | [] => some []
  | [_] => none
  | first :: second :: rest =>
    match pairValue? first second, pairs? rest with
    | some byte, some bytes => some (byte :: bytes)
    | _, _ => none

namespace Record

/-- The bytes of a record before its checksum. -/
def body (record : Record) : List UInt8 :=
  UInt8.ofNat record.data.length :: Word.high record.offset :: Word.low record.offset ::
    record.kind :: record.data

/-- The line of a record, without its end. -/
def text (record : Record) : List Char :=
  ':' :: hexBytes (record.body ++ [-sum record.body])

/-- The record whose bytes these are, checksum included. -/
def ofBytes (bytes : List UInt8) : Except Defect Record :=
  match bytes with
  | count :: high :: low :: kind :: rest =>
    if rest.length = count.toNat + 1 then
      if sum bytes = 0 then .ok ⟨Word.ofBytes low high, kind, rest.dropLast⟩
      else .error .checksumMismatch
    else .error .lengthMismatch
  | _ => .error .lengthMismatch

/-- Reads a line that has no blanks at its ends. -/
def read : List Char → Except Defect Record
  | ':' :: digits =>
    match pairs? digits with
    | some bytes => ofBytes bytes
    | none => .error .invalidDigits
  | _ => .error .missingStartCode

end Record
end IntelHex
end Mos6502
