/-
# Files

A file is read up to its end record; blank lines are skipped. Records of data
fill the image. Records that choose a segment must choose the first, those
that name a start address mean nothing here.

Key definitions: `IntelHex.read`, `IntelHex.write`, `IntelHex.Error`.
-/
import Mos6502.Image
import Mos6502.IntelHex.Record
import Mos6502.Text.Lines

namespace Mos6502
namespace IntelHex

open Text

/-- The line of a file that could not be read. -/
structure Error where
  line : Nat
  defect : Defect
  deriving DecidableEq

def Error.message (error : Error) : String :=
  "line " ++ toString error.line ++ ": " ++ error.defect.message

/-- What a record does to the image before it. -/
inductive Effect
  | goOn (image : Image)
  | stop

/-- Carries out a record. -/
def Record.apply (record : Record) (image : Image) : Except Defect Effect :=
  match record.kind with
  | 0x00 =>
    if 0x10000 < record.offset.toNat + record.data.length then .error (.addressOverflow 0x10000)
    else .ok (.goOn (image.insertBytes record.offset record.data))
  | 0x01 => .ok .stop
  | 0x02 | 0x04 =>
    if record.data.all (· == 0) then .ok (.goOn image) else .error (.nonZeroOffset record.kind)
  | 0x03 | 0x05 => .ok (.goOn image)
  | kind => .error (.unsupportedKind kind)

/-- Reads lines from an image on. -/
def readLines (image : Image) : List (List Char × Nat) → Except Error Image
  | [] => .ok image
  | (line, number) :: lines =>
    let line := trim line
    if line = [] then readLines image lines
    else
      match Record.read line >>= fun record => record.apply image with
      | .error defect => .error ⟨number, defect⟩
      | .ok .stop => .ok image
      | .ok (.goOn image) => readLines image lines

def read (text : String) : Except Error Image := readLines .empty (numberedLines text.toList)

/-- The data records of a run, of sixteen bytes each but for the last. -/
def recordsOf (start : UInt16) (bytes : List UInt8) : List Record :=
  if bytes = [] then []
  else ⟨start, 0, bytes.take 16⟩ :: recordsOf (start + 16) (bytes.drop 16)
termination_by bytes.length
decreasing_by
  have := List.length_pos_iff.mpr ‹bytes ≠ []›
  rw [List.length_drop]
  omega

/-- The data records of an image. -/
def records (image : Image) : List Record :=
  image.runs.flatMap fun run => recordsOf run.start run.bytes

/-- The record that ends a file. -/
def endRecord : Record := ⟨0, 1, []⟩

/-- The file of an image. -/
def write (image : Image) : String :=
  String.ofList ((records image ++ [endRecord]).flatMap fun record => record.text ++ ['\n'])

end IntelHex
end Mos6502
