import Assembler65816.Size
import Assembler65816.Text.Numeral

/-!
# Operand fields

A field is one to three bytes, least significant first. A plain field takes every value that has a
signed or an unsigned reading of its width, so both -1 and 255 fit one byte; a relative field takes
signed displacements only. Writing either succeeds and changes exactly the bytes of the field, or
fails and says why.
-/
namespace Assembler65816

inductive FieldError
  /-- The size names no plain field. -/
  | unwritable (size : Size)
  /-- The size names no displacement. -/
  | notRelative (size : Size)
  /-- The buffer ends before the field does. -/
  | short (size : Size) (available : Nat)
  | overflow (size : Size) (value : Int64)
  | displacement (size : Size) (value : Int64)
  deriving DecidableEq, Repr

namespace Field

/-- The low `width` bytes of `n`, least significant first. -/
def littleEndian : (width n : Nat) → List UInt8
  | 0, _ => []
  | width + 1, n => UInt8.ofNat n :: littleEndian width (n / 256)

/-- The number whose bytes, least significant first, are given. -/
def read : List UInt8 → Nat
  | [] => 0
  | b :: bs => b.toNat + 256 * read bs

@[simp] theorem length_littleEndian (width n : Nat) : (littleEndian width n).length = width := by
  induction width generalizing n with
  | zero => rfl
  | succ width ih => simp [littleEndian, ih]

/-- The two's complement bytes of a value. -/
def bytes (width : Nat) (v : Int64) : List UInt8 := littleEndian width v.toUInt64.toNat

@[simp] theorem length_bytes (width : Nat) (v : Int64) : (bytes width v).length = width :=
  length_littleEndian _ _

/-- Whether a plain field of one to three bytes can hold `v`. -/
def fits (width : Nat) (v : Int64) : Bool :=
  0 < width && width ≤ 3 &&
    (-(Nat.pow 2 (8 * width - 1) : Int) ≤ v.toInt && v.toInt < Nat.pow 2 (8 * width))

/-- Whether a displacement is in range of a relative size. -/
def relFits (size : Size) (v : Int64) : Bool :=
  size.isRelative &&
    (-(Nat.pow 2 (8 * size.width - 1) : Int) ≤ v.toInt &&
      v.toInt < Nat.pow 2 (8 * size.width - 1))

/-- The bytes of a plain field holding `v`. -/
def plain (size : Size) (v : Int64) : Except FieldError (List UInt8) :=
  if size.width = 0 ∨ size.isRelative then .error (.unwritable size)
  else if fits size.width v then .ok (bytes size.width v)
  else .error (.overflow size v)

/-- The bytes of a relative field holding `v`. -/
def relative (size : Size) (v : Int64) : Except FieldError (List UInt8) :=
  if !size.isRelative then .error (.notRelative size)
  else if relFits size v then .ok (bytes size.width v)
  else .error (.displacement size v)

/-- Writes a plain field at the start of a buffer. -/
def write (buffer : List UInt8) (size : Size) (v : Int64) : Except FieldError (List UInt8) :=
  if size.width = 0 ∨ size.isRelative then .error (.unwritable size)
  else if buffer.length < size.width then .error (.short size buffer.length)
  else (plain size v).map (· ++ buffer.drop size.width)

/-- Writes a displacement at the start of a buffer. -/
def writeRelative (buffer : List UInt8) (size : Size) (v : Int64) :
    Except FieldError (List UInt8) :=
  if !size.isRelative then .error (.notRelative size)
  else if buffer.length < size.width then .error (.short size buffer.length)
  else (relative size v).map (· ++ buffer.drop size.width)

/-- Reads the 24-bit value at the start of a buffer. -/
def read24 (buffer : List UInt8) : Nat := read (buffer.take 3)

/-- Stores the low 24 bits of `n` at the start of a buffer. -/
def write24 (buffer : List UInt8) (n : Nat) : List UInt8 := littleEndian 3 n ++ buffer.drop 3

end Field

namespace FieldError

/-- Whether the value, and not the call, is at fault. -/
def isOverflow : FieldError → Bool
  | overflow .. | displacement .. => true
  | _ => false

def message : FieldError → Text
  | unwritable size => ascii "cannot write " ++ size.name ++ ascii " field"
  | notRelative size => size.name ++ ascii " is not a relative size"
  | short size available =>
    size.name ++ ascii " field needs " ++ decimal size.width ++ ascii " bytes, have " ++
      decimal available
  | overflow size v =>
    ascii "value does not fit field: " ++ decimal v.toInt ++ ascii " in " ++
      decimal size.width ++ ascii "-byte " ++ size.name ++ ascii " field"
  | displacement size v =>
    ascii "value does not fit field: displacement " ++ decimal v.toInt ++ ascii " in " ++
      decimal size.width ++ ascii "-byte " ++ size.name ++ ascii " field"

end FieldError
end Assembler65816
