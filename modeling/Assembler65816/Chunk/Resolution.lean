import Assembler65816.Chunk.Basic

/-!
# Resolving fixups

At the end of a segment the offsets of its own labels are known. Each fixup then has one outcome,
found from its size and its expression after substitution and folding: nothing is left to write, a
field is patched, the linker has to see to it, or it is at fault. The outcome does not depend on the
bytes of the chunk, only on their number; patching writes the fields in order.

The check of a range adds 64-bit numbers, and the sum wraps. A field that passes it all the same can
lie out of bounds, and to write such a field ends the program.
-/
namespace Assembler65816

/-- The labels of a segment with their offsets, latest first. -/
abbrev Offsets := List (Ident × Nat)

/-- The position that a label of the segment stands for. -/
def Offsets.position? (offsets : Offsets) (id : Ident) : Option Term :=
  (offsets.lookup id).map fun n => .offset (Int64.ofNat n)

inductive Resolution
  /-- There is nothing to write. -/
  | dropped
  /-- A field to write at an offset. -/
  | patched (offset : Nat) (field : List UInt8)
  /-- Left for the linker. -/
  | outgoing (f : Fixup)
  | failed (d : Diagnostic)
  /-- There is a field to write and no bytes to write it to. -/
  | outOfBounds
  deriving DecidableEq, Repr

namespace Fixup

/-- The fixup with every label of the segment replaced by its position, and folded. -/
def settle (offsets : Offsets) (f : Fixup) : Fixup :=
  {f with expr := f.expr.map fun t => (t.substitute offsets.position?).reduce}

/-- Whether the field lies within so many bytes. Offsets are 64-bit and their sums wrap. -/
def inRange (length : Nat) (offset : Int64) (size : Size) : Bool :=
  0 ≤ offset && offset + Int64.ofNat size.width ≤ Int64.ofNat length

/-- Whether the field lies within so many bytes indeed. -/
def isWithin (length : Nat) (f : Fixup) : Bool := f.offset.toInt.toNat + f.size.width ≤ length

/-- What becomes of a fixup in a segment of `length` bytes. -/
def resolve (label : Text) (offsets : Offsets) (length : Nat) (f : Fixup) : Resolution :=
  let fail (kind : Category) (want got : Text) (cause : Option Cause) : Resolution :=
    .failed {kind, label, subject := f.expr.text, want, got, cause}
  let width := decimal f.size.width
  let settled := f.settle offsets
  if !inRange length f.offset f.size then
    fail .internal (ascii "offset within " ++ decimal length ++ ascii " bytes")
      (ascii "offset " ++ decimal f.offset.toInt ++ ascii " width " ++ width) none
  else
    match settled.expr.term with
    | .empty => .dropped
    | .constant v =>
      if f.size.isRelative || f.size.width == 0 then
        fail .internal (ascii "byte, word or long field")
          (f.size.name ++ ascii " field for a constant") none
      else if !f.isWithin length then .outOfBounds
      else
        match Field.plain f.size v with
        | .ok field => .patched f.offset.toInt.toNat field
        | .error e =>
          fail .fieldOverflow (width ++ ascii "-byte value") (decimal v.toInt) (some (.field e))
    | .offset v =>
      if f.size.isRelative then
        let displacement := v - f.offset - 1
        if !f.isWithin length then .outOfBounds
        else
          match Field.relative f.size displacement with
          | .ok field => .patched f.offset.toInt.toNat field
          | .error e =>
            fail .fieldOverflow (ascii "signed " ++ width ++ ascii "-byte displacement")
              (decimal displacement.toInt) (some (.field e))
      else .outgoing settled
    | _ => .outgoing settled

end Fixup

/-- Replaces the bytes at an offset where there are as many. -/
def patch (bytes : List UInt8) (offset : Nat) (field : List UInt8) : List UInt8 :=
  bytes.take offset ++ field ++ bytes.drop (offset + field.length)

namespace Resolution

/-- The bytes after one outcome. -/
def apply (bytes : List UInt8) : Resolution → List UInt8
  | patched offset field => patch bytes offset field
  | _ => bytes

def outgoing? : Resolution → Option Fixup
  | outgoing f => some f
  | _ => none

def failed? : Resolution → Option Diagnostic
  | failed d => some d
  | _ => none

def isOutOfBounds : Resolution → Bool
  | outOfBounds => true
  | _ => false

end Resolution
end Assembler65816
