import Assembler65816.Size

/-!
# Addressing modes

A mode fixes the size of the operand field and the frame in which an operand is written. `direct` is
the direct page, `absolute` an address in the bank at hand and `long` a full 24-bit address.
-/
namespace Assembler65816

/-- What is written around an operand: nothing but a fixed text, or a text on either side of it. -/
inductive Frame
  | fixed (written : String)
  | around (before after : String)
  deriving DecidableEq, Repr

namespace Frame

def fill (operand : Text) : Frame → Text
  | fixed written => ascii written
  | around before after => ascii before ++ operand ++ ascii after

/-- The frame with `%s` where the operand goes. -/
def template (f : Frame) : Text := f.fill (ascii "%s")

end Frame

inductive Mode
  | implied
  | accumulator
  | immediate8
  | immediate16
  | direct
  | directX
  | directY
  | directIndirect
  | directXIndirect
  | directIndirectY
  | directIndirectLong
  | directIndirectLongY
  | absolute
  | absoluteX
  | absoluteY
  | absoluteIndirect
  | absoluteXIndirect
  | absoluteIndirectLong
  | long
  | longX
  | stackRelative
  | stackRelativeIndirectY
  | relative8
  | relative16
  /-- A code outside the table: no instruction has it. -/
  | unlisted
  deriving DecidableEq, Repr, Inhabited

namespace Mode

/-- The modes of the processor, in the order of their codes. -/
def all : List Mode :=
  [implied, accumulator, immediate8, immediate16, direct, directX, directY, directIndirect,
   directXIndirect, directIndirectY, directIndirectLong, directIndirectLongY, absolute, absoluteX,
   absoluteY, absoluteIndirect, absoluteXIndirect, absoluteIndirectLong, long, longX, stackRelative,
   stackRelativeIndirectY, relative8, relative16]

def ofCode (code : Int) : Mode :=
  if code < 0 then unlisted else (all[code.toNat]?).getD unlisted

def name : Mode → Text
  | implied => ascii "implied"
  | accumulator => ascii "accumulator"
  | immediate8 => ascii "immediate8"
  | immediate16 => ascii "immediate16"
  | direct => ascii "direct"
  | directX => ascii "direct,x"
  | directY => ascii "direct,y"
  | directIndirect => ascii "(direct)"
  | directXIndirect => ascii "(direct,x)"
  | directIndirectY => ascii "(direct),y"
  | directIndirectLong => ascii "[direct]"
  | directIndirectLongY => ascii "[direct],y"
  | absolute => ascii "absolute"
  | absoluteX => ascii "absolute,x"
  | absoluteY => ascii "absolute,y"
  | absoluteIndirect => ascii "(absolute)"
  | absoluteXIndirect => ascii "(absolute,x)"
  | absoluteIndirectLong => ascii "[absolute]"
  | long => ascii "long"
  | longX => ascii "long,x"
  | stackRelative => ascii "stack"
  | stackRelativeIndirectY => ascii "(stack),y"
  | relative8 => ascii "relative8"
  | relative16 => ascii "relative16"
  | unlisted => ascii "invalid"

def size : Mode → Size
  | implied | accumulator => .implicit
  | immediate8 | direct | directX | directY | directIndirect | directXIndirect | directIndirectY
  | directIndirectLong | directIndirectLongY | stackRelative | stackRelativeIndirectY => .byte
  | immediate16 | absolute | absoluteX | absoluteY | absoluteIndirect | absoluteXIndirect
  | absoluteIndirectLong => .word
  | long | longX => .long
  | relative8 => .relByte
  | relative16 => .relWord
  | unlisted => .any

/-- The number of operand bytes after the opcode. -/
def width (m : Mode) : Nat := m.size.width

def frame : Mode → Frame
  | implied => .fixed ""
  | accumulator => .fixed "a"
  | immediate8 | immediate16 => .around "#" ""
  | direct | absolute | long | relative8 | relative16 | unlisted => .around "" ""
  | directX | absoluteX | longX => .around "" ",x"
  | directY | absoluteY => .around "" ",y"
  | directIndirect | absoluteIndirect => .around "(" ")"
  | directXIndirect | absoluteXIndirect => .around "(" ",x)"
  | directIndirectY => .around "(" "),y"
  | directIndirectLong | absoluteIndirectLong => .around "[" "]"
  | directIndirectLongY => .around "[" "],y"
  | stackRelative => .around "" ",s"
  | stackRelativeIndirectY => .around "(" ",s),y"

end Mode
end Assembler65816
