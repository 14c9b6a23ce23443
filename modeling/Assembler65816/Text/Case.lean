import Assembler65816.Text.Utf8
import Assembler65816.Text.Case.Table

/-!
# Upper and lower case

Each character maps on its own, by its simple mapping. A text of ASCII bytes maps byte by byte. Any
other text is read as characters first, and a stray byte comes out as U+FFFD.
-/
namespace Assembler65816.Case

def Run.covers (r : Run) (n : Nat) : Bool :=
  r.first ≤ n && n ≤ r.last && (n - r.first) % r.stride == 0

/-- The character the runs send `c` to; a character outside them stays. -/
def mapBy (runs : List Run) (c : Char) : Char :=
  match runs.find? (·.covers c.toNat) with
  | some r => Char.ofNat (c.toNat + r.shift).toNat
  | none => c

def upperByte (b : UInt8) : UInt8 := if isLowerLetter b then b - 32 else b

def lowerByte (b : UInt8) : UInt8 := if isUpperLetter b then b + 32 else b

def upperChar (c : Char) : Char := if c.toNat < 0x80 then c.toUpper else mapBy upperRuns c

def lowerChar (c : Char) : Char := if c.toNat < 0x80 then c.toLower else mapBy lowerRuns c

end Assembler65816.Case

namespace Assembler65816.Text

def isAscii (s : Text) : Bool := s.all (· < 0x80)

def upper (s : Text) : Text :=
  if s.isAscii then s.map Case.upperByte
  else Utf8.encodeChars ((Utf8.decode s).map fun p => Case.upperChar p.toChar)

def lower (s : Text) : Text :=
  if s.isAscii then s.map Case.lowerByte
  else Utf8.encodeChars ((Utf8.decode s).map fun p => Case.lowerChar p.toChar)

end Assembler65816.Text
