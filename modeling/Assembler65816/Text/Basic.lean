/-!
# Texts

A text is the list of bytes it is written in. Source lines, labels and messages may hold bytes that
form no character, and columns and length limits count bytes, so bytes are the unit throughout;
where a rule speaks of characters, `Text.Utf8` reads them out of the bytes.
-/
namespace Assembler65816

abbrev Text := List UInt8

/-- The bytes of an ASCII literal. -/
def ascii (s : String) : Text := s.toList.map Char.toUInt8

/-! ### Byte classes -/

def isDigit (b : UInt8) : Bool := 48 ≤ b && b ≤ 57

def isUpperLetter (b : UInt8) : Bool := 65 ≤ b && b ≤ 90

def isLowerLetter (b : UInt8) : Bool := 97 ≤ b && b ≤ 122

/-- A byte that may begin a name: a letter or an underscore. -/
def isNameStart (b : UInt8) : Bool := b == 95 || isLowerLetter b || isUpperLetter b

/-- A byte that may continue a name. -/
def isNameByte (b : UInt8) : Bool := isNameStart b || isDigit b

/-- Space, tab, line feed, form feed and carriage return: what may stand between the parts of a
written shape. -/
def isGap (b : UInt8) : Bool := b == 32 || b == 9 || b == 10 || b == 12 || b == 13

/-- Space and tab: what an expression may hold between its tokens. -/
def isSpaceOrTab (b : UInt8) : Bool := b == 32 || b == 9

namespace Text

/-- What follows `p` in `s`, if `s` starts with `p`. -/
def after? : (p s : Text) → Option Text
  | [], s => some s
  | _ :: _, [] => none
  | a :: p, b :: s => if a = b then after? p s else none

theorem after?_eq_some {p s r : Text} : after? p s = some r ↔ s = p ++ r := by
  induction p generalizing s with
  | nil => simp [after?]
  | cons a p ih =>
    cases s with
    | nil => simp [after?]
    | cons b s =>
      by_cases h : a = b
      · simp [after?, h, ih]
      · simp [after?, h, Ne.symm h]

/-- The text before and after the last byte `c`. -/
def splitLast (c : UInt8) (s : Text) : Option (Text × Text) :=
  match s.reverse.span (· != c) with
  | (_, []) => none
  | (tail, _ :: body) => some (body.reverse, tail.reverse)

/-- The text before and after the first byte `c`; without one, all of it stands before. -/
def splitFirst (c : UInt8) (s : Text) : Text × Option Text :=
  match s.dropWhile (· != c) with
  | [] => (s, none)
  | _ :: tail => (s.takeWhile (· != c), some tail)

def dropEnd (p : UInt8 → Bool) (s : Text) : Text :=
  (s.reverse.dropWhile p).reverse

end Text
end Assembler65816
