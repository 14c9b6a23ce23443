import Assembler65816.Text.Basic

/-!
# Numerals

Writing and reading integers in base two, ten and sixteen. A negative number is written as a minus
sign and its magnitude, and zeros that fill a numeral up to a width stand after the sign, which
counts as one of its columns.
-/
namespace Assembler65816

inductive Radix
  | binary
  | decimal
  | hex
  deriving DecidableEq, Repr

namespace Radix

def value : Radix → Nat
  | binary => 2
  | decimal => 10
  | hex => 16

theorem two_le_value (r : Radix) : 2 ≤ r.value := by
  cases r <;> decide

/-- The value of a digit in any base up to sixteen, in either letter case. -/
def digitValue (b : UInt8) : Option Nat :=
  if isDigit b then some (b.toNat - 48)
  else if 65 ≤ b && b ≤ 70 then some (b.toNat - 55)
  else if 97 ≤ b && b ≤ 102 then some (b.toNat - 87)
  else none

def isDigitOf (r : Radix) (b : UInt8) : Bool := (digitValue b).any (· < r.value)

/-- The digit for `d`, with capital letters past nine. -/
def digit (d : Nat) : UInt8 := UInt8.ofNat (if d < 10 then 48 + d else 55 + d)

end Radix

/-- The digits of `n`, without leading zeros. -/
def numeral (r : Radix) (n : Nat) : Text :=
  if _h : n < r.value then [Radix.digit n]
  else numeral r (n / r.value) ++ [Radix.digit (n % r.value)]
termination_by n
decreasing_by
  have := r.two_le_value
  exact Nat.div_lt_self (by omega) (by omega)

/-- What a run of digits denotes; bytes that are no digits count as zero. -/
def numeralValue (r : Radix) (s : Text) : Nat :=
  s.foldl (fun n b => r.value * n + (Radix.digitValue b).getD 0) 0

/-- The number written by a text that is digits only and at least one. -/
def readNumeral? (r : Radix) (s : Text) : Option Nat :=
  if !s.isEmpty && s.all r.isDigitOf then some (numeralValue r s) else none

def signedNumeral (r : Radix) (i : Int) : Text :=
  if i < 0 then 45 :: numeral r i.natAbs else numeral r i.natAbs

/-- Decimal text of a number. -/
def decimal (i : Int) : Text := signedNumeral .decimal i

/-- Hexadecimal text of a number. -/
def hex (i : Int) : Text := signedNumeral .hex i

def zeroFill (width : Nat) (s : Text) : Text := List.replicate (width - s.length) 48 ++ s

/-- Hexadecimal text of at least `width` columns, a minus sign included. -/
def hexWide (width : Nat) (i : Int) : Text :=
  if i < 0 then 45 :: zeroFill (width - 1) (numeral .hex i.natAbs)
  else zeroFill width (numeral .hex i.natAbs)

/-- A byte as two capital hexadecimal digits. -/
def hexByte (b : UInt8) : Text := [Radix.digit (b.toNat / 16), Radix.digit (b.toNat % 16)]

/-- The bytes as hexadecimal pairs with a space between each two. -/
def hexDump (bs : List UInt8) : Text := (bs.flatMap fun b => 32 :: hexByte b).drop 1

end Assembler65816
