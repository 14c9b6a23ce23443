import Assembler65816.Text.Numeral

/-!
# Symbol identities

What a reference names. Global names are spelled out. An anonymous label is known by its direction,
the number of its signs and its turn among the labels with that many; a named local label by the
scope it lies in and the names of the locals that enclose it, joined by dots.
-/
namespace Assembler65816

/-- Where an anonymous label is referred to from: after it or before it. -/
inductive Direction
  | backward
  | forward
  deriving DecidableEq, Repr

def Direction.sign : Direction → UInt8
  | backward => 45
  | forward => 43

inductive Ident
  | global (name : Text)
  | anonymous (direction : Direction) (count turn : Int)
  | named (scope : Int) (path : Text)
  deriving DecidableEq, Repr

def Ident.text : Ident → Text
  | global name => name
  | anonymous direction count turn =>
    List.replicate count.toNat direction.sign ++ 35 :: decimal turn
  | named scope path => 46 :: path ++ 64 :: decimal scope

end Assembler65816
