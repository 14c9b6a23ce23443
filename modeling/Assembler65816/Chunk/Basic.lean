import Assembler65816.Statement.Basic

/-!
# Chunks

A chunk is the code of one top-level label, relocatable as a whole. What depends on where it and
other symbols end up is left as fixups for the linker. Assembling yields chunks, defines and
diagnostics, and each has its lines in the listing.
-/
namespace Assembler65816

/-- A field to be written once its expression is known. -/
structure Fixup where
  offset : Int64
  expr : Expression
  /-- Whether the symbol has to lie in the bank of the instruction. -/
  sameBank : Bool
  deriving DecidableEq, Repr

def Fixup.size (f : Fixup) : Size := f.expr.size

structure Chunk where
  bytes : List UInt8 := []
  fixups : List Fixup := []
  attributes : List Attribute := []
  /-- Whether control never runs off the end, so that anything may follow the chunk. -/
  diverging : Bool := false
  /-- The bank the chunk has to lie in. -/
  bank : Option UInt8 := none
  deriving DecidableEq, Repr

/-- Zeros that are never executed. -/
def Chunk.padding (length : Nat) (bank : Option UInt8) : Chunk :=
  {bytes := List.replicate length 0, diverging := true, bank}

/-- One item of the output. -/
inductive Output
  | chunk (label : Text) (c : Chunk)
  | define (label : Text) (value : Expression)
  | error (d : Diagnostic)
  deriving DecidableEq, Repr

/-! ### Listings -/

def Fixup.listing (f : Fixup) : Text :=
  ascii "  fixup " ++ decimal f.offset.toInt ++ ascii " " ++ f.size.name ++
    (if f.sameBank then ascii " samebank" else []) ++ ascii " " ++ f.expr.text ++ ascii "\n"

def Chunk.listing (label : Text) (c : Chunk) : Text :=
  let bank := match c.bank with
    | some n => ascii " bank=" ++ decimal n.toNat
    | none => []
  let diverging := if c.diverging then ascii " diverging" else []
  let fixups := c.fixups.flatMap Fixup.listing
  let body :=
    if c.bytes.isEmpty then fixups
    else ascii "  bytes " ++ (hexDump c.bytes ++ (ascii "\n" ++ fixups))
  ascii "chunk " ++ label ++ ascii " size=" ++ decimal c.bytes.length ++ bank ++ diverging ++
    (ascii "\n" ++ body)

def Output.listing : Output → Text
  | chunk label c => c.listing label
  | define label value => ascii "define " ++ label ++ ascii " = " ++ value.text ++ ascii "\n"
  | error d => ascii "error " ++ d.message ++ ascii "\n"

end Assembler65816
