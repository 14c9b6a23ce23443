import Assembler65816.Diagnostic

/-!
# Statements

What a source consists of, one statement at a time: labels of every kind, defines, data,
instructions, and the places that could not be read.
-/
namespace Assembler65816

/-- What decorates a top-level label. -/
inductive Attribute
  /-- Pins the chunk to a memory bank. -/
  | bank (n : UInt8)
  | named (name value : Text)
  deriving DecidableEq, Repr

def Attribute.text : Attribute → Text
  | bank n => ascii "bank(" ++ decimal n.toNat ++ ascii ")"
  | named name value =>
    if value.isEmpty then name else name ++ ascii "(" ++ value ++ ascii ")"

/-- An expression to write into data, at a place counted from the start of the data. -/
structure DataRef where
  offset : Int64
  expr : Expression
  deriving DecidableEq, Repr

structure Instruction where
  mnemonic : Text
  /-- The size declared beside the mnemonic. -/
  size : Size := .any
  arg : Operand := {}
  pos : Position := {}
  deriving DecidableEq, Repr

def Instruction.text (i : Instruction) : Text :=
  let arg := i.arg.text
  i.mnemonic.lower ++ if arg.isEmpty then [] else ascii " " ++ arg

inductive Statement
  | define (name : Text) (value : Expression) (pos : Position)
  | topLabel (name : Text) (attributes : List Attribute) (pos : Position)
  | backwardLabel (count : Int)
  | forwardLabel (count : Int)
  | localLabel (depth : Int) (name : Text)
  | data (bytes : List UInt8) (refs : List DataRef) (pos : Position)
  | instruction (i : Instruction)
  /-- A place that could not be read; a fatal one ends the source. -/
  | unreadable (cause : Cause) (fatal : Bool) (pos : Position)
  | unknown
  deriving DecidableEq, Repr

end Assembler65816
