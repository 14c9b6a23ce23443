import Assembler65816.Operand.Basic
import Assembler65816.Expression.Reduce
import Assembler65816.Machine.Mnemonic
import Assembler65816.Field

/-!
# Encoding one instruction

The image of an instruction is its opcode and one operand field of the mode's width. A constant
operand is written into the field, as a displacement if the mode is relative; for any other operand
the field holds zeros that a fixup fills later. A mnemonic without the implied mode takes the
accumulator instead.
-/
namespace Assembler65816

structure Encoded where
  bytes : List UInt8
  /-- Whether control never reaches the byte after the instruction. -/
  diverging : Bool
  deriving DecidableEq, Repr

inductive EncodeError
  | opcode (e : Opcode.LookupError)
  | field (e : FieldError)
  deriving DecidableEq, Repr

def EncodeError.message : EncodeError → Text
  | opcode (.unknownMnemonic written) => (Opcode.LookupError.unknownMnemonic written).message
  | opcode e => ascii "addressing mode mismatch: " ++ e.message
  | field e => ascii "field overflow: " ++ e.message

/-- The field of a mode that holds `v`. -/
def Mode.field (m : Mode) (v : Int64) : Except FieldError (List UInt8) :=
  if m.size.isRelative then Field.relative m.size v else Field.plain m.size v

/-- The operand field of a mode: the value of the operand if it has one, zeros otherwise. -/
def Mode.operandField (m : Mode) (e : Expression) : Except FieldError (List UInt8) :=
  match e.value? with
  | some v => if m.width = 0 then .ok [] else m.field v
  | none => .ok (List.replicate m.width 0)

/-- The mode and opcode that a mnemonic has for a mode. -/
def Opcode.choose (mnemonic : Text) (mode : Mode) : Except Opcode.LookupError (Mode × UInt8) :=
  match Opcode.find mnemonic mode with
  | .ok b => .ok (mode, b)
  | .error e =>
    match mode, Opcode.find mnemonic .accumulator with
    | .implied, .ok b => .ok (.accumulator, b)
    | _, _ => .error e

def isDivergingText (mnemonic : Text) : Bool := (Mnemonic.ofText? mnemonic).any (·.isDiverging)

def sizeOfText (mnemonic : Text) : Size := ((Mnemonic.ofText? mnemonic).map (·.size)).getD .any

def Encoded.of (mnemonic : Text) (mode : Mode) (e : Expression) : Except EncodeError Encoded :=
  match Opcode.choose mnemonic mode with
  | .error err => .error (.opcode err)
  | .ok (mode, b) =>
    match mode.operandField e with
    | .error err => .error (.field err)
    | .ok field => .ok ⟨b :: field, isDivergingText mnemonic⟩

/-! ### Sizes that nothing has settled -/

/-- Sizes to try for an operand, best first: what a constant fits from the narrowest up, a byte
first for a byte selector, and a word first for everything else. -/
def Operand.candidates (o : Operand) : List Size :=
  match o.expr.value? with
  | some v => [Size.byte, .word, .long].filter fun s => Field.fits s.width v
  | none => if o.expr.term.isSelector then [.byte, .word, .long] else [.word, .long, .byte]

/-- Whether the mnemonic has an encoding of the operand at a size. -/
def Operand.isEncodable (o : Operand) (mnemonic : Text) (s : Size) : Bool :=
  match o.mode s with
  | .ok m => (Opcode.find mnemonic m).isOk
  | .error _ => false

/-- The first candidate that the mnemonic can encode. -/
def Operand.inferSize (o : Operand) (mnemonic : Text) : Size :=
  (o.candidates.find? (o.isEncodable mnemonic)).getD .any

end Assembler65816
