import Assembler65816.Machine.Mnemonic
import Assembler65816.Field
import Assembler65816.Text.Numeral

/-!
# Disassembly

Code is decoded from its start, one instruction after the other. A byte that is no opcode stands as
one byte of data. The width of an immediate operand depends on the width of the register it goes to,
and `rep` and `sep` with their operands change the widths for all that follows.
-/
namespace Assembler65816

/-- Which registers are 16 bits wide. -/
structure Widths where
  wideA : Bool := false
  wideXY : Bool := false
  deriving DecidableEq, Repr

structure Decoded where
  offset : Int64
  opcode : UInt8
  /-- What the opcode means, if it is one. -/
  meaning : Option (Mnemonic × Mode)
  operand : List UInt8
  deriving DecidableEq, Repr

namespace Decoded

/-- The number of bytes of the instruction. -/
def size (d : Decoded) : Nat := 1 + d.operand.length

def bytes (d : Decoded) : List UInt8 := d.opcode :: d.operand

/-- The mode, which for a byte that is no opcode counts as implied. -/
def mode (d : Decoded) : Mode := (d.meaning.map Prod.snd).getD .implied

/-- The mnemonic in small letters. -/
def mnemonicText (d : Decoded) : Text := (d.meaning.map fun (m, _) => m.lowerName).getD []

/-- The operand as an unsigned number. -/
def value (d : Decoded) : Nat := Field.read d.operand

/-- The operand as a signed number. -/
def displacement (d : Decoded) : Int :=
  let n := d.value
  let span := Nat.pow 256 d.operand.length
  if 2 * n < span then n else n - span

/-- Where a branch lands: its displacement counts from the byte after it. -/
def target (d : Decoded) : Int64 := d.offset + Int64.ofNat d.size + Int64.ofInt d.displacement

/-- The operand of a mode as it is written. -/
def operandText (d : Decoded) (mode : Mode) : Text :=
  mode.frame.fill <| ascii "$" ++
    if mode.size.isRelative then hexWide 4 d.target.toInt
    else hexWide (2 * d.operand.length) d.value

def text (d : Decoded) : Text :=
  match d.meaning with
  | none => ascii ".db $" ++ hexByte d.opcode
  | some (mnemonic, mode) =>
    mnemonic.lowerName ++
      if !d.operand.isEmpty then ascii " " ++ d.operandText mode
      else if mode = .accumulator then ascii " a"
      else []

/-- One line of a listing: offset, bytes, instruction. -/
def listing (d : Decoded) : Text :=
  let bytes := hexDump d.bytes
  hexWide 4 d.offset.toInt ++ ascii "  " ++ bytes ++ List.replicate (12 - bytes.length) 32 ++
    ascii " " ++ d.text ++ ascii "\n"

end Decoded

/-- Code that ends too early. -/
inductive Truncation
  | noCode
  /-- The operand is cut off; the instruction is given without it. -/
  | cut (mnemonic : Mnemonic) (d : Decoded)
  deriving DecidableEq, Repr

/-- As much of the instruction as there is. -/
def Truncation.decoded : Truncation → Decoded
  | noCode => ⟨0, 0, none, []⟩
  | cut _ d => d

def Truncation.message : Truncation → Text
  | noCode => ascii "truncated instruction"
  | cut mnemonic d =>
    ascii "truncated instruction: " ++ mnemonic.lowerName ++ ascii " at $" ++
      hexWide 4 d.offset.toInt

/-! ### Register widths -/

/-- Whether an immediate operand of the mnemonic has two bytes. -/
def Widths.isWide (w : Widths) : Mnemonic → Bool
  | .rep | .sep | .cop | .wdm | .brk => false
  | .ldx | .ldy | .cpx | .cpy => w.wideXY
  | _ => w.wideA

/-- Bit 5 of the operand of `rep` and `sep` is for the accumulator, bit 4 for the index registers.
-/
def Widths.after (w : Widths) (d : Decoded) : Widths :=
  match d.meaning, d.operand with
  | some (.rep, _), [b] => ⟨w.wideA || b &&& 0x20 != 0, w.wideXY || b &&& 0x10 != 0⟩
  | some (.sep, _), [b] => ⟨w.wideA && b &&& 0x20 == 0, w.wideXY && b &&& 0x10 == 0⟩
  | _, _ => w

/-! ### Decoding -/

/-- The mode of an opcode under the register widths. -/
def Opcode.Entry.modeUnder (e : Opcode.Entry) (w : Widths) : Mode :=
  if e.mode = .immediate8 ∧ w.isWide e.mnemonic then .immediate16 else e.mode

/-- Decodes the instruction at the start of `code`, which lies at `offset`. -/
def decode (code : List UInt8) (offset : Int64) (w : Widths) : Except Truncation Decoded :=
  match code with
  | [] => .error .noCode
  | b :: rest =>
    match Opcode.meaning? b with
    | none => .ok ⟨offset, b, none, []⟩
    | some e =>
      let mode := e.modeUnder w
      let operand := rest.take mode.width
      if operand.length < mode.width then
        .error (.cut e.mnemonic ⟨offset, b, some (e.mnemonic, mode), []⟩)
      else .ok ⟨offset, b, some (e.mnemonic, mode), operand⟩

/-- Decodes on from `pc`; `found` holds the instructions before it, latest first. -/
def decodeFrom (w : Widths) (pc : Nat) (found : List Decoded) (code : List UInt8) :
    List Decoded × Option Truncation :=
  match code with
  | [] => (found.reverse, none)
  | b :: rest =>
    match decode (b :: rest) (Int64.ofNat pc) w with
    | .error t => (found.reverse, some t)
    | .ok d => decodeFrom (w.after d) (pc + d.size) (d :: found) ((b :: rest).drop d.size)
termination_by code.length
decreasing_by
  simp only [Decoded.size, List.length_drop, List.length_cons]
  omega

/-- Every instruction of the code, up to one that is cut off. -/
def decodeAll (code : List UInt8) (w : Widths) : List Decoded × Option Truncation :=
  decodeFrom w 0 [] code

/-- The listing of the code, one instruction a line. -/
def disassemble (code : List UInt8) (w : Widths) : Text × Option Truncation :=
  let (found, truncation) := decodeAll code w
  (found.flatMap Decoded.listing, truncation)

end Assembler65816
