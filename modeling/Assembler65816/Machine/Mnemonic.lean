import Assembler65816.Machine.Mode
import Assembler65816.Text.Case

/-!
# Mnemonics and opcodes

One table lists, for every mnemonic, the modes it has and the opcode byte of each. Both directions
read it: `Mnemonic.opcode?` looks a mode up, and `Opcode.meaning?` finds the first entry with a
byte, in alphabetical order of mnemonics. Two widths of an immediate share one byte, as do the
second names of the long jumps.

Block moves have no entry.
-/
namespace Assembler65816

inductive Mnemonic
  | adc | and | asl | bcc | bcs | beq | bit | bmi | bne | bpl | bra | brk | brl | bvc | bvs | clc
  | cld | cli | clv | cmp | cop | cpx | cpy | dec | dex | dey | eor | inc | inx | iny | jml | jmp
  | jsl | jsr | lda | ldx | ldy | lsr | nop | ora | pea | pei | per | pha | phb | phd | phk | php
  | phx | phy | pla | plb | pld | plp | plx | ply | rep | rol | ror | rti | rtl | rts | sbc | sec
  | sed | sei | sep | sta | stp | stx | sty | stz | tax | tay | tcd | tcs | tdc | trb | tsb | tsc
  | tsx | txa | txs | txy | tya | tyx | wai | wdm | xba | xce
  deriving DecidableEq, Repr

namespace Mnemonic

/-- Every mnemonic, in alphabetical order. -/
def all : List Mnemonic :=
  [adc, and, asl, bcc, bcs, beq, bit, bmi, bne, bpl, bra, brk, brl, bvc, bvs, clc, cld, cli, clv,
   cmp, cop, cpx, cpy, dec, dex, dey, eor, inc, inx, iny, jml, jmp, jsl, jsr, lda, ldx, ldy, lsr,
   nop, ora, pea, pei, per, pha, phb, phd, phk, php, phx, phy, pla, plb, pld, plp, plx, ply, rep,
   rol, ror, rti, rtl, rts, sbc, sec, sed, sei, sep, sta, stp, stx, sty, stz, tax, tay, tcd, tcs,
   tdc, trb, tsb, tsc, tsx, txa, txs, txy, tya, tyx, wai, wdm, xba, xce]

def name : Mnemonic → String
  | adc => "ADC"
  | and => "AND"
  | asl => "ASL"
  | bcc => "BCC"
  | bcs => "BCS"
  | beq => "BEQ"
  | bit => "BIT"
  | bmi => "BMI"
  | bne => "BNE"
  | bpl => "BPL"
  | bra => "BRA"
  | brk => "BRK"
  | brl => "BRL"
  | bvc => "BVC"
  | bvs => "BVS"
  | clc => "CLC"
  | cld => "CLD"
  | cli => "CLI"
  | clv => "CLV"
  | cmp => "CMP"
  | cop => "COP"
  | cpx => "CPX"
  | cpy => "CPY"
  | dec => "DEC"
  | dex => "DEX"
  | dey => "DEY"
  | eor => "EOR"
  | inc => "INC"
  | inx => "INX"
  | iny => "INY"
  | jml => "JML"
  | jmp => "JMP"
  | jsl => "JSL"
  | jsr => "JSR"
  | lda => "LDA"
  | ldx => "LDX"
  | ldy => "LDY"
  | lsr => "LSR"
  | nop => "NOP"
  | ora => "ORA"
  | pea => "PEA"
  | pei => "PEI"
  | per => "PER"
  | pha => "PHA"
  | phb => "PHB"
  | phd => "PHD"
  | phk => "PHK"
  | php => "PHP"
  | phx => "PHX"
  | phy => "PHY"
  | pla => "PLA"
  | plb => "PLB"
  | pld => "PLD"
  | plp => "PLP"
  | plx => "PLX"
  | ply => "PLY"
  | rep => "REP"
  | rol => "ROL"
  | ror => "ROR"
  | rti => "RTI"
  | rtl => "RTL"
  | rts => "RTS"
  | sbc => "SBC"
  | sec => "SEC"
  | sed => "SED"
  | sei => "SEI"
  | sep => "SEP"
  | sta => "STA"
  | stp => "STP"
  | stx => "STX"
  | sty => "STY"
  | stz => "STZ"
  | tax => "TAX"
  | tay => "TAY"
  | tcd => "TCD"
  | tcs => "TCS"
  | tdc => "TDC"
  | trb => "TRB"
  | tsb => "TSB"
  | tsc => "TSC"
  | tsx => "TSX"
  | txa => "TXA"
  | txs => "TXS"
  | txy => "TXY"
  | tya => "TYA"
  | tyx => "TYX"
  | wai => "WAI"
  | wdm => "WDM"
  | xba => "XBA"
  | xce => "XCE"

/-- The mnemonic as it is written in listings. -/
def lowerName (m : Mnemonic) : Text := (ascii m.name).map Case.lowerByte

/-- Each mnemonic beside the bytes of its name. -/
def named : List (Text × Mnemonic) := all.map fun m => (ascii m.name, m)

/-- The mnemonic a text names, whatever the case of its letters. -/
def ofText? (t : Text) : Option Mnemonic := named.lookup t.upper

/-! ### The opcode table -/

/-- The modes of the accumulator instructions, whose opcodes lie at fixed distances from a base. -/
def alu (base : UInt8) : List (Mode × UInt8) :=
  [(.immediate8, base + 0x09), (.immediate16, base + 0x09), (.direct, base + 0x05),
   (.directX, base + 0x15), (.directIndirect, base + 0x12), (.directXIndirect, base + 0x01),
   (.directIndirectY, base + 0x11), (.directIndirectLong, base + 0x07),
   (.directIndirectLongY, base + 0x17), (.absolute, base + 0x0D), (.absoluteX, base + 0x1D),
   (.absoluteY, base + 0x19), (.long, base + 0x0F), (.longX, base + 0x1F),
   (.stackRelative, base + 0x03), (.stackRelativeIndirectY, base + 0x13)]

/-- The modes of the shifts and rotations. -/
def shift (base : UInt8) : List (Mode × UInt8) :=
  [(.accumulator, base + 0x0A), (.direct, base + 0x06), (.directX, base + 0x16),
   (.absolute, base + 0x0E), (.absoluteX, base + 0x1E)]

/-- The modes of a mnemonic with their opcodes, in the order of the mode codes. -/
def encodings : Mnemonic → List (Mode × UInt8)
  | adc => alu 0x60
  | and => alu 0x20
  | asl => shift 0x00
  | bcc => [(.relative8, 0x90)]
  | bcs => [(.relative8, 0xB0)]
  | beq => [(.relative8, 0xF0)]
  | bit =>
    [(.immediate8, 0x89), (.immediate16, 0x89), (.direct, 0x24), (.directX, 0x34),
     (.absolute, 0x2C), (.absoluteX, 0x3C)]
  | bmi => [(.relative8, 0x30)]
  | bne => [(.relative8, 0xD0)]
  | bpl => [(.relative8, 0x10)]
  | bra => [(.relative8, 0x80)]
  | brk => [(.implied, 0x00), (.immediate8, 0x00)]
  | brl => [(.relative16, 0x82)]
  | bvc => [(.relative8, 0x50)]
  | bvs => [(.relative8, 0x70)]
  | clc => [(.implied, 0x18)]
  | cld => [(.implied, 0xD8)]
  | cli => [(.implied, 0x58)]
  | clv => [(.implied, 0xB8)]
  | cmp => alu 0xC0
  | cop => [(.immediate8, 0x02)]
  | cpx => [(.immediate8, 0xE0), (.immediate16, 0xE0), (.direct, 0xE4), (.absolute, 0xEC)]
  | cpy => [(.immediate8, 0xC0), (.immediate16, 0xC0), (.direct, 0xC4), (.absolute, 0xCC)]
  | dec =>
    [(.accumulator, 0x3A), (.direct, 0xC6), (.directX, 0xD6), (.absolute, 0xCE),
     (.absoluteX, 0xDE)]
  | dex => [(.implied, 0xCA)]
  | dey => [(.implied, 0x88)]
  | eor => alu 0x40
  | inc =>
    [(.accumulator, 0x1A), (.direct, 0xE6), (.directX, 0xF6), (.absolute, 0xEE),
     (.absoluteX, 0xFE)]
  | inx => [(.implied, 0xE8)]
  | iny => [(.implied, 0xC8)]
  | jml => [(.absoluteIndirectLong, 0xDC), (.long, 0x5C)]
  | jmp =>
    [(.absolute, 0x4C), (.absoluteIndirect, 0x6C), (.absoluteXIndirect, 0x7C),
     (.absoluteIndirectLong, 0xDC), (.long, 0x5C)]
  | jsl => [(.long, 0x22)]
  | jsr => [(.absolute, 0x20), (.absoluteXIndirect, 0xFC), (.long, 0x22)]
  | lda => alu 0xA0
  | ldx =>
    [(.immediate8, 0xA2), (.immediate16, 0xA2), (.direct, 0xA6), (.directY, 0xB6),
     (.absolute, 0xAE), (.absoluteY, 0xBE)]
  | ldy =>
    [(.immediate8, 0xA0), (.immediate16, 0xA0), (.direct, 0xA4), (.directX, 0xB4),
     (.absolute, 0xAC), (.absoluteX, 0xBC)]
  | lsr => shift 0x40
  | nop => [(.implied, 0xEA)]
  | ora => alu 0x00
  | pea => [(.absolute, 0xF4)]
  | pei => [(.directIndirect, 0xD4)]
  | per => [(.relative16, 0x62)]
  | pha => [(.implied, 0x48)]
  | phb => [(.implied, 0x8B)]
  | phd => [(.implied, 0x0B)]
  | phk => [(.implied, 0x4B)]
  | php => [(.implied, 0x08)]
  | phx => [(.implied, 0xDA)]
  | phy => [(.implied, 0x5A)]
  | pla => [(.implied, 0x68)]
  | plb => [(.implied, 0xAB)]
  | pld => [(.implied, 0x2B)]
  | plp => [(.implied, 0x28)]
  | plx => [(.implied, 0xFA)]
  | ply => [(.implied, 0x7A)]
  | rep => [(.immediate8, 0xC2)]
  | rol => shift 0x20
  | ror => shift 0x60
  | rti => [(.implied, 0x40)]
  | rtl => [(.implied, 0x6B)]
  | rts => [(.implied, 0x60)]
  | sbc => alu 0xE0
  | sec => [(.implied, 0x38)]
  | sed => [(.implied, 0xF8)]
  | sei => [(.implied, 0x78)]
  | sep => [(.immediate8, 0xE2)]
  | sta => (alu 0x80).filter fun (mode, _) => mode != .immediate8 && mode != .immediate16
  | stp => [(.implied, 0xDB)]
  | stx => [(.direct, 0x86), (.directY, 0x96), (.absolute, 0x8E)]
  | sty => [(.direct, 0x84), (.directX, 0x94), (.absolute, 0x8C)]
  | stz => [(.direct, 0x64), (.directX, 0x74), (.absolute, 0x9C), (.absoluteX, 0x9E)]
  | tax => [(.implied, 0xAA)]
  | tay => [(.implied, 0xA8)]
  | tcd => [(.implied, 0x5B)]
  | tcs => [(.implied, 0x1B)]
  | tdc => [(.implied, 0x7B)]
  | trb => [(.direct, 0x14), (.absolute, 0x1C)]
  | tsb => [(.direct, 0x04), (.absolute, 0x0C)]
  | tsc => [(.implied, 0x3B)]
  | tsx => [(.implied, 0xBA)]
  | txa => [(.implied, 0x8A)]
  | txs => [(.implied, 0x9A)]
  | txy => [(.implied, 0x9B)]
  | tya => [(.implied, 0x98)]
  | tyx => [(.implied, 0xBB)]
  | wai => [(.implied, 0xCB)]
  | wdm => [(.immediate8, 0x42)]
  | xba => [(.implied, 0xEB)]
  | xce => [(.implied, 0xFB)]

def opcode? (m : Mnemonic) (mode : Mode) : Option UInt8 := m.encodings.lookup mode

/-! ### What a mnemonic says about its operand -/

def isBranch : Mnemonic → Bool
  | bcc | bcs | beq | bmi | bne | bpl | bra | bvc | bvs => true
  | _ => false

/-- Instructions that have the implied mode only. -/
def isImplied : Mnemonic → Bool
  | clc | cld | cli | clv | dex | dey | inx | iny | nop | pha | phb | phd | phk | php | phx
  | phy | pla | plb | pld | plp | plx | ply | rti | rtl | rts | sec | sed | sei | stp | tax
  | tay | tcd | tcs | tdc | tsc | tsx | txa | txs | txy | tya | tyx | wai | xba | xce => true
  | _ => false

/-- The size a mnemonic imposes on its operand. -/
def size (m : Mnemonic) : Size :=
  if m.isBranch then .relByte
  else if m.isImplied then .implicit
  else match m with
    | brl | per => .relWord
    | jsl => .long
    | pea => .word
    | rep | sep | cop | wdm | pei => .byte
    | _ => .any

/-- Whether control never reaches the byte after the instruction. -/
def isDiverging : Mnemonic → Bool
  | bra | brl | jmp | jml | rts | rtl | rti | stp => true
  | _ => false

end Mnemonic

namespace Opcode

/-- One line of the table. -/
structure Entry where
  mnemonic : Mnemonic
  mode : Mode
  opcode : UInt8
  deriving DecidableEq, Repr

/-- The whole table, by mnemonic and then by mode. -/
def table : List Entry :=
  Mnemonic.all.flatMap fun m => m.encodings.map fun (mode, opcode) => ⟨m, mode, opcode⟩

/-- What an opcode byte means. An immediate operand is taken as one byte wide; the width of the
register decides whether it is. -/
def meaning? (b : UInt8) : Option Entry := table.find? (·.opcode == b)

inductive LookupError
  | unknownMnemonic (written : Text)
  | noMode (written : Text) (mode : Mode)
  deriving DecidableEq, Repr

def LookupError.message : LookupError → Text
  | unknownMnemonic written => ascii "unknown mnemonic: " ++ written
  | noMode written mode =>
    ascii "addressing mode not available: " ++ written.lower ++ ascii " " ++ mode.name

/-- The opcode byte of a written mnemonic in a mode. -/
def find (written : Text) (mode : Mode) : Except LookupError UInt8 :=
  match Mnemonic.ofText? written with
  | none => .error (.unknownMnemonic written)
  | some m =>
    match m.opcode? mode with
    | none => .error (.noMode written mode)
    | some b => .ok b

end Opcode
end Assembler65816
