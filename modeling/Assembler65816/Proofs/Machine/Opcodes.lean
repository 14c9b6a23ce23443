import Assembler65816.Disassembly.Basic
import Assembler65816.Operand.Encoding

/-!
# The opcode table in both directions

An opcode byte does not say which mnemonic it was written for: a long jump has two names, and one
byte serves both widths of an immediate operand. It does say how many bytes follow, given the widths
of the registers, and that is what keeps a disassembly in step. The one exception is the operand of
`brk`, which its opcode byte does not show.
-/
namespace Assembler65816

theorem Mnemonic.mem_all (m : Mnemonic) : m ∈ Mnemonic.all := by
  cases m <;> decide

namespace Mode

def isImmediate : Mode → Bool
  | immediate8 | immediate16 => true
  | _ => false

end Mode

namespace Mnemonic

/-- The mnemonics whose immediate operand has one byte whatever the widths of the registers. -/
def isNarrow : Mnemonic → Bool
  | rep | sep | cop | wdm => true
  | _ => false

theorem mem_encodings_of_opcode? {m : Mnemonic} {mode : Mode} {b : UInt8}
    (h : m.opcode? mode = some b) : (mode, b) ∈ m.encodings := by
  obtain ⟨before, after, heq, -⟩ := List.lookup_eq_some_iff.1 h
  rw [heq]
  simp

/-- Every mnemonic can be read from its text. -/
theorem ofText?_lowerName (m : Mnemonic) : ofText? m.lowerName = some m := by
  have h : ∀ m ∈ all, ofText? m.lowerName = some m := by decide +kernel
  exact h m m.mem_all

end Mnemonic

namespace Opcode

/-- What an opcode byte tells of the entry it was taken from. -/
structure Entry.Recalls (e : Entry) (m : Mnemonic) (mode : Mode) (b : UInt8) : Prop where
  meaning : meaning? b = some e
  opcode : e.mnemonic.opcode? mode = some b
  immediate : mode.isImmediate → e.mnemonic = m ∧ e.mode = .immediate8
  other : mode.isImmediate = false → e.mode = mode
  narrow : m.isNarrow → mode = .immediate8
  rep : e.mnemonic = .rep ↔ m = .rep
  sep : e.mnemonic = .sep ↔ m = .sep

/-- Bytes compare as numbers do, and numbers compare faster in the kernel. -/
theorem meaning?_eq_find? (b : UInt8) :
    meaning? b = table.find? fun e => Nat.beq e.opcode.toNat b.toNat := by
  unfold meaning?
  congr 1
  funext e
  rw [Bool.eq_iff_iff, Nat.beq_eq, beq_iff_eq, UInt8.toNat_inj]

theorem exists_recalls {m : Mnemonic} {mode : Mode} {b : UInt8} (h : m.opcode? mode = some b)
    (hbrk : ¬(m = .brk ∧ mode = .immediate8)) : ∃ e : Entry, e.Recalls m mode b := by
  have htable : ∀ m ∈ Mnemonic.all, ∀ p ∈ m.encodings, ¬(m = .brk ∧ p.1 = .immediate8) →
      (table.find? fun e => Nat.beq e.opcode.toNat p.2.toNat).any fun e =>
        e.mnemonic.opcode? p.1 = some p.2 ∧
        (p.1.isImmediate → e.mnemonic = m ∧ e.mode = .immediate8) ∧
        (p.1.isImmediate = false → e.mode = p.1) ∧
        (m.isNarrow → p.1 = .immediate8) ∧
        (e.mnemonic = .rep ↔ m = .rep) ∧ (e.mnemonic = .sep ↔ m = .sep) := by
    decide +kernel
  have hentry := htable m m.mem_all (mode, b) (Mnemonic.mem_encodings_of_opcode? h) hbrk
  obtain ⟨e, he, hall⟩ := (Option.any_eq_true _ _).1 hentry
  obtain ⟨hopcode, himmediate, hother, hnarrow, hrep, hsep⟩ := of_decide_eq_true hall
  rw [← meaning?_eq_find?] at he
  exact ⟨e, he, hopcode, himmediate, hother, hnarrow, hrep, hsep⟩

end Opcode
end Assembler65816
