import Assembler65816.Proofs.Disassembly.RoundTrip

/-!
# Instructions are decoded at their own length

A disassembly stays in step if it takes exactly the bytes of each instruction off the code, whatever
follows them. Several entries of the opcode table share one byte. Where they differ in the number of
operand bytes, the widths of the registers have to tell them apart, and for every immediate operand
of two widths they do. The main statement is that one instruction is left over: `brk` with an
operand has the opcode of `brk` without one, and no widths bring its operand back.
-/
namespace Assembler65816

/-- Whether code that starts with `bytes` is decoded as a known instruction of just these bytes,
whatever follows and wherever it lies. -/
def Widths.Delimits (w : Widths) (bytes : List UInt8) : Prop :=
  ∀ (rest : List UInt8) (offset : Int64), ∃ d : Decoded,
    decode (bytes ++ rest) offset w = .ok d ∧ d.meaning.isSome ∧ d.size = bytes.length ∧
      d.opcode :: d.operand = bytes

/-- Registers as wide as an operand in a mode asks for. -/
def Widths.forMode (mode : Mode) : Widths := ⟨mode == .immediate16, mode == .immediate16⟩

theorem Widths.isWide_forMode {m : Mnemonic} {mode : Mode} (hnarrow : m.isNarrow = false)
    (hbrk : m ≠ .brk) : (forMode mode).isWide m = (mode == .immediate16) := by
  rw [isWide_eq_register _ hnarrow hbrk]
  cases m <;> rfl

/-- An encoded instruction is its opcode and as many operand bytes as the mode has. -/
theorem Encoded.of_eq_ok {written : Text} {mode : Mode} {e : Expression} {enc : Encoded}
    (h : Encoded.of written mode e = .ok enc) :
    ∃ m mode' b field, Mnemonic.ofText? written = some m ∧ m.opcode? mode' = some b ∧
      (mode' = mode ∨ mode = .implied ∧ mode' = .accumulator) ∧
      field.length = mode'.width ∧ enc.bytes = b :: field := by
  unfold Encoded.of at h
  split at h
  · cases h
  rename_i mode' b hchoose
  split at h
  · cases h
  rename_i field hfield
  cases h
  obtain ⟨hfind, hmode⟩ := Opcode.choose_eq_ok hchoose
  obtain ⟨m, hm, hopcode⟩ := Opcode.find_eq_ok hfind
  exact ⟨m, mode', b, field, hm, hopcode, hmode, Mode.length_operandField hfield, rfl⟩

section
variable {m : Mnemonic} {mode : Mode} {b : UInt8} {field : List UInt8}

/-- An opcode that is not the one of `brk` with an operand shows its length to a decoder with
registers of the right width. -/
theorem Widths.delimits_forMode (hopcode : m.opcode? mode = some b)
    (hbrk : ¬(m = .brk ∧ mode = .immediate8)) (hwidth : field.length = mode.width) :
    (forMode mode).Delimits (b :: field) := by
  obtain ⟨e, he⟩ := Opcode.exists_recalls hopcode hbrk
  have hmode : e.modeUnder (forMode mode) = mode := by
    refine he.modeUnder_eq fun himmediate hnarrow => ?_
    have hnotBrk : m ≠ .brk := by
      rintro rfl
      cases mode with
      | immediate8 => exact hbrk ⟨rfl, rfl⟩
      | immediate16 => cases hopcode
      | _ => cases himmediate
    rw [isWide_forMode hnarrow hnotBrk, beq_iff_eq]
  intro rest offset
  refine ⟨⟨offset, b, some (e.mnemonic, mode), field⟩, ?_, rfl, ?_, rfl⟩
  · exact decode_append he.meaning hmode hwidth rest offset
  · rw [Decoded.size, List.length_cons, Nat.add_comm]

/-- The opcode of `brk` is taken for the whole instruction. -/
theorem Widths.not_delimits_brk (hopcode : Mnemonic.brk.opcode? .immediate8 = some b)
    (hwidth : field.length = 1) (w : Widths) : ¬w.Delimits (b :: field) := by
  intro h
  cases hopcode
  obtain ⟨d, hd, -, hsize, -⟩ := h [] 0
  have hdecode : decode (0x00 :: field ++ []) 0 w = .ok ⟨0, 0x00, some (.brk, .implied), []⟩ := rfl
  cases hdecode.symm.trans hd
  rw [List.length_cons, hwidth] at hsize
  cases hsize

end

/-- An instruction that can be encoded can be decoded at its own length, with its own opcode and
operand, exactly if it is not `brk` with an operand. -/
theorem Encoded.exists_delimits_iff {written : Text} {mode : Mode} {e : Expression} {enc : Encoded}
    (h : Encoded.of written mode e = .ok enc) :
    (∃ w : Widths, w.Delimits enc.bytes) ↔
      ¬(Mnemonic.ofText? written = some .brk ∧ mode = .immediate8) := by
  obtain ⟨m, mode', b, field, hm, hopcode, hmode, hwidth, hbytes⟩ := Encoded.of_eq_ok h
  rw [hbytes]
  constructor
  · rintro ⟨w, hw⟩ ⟨hbrk, rfl⟩
    cases hm.symm.trans hbrk
    have hsame : mode' = .immediate8 := by
      rcases hmode with rfl | ⟨himplied, -⟩
      · rfl
      · cases himplied
    subst hsame
    exact Widths.not_delimits_brk hopcode hwidth w hw
  · intro hbrk
    refine ⟨.forMode mode', Widths.delimits_forMode hopcode ?_ hwidth⟩
    rintro ⟨rfl, rfl⟩
    refine hbrk ⟨hm, ?_⟩
    rcases hmode with rfl | ⟨-, haccumulator⟩
    · rfl
    · cases haccumulator

/-- A wide load is told from a narrow one by the widths, and `brk` keeps its operand to itself. -/
theorem Encoded.exists_delimits_of_load_not_brk :
    let load : Encoded := ⟨[0xA9, 0x34, 0x12], false⟩
    let brk : Encoded := ⟨[0x00, 0x12], false⟩
    (Encoded.of (ascii "lda") .immediate16 (.ofTerm (.constant 0x1234)) = .ok load ∧
        ∃ w : Widths, w.Delimits load.bytes) ∧
      Encoded.of (ascii "BRK") .immediate8 (.ofTerm (.constant 0x12)) = .ok brk ∧
        ¬∃ w : Widths, w.Delimits brk.bytes := by
  intro load brk
  have hload : Encoded.of (ascii "lda") .immediate16 (.ofTerm (.constant 0x1234)) = .ok load := by
    decide +kernel
  have hbrk : Encoded.of (ascii "BRK") .immediate8 (.ofTerm (.constant 0x12)) = .ok brk := by
    decide +kernel
  refine ⟨⟨hload, ?_⟩, hbrk, ?_⟩
  · rw [exists_delimits_iff hload]
    decide +kernel
  · rw [exists_delimits_iff hbrk]
    decide +kernel

/-- Not every instruction that can be encoded can be decoded at its own length. -/
theorem Encoded.exists_of_not_delimits :
    ∃ (written : Text) (mode : Mode) (e : Expression) (enc : Encoded),
      Encoded.of written mode e = .ok enc ∧ ∀ w : Widths, ¬w.Delimits enc.bytes := by
  refine ⟨ascii "brk", .immediate8, .ofTerm (.constant 0x12), ⟨[0x00, 0x12], false⟩, ?_, ?_⟩
  · decide +kernel
  · exact Widths.not_delimits_brk rfl rfl

end Assembler65816
