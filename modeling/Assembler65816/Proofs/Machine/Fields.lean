import Mathlib.Algebra.Ring.Int.Defs
import Mathlib.Algebra.Ring.Nat
import Assembler65816.Proofs.Disassembly.Branches
import Assembler65816.Proofs.Statement.Values

/-!
# Fields written and read back

The assembler writes fields and the disassembler reads operands. The main statement is that the two
are inverse. It says for every buffer, size and value when a writer succeeds, that it then changes
the bytes of the field and no others, and that what is read from these bytes is the value: modulo
what the field can hold, or with its sign if the field is relative.
-/
namespace Assembler65816

namespace Field

/-- What a buffer holds once a writer was called on it. A writer that fails hands no bytes back. -/
def settled (buffer : List UInt8) (result : Except FieldError (List UInt8)) : List UInt8 :=
  result.toOption.getD buffer

section Result
variable {buffer after : List UInt8} {result : Except FieldError (List UInt8)}

theorem settled_ok : settled buffer (.ok after) = after := rfl

theorem settled_of_not_isOk (h : ¬result.isOk) : settled buffer result = buffer := by
  cases result with
  | error e => rfl
  | ok after => exact absurd rfl h

end Result

/-- Whether `after` is the buffer with `v` in its first `width` bytes, as every reader sees it. -/
structure Stored (buffer after : List UInt8) (width : Nat) (v : Int64) : Prop where
  length_eq : after.length = buffer.length
  untouched : ∀ i, width ≤ i → after[i]? = buffer[i]?
  value_eq : ∀ d : Decoded, d.operand = after.take width →
    (d.value : Int) = v.toInt % 2 ^ (8 * width)
  read24_eq : width = 3 → (read24 after : Int) = v.toInt % 2 ^ 24

variable {buffer after : List UInt8} {size : Size} {v : Int64}

theorem isRelative_iff : size.isRelative ↔ size ∈ [Size.relByte, .relWord] := by
  cases size <;> simp [Size.isRelative]

/-- The sizes of plain fields are those that have bytes and are not relative. -/
theorem isPlain_iff : ¬(size.width = 0 ∨ size.isRelative) ↔ size ∈ [Size.byte, .word, .long] := by
  cases size <;> simp [Size.width, Size.isRelative]

theorem write_eq_ok_iff :
    write buffer size v = .ok after ↔
      size ∈ [Size.byte, .word, .long] ∧ size.width ≤ buffer.length ∧
        (-2 ^ (8 * size.width - 1) ≤ v.toInt ∧ v.toInt < 2 ^ (8 * size.width)) ∧
        after = bytes size.width v ++ buffer.drop size.width := by
  unfold write
  by_cases hsize : size ∈ [Size.byte, .word, .long]
  · rw [if_neg (isPlain_iff.2 hsize), plain_eq hsize]
    by_cases hshort : buffer.length < size.width
    · rw [if_pos hshort]
      simp [Nat.not_le.2 hshort]
    · rw [if_neg hshort]
      split
      · next hfits => simp [Except.map, hsize, Nat.not_lt.1 hshort, hfits, eq_comm]
      · next hfits => simp [Except.map, hfits]
  · rw [if_pos (Classical.not_not.1 fun h => hsize (isPlain_iff.1 h))]
    simp [hsize]

theorem writeRelative_eq_ok_iff :
    writeRelative buffer size v = .ok after ↔
      size ∈ [Size.relByte, .relWord] ∧ size.width ≤ buffer.length ∧
        (-2 ^ (8 * size.width - 1) ≤ v.toInt ∧ v.toInt < 2 ^ (8 * size.width - 1)) ∧
        after = bytes size.width v ++ buffer.drop size.width := by
  unfold writeRelative
  by_cases hrel : size.isRelative
  · have hsize := isRelative_iff.1 hrel
    rw [← relFits_iff hrel, if_neg (by simp [hrel])]
    by_cases hshort : buffer.length < size.width
    · rw [if_pos hshort]
      simp [Nat.not_le.2 hshort]
    · rw [if_neg hshort]
      by_cases hfits : relFits size v
      · rw [relative_of_fits hrel hfits]
        simp [Except.map, hsize, Nat.not_lt.1 hshort, hfits, eq_comm]
      · rw [relative_of_not_fits hrel hfits]
        simp [Except.map, hfits]
  · rw [if_pos (by simp [hrel]), ← isRelative_iff]
    simp [hrel]

/-- The bytes of a value in front of what was there behind them. -/
theorem stored_bytes {width : Nat} (hwidth : width ≤ 3) (hlength : width ≤ buffer.length) :
    Stored buffer (bytes width v ++ buffer.drop width) width v := by
  have htake : (bytes width v ++ buffer.drop width).take width = bytes width v :=
    List.take_left' (length_bytes width v)
  have hread : (read (bytes width v) : Int) = v.toInt % 2 ^ (8 * width) := by
    have hpow : 256 ^ width = 2 ^ (8 * width) := (Nat.pow_mul 2 8 width).symm
    rw [read_bytes (Nat.le_trans hwidth (by decide)), hpow, Int.natCast_pow]
    rfl
  refine ⟨?_, fun i hi => ?_, fun d hd => ?_, ?_⟩
  · simp only [List.length_append, length_bytes, List.length_drop]
    omega
  · rw [List.getElem?_append_right (by rwa [length_bytes]), length_bytes, List.getElem?_drop]
    congr 1
    omega
  · rw [Decoded.value, hd, htake, hread]
  · rintro rfl
    rw [read24, htake, hread]

/-- A displacement in range keeps its sign. -/
theorem displacement_of_stored {d : Decoded} (hsize : size ∈ [Size.relByte, .relWord])
    (hrange : -2 ^ (8 * size.width - 1) ≤ v.toInt ∧ v.toInt < 2 ^ (8 * size.width - 1))
    (hoperand : d.operand = (bytes size.width v ++ buffer.drop size.width).take size.width) :
    d.displacement = v.toInt := by
  rw [List.take_left' (length_bytes size.width v)] at hoperand
  exact Decoded.displacement_eq ((relFits_iff (isRelative_iff.2 hsize)).2 hrange) hoperand

/-- Writers and readers of fields are inverse. A plain writer succeeds exactly if the size is that
of a plain field, the buffer holds as many bytes and the value has a signed or an unsigned reading
of that width, a relative one exactly if the size is relative and the displacement has a signed
reading. On success the field reads back and all behind it stays; on failure nothing changes. -/
theorem write_reads_back (buffer : List UInt8) (size : Size) (v : Int64) :
    let plain := write buffer size v
    let relative := writeRelative buffer size v
    (plain.isOk ↔ size ∈ [Size.byte, .word, .long] ∧ size.width ≤ buffer.length ∧
      -2 ^ (8 * size.width - 1) ≤ v.toInt ∧ v.toInt < 2 ^ (8 * size.width)) ∧
    (relative.isOk ↔ size ∈ [Size.relByte, .relWord] ∧ size.width ≤ buffer.length ∧
      -2 ^ (8 * size.width - 1) ≤ v.toInt ∧ v.toInt < 2 ^ (8 * size.width - 1)) ∧
    (plain.isOk → Stored buffer (settled buffer plain) size.width v) ∧
    (relative.isOk → Stored buffer (settled buffer relative) size.width v ∧
      ∀ d : Decoded, d.operand = (settled buffer relative).take size.width →
        d.displacement = v.toInt) ∧
    (¬plain.isOk → settled buffer plain = buffer) ∧
    (¬relative.isOk → settled buffer relative = buffer) := by
  intro plain relative
  refine ⟨?_, ?_, fun hok => ?_, fun hok => ?_, settled_of_not_isOk, settled_of_not_isOk⟩
  · simp only [Except.isOk_iff, plain, write_eq_ok_iff, exists_and_left, exists_eq, and_true]
  · simp only [Except.isOk_iff, relative, writeRelative_eq_ok_iff, exists_and_left, exists_eq,
      and_true]
  · obtain ⟨after, hafter⟩ := Except.isOk_iff.1 hok
    obtain ⟨-, hlength, -, rfl⟩ := write_eq_ok_iff.1 hafter
    rw [hafter, settled_ok]
    exact stored_bytes size.width_le hlength
  · obtain ⟨after, hafter⟩ := Except.isOk_iff.1 hok
    obtain ⟨hsize, hlength, hrange, rfl⟩ := writeRelative_eq_ok_iff.1 hafter
    rw [hafter, settled_ok]
    exact ⟨stored_bytes size.width_le hlength, fun d => displacement_of_stored hsize hrange⟩

/-- A negative word and a negative displacement are read back, and a value that is one too large for
its byte leaves the buffer alone. -/
theorem write_reads_back_negative :
    let buffer : List UInt8 := [0xEE, 0xEE, 0xEE]
    let branch : Decoded := ⟨0, 0x80, some (.bra, .relative8), [0xFD]⟩
    (write buffer .word (-2)).isOk ∧ Stored buffer [0xFE, 0xFF, 0xEE] 2 (-2) ∧
      (writeRelative buffer .relByte (-3)).isOk ∧ branch.displacement = (-3 : Int64).toInt ∧
      ¬(write buffer .byte 256).isOk ∧ settled buffer (write buffer .byte 256) = buffer := by
  intro buffer branch
  have hword : (write buffer .word (-2)).isOk := by decide
  have hrelative : (writeRelative buffer .relByte (-3)).isOk := by decide
  have hlarge : ¬(write buffer .byte 256).isOk := by decide
  obtain ⟨-, -, hstored, -⟩ := write_reads_back buffer .word (-2)
  obtain ⟨-, -, -, hdisplaced, -⟩ := write_reads_back buffer .relByte (-3)
  obtain ⟨-, -, -, -, hkept, -⟩ := write_reads_back buffer .byte 256
  exact ⟨hword, hstored hword, hrelative, (hdisplaced hrelative).2 branch rfl, hlarge,
    hkept hlarge⟩

end Field
end Assembler65816
