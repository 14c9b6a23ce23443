import Mathlib.Algebra.Ring.Nat
import Assembler65816.Proofs.Disassembly.RoundTrip

/-!
# The instructions of a disassembly tile the code

Decoding goes through the code once, and the position it has reached and the widths it assumes both
depend on all that was decoded before. This module says where that leads, for code of any kind. The
instructions lie side by side from the start of the code on, and what is left behind the last of
them is nothing, or the beginning of an instruction that the code does not finish. Each instruction
is what one finds at its place by decoding there, under widths that are a matter of two bits in the
status register: `rep` clears the bits of its operand and `sep` sets them, and a register is wide
while its bit is clear.
-/
namespace Assembler65816

namespace Widths

/-- A status register under which the registers have these widths. -/
def status (w : Widths) : UInt8 :=
  (if w.wideA then 0 else 0x20) ||| (if w.wideXY then 0 else 0x10)

/-- The widths under a status register: bit 5 narrows the accumulator, bit 4 the index registers. -/
def ofStatus (p : UInt8) : Widths := ⟨p &&& 0x20 == 0, p &&& 0x10 == 0⟩

theorem ofStatus_status (w : Widths) : ofStatus w.status = w := by
  obtain ⟨_ | _, _ | _⟩ := w <;> rfl

end Widths

def Decoded.status (p : UInt8) (d : Decoded) : UInt8 :=
  match d.meaning.map Prod.fst with
  | some .rep => d.operand.foldl (fun p b => p &&& ~~~b) p
  | some .sep => d.operand.foldl (fun p b => p ||| b) p
  | _ => p

/-- Bits are cleared and set one by one. -/
theorem testBit_status {k : Nat} (hk : k < 8) (p b : UInt8) :
    (p &&& ~~~b).toNat.testBit k = (p.toNat.testBit k && !b.toNat.testBit k) ∧
      (p ||| b).toNat.testBit k = (p.toNat.testBit k || b.toNat.testBit k) := by
  constructor
  · change (p &&& ~~~b).toBitVec.getLsbD k = (p.toBitVec.getLsbD k && !b.toBitVec.getLsbD k)
    rw [UInt8.toBitVec_and, UInt8.toBitVec_not, BitVec.getLsbD_and, BitVec.getLsbD_not,
      decide_eq_true hk, Bool.true_and]
  · change (p ||| b).toBitVec.getLsbD k = (p.toBitVec.getLsbD k || b.toBitVec.getLsbD k)
    rw [UInt8.toBitVec_or, BitVec.getLsbD_or]

namespace Widths

theorem ofStatus_eq (p : UInt8) : ofStatus p = ⟨!p.toNat.testBit 5, !p.toNat.testBit 4⟩ := by
  obtain ⟨hA, hXY⟩ := mask_ne_zero p
  rw [← hA, ← hXY, ofStatus, bne, bne, Bool.not_not, Bool.not_not]

/-- Clearing bits widens registers. -/
theorem ofStatus_clear (p b : UInt8) :
    ofStatus (p &&& ~~~b) =
      ⟨(ofStatus p).wideA || b &&& 0x20 != 0, (ofStatus p).wideXY || b &&& 0x10 != 0⟩ := by
  obtain ⟨hA, hXY⟩ := mask_ne_zero b
  rw [hA, hXY, ofStatus_eq, ofStatus_eq, (testBit_status (by decide) p b).1,
    (testBit_status (by decide) p b).1]
  simp only [Bool.not_and, Bool.not_not]

/-- Setting bits narrows them. -/
theorem ofStatus_set (p b : UInt8) :
    ofStatus (p ||| b) =
      ⟨(ofStatus p).wideA && b &&& 0x20 == 0, (ofStatus p).wideXY && b &&& 0x10 == 0⟩ := by
  obtain ⟨hA, hXY⟩ : (b &&& 0x20 == 0) = !b.toNat.testBit 5 ∧
      (b &&& 0x10 == 0) = !b.toNat.testBit 4 := by
    rw [← (mask_ne_zero b).1, ← (mask_ne_zero b).2, bne, bne, Bool.not_not, Bool.not_not]
    exact ⟨rfl, rfl⟩
  rw [hA, hXY, ofStatus_eq, ofStatus_eq, (testBit_status (by decide) p b).2,
    (testBit_status (by decide) p b).2]
  simp only [Bool.not_or]

end Widths

/-- The operands of `rep` and `sep` have one byte under all widths. -/
theorem Opcode.width_of_meaning? {b : UInt8} {e : Entry} (h : meaning? b = some e)
    (hm : e.mnemonic = .rep ∨ e.mnemonic = .sep) (w : Widths) : (e.modeUnder w).width = 1 := by
  obtain ⟨m, -, he⟩ := List.mem_flatMap.1 (List.mem_of_find?_eq_some h)
  obtain ⟨⟨mode, opcode⟩, hencoding, rfl⟩ := List.mem_map.1 he
  rcases hm with rfl | rfl <;>
  · cases List.mem_singleton.1 hencoding
    rfl

section
variable {code : List UInt8} {offset : Int64} {w : Widths} {d : Decoded}

/-- What is decoded is a byte that is no opcode, or an opcode with all of its operand. -/
theorem decode_eq_ok (h : decode code offset w = .ok d) :
    ∃ b rest, (Opcode.meaning? b = none ∧ code = b :: rest ∧ d = ⟨offset, b, none, []⟩) ∨
      ∃ e operand, Opcode.meaning? b = some e ∧ operand.length = (e.modeUnder w).width ∧
        code = b :: (operand ++ rest) ∧
        d = ⟨offset, b, some (e.mnemonic, e.modeUnder w), operand⟩ := by
  unfold decode at h
  split at h
  · cases h
  rename_i b rest
  split at h
  · rename_i hnone
    cases h
    exact ⟨b, rest, .inl ⟨hnone, rfl, rfl⟩⟩
  · rename_i e he
    simp only at h
    split at h
    · cases h
    · rename_i hlength
      cases h
      refine ⟨b, rest.drop (e.modeUnder w).width, .inr ⟨e, _, he, ?_, ?_, rfl⟩⟩
      · rw [List.length_take] at hlength ⊢
        omega
      · rw [List.take_append_drop]

/-- It is taken off the front of the code. -/
theorem eq_bytes_append (h : decode code offset w = .ok d) :
    d.offset = offset ∧ code = d.bytes ++ code.drop d.size := by
  have hbytes : ∀ rest, code = d.bytes ++ rest → code = d.bytes ++ code.drop d.size := by
    intro rest hcode
    have hsize : d.size = d.bytes.length := by
      rw [Decoded.size, Decoded.bytes, List.length_cons, Nat.add_comm]
    rw [hsize, hcode, List.drop_left]
  obtain ⟨b, rest, ⟨-, hcode, rfl⟩ | ⟨e, operand, -, -, hcode, rfl⟩⟩ := decode_eq_ok h
  · exact ⟨rfl, hbytes rest hcode⟩
  · exact ⟨rfl, hbytes rest hcode⟩

/-- The widths that are kept track of are those of the status register. -/
theorem Widths.after_ofStatus {p : UInt8} (h : decode code offset (.ofStatus p) = .ok d) :
    (ofStatus p).after d = ofStatus (d.status p) := by
  obtain ⟨b, rest, ⟨-, -, rfl⟩ | ⟨e, operand, he, hwidth, -, rfl⟩⟩ := decode_eq_ok h
  · rfl
  · by_cases hm : e.mnemonic = .rep ∨ e.mnemonic = .sep
    · rw [Opcode.width_of_meaning? he hm] at hwidth
      obtain ⟨c, rfl⟩ := List.length_eq_one_iff.1 hwidth
      rcases hm with hm | hm
      · simp only [after, Decoded.status, Option.map_some, hm]
        exact (ofStatus_clear p c).symm
      · simp only [after, Decoded.status, Option.map_some, hm]
        exact (ofStatus_set p c).symm
    · rw [not_or] at hm
      unfold after Decoded.status
      split
      · rename_i hrep _
        exact absurd (congrArg Prod.fst (Option.some.inj hrep)) hm.1
      · rename_i hsep _
        exact absurd (congrArg Prod.fst (Option.some.inj hsep)) hm.2
      · split
        · rename_i hrep
          exact absurd (Option.some.inj hrep) hm.1
        · rename_i hsep
          exact absurd (Option.some.inj hsep) hm.2
        · rfl

/-- Code that cannot be decoded begins an instruction that is longer than it. -/
theorem exists_of_decode_error {t : Truncation} (hne : code ≠ [])
    (h : decode code offset w = .error t) :
    ∃ d, decode d.bytes offset w = .ok d ∧ code <+: d.bytes ∧ code.length < d.size := by
  unfold decode at h
  split at h
  · exact absurd rfl hne
  rename_i b rest
  split at h
  · cases h
  rename_i e he
  simp only at h
  split at h
  · rename_i hlength
    rw [List.length_take] at hlength
    let missing := List.replicate ((e.modeUnder w).width - rest.length) (0 : UInt8)
    have hwidth : (rest ++ missing).length = (e.modeUnder w).width := by
      rw [List.length_append, List.length_replicate]
      omega
    refine ⟨⟨offset, b, some (e.mnemonic, e.modeUnder w), rest ++ missing⟩, ?_, ?_, ?_⟩
    · have hdecode := decode_append he rfl hwidth [] offset
      rwa [List.append_nil] at hdecode
    · exact List.prefix_append (b :: rest) missing
    · rw [Decoded.size, hwidth, List.length_cons]
      omega
  · cases h

end

namespace Decoded

/-- The number of bytes before the instruction with the number `k`. -/
def start (ds : List Decoded) (k : Nat) : Nat := ((ds.take k).map size).sum

def statusBefore (p : UInt8) (ds : List Decoded) (k : Nat) : UInt8 := (ds.take k).foldl status p

theorem start_succ (d : Decoded) (ds : List Decoded) (k : Nat) :
    start (d :: ds) (k + 1) = d.size + start ds k := by
  rw [start, List.take_succ_cons, List.map_cons, List.sum_cons, start]

theorem statusBefore_succ (p : UInt8) (d : Decoded) (ds : List Decoded) (k : Nat) :
    statusBefore p (d :: ds) (k + 1) = statusBefore (d.status p) ds k := rfl

/-- Code at `pc` that falls into instructions and a rest, from the status register `p` on. -/
structure Tiles (p : UInt8) (pc : Nat) (code : List UInt8) (ds : List Decoded)
    (rest : List UInt8) : Prop where
  bytes : code = ds.flatMap Decoded.bytes ++ rest
  decoded : ∀ k d, ds[k]? = some d →
    decode (code.drop (start ds k)) (Int64.ofNat (pc + start ds k))
      (.ofStatus (statusBefore p ds k)) = .ok d

theorem Tiles.nil (p : UInt8) (pc : Nat) (code : List UInt8) : Tiles p pc code [] code :=
  ⟨rfl, fun k d hd => by cases hd⟩

/-- One more instruction before the others. -/
theorem Tiles.cons {p : UInt8} {pc : Nat} {code : List UInt8} {d : Decoded} {ds : List Decoded}
    {rest : List UInt8} (hd : decode code (Int64.ofNat pc) (.ofStatus p) = .ok d)
    (h : Tiles (d.status p) (pc + d.size) (code.drop d.size) ds rest) :
    Tiles p pc code (d :: ds) rest := by
  constructor
  · rw [List.flatMap_cons, List.append_assoc, ← h.bytes]
    exact (eq_bytes_append hd).2
  · intro k d' hd'
    cases k with
    | zero =>
      cases hd'
      exact hd
    | succ k =>
      have hk := h.decoded k d' hd'
      rwa [List.drop_drop, Nat.add_assoc, ← start_succ, ← statusBefore_succ] at hk

/-- Where decoding may stop: at the end, or before code that cannot be decoded. -/
def StopsAt (p : UInt8) (pc : Nat) (rest : List UInt8) : Option Truncation → Prop
  | none => rest = []
  | some t => rest ≠ [] ∧ decode rest (Int64.ofNat pc) (.ofStatus p) = .error t

end Decoded

/-- Decoding finds instructions that tile the code up to the place where it stops. -/
theorem decodeFrom_tiles (p : UInt8) (pc : Nat) (found : List Decoded) (code : List UInt8) :
    ∃ ds rest, (decodeFrom (.ofStatus p) pc found code).1 = found.reverse ++ ds ∧
      Decoded.Tiles p pc code ds rest ∧
      Decoded.StopsAt (Decoded.statusBefore p ds ds.length) (pc + Decoded.start ds ds.length) rest
        (decodeFrom (.ofStatus p) pc found code).2 := by
  generalize hw : Widths.ofStatus p = w
  fun_induction decodeFrom w pc found code generalizing p with
  | case1 w pc found => exact ⟨[], [], (List.append_nil _).symm, .nil .., rfl⟩
  | case2 w pc found b code t ht =>
    subst hw
    exact ⟨[], b :: code, (List.append_nil _).symm, .nil .., List.cons_ne_nil b code, ht⟩
  | case3 w pc found b code d hd ih =>
    subst hw
    obtain ⟨ds, rest, hfound, htiles, hstop⟩ := ih (d.status p) (Widths.after_ofStatus hd).symm
    refine ⟨d :: ds, rest, ?_, .cons hd htiles, ?_⟩
    · rw [hfound, List.reverse_cons, List.append_assoc, List.singleton_append]
    · rwa [List.length_cons, Decoded.start_succ, Decoded.statusBefore_succ, ← Nat.add_assoc]

/-- The instructions of a disassembly lie side by side from the start of the code on. Each is what
decoding finds at its place, under the widths of the status register there. Without a truncation
they are all of the code; with one, they are all but the beginning of an instruction. -/
theorem decodeAll_tiles (code : List UInt8) (w : Widths) :
    let ds := (decodeAll code w).1
    let widths := fun k => Widths.ofStatus (Decoded.statusBefore w.status ds k)
    (∀ k d, ds[k]? = some d → d.offset = Int64.ofNat (Decoded.start ds k) ∧
      decode (code.drop (Decoded.start ds k)) (Int64.ofNat (Decoded.start ds k)) (widths k) =
        .ok d) ∧
    ∃ rest, code = ds.flatMap Decoded.bytes ++ rest ∧
      match (decodeAll code w).2 with
      | none => rest = []
      | some t =>
        let here := Int64.ofNat (Decoded.start ds ds.length)
        rest ≠ [] ∧ decode rest here (widths ds.length) = .error t ∧
          ∃ d, decode d.bytes here (widths ds.length) = .ok d ∧ rest <+: d.bytes ∧
            rest.length < d.size := by
  intro ds widths
  obtain ⟨found, rest, hfound, htiles, hstop⟩ := decodeFrom_tiles w.status 0 [] code
  rw [Widths.ofStatus_status] at hfound hstop
  have hds : ds = found := hfound
  subst hds
  simp only [Nat.zero_add] at hstop
  refine ⟨fun k d hd => ?_, rest, htiles.bytes, ?_⟩
  · have hk := htiles.decoded k d hd
    rw [Nat.zero_add] at hk
    exact ⟨(eq_bytes_append hk).1, hk⟩
  · cases htruncation : (decodeAll code w).2 with
    | none =>
      rw [decodeAll] at htruncation
      rwa [htruncation] at hstop
    | some t =>
      rw [decodeAll] at htruncation
      rw [htruncation] at hstop
      exact ⟨hstop.1, hstop.2, exists_of_decode_error hstop.1 hstop.2⟩

end Assembler65816
