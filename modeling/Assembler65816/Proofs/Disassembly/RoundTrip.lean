import Assembler65816.Proofs.Assembly.Bounds
import Assembler65816.Proofs.Chunk.Layout
import Assembler65816.Proofs.Machine.Opcodes
import Assembler65816.Proofs.Operand.Encoding

/-!
# Disassembling what was assembled

A program of instructions whose operands are constants comes back from its bytes: the disassembly
has one instruction for each of the program, in the same mode and with the same operand bytes. The
bytes do not say how wide an immediate operand is, so the program has to agree with the register
widths that the disassembly keeps track of; and `brk` must not have an operand, which its opcode
does not show.

The argument has two halves. Closing the segment does not change the bytes, since whatever is
patched into an operand field is already there. And decoding takes one instruction off the front at
a time, with the widths that the instructions before it leave behind.
-/
namespace Assembler65816

namespace Widths

/-- Whether the register of an immediate operand is wide. -/
def register (w : Widths) : Mnemonic → Bool
  | .ldx | .ldy | .cpx | .cpy => w.wideXY
  | _ => w.wideA

/-- The widths after an instruction. Bit 5 of the operand of `rep` and `sep` is for the accumulator,
bit 4 for the index registers. -/
def folded (w : Widths) (i : Instruction) : Widths :=
  match Mnemonic.ofText? i.mnemonic, i.arg.expr.value? with
  | some .rep, some v =>
    ⟨w.wideA || v.toUInt64.toNat.testBit 5, w.wideXY || v.toUInt64.toNat.testBit 4⟩
  | some .sep, some v =>
    ⟨w.wideA && !v.toUInt64.toNat.testBit 5, w.wideXY && !v.toUInt64.toNat.testBit 4⟩
  | _, _ => w

theorem isWide_eq_register (w : Widths) {m : Mnemonic} (hnarrow : m.isNarrow = false)
    (hbrk : m ≠ .brk) : w.isWide m = w.register m := by
  cases m with
  | rep | sep | cop | wdm => cases hnarrow
  | brk => exact absurd rfl hbrk
  | _ => rfl

end Widths

/-- Bits 4 and 5 of a byte by their masks. -/
theorem mask_ne_zero (b : UInt8) :
    (b &&& 0x20 != 0) = b.toNat.testBit 5 ∧ (b &&& 0x10 != 0) = b.toNat.testBit 4 := by
  have h : ∀ n : Fin 256, (UInt8.ofFin n &&& 0x20 != 0) = n.val.testBit 5 ∧
      (UInt8.ofFin n &&& 0x10 != 0) = n.val.testBit 4 := by
    decide +kernel
  exact h b.toFin

/-- The masks of the one byte of a field look at the bits of its value. -/
theorem mask_bytes (v : Int64) :
    ∃ b, Field.bytes 1 v = [b] ∧ (b &&& 0x20 != 0) = v.toUInt64.toNat.testBit 5 ∧
      (b &&& 0x10 != 0) = v.toUInt64.toNat.testBit 4 := by
  have hbit : ∀ k < 8, (UInt8.ofNat v.toUInt64.toNat).toNat.testBit k =
      v.toUInt64.toNat.testBit k := by
    intro k hk
    rw [UInt8.toNat_ofNat', Nat.testBit_mod_two_pow, decide_eq_true hk, Bool.true_and]
  refine ⟨UInt8.ofNat v.toUInt64.toNat, rfl, ?_, ?_⟩
  · rw [(mask_ne_zero _).1, hbit 5 (by omega)]
  · rw [(mask_ne_zero _).2, hbit 4 (by omega)]

theorem Field.read_littleEndian (width n : Nat) :
    read (littleEndian width n) = n % 256 ^ width := by
  induction width generalizing n with
  | zero =>
    rw [Nat.pow_zero, Nat.mod_one]
    rfl
  | succ width ih =>
    have hlow : (UInt8.ofNat n).toNat = n % 256 := UInt8.toNat_ofNat'
    rw [littleEndian, read, ih, hlow, Nat.pow_succ, Nat.mul_comm (256 ^ width), Nat.mod_mul]

/-- A field holds its value modulo what its width can hold. -/
theorem Field.read_bytes {width : Nat} (hwidth : width ≤ 8) (v : Int64) :
    (read (bytes width v) : Int) = v.toInt % (256 ^ width : Nat) := by
  have hword : (v.toUInt64.toNat : Int) = v.toInt % (2 ^ 64 : Nat) := by
    rw [Int64.toInt, BitVec.toInt_eq_toNat_bmod, Int.bmod_emod,
      Int.emod_eq_of_lt (Int.natCast_nonneg _)]
    · rfl
    · exact Int.ofNat_lt.2 v.toBitVec.isLt
  have hdvd : 256 ^ width ∣ 2 ^ 64 := Nat.pow_dvd_pow 256 hwidth
  rw [bytes, read_littleEndian, Int.natCast_emod, hword,
    Int.emod_emod_of_dvd _ (Int.natCast_dvd_natCast.2 hdvd)]

/-- Whether an instruction can be told from its bytes while the registers have these widths: it has
no operand or one that is known at once, and an immediate operand is as wide as its register. -/
structure Instruction.Tellable (w : Widths) (i : Instruction) : Prop where
  known : i.arg.form.isBare ∨ i.arg.expr.value?.isSome
  brk : Mnemonic.ofText? i.mnemonic = some .brk → i.arg.form.isBare
  agrees : ∀ m ∈ Mnemonic.ofText? i.mnemonic, ∀ e ∈ i.encoding?,
    e.1.isImmediate → m.isNarrow = false → (e.1 = .immediate16 ↔ w.register m)

instance (w : Widths) (i : Instruction) : Decidable (i.Tellable w) :=
  decidable_of_iff (_ ∧ _ ∧ _)
    ⟨fun ⟨known, brk, agrees⟩ => ⟨known, brk, agrees⟩, fun h => ⟨h.known, h.brk, h.agrees⟩⟩

/-- Whether every instruction of a program can be told from its bytes, under the widths that those
before it leave. -/
def Tellable (w : Widths) : List Instruction → Prop
  | [] => True
  | i :: is => i.Tellable w ∧ Tellable (w.folded i) is

instance Tellable.decidable (w : Widths) : (is : List Instruction) → Decidable (Tellable w is)
  | [] => inferInstanceAs (Decidable True)
  | i :: is =>
    have := Tellable.decidable (w.folded i) is
    inferInstanceAs (Decidable (i.Tellable w ∧ Tellable (w.folded i) is))

/-- Whether a decoded instruction at `u` is what `i` was assembled to. -/
structure Decoded.Matches (d : Decoded) (u : Nat) (i : Instruction) (mode : Mode) : Prop where
  encoding : i.encoding? = some (mode, d.opcode)
  offset : d.offset = Int64.ofNat u
  known : d.meaning.map Prod.snd = some mode
  opcode : Opcode.find d.mnemonicText mode = .ok d.opcode
  width : d.operand.length = mode.width
  value : ∀ v, i.arg.expr.value? = some v → (d.value : Int) = v.toInt % (256 ^ mode.width : Nat)

/-- Instructions and what they come back as, one for one, from an offset on. -/
inductive RoundTrips : Nat → List Instruction → List Decoded → Prop
  | nil {u : Nat} : RoundTrips u [] []
  | cons {u : Nat} {i : Instruction} {is : List Instruction} {d : Decoded} {ds : List Decoded}
      {mode : Mode} : d.Matches u i mode → RoundTrips (u + d.size) is ds →
      RoundTrips u (i :: is) (d :: ds)

theorem Instruction.Image.not_isImmediate {i : Instruction} {m : Mnemonic} {mode : Mode} {b : UInt8}
    {field : List UInt8} (hi : i.Image m mode b field) (hbare : i.arg.form.isBare) :
    mode.isImmediate = false := by
  have hsize := hi.bare hbare
  cases mode with
  | immediate8 | immediate16 => cases hsize
  | _ => rfl

section Decoding
variable {i : Instruction} {m : Mnemonic} {mode : Mode} {b : UInt8} {field : List UInt8}
  {w : Widths} {e : Opcode.Entry}

/-- The widths settle what the opcode byte leaves open. -/
theorem Opcode.Entry.Recalls.modeUnder_eq (he : e.Recalls m mode b)
    (h : mode.isImmediate → m.isNarrow = false → (mode = .immediate16 ↔ w.isWide m)) :
    e.modeUnder w = mode := by
  unfold Opcode.Entry.modeUnder
  cases himmediate : mode.isImmediate with
  | false =>
    rw [he.other himmediate, if_neg]
    rintro ⟨rfl, -⟩
    cases himmediate
  | true =>
    obtain ⟨hm, height⟩ := he.immediate himmediate
    rw [height, hm]
    cases hnarrow : m.isNarrow with
    | true =>
      have hwide : w.isWide m = false := by
        cases m with
        | rep | sep | cop | wdm => rfl
        | _ => cases hnarrow
      rw [he.narrow hnarrow, hwide]
      rfl
    | false =>
      have hiff := h himmediate hnarrow
      cases mode with
      | immediate8 =>
        rw [if_neg]
        rintro ⟨-, hwide⟩
        cases hiff.2 hwide
      | immediate16 => rw [if_pos ⟨rfl, hiff.1 rfl⟩]
      | _ => cases himmediate

theorem modeUnder_eq (hi : i.Image m mode b field) (he : e.Recalls m mode b) (h : i.Tellable w) :
    e.modeUnder w = mode := by
  refine he.modeUnder_eq fun himmediate hnarrow => ?_
  have hnotBrk : m ≠ .brk := by
    rintro rfl
    rw [hi.not_isImmediate (h.brk hi.mnemonic)] at himmediate
    cases himmediate
  rw [w.isWide_eq_register hnarrow hnotBrk]
  exact h.agrees m hi.mnemonic (mode, b) hi.encoding himmediate hnarrow

theorem decode_append (he : Opcode.meaning? b = some e) (hmode : e.modeUnder w = mode)
    (hwidth : field.length = mode.width) (rest : List UInt8) (offset : Int64) :
    decode (b :: (field ++ rest)) offset w = .ok ⟨offset, b, some (e.mnemonic, mode), field⟩ := by
  have htake : (field ++ rest).take mode.width = field := by rw [← hwidth, List.take_left]
  unfold decode
  simp only [he, hmode, htake]
  rw [if_neg]
  omega

/-- One instruction is taken off the front. -/
theorem decodeFrom_append (he : e.Recalls m mode b) (hmode : e.modeUnder w = mode)
    (hwidth : field.length = mode.width) (rest : List UInt8) (pc : Nat) (found : List Decoded) :
    let d : Decoded := ⟨Int64.ofNat pc, b, some (e.mnemonic, mode), field⟩
    decodeFrom w pc found (b :: (field ++ rest)) =
      decodeFrom (w.after d) (pc + d.size) (d :: found) rest := by
  intro d
  have hdrop : (b :: (field ++ rest)).drop d.size = rest := by
    rw [Decoded.size, Nat.add_comm, List.drop_succ_cons]
    exact List.drop_left
  rw [decodeFrom, decode_append he.meaning hmode hwidth]
  simp only
  rw [hdrop]

/-- The disassembly keeps the widths that the program sets. -/
theorem after_eq_folded (hi : i.Image m mode b field) (he : e.Recalls m mode b) (h : i.Tellable w)
    (offset : Int64) :
    w.after ⟨offset, b, some (e.mnemonic, mode), field⟩ = w.folded i := by
  unfold Widths.folded
  rw [hi.mnemonic]
  -- An instruction that sets widths has an operand of one byte, and it is known.
  have hbyte : m.isNarrow → ∃ v c, i.arg.expr.value? = some v ∧ field = [c] ∧
      (c &&& 0x20 != 0) = v.toUInt64.toNat.testBit 5 ∧
      (c &&& 0x10 != 0) = v.toUInt64.toNat.testBit 4 := by
    intro hnarrow
    have hmode := he.narrow hnarrow
    subst hmode
    rcases h.known with hbare | hvalue
    · have hsize := hi.bare hbare
      cases hsize
    · obtain ⟨v, hv⟩ := Option.isSome_iff_exists.1 hvalue
      obtain ⟨c, hc, hfive, hfour⟩ := mask_bytes v
      exact ⟨v, c, hv, (hi.operand hv).trans hc, hfive, hfour⟩
  by_cases hrep : m = .rep
  · obtain ⟨v, c, hv, rfl, hfive, hfour⟩ := hbyte (by rw [hrep]; rfl)
    rw [he.rep.2 hrep, hrep, hv]
    simp only [Widths.after, hfive, hfour]
  by_cases hsep : m = .sep
  · obtain ⟨v, c, hv, rfl, hfive, hfour⟩ := hbyte (by rw [hsep]; rfl)
    rw [he.sep.2 hsep, hsep, hv]
    simp only [Widths.after, ← hfive, ← hfour, bne, Bool.not_not]
  · have hrep' : e.mnemonic ≠ .rep := fun h => hrep (he.rep.1 h)
    have hsep' : e.mnemonic ≠ .sep := fun h => hsep (he.sep.1 h)
    unfold Widths.after
    split
    · rename_i hmeaning _
      exact absurd (congrArg Prod.fst (Option.some.inj hmeaning)) hrep'
    · rename_i hmeaning _
      exact absurd (congrArg Prod.fst (Option.some.inj hmeaning)) hsep'
    · split
      · rename_i hm _
        exact absurd (Option.some.inj hm) hrep
      · rename_i hm _
        exact absurd (Option.some.inj hm) hsep
      · rfl

/-- What one instruction comes back as. -/
theorem exists_decoded (hi : i.Image m mode b field) (h : i.Tellable w) (pc : Nat) :
    ∃ d : Decoded, d.Matches pc i mode ∧
      ∀ found rest, decodeFrom w pc found ((Statement.instruction i).image ++ rest) =
        decodeFrom (w.folded i) (pc + d.size) (d :: found) rest := by
  have hnotBrk : ¬(m = .brk ∧ mode = .immediate8) := by
    rintro ⟨rfl, rfl⟩
    have hother := hi.not_isImmediate (h.brk hi.mnemonic)
    cases hother
  obtain ⟨e, he⟩ := Opcode.exists_recalls hi.opcode hnotBrk
  let d : Decoded := ⟨Int64.ofNat pc, b, some (e.mnemonic, mode), field⟩
  have hfind : Opcode.find d.mnemonicText mode = .ok b := by
    have htext : d.mnemonicText = e.mnemonic.lowerName := rfl
    simp only [Opcode.find, htext, Mnemonic.ofText?_lowerName, he.opcode]
  have hvalue : ∀ v, i.arg.expr.value? = some v →
      (d.value : Int) = v.toInt % (256 ^ mode.width : Nat) := by
    intro v hv
    have hwidth : mode.width ≤ 8 := Nat.le_trans mode.size.width_le (by decide)
    rw [← Field.read_bytes hwidth v, ← hi.operand hv]
    rfl
  refine ⟨d, ⟨hi.encoding, rfl, rfl, hfind, hi.width, hvalue⟩, fun found rest => ?_⟩
  rw [hi.image, List.cons_append, decodeFrom_append he (modeUnder_eq hi he h) hi.width,
    after_eq_folded hi he h]

end Decoding

/-- A program comes back from its images one instruction at a time. -/
theorem decodeFrom_images {w : Widths} {is : List Instruction} (h : Tellable w is)
    (hassembled : ∀ i ∈ is, ∃ a, i.assembled? = some a) (pc : Nat) (found : List Decoded) :
    ∃ ds, decodeFrom w pc found ((is.map Statement.instruction).flatMap Statement.image) =
      (found.reverse ++ ds, none) ∧ RoundTrips pc is ds := by
  induction is generalizing w pc found with
  | nil =>
    refine ⟨[], ?_, .nil⟩
    rw [decodeFrom.eq_def, List.append_nil]
    rfl
  | cons i is ih =>
    obtain ⟨a, ha⟩ := hassembled i List.mem_cons_self
    obtain ⟨m, mode, b, field, hi⟩ := Instruction.exists_image ha
    obtain ⟨d, hd, hstep⟩ := exists_decoded hi h.1 pc
    obtain ⟨ds, hds, htrips⟩ := ih h.2
      (fun j hj => hassembled j (List.mem_cons_of_mem i hj)) (pc + d.size) (d :: found)
    refine ⟨d :: ds, ?_, .cons hd htrips⟩
    rw [List.map_cons, List.flatMap_cons, hstep, hds, List.reverse_cons, List.append_assoc]
    rfl

/-- What an operand field is patched with is there already. -/
theorem Instruction.Image.apply_resolve {i : Instruction} {m : Mnemonic} {mode : Mode} {b : UInt8}
    {field : List UInt8} (hi : i.Image m mode b field) {w : Widths} (h : i.Tellable w)
    {before : List UInt8} (hbefore : before.length + 1 < 2 ^ 63) {f : Fixup}
    (hf : f ∈ (Statement.instruction i).openFields before.length) (label : Text)
    (offsets : Offsets) (L : Nat) (rest : List UInt8) :
    let bytes := before ++ ((Statement.instruction i).image ++ rest)
    (Fixup.resolve label offsets L f).apply bytes = bytes := by
  intro bytes
  have hopen := hi.eq_of_mem_openFields hf
  have hsize : f.size = mode.size := by rw [hopen]; rfl
  have hoffset : f.offset.toInt.toNat = before.length + 1 := by
    rw [hopen]
    exact toNat_offset hbefore
  -- A field of no width is never patched, and any other operand is known.
  have hknown : mode.size = .implicit ∨ ∃ v, i.arg.expr.value? = some v ∧
      (f.settle offsets).expr.term = .constant v := by
    rcases h.known with hbare | hvalue
    · exact .inl (hi.bare hbare)
    · obtain ⟨v, hv⟩ := Option.isSome_iff_exists.1 hvalue
      refine .inr ⟨v, hv, ?_⟩
      rw [hopen]
      exact Term.placed_of_value? _ hv
  rcases Fixup.resolve_cases label offsets L f with
    ⟨d, hr⟩ | ⟨-, hr⟩ | ⟨v, hterm, -, hfits, hr⟩ | ⟨k, hterm, hrel, -, hr⟩ | ⟨-, -, hr⟩ |
    ⟨-, -, -, hr⟩
  · rw [hr]
    rfl
  · rw [hr]
    rfl
  · rcases hknown with himplicit | ⟨v', hv', hsettled⟩
    · rw [hsize, himplicit] at hfits
      cases hfits
    cases hsettled.symm.trans hterm
    have hfield : Field.bytes f.size.width v = field := by rw [hsize, hi.operand hv', Mode.width]
    have hbytes : bytes = (before ++ [b]) ++ (field ++ rest) := by
      simp only [bytes, hi.image, List.append_assoc, List.cons_append, List.nil_append]
    have hlength : before.length + 1 = (before ++ [b]).length := by
      rw [List.length_append, List.length_singleton]
    rw [hr, Resolution.apply, hoffset, hfield, hbytes, hlength, patch_append rfl]
  · rcases hknown with himplicit | ⟨v', -, hsettled⟩
    · rw [hsize, himplicit] at hrel
      cases hrel
    · cases hsettled.symm.trans hterm
  · rw [hr]
    rfl
  · rw [hr]
    rfl

theorem foldl_apply_of_fixed {rs : List Resolution} {bytes : List UInt8}
    (h : ∀ r ∈ rs, r.apply bytes = bytes) : rs.foldl Resolution.apply bytes = bytes := by
  induction rs with
  | nil => rfl
  | cons r rs ih =>
    rw [List.foldl_cons, h r List.mem_cons_self]
    exact ih fun r' hr' => h r' (List.mem_cons_of_mem r hr')

/-- Closing a segment of instructions with known operands does not change its bytes. -/
theorem foldl_apply_images {w : Widths} {is : List Instruction} (h : Tellable w is)
    (hassembled : ∀ i ∈ is, ∃ a, i.assembled? = some a) (label : Text) (offsets : Offsets) (L : Nat)
    (labels : Labels) (before : List UInt8)
    (hlength : (before ++ (is.map Statement.instruction).flatMap Statement.image).length < 2 ^ 63) :
    let bytes := before ++ (is.map Statement.instruction).flatMap Statement.image
    let fixups := (places labels before.length (is.map Statement.instruction)).flatMap fun p =>
      p.statement.openFields p.offset
    (fixups.map (Fixup.resolve label offsets L)).foldl Resolution.apply bytes = bytes := by
  induction is generalizing w labels before with
  | nil => rfl
  | cons i is ih =>
    obtain ⟨htell, hrest⟩ := h
    obtain ⟨a, ha⟩ := hassembled i List.mem_cons_self
    obtain ⟨m, mode, b, field, hi⟩ := Instruction.exists_image ha
    have hbefore : before.length + 1 < 2 ^ 63 := by
      rw [List.map_cons, List.flatMap_cons, hi.image] at hlength
      simp only [List.length_append, List.length_cons] at hlength
      omega
    have hfirst : ∀ rest, (((Statement.instruction i).openFields before.length).map
        (Fixup.resolve label offsets L)).foldl Resolution.apply
          (before ++ ((Statement.instruction i).image ++ rest)) =
        before ++ ((Statement.instruction i).image ++ rest) := by
      intro rest
      apply foldl_apply_of_fixed
      intro r hr
      obtain ⟨f, hf, rfl⟩ := List.mem_map.1 hr
      exact hi.apply_resolve htell hbefore hf label offsets L rest
    have hfold := ih hrest (fun j hj => hassembled j (List.mem_cons_of_mem i hj))
      (labels.after (.instruction i))
      (before ++ (Statement.instruction i).image)
      (by simpa only [List.map_cons, List.flatMap_cons, List.append_assoc] using hlength)
    simp only [List.map_cons, List.flatMap_cons, places, List.map_append, List.foldl_append, hfirst]
    simpa only [List.length_append, List.append_assoc] using hfold

theorem Section.bytes_chunk {s : Section} {w : Widths} {is : List Instruction}
    (hbody : s.body = is.map .instruction) (h : Tellable w is)
    (hassembled : ∀ i ∈ is, ∃ a, i.assembled? = some a)
    (hlength : s.segment.chunk.bytes.length < 2 ^ 63) : s.segment.chunk.bytes = s.bytes := by
  have hL : s.bytes.length < 2 ^ 63 := Nat.lt_of_le_of_lt (length_le_foldl_apply _ _) hlength
  have hfold := foldl_apply_images h hassembled s.label s.offsets s.bytes.length s.labels []
  rw [← hbody] at hfold
  exact hfold hL

/-- A program whose instructions can be told from its bytes comes back from them. -/
theorem decodeAll_assembled {is : List Instruction} {labels : Labels} {root label : Text}
    {c : Chunk} {w : Widths}
    (hc : assemble (.statements (is.map .instruction)) labels root = [.chunk label c])
    (hlength : c.bytes.length < 2 ^ 63) (h : Tellable w is) :
    ∃ ds, decodeAll c.bytes w = (ds, none) ∧ RoundTrips 0 is ds := by
  have hplain : ∀ st ∈ is.map Statement.instruction, st.isTop = false ∧ st.isFatal = false := by
    intro st hst
    obtain ⟨i, -, rfl⟩ := List.mem_map.1 hst
    exact ⟨rfl, rfl⟩
  obtain ⟨s, hbody, hs⟩ : ∃ s : Section, s.body = is.map .instruction ∧
      s.outputs = [.chunk label c] := by
    have hbounded : ∀ st ∈ is.map Statement.instruction, st.Bounded := by
      intro st hst
      obtain ⟨i, -, rfl⟩ := List.mem_map.1 hst
      exact i.bounded
    have hsound := Section.closed_crashes_of_bounded (s := Section.root labels root)
      (fun st hst => by cases hst) hbounded
    rw [assemble_statements _ _ _ hsound, sectionOutputs, Section.total_of_plain _ hplain] at hc
    exact ⟨_, rfl, hc⟩
  obtain ⟨-, rfl, hfaults, -⟩ := Section.chunk_mem_outputs (hs ▸ List.mem_singleton_self _)
  have hassembled : ∀ i ∈ is, ∃ a, i.assembled? = some a := by
    intro i hi
    have hmem : Statement.instruction i ∈ s.body := hbody ▸ List.mem_map_of_mem hi
    exact Instruction.exists_assembled? (List.flatMap_eq_nil_iff.1 hfaults _ hmem)
  obtain ⟨ds, hds, htrips⟩ := decodeFrom_images h hassembled 0 []
  rw [← hbody] at hds
  refine ⟨ds, ?_, htrips⟩
  rw [Section.bytes_chunk hbody h hassembled hlength]
  exact hds

/-- The register is wide for one load and narrow for the next; `asl` falls back on the accumulator,
the long jump comes back under its other name, and the last operand is a distance, which is known
and yet patched in at the end. -/
theorem decodeAll_assembled_widths :
    let immediate (name : String) (t : Term) : Instruction :=
      {mnemonic := ascii name, arg := ⟨.immediate, .ofTerm t⟩}
    let is : List Instruction :=
      [immediate "rep" (.constant 0x20), immediate "lda" (.constant 0x1234),
        {mnemonic := ascii "asl"},
        {mnemonic := ascii "jmp", arg := ⟨.plain, .ofTerm (.constant 0x123456)⟩},
        immediate "sep" (.constant 0x20), immediate "lda" (.constant (-1)),
        immediate "ldx" (.binary .sub (.offset 5) (.offset 3))]
    let bytes : List UInt8 :=
      [0xC2, 0x20, 0xA9, 0x34, 0x12, 0x0A, 0x5C, 0x56, 0x34, 0x12, 0xE2, 0x20, 0xA9, 0xFF, 0xA2, 2]
    let c : Chunk := {bytes, diverging := true}
    assemble (.statements (is.map .instruction)) {} [] = [.chunk Assembly.rootLabel c] ∧
      c.bytes.length < 2 ^ 63 ∧ Tellable {} is ∧
      ∃ ds, decodeAll c.bytes {} = (ds, none) ∧ RoundTrips 0 is ds := by
  intro immediate is bytes c
  have hc : assemble (.statements (is.map .instruction)) {} [] =
      [.chunk Assembly.rootLabel c] := by
    decide +kernel
  have hlength : c.bytes.length < 2 ^ 63 := by decide
  have htell : Tellable {} is := by decide +kernel
  exact ⟨hc, hlength, htell, decodeAll_assembled hc hlength htell⟩

end Assembler65816
