import Mathlib.Algebra.Ring.Int.Defs
import Mathlib.Algebra.Ring.Nat
import Assembler65816.Proofs.Assembly.Attributes
import Assembler65816.Proofs.Assembly.Consistency
import Assembler65816.Proofs.Assembly.TwoPass
import Assembler65816.Proofs.Chunk.Patching
import Assembler65816.Proofs.Disassembly.RoundTrip

/-!
# Branches as the disassembler reads them

The assembler stores in a branch how far its label is away, and the disassembler prints where the
branch goes. The main statement is that the two agree: whatever label a branch is resolved to, near
or far, before or behind it, the disassembly of the chunk at the branch names the place of the
label. A branch of two operand bytes counts from one byte further on, and so what is printed for it
is one more. A label that is out of reach is reported, and there is no chunk.

Offsets are 64-bit numbers, so all this is about sections of less than 2 ^ 63 bytes.
-/
namespace Assembler65816

/-- The range of a relative field is that of a signed number. -/
theorem Field.relFits_iff {size : Size} {v : Int64} (hrel : size.isRelative) :
    relFits size v ↔
      -2 ^ (8 * size.width - 1) ≤ v.toInt ∧ v.toInt < 2 ^ (8 * size.width - 1) := by
  cases size with
  | relByte | relWord =>
    simp only [relFits, hrel, Bool.true_and, Bool.and_eq_true, decide_eq_true_eq]
    rfl
  | _ => cases hrel

namespace Decoded
variable {d : Decoded} {size : Size} {v : Int64}

/-- A displacement that was in range is read back with its sign. -/
theorem displacement_eq (hfits : Field.relFits size v)
    (hoperand : d.operand = Field.bytes size.width v) : d.displacement = v.toInt := by
  have hrel : size.isRelative := (Bool.and_eq_true_iff.1 hfits).1
  have hread := Field.read_bytes (Nat.le_trans size.width_le (by decide)) v
  rw [Field.relFits_iff hrel] at hfits
  rw [displacement, value, hoperand, Field.length_bytes]
  cases size with
  | relByte | relWord =>
    simp only [Size.width, Nat.pow_eq, Nat.reducePow] at hfits hread ⊢
    omega
  | _ => cases hrel

theorem target_eq (hfits : Field.relFits size v)
    (hoperand : d.operand = Field.bytes size.width v) :
    d.target = d.offset + Int64.ofNat (1 + size.width) + v := by
  rw [target, displacement_eq hfits hoperand, Int64.ofInt_toInt, Decoded.size, hoperand,
    Field.length_bytes]

end Decoded

/-- No two branches share an opcode, so its byte says which one it is. -/
theorem Opcode.meaning?_of_isRelative {m : Mnemonic} {mode : Mode} {b : UInt8}
    (h : m.opcode? mode = some b) (hrel : mode.size.isRelative) :
    ∃ e : Entry, meaning? b = some e ∧ e.mnemonic = m ∧ e.mode = mode := by
  have htable : (Mnemonic.all.all fun m => m.encodings.all fun p =>
      !p.1.size.isRelative || (table.find? fun e => Nat.beq e.opcode.toNat p.2.toNat).any fun e =>
        e.mnemonic = m ∧ e.mode = p.1) = true := by
    decide +kernel
  have hentry := List.all_eq_true.1 (List.all_eq_true.1 htable m m.mem_all) (mode, b)
    (Mnemonic.mem_encodings_of_opcode? h)
  rw [hrel, Bool.not_true, Bool.false_or, ← meaning?_eq_find?] at hentry
  obtain ⟨e, he, hsame⟩ := (Option.any_eq_true _ _).1 hentry
  exact ⟨e, he, of_decide_eq_true hsame⟩

/-- A branch is decoded whatever the widths are, and its text names the place that its displacement
leads to. -/
theorem decode_branch {m : Mnemonic} {mode : Mode} {b : UInt8} {v : Int64}
    (hopcode : m.opcode? mode = some b) (hrel : mode.size.isRelative)
    (hfits : Field.relFits mode.size v) (rest : List UInt8) (offset : Int64) (w : Widths) :
    ∃ d, decode (b :: (Field.bytes mode.width v ++ rest)) offset w = .ok d ∧
      d.meaning = some (m, mode) ∧
      d.text = m.lowerName ++ ascii " $" ++
        hexWide 4 (offset + Int64.ofNat (1 + mode.width) + v).toInt := by
  obtain ⟨e, hmeaning, rfl, rfl⟩ := Opcode.meaning?_of_isRelative hopcode hrel
  have hmode : e.modeUnder w = e.mode := by
    rw [Opcode.Entry.modeUnder, if_neg]
    rintro ⟨himmediate, -⟩
    rw [himmediate] at hrel
    cases hrel
  let d : Decoded := ⟨offset, b, some (e.mnemonic, e.mode), Field.bytes e.mode.width v⟩
  have htarget : d.target = offset + Int64.ofNat (1 + e.mode.width) + v := d.target_eq hfits rfl
  have hoperand : d.operand.isEmpty = false := by
    rw [List.isEmpty_eq_false_iff, ← List.length_pos_iff]
    change 0 < (Field.bytes e.mode.width v).length
    rw [Field.length_bytes]
    exact Size.width_pos_of_isRelative hrel
  have hframe : e.mode.frame = .around "" "" := by
    cases hmode : e.mode with
    | relative8 | relative16 => rfl
    | _ =>
      rw [hmode] at hrel
      cases hrel
  refine ⟨d, decode_append hmeaning hmode (Field.length_bytes _ _) rest offset, rfl, ?_⟩
  change e.mnemonic.lowerName ++ (if !d.operand.isEmpty then ascii " " ++ d.operandText e.mode
    else _) = _
  rw [hoperand, Decoded.operandText, hframe, hrel, htarget]
  simp [Frame.fill, ascii]

/-- What is left of a row behind its first parts is laid out as well. -/
theorem Laid.drop {off : Ident → Option Nat} {u : Nat} {earlier later : List Part}
    {bytes : List UInt8} {fixups : List Fixup} (h : Laid off u (earlier ++ later) bytes fixups) :
    ∃ fixups', Laid off (u + (earlier.map Part.width).sum) later
      (bytes.drop (earlier.map Part.width).sum) fixups' := by
  induction earlier generalizing u bytes fixups with
  | nil => exact ⟨fixups, h⟩
  | cons part earlier ih =>
    -- Whatever the first part is, it has its width in bytes.
    have hrest : ∀ {image bytes' : List UInt8} {fixups' : List Fixup}, image.length = part.width →
        Laid off (u + part.width) (earlier ++ later) bytes' fixups' →
        ∃ fixups'', Laid off (u + ((part :: earlier).map Part.width).sum) later
          ((image ++ bytes').drop ((part :: earlier).map Part.width).sum) fixups'' := by
      intro image bytes' fixups' himage hlaid
      obtain ⟨fixups'', hlater⟩ := ih hlaid
      refine ⟨fixups'', ?_⟩
      rw [List.map_cons, List.sum_cons, ← Nat.add_assoc, ← himage, ← List.drop_drop, List.drop_left,
        himage]
      exact hlater
    cases h with
    | literal hlaid => exact hrest rfl hlaid
    | value _ _ hlaid => exact hrest (Field.length_bytes _ _) hlaid
    | displacement _ _ _ hlaid => exact hrest (Field.length_bytes _ _) hlaid
    | deferred _ _ hlaid => exact hrest List.length_replicate hlaid

/-- A relative field whose term comes to a place holds a displacement. -/
theorem Laid.displaced {off : Ident → Option Nat} {u : Nat} {bs : List UInt8} {size : Size}
    {t : Term} {sameBank : Bool} {later : List Part} {bytes : List UInt8} {fixups : List Fixup}
    {k : Int64} (h : Laid off u (.literal bs :: .field size t sameBank :: later) bytes fixups)
    (hgoal : t.placed off = .offset k) (hrel : size.isRelative) :
    ∃ rest, Field.relFits size (k - Int64.ofNat (u + bs.length) - 1) ∧
      bytes = bs ++ (Field.bytes size.width (k - Int64.ofNat (u + bs.length) - 1) ++ rest) := by
  cases h with
  | literal hfield =>
    cases hfield with
    | value hvalue => cases hgoal.symm.trans hvalue
    | displacement hgoal' _ hfits =>
      cases hgoal.symm.trans hgoal'
      exact ⟨_, hfits, rfl⟩
    | deferred _ hplace => exact absurd hgoal (hplace hrel k)

theorem spots_split {labels : Labels} {u : Nat} {items : List Line.Item} {p : Spot}
    (hp : p ∈ spots labels u items) :
    ∃ earlier later, spots labels u items = earlier ++ p :: later ∧
      p.offset = u + ((earlier.flatMap Spot.parts).map Part.width).sum := by
  induction items generalizing labels u with
  | nil => cases hp
  | cons item items ih =>
    rcases List.mem_cons.1 hp with rfl | hp
    · exact ⟨[], _, rfl, rfl⟩
    · obtain ⟨earlier, later, hsplit, hoffset⟩ := ih hp
      refine ⟨⟨labels, u, item⟩ :: earlier, later, ?_, ?_⟩
      · rw [spots, hsplit, List.cons_append]
      · rw [hoffset, List.flatMap_cons, List.map_append, List.sum_append, ← Nat.add_assoc]
        rfl

/-- The statements of a text are the spots of its items. -/
theorem exists_spots {labels : Labels} {base : Nat} {sts : List Statement}
    (h : ∀ p ∈ places labels base sts,
      ∃ item : Line.Item, item.Lawful ∧ p.statement = item.statement p.labels) (u : Nat) :
    ∃ items, (∀ item ∈ items, item.Lawful) ∧ sts = (spots labels u items).map Spot.statement := by
  induction sts generalizing labels base u with
  | nil =>
    refine ⟨[], fun item hitem => ?_, rfl⟩
    cases hitem
  | cons st sts ih =>
    obtain ⟨item, hitem, hst⟩ := h _ List.mem_cons_self
    obtain ⟨items, hitems, hsts⟩ := ih (fun p hp => h p (List.mem_cons_of_mem _ hp))
      (u + ((item.parts labels).map Part.width).sum)
    have hfirst : st = item.statement labels := hst
    refine ⟨item :: items, ?_, ?_⟩
    · intro item' hmem
      rcases List.mem_cons.1 hmem with rfl | hmem
      · exact hitem
      · exact hitems item' hmem
    · rw [spots, List.map_cons, ← hfirst, ← hsts]
      exact congrArg (· :: sts) hfirst

theorem Section.chunk?_eq_some {s : Section} {label : Text} {c : Chunk}
    (h : s.chunk? = some (label, c)) :
    s.faults = [] ∧ s.fixupFaults = [] ∧ c = s.segment.chunk := by
  unfold chunk? at h
  split at h
  · rename_i hnone
    cases h
    exact ⟨hnone.1, hnone.2, rfl⟩
  · cases h

/-- The bytes of a chunk at an instruction are laid out as its parts and what follows them. -/
theorem Section.IsRead.laid_instruction {s : Section} (hread : s.IsRead)
    (hlength : s.bytes.length < 2 ^ 63) {p : Place} (hp : p ∈ s.places) {i : Instruction}
    (hst : p.statement = .instruction i) {label : Text} {c : Chunk}
    (hchunk : s.chunk? = some (label, c)) :
    ∃ later fixups, Laid (fun id => s.offsets.lookup id) p.offset (i.parts ++ later)
      (c.bytes.drop p.offset) fixups := by
  obtain ⟨hfaults, hfixups, rfl⟩ := Section.chunk?_eq_some hchunk
  obtain ⟨items, hitems, hbody⟩ := exists_spots hread 0
  obtain ⟨-, -, hoffsets, -⟩ := Section.row_spots hitems hbody hfaults
  have hlaid : Laid (fun id => s.offsets.lookup id) 0
      ((spots s.labels 0 items).flatMap Spot.parts) s.segment.chunk.bytes
      s.segment.chunk.fixups := by
    rw [hoffsets]
    exact Section.laid_of_length_bytes hitems hbody hfaults hfixups hlength
  have hrows : ∀ p ∈ spots s.labels 0 items, p.statement.Row p.offset p.parts := by
    apply row_of_mem_spots s.label hitems
    rw [← hbody]
    exact hfaults
  rw [Section.places, hbody, places_spots hrows] at hp
  obtain ⟨spot, hspot, rfl⟩ := List.mem_map.1 hp
  obtain ⟨earlier, later, hsplit, hoffset⟩ := spots_split hspot
  have hparts : spot.parts = i.parts := by
    have hitem : spot.item.statement spot.labels = .instruction i := hst
    rw [Spot.parts, Line.Item.parts, hitem]
  rw [hsplit, List.flatMap_append, List.flatMap_cons, hparts] at hlaid
  obtain ⟨fixups, hdrop⟩ := hlaid.drop
  rw [Nat.zero_add] at hoffset hdrop
  rw [← hoffset] at hdrop
  exact ⟨_, fixups, hdrop⟩

/-- Whether the instruction `i` stands `u` bytes into a section, has a relative field of this size
and an operand that comes to the place `k`, once every label of the section stands at its
offset. -/
structure Section.Branches (s : Section) (u : Nat) (i : Instruction) (size : Size) (k : Int64) :
    Prop where
  place : ∃ p ∈ s.places, p.offset = u ∧ p.statement = .instruction i
  field : i.fieldSize? = some size
  relative : size.isRelative
  goal : i.arg.expr.term.placed (fun id => s.offsets.lookup id) = .offset k

instance (s : Section) (u : Nat) (i : Instruction) (size : Size) (k : Int64) :
    Decidable (s.Branches u i size k) :=
  decidable_of_iff (_ ∧ _ ∧ _ ∧ _)
    ⟨fun ⟨place, field, relative, goal⟩ => ⟨place, field, relative, goal⟩,
      fun h => ⟨h.place, h.field, h.relative, h.goal⟩⟩

/-- What the text of a branch to `k` names: a long one is off by the byte that it is longer. -/
def Size.landing (size : Size) (k : Int64) : Int64 := if size = .relWord then k + 1 else k

theorem Size.landing_eq {size : Size} (hrel : size.isRelative) (u : Nat) (k : Int64) :
    Int64.ofNat u + Int64.ofNat (1 + size.width) + (k - Int64.ofNat (u + 1) - 1) =
      size.landing k := by
  rw [Int64.ofNat_add u 1]
  cases size with
  | relByte =>
    change Int64.ofNat u + 2 + (k - (Int64.ofNat u + 1) - 1) = k
    grind
  | relWord =>
    change Int64.ofNat u + 3 + (k - (Int64.ofNat u + 1) - 1) = k + 1
    grind
  | _ => cases hrel

namespace Section.Branches
variable {s : Section} {u : Nat} {i : Instruction} {size : Size} {k : Int64}

/-- A branch has an opcode, and its operand is not a constant. -/
theorem exists_image (h : s.Branches u i size k) (hread : s.IsRead) :
    ∃ labels m mode b bs, i.arg.IsRead labels ∧ i.Image m mode b bs ∧ mode.size = size ∧
      ¬i.arg.expr.isConstant := by
  obtain ⟨p, hp, -, hst⟩ := h.place
  obtain ⟨item, hitem, hread⟩ := hread p hp
  have harg : i.arg.IsRead p.labels :=
    Line.Item.isRead_of_instruction hitem (hread.symm.trans hst)
  have hfield := h.field
  unfold Instruction.fieldSize? at hfield
  obtain ⟨a, ha, hfield⟩ := Option.bind_eq_some_iff.1 hfield
  obtain ⟨⟨mode, b⟩, hencoding, hsize⟩ := Option.bind_eq_some_iff.1 hfield
  cases hsize
  obtain ⟨m, mode', b', bs, hi⟩ := Instruction.exists_image ha
  cases hi.encoding.symm.trans hencoding
  refine ⟨p.labels, m, mode, b, bs, harg, hi, rfl, fun hconstant => ?_⟩
  have hbare : i.arg.form.isBare = false := by
    rw [Bool.eq_false_iff]
    intro hbare
    have hrel := h.relative
    rw [hi.bare hbare] at hrel
    cases hrel
  obtain ⟨text, htext⟩ := harg.term hbare
  have hempty := Term.isEmpty_of_isWritten (Term.isWritten_of_read htext)
  obtain ⟨v, hv⟩ := Option.isSome_iff_exists.1 (hi.folds hbare hempty hconstant)
  cases (Term.placed_of_value? _ hv).symm.trans h.goal

/-- The chunk has the branch where it stands, and its text names the place of the label. -/
theorem decode_eq (h : s.Branches u i size k) (hread : s.IsRead)
    (hlength : s.bytes.length < 2 ^ 63) {label : Text} {c : Chunk}
    (hchunk : s.chunk? = some (label, c)) (w : Widths) :
    ∃ m mode d, Mnemonic.ofText? i.mnemonic = some m ∧ mode.size = size ∧
      decode (c.bytes.drop u) (Int64.ofNat u) w = .ok d ∧ d.meaning = some (m, mode) ∧
      d.text = m.lowerName ++ ascii " $" ++ hexWide 4 (size.landing k).toInt := by
  obtain ⟨-, m, mode, b, bs, -, hi, rfl, -⟩ := h.exists_image hread
  obtain ⟨p, hp, rfl, hst⟩ := h.place
  obtain ⟨later, fixups, hlaid⟩ := hread.laid_instruction hlength hp hst hchunk
  have hparts : i.parts = [.literal [b], .field mode.size i.arg.expr.term true] := by
    have hwidth : 0 < mode.width := Size.width_pos_of_isRelative h.relative
    simp only [Instruction.parts, hi.encoding, if_neg (Nat.pos_iff_ne_zero.1 hwidth)]
  rw [hparts] at hlaid
  obtain ⟨rest, hfits, hbytes⟩ := hlaid.displaced h.goal h.relative
  rw [List.length_singleton] at hfits hbytes
  obtain ⟨d, hdecode, hmeaning, htext⟩ :=
    decode_branch hi.opcode h.relative hfits rest (Int64.ofNat p.offset) w
  rw [Mode.width, Size.landing_eq h.relative] at htext
  exact ⟨m, mode, d, hi.mnemonic, rfl, hbytes ▸ hdecode, hmeaning, htext⟩

/-- A branch out of reach is reported, and there is no chunk. -/
theorem overflows (h : s.Branches u i size k) (hread : s.IsRead)
    (hlength : s.bytes.length < 2 ^ 63)
    (hfar : ¬Field.relFits size (k - Int64.ofNat (u + 1) - 1)) :
    s.chunk? = none ∧ ∃ d, .error d ∈ s.outputs ∧ d.HasKind .fieldOverflow ∧ d.label = s.label ∧
      d.subject = i.arg.expr.text := by
  obtain ⟨labels, m, mode, b, bs, harg, hi, rfl, hconstant⟩ := h.exists_image hread
  obtain ⟨p, hp, rfl, hst⟩ := h.place
  let f : Fixup := ⟨Int64.ofNat (p.offset + 1), .sized i.arg.expr.term mode.size, true⟩
  have hopen : f ∈ p.statement.openFields p.offset := by
    rw [hst, i.openFields_eq harg, if_neg hconstant, h.field]
    exact List.mem_singleton_self f
  obtain ⟨hrange, -, -⟩ := hread.field_inRange hlength hp hopen
  have hend : f.offset.toInt + f.size.width < 2 ^ 63 := by
    have hlt := IsRead.length_image_lt hlength hp
    rw [hst, hi.image, List.length_cons, Mode.length_operandField hi.field, Mode.width] at hlt
    change (Int64.ofNat (p.offset + 1)).toInt + mode.size.width < 2 ^ 63
    rw [Int64.toInt_ofNat_of_lt (by omega)]
    omega
  have hwithin : f.Within s.bytes.length := (Fixup.inRange_iff hlength hend).1 hrange
  let v := f.displacement k
  let d := f.report s.label .fieldOverflow
    (ascii "signed " ++ decimal f.size.width ++ ascii "-byte displacement") (decimal v.toInt)
    (some (.field (.displacement f.size v)))
  have hfailed : .failed d = f.resolve s.label s.offsets s.bytes.length :=
    (Fixup.Outcome.far hwithin h.goal h.relative hfar).eq_resolve hlength hend
  have hmem : d ∈ s.fixupFaults := by
    refine List.mem_filterMap.2 ⟨.failed d, ?_, rfl⟩
    rw [hfailed]
    exact List.mem_map_of_mem (List.mem_flatMap.2 ⟨_, hp, hopen⟩)
  have hfaults : ¬(s.faults = [] ∧ s.fixupFaults = []) := by
    rintro ⟨-, hnone⟩
    rw [hnone] at hmem
    cases hmem
  refine ⟨if_neg hfaults, d, ?_, ?_, rfl, rfl⟩
  · rw [outputs, verdict, if_neg hfaults]
    exact List.mem_append_right _ (List.mem_append_right _ (List.mem_map_of_mem hmem))
  · refine Diagnostic.hasKind_of_kindless (by decide) rfl fun c hc => ?_
    cases hc
    exact Cause.kindless_field _

end Section.Branches

/-- The labels that branches are resolved to are where the disassembler sees the branches go. The
chunks of a text are those of its closed sections. In such a section, let the operand of a branch
come to the place `k` once the labels have their offsets. If the section comes to a chunk, the chunk
has the branch at its offset, whatever the widths of the registers, and its text names `k`, or
`k + 1` if it is a long one. If the displacement is not in the signed range of the field, there is
no chunk, and the branch is reported. Offsets are 64-bit numbers, so sections have to be shorter
than 2 ^ 63 bytes. -/
theorem branches_land_on_labels (file source root : Text) (failure : Option Text) :
    let reader := Reader.ofText file source failure
    let sts := (Assembly.start (.text reader) {} root).pulls.map Pull.statement
    let closed := (Section.root {} root).closed sts
    (∀ s ∈ closed, s.bytes.length < 2 ^ 63) →
      (assemble (.text reader) {} root).filterMap Output.chunk? =
          closed.filterMap Section.chunk? ∧
        ∀ s ∈ closed, ∀ u i size k, s.Branches u i size k →
          (∀ label c, s.chunk? = some (label, c) → ∀ w,
            ∃ m mode d, Mnemonic.ofText? i.mnemonic = some m ∧ mode.size = size ∧
              decode (c.bytes.drop u) (Int64.ofNat u) w = .ok d ∧ d.meaning = some (m, mode) ∧
              d.text = m.lowerName ++ ascii " $" ++
                hexWide 4 (if size = .relWord then k + 1 else k).toInt) ∧
          let displacement := (k - Int64.ofNat u - 2).toInt
          let bound : Int := 2 ^ (8 * size.width - 1)
          ¬(-bound ≤ displacement ∧ displacement < bound) →
            s.chunk? = none ∧ ∃ d, .error d ∈ assemble (.text reader) {} root ∧
              d.HasKind .fieldOverflow ∧ d.label = s.label ∧ d.subject = i.arg.expr.text := by
  intro reader sts closed hlength
  have hlawful := Reader.lawful_items_ofText file source failure
  have hsts : sts = statements {} reader.items := reader.statements_start hlawful {} root
  have hread : ∀ s ∈ closed, s.IsRead := by
    intro s hs
    apply Section.isRead_of_reads root hlawful
    rw [← statements, ← hsts]
    exact ((Section.root {} root).closed_prefix_sections sts).subset hs
  have houtputs : assemble (.text reader) {} root = (Section.root {} root).total sts := by
    rw [assemble, run_start hlawful]
    rfl
  refine ⟨?_, fun s hs u i size k h => ⟨fun label c hchunk w => ?_, fun hfar => ?_⟩⟩
  · rw [houtputs]
    exact Section.chunks_total _ sts
  · exact h.decode_eq (hread s hs) (hlength s hs) hchunk w
  · have hsame : k - Int64.ofNat u - 2 = k - Int64.ofNat (u + 1) - 1 := by
      rw [Int64.ofNat_add u 1]
      change _ = k - (Int64.ofNat u + 1) - 1
      grind
    rw [← Field.relFits_iff h.relative, hsame] at hfar
    obtain ⟨hchunk, d, hd, hreport⟩ := h.overflows (hread s hs) (hlength s hs) hfar
    refine ⟨hchunk, d, ?_, hreport⟩
    rw [houtputs, Section.total_eq_closed]
    exact List.mem_append_left _ (List.mem_flatMap.2 ⟨s, hs, hd⟩)

/-- A branch goes just behind a label and a long one to itself, and a label is one byte too far for
a third branch. -/
theorem branches_land_on_labels_of_loop :
    let source := ascii "a: bne .x+1\n.x: brl .x\nb: bra +\n .db \"" ++ List.replicate 128 97 ++
      ascii "\"\n+ rts\n"
    let reader := Reader.ofText [] source none
    let sts := (Assembly.start (.text reader) {} []).pulls.map Pull.statement
    let closed := (Section.root {} []).closed sts
    let label : Term := .ref (.named 1 (ascii "x"))
    let bne : Instruction :=
      ⟨ascii "bne", .any, ⟨.plain, .ofTerm (.binary .add label (.constant 1))⟩, ⟨[], 1⟩⟩
    let brl : Instruction := ⟨ascii "brl", .any, ⟨.plain, .ofTerm label⟩, ⟨[], 2⟩⟩
    let bra : Instruction :=
      ⟨ascii "bra", .any, ⟨.plain, .ofTerm (.ref (.anonymous .forward 1 1))⟩, ⟨[], 3⟩⟩
    (∀ s ∈ closed, s.bytes.length < 2 ^ 63) ∧
      (∃ s ∈ closed, ∃ c, s.chunk? = some (ascii "a", c) ∧
        s.Branches 0 bne .relByte 3 ∧ s.Branches 2 brl .relWord 2 ∧
        ∀ w, (∃ d, decode (c.bytes.drop 0) 0 w = .ok d ∧ d.text = ascii "bne $0003") ∧
          ∃ d, decode (c.bytes.drop 2) 2 w = .ok d ∧ d.text = ascii "brl $0003") ∧
      ∃ s ∈ closed, s.Branches 0 bra .relByte 130 ∧ s.chunk? = none ∧
        ∃ d, .error d ∈ assemble (.text reader) {} [] ∧ d.HasKind .fieldOverflow ∧
          d.label = ascii "b" := by
  intro source reader sts closed label bne brl bra
  have hlength : ∀ s ∈ closed, s.bytes.length < 2 ^ 63 := by
    subst closed sts reader source
    decide +kernel
  have hnear : ∃ s ∈ closed, s.chunk?.any (·.1 = ascii "a") ∧ s.Branches 0 bne .relByte 3 ∧
      s.Branches 2 brl .relWord 2 := by
    subst bra brl bne label closed sts reader source
    decide +kernel
  have hfar : ∃ s ∈ closed, s.label = ascii "b" ∧ s.Branches 0 bra .relByte 130 := by
    subst bra brl bne label closed sts reader source
    decide +kernel
  obtain ⟨-, hall⟩ := branches_land_on_labels [] source [] none hlength
  refine ⟨hlength, ?_, ?_⟩
  · obtain ⟨s, hs, hchunk, hbne, hbrl⟩ := hnear
    obtain ⟨⟨name, c⟩, hc, hname⟩ := (Option.any_eq_true _ _).1 hchunk
    cases of_decide_eq_true hname
    refine ⟨s, hs, c, hc, hbne, hbrl, fun w => ⟨?_, ?_⟩⟩
    · obtain ⟨m, mode, d, hm, -, hdecode, -, htext⟩ := (hall s hs _ _ _ _ hbne).1 _ c hc w
      cases hm.symm.trans (by decide +kernel : Mnemonic.ofText? bne.mnemonic = some .bne)
      exact ⟨d, hdecode, htext.trans (by decide +kernel)⟩
    · obtain ⟨m, mode, d, hm, -, hdecode, -, htext⟩ := (hall s hs _ _ _ _ hbrl).1 _ c hc w
      cases hm.symm.trans (by decide +kernel : Mnemonic.ofText? brl.mnemonic = some .brl)
      exact ⟨d, hdecode, htext.trans (by decide +kernel)⟩
  · obtain ⟨s, hs, hlabel, hbra⟩ := hfar
    obtain ⟨hnone, d, hd, hkind, hsection, -⟩ :=
      (hall s hs _ _ _ _ hbra).2 (by decide +kernel)
    exact ⟨s, hs, hbra, hnone, d, hd, hkind, hsection.trans hlabel⟩

end Assembler65816
