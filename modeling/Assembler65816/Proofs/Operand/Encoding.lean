import Assembler65816.Proofs.Assembly.Sections
import Assembler65816.Proofs.Chunk.Layout

/-!
# What an instruction assembles to

An instruction that can be assembled has a mode and an opcode byte, `Instruction.encoding?`, and its
image is that byte and the operand field of the mode. The lemmas here take assembling apart once, so
that nothing else has to look into it: which modes an operand can have, what the fallback from the
implied mode does, and when a field is left open.
-/
namespace Assembler65816

theorem Opcode.find_eq_ok {written : Text} {mode : Mode} {b : UInt8}
    (h : Opcode.find written mode = .ok b) :
    ∃ m, Mnemonic.ofText? written = some m ∧ m.opcode? mode = some b := by
  unfold Opcode.find at h
  split at h
  · cases h
  rename_i m hm
  split at h
  · cases h
  rename_i b' hb
  cases h
  exact ⟨m, hm, hb⟩

/-- A mnemonic has the mode that is chosen. It is another than the one asked for only where the
accumulator stands in for the implied mode. -/
theorem Opcode.choose_eq_ok {written : Text} {mode mode' : Mode} {b : UInt8}
    (h : Opcode.choose written mode = .ok (mode', b)) :
    Opcode.find written mode' = .ok b ∧
      (mode' = mode ∨ mode = .implied ∧ mode' = .accumulator) := by
  unfold Opcode.choose at h
  split at h
  · rename_i b' hb
    cases h
    exact ⟨hb, .inl rfl⟩
  split at h
  · rename_i b' hacc _
    cases h
    exact ⟨hacc, .inr ⟨rfl, rfl⟩⟩
  · cases h

theorem Opcode.size_of_choose {written : Text} {mode mode' : Mode} {b : UInt8}
    (h : Opcode.choose written mode = .ok (mode', b)) : mode'.size = mode.size := by
  rcases (choose_eq_ok h).2 with rfl | ⟨rfl, rfl⟩ <;> rfl

def Form.isBare : Form → Bool
  | none | accumulator => true
  | _ => false

theorem Form.isBare_eq_true {form : Form} : form.isBare ↔ form = .none ∨ form = .accumulator := by
  cases form <;> simp [isBare]

theorem Form.width_pos_of_mode? {form : Form} {size : Size} {mode : Mode}
    (h : form.mode? size = some mode) : 0 < mode.width := by
  unfold Form.mode? at h
  split at h <;> cases h <;> decide

/-- A form without an expression has no field, any other has one. -/
theorem Operand.mode_eq_ok {o : Operand} {size : Size} {mode : Mode} (h : o.mode size = .ok mode) :
    (o.form.isBare ∧ mode.size = .implicit) ∨
      (o.form.isBare = false ∧ 0 < mode.width ∧
        (o.expr.isEmpty = false → size.meet? o.form.size ≠ some .implicit)) := by
  unfold Operand.mode at h
  split at h
  · cases h
  rename_i s hs
  split at h
  · rename_i hform
    split at h
    · cases h
      exact .inl ⟨by rw [hform]; rfl, rfl⟩
    · cases h
  · rename_i hform
    split at h
    · cases h
      exact .inl ⟨by rw [hform]; rfl, rfl⟩
    · cases h
  · rename_i hnone hacc
    have hbare : o.form.isBare = false := by
      rw [← Bool.not_eq_true, Form.isBare_eq_true]
      rintro (he | he)
      · exact hnone he
      · exact hacc he
    split at h
    · cases h
    rename_i himplicit
    split at h
    · rename_i m hm
      cases h
      refine .inr ⟨hbare, Form.width_pos_of_mode? hm, ?_⟩
      intro hempty he
      rw [hs] at he
      cases he
      exact himplicit ⟨by rw [hempty]; rfl, rfl⟩
    · cases h

namespace Mode

/-- The field of a mode holds the value that is written into it. -/
theorem field_eq_ok {mode : Mode} {t : Term} {v : Int64} {field : List UInt8} (ht : t.isConstant)
    (h : mode.field v = .ok field) : field = Field.bytes mode.width v ∧ mode.size.Holds t v := by
  unfold Mode.field at h
  unfold Size.Holds
  split at h
  · rename_i hrel
    obtain ⟨-, hfits, rfl⟩ := Field.relative_eq_ok h
    rw [if_pos hrel]
    exact ⟨rfl, ht, hfits⟩
  · rename_i hrel
    obtain ⟨-, hfits, rfl⟩ := Field.plain_eq_ok h
    rw [if_neg hrel]
    exact ⟨rfl, hfits⟩

variable {mode : Mode} {e : Expression} {field : List UInt8}

theorem operandField_of_none (h : mode.operandField e = .ok field) (hv : e.value? = none) :
    field = List.replicate mode.width 0 := by
  simp only [operandField, hv] at h
  cases h
  rfl

theorem operandField_of_some {v : Int64} (h : mode.operandField e = .ok field)
    (hv : e.value? = some v) :
    field = Field.bytes mode.width v ∧
      (0 < mode.width → ∀ t : Term, t.isConstant → mode.size.Holds t v) := by
  simp only [operandField, hv] at h
  split at h
  · rename_i hzero
    cases h
    refine ⟨by rw [hzero]; rfl, fun hpos => ?_⟩
    omega
  · have hconstant : (Term.constant v).isConstant := rfl
    exact ⟨(field_eq_ok hconstant h).1, fun _ t ht => (field_eq_ok ht h).2⟩

theorem length_operandField (h : mode.operandField e = .ok field) : field.length = mode.width := by
  cases hv : e.value? with
  | none => rw [operandField_of_none h hv, List.length_replicate]
  | some v => rw [(operandField_of_some h hv).1, Field.length_bytes]

end Mode

namespace Instruction

/-- The mode of an instruction and its opcode byte in that mode. The mode is the accumulator where
that stands in for the implied one. -/
def encoding? (i : Instruction) : Option (Mode × UInt8) := do
  let size ← Segment.settleSize i
  let mode ← (i.arg.mode size).toOption
  (Opcode.choose i.mnemonic mode).toOption

/-- Whether the operand field is not left open: there is none, or its value is known. -/
def isSettled (i : Instruction) : Bool :=
  sizeOfText i.mnemonic == .implicit || i.arg.expr.isEmpty || i.arg.expr.isConstant

/-- Assembling taken apart. -/
theorem assembled?_eq_some {i : Instruction} {a : Segment.Assembled} (h : i.assembled? = some a) :
    ∃ size mode mode' b field,
      Segment.settleSize i = some size ∧ i.arg.mode size = .ok mode ∧
      Opcode.choose i.mnemonic mode = .ok (mode', b) ∧
      mode'.operandField i.arg.expr = .ok field ∧
      a.encoded.bytes = b :: field ∧
      (a.operand = if i.isSettled then none else some {i.arg.expr.map id with size := mode'.size}) ∧
      (sizeOfText i.mnemonic ≠ .implicit → i.arg.expr.isEmpty = false → i.arg.expr.isConstant →
        i.arg.expr.value?.isSome) := by
  unfold assembled? Segment.assemble at h
  simp only at h
  split at h
  · cases h
  split at h
  · cases h
  rename_i hfold
  split at h
  · cases h
  rename_i size hsize
  split at h
  · cases h
  rename_i mode hmode
  split at h
  · cases h
  rename_i encoded hencoded
  unfold Encoded.of at hencoded
  split at hencoded
  · cases hencoded
  rename_i mode' b hchoose
  split at hencoded
  · cases hencoded
  rename_i field hfield
  cases hencoded
  cases h
  refine ⟨size, mode, mode', b, field, hsize, hmode, hchoose, hfield, rfl, ?_, ?_⟩
  · rw [Opcode.size_of_choose hchoose]
    rfl
  · intro himplicit hempty hconstant
    cases hv : i.arg.expr.value? with
    | some v => rfl
    | none =>
      refine absurd ?_ hfold
      simp [himplicit, hempty, hconstant, hv]

theorem encoding?_eq_some {i : Instruction} {size : Size} {mode : Mode} {p : Mode × UInt8}
    (hsize : Segment.settleSize i = some size) (hmode : i.arg.mode size = .ok mode)
    (hchoose : Opcode.choose i.mnemonic mode = .ok p) : i.encoding? = some p := by
  simp only [encoding?, hsize, hmode, hchoose, bind, Option.bind, Except.toOption]

/-- A mnemonic that takes no operand is not given one. -/
theorem sizeOfText_ne_implicit {i : Instruction} {size : Size} {mode : Mode}
    (hsize : Segment.settleSize i = some size) (hmode : i.arg.mode size = .ok mode)
    (hbare : i.arg.form.isBare = false) (hempty : i.arg.expr.isEmpty = false) :
    sizeOfText i.mnemonic ≠ .implicit := by
  intro himplicit
  -- No other size agrees with the implicit one, so it survives every constraint.
  have hmeet : ∀ s t : Size, Size.meet? .implicit s = some t → t = .implicit := by
    intro s t h
    unfold Size.meet? at h
    split at h
    · cases h
      rfl
    · cases h
  have himp : size = .implicit := by
    unfold Segment.settleSize at hsize
    rw [himplicit] at hsize
    obtain ⟨hinted, hhinted, hsize⟩ := Option.bind_eq_some_iff.1 hsize
    cases hmeet _ _ hhinted
    obtain ⟨declared, hdeclared, hsize⟩ := Option.bind_eq_some_iff.1 hsize
    cases hmeet _ _ hdeclared
    cases hsize
    rfl
  subst himp
  rcases Operand.mode_eq_ok hmode with ⟨hform, -⟩ | ⟨-, -, hne⟩
  · rw [hbare] at hform
    cases hform
  · cases hm : Size.meet? .implicit i.arg.form.size with
    | none => simp [Operand.mode, hm] at hmode
    | some t =>
      cases hmeet _ _ hm
      exact hne hempty hm

/-- What there is to know of an instruction that was assembled. -/
structure Image (i : Instruction) (m : Mnemonic) (mode : Mode) (b : UInt8) (bs : List UInt8) :
    Prop where
  mnemonic : Mnemonic.ofText? i.mnemonic = some m
  encoding : i.encoding? = some (mode, b)
  opcode : m.opcode? mode = some b
  image : (Statement.instruction i).image = b :: bs
  field : mode.operandField i.arg.expr = .ok bs
  bare : i.arg.form.isBare → mode.size = .implicit
  width_pos : i.arg.form.isBare = false → 0 < mode.width
  openFields : ∀ base, (Statement.instruction i).openFields base =
    if i.isSettled then []
    else [⟨Int64.ofNat (base + 1), {i.arg.expr.map id with size := mode.size}, true⟩]
  settled : i.arg.form.isBare = false → i.arg.expr.isEmpty = false →
    i.isSettled = i.arg.expr.isConstant
  folds : i.arg.form.isBare = false → i.arg.expr.isEmpty = false → i.arg.expr.isConstant →
    i.arg.expr.value?.isSome

theorem exists_image {i : Instruction} {a : Segment.Assembled} (ha : i.assembled? = some a) :
    ∃ m mode b bs, i.Image m mode b bs := by
  obtain ⟨size, asked, mode, b, bs, hsize, hasked, hchoose, hfield, hbytes, hoperand, hfolds⟩ :=
    assembled?_eq_some ha
  obtain ⟨m, hm, hopcode⟩ := Opcode.find_eq_ok (Opcode.choose_eq_ok hchoose).1
  have hsame : mode.size = asked.size := Opcode.size_of_choose hchoose
  have hhint := sizeOfText_ne_implicit hsize hasked
  refine ⟨m, mode, b, bs, hm, encoding?_eq_some hsize hasked hchoose, hopcode, ?_, hfield, ?_, ?_,
    ?_, ?_, fun hbare hempty => hfolds (hhint hbare hempty) hempty⟩
  · simp only [Statement.image, ha, Option.map_some, Option.getD_some, hbytes]
  · intro hbare
    rcases Operand.mode_eq_ok hasked with ⟨-, himplicit⟩ | ⟨hform, -⟩
    · rw [hsame, himplicit]
    · rw [hbare] at hform
      cases hform
  · intro hbare
    rcases Operand.mode_eq_ok hasked with ⟨hform, -⟩ | ⟨-, hpos, -⟩
    · rw [hbare] at hform
      cases hform
    · rwa [Mode.width, hsame]
  · intro base
    simp only [Statement.openFields, ha, Option.bind_some, hoperand]
    split <;> rfl
  · intro hbare hempty
    simp [isSettled, hhint hbare hempty, hempty]

section Image
variable {i : Instruction} {m : Mnemonic} {mode : Mode} {b : UInt8} {bs : List UInt8}

theorem Image.width (hi : i.Image m mode b bs) : bs.length = mode.width :=
  Mode.length_operandField hi.field

theorem Image.operand (hi : i.Image m mode b bs) {v : Int64} (hv : i.arg.expr.value? = some v) :
    bs = Field.bytes mode.width v :=
  (Mode.operandField_of_some hi.field hv).1

theorem Image.eq_of_mem_openFields (hi : i.Image m mode b bs) {base : Nat} {f : Fixup}
    (hf : f ∈ (Statement.instruction i).openFields base) :
    f = ⟨Int64.ofNat (base + 1), {i.arg.expr.map id with size := mode.size}, true⟩ := by
  rw [hi.openFields] at hf
  split at hf
  · cases hf
  · exact List.mem_singleton.1 hf

end Image

end Instruction
end Assembler65816
