import Assembler65816.Proofs.Assembly.Reports
import Assembler65816.Proofs.Operand.Encoding
import Assembler65816.Proofs.Statement.Parts
import Mathlib.Logic.ExistsUnique

/-!
# Kinds of diagnostics

Diagnostics are sorted by kind. A diagnostic falls under the category of its kind and under those of
its cause, and the cause may have a kind too. The main statement is that the two never disagree:
every diagnostic of a text has exactly one kind, and what it is about decides which. What could not
be read is a parse error; an operand or an open field overflows if its value or displacement does
not fit, or if it is made of constants that have no value.
-/
namespace Assembler65816

/-- The categories that sort diagnostics. -/
def Category.kinds : List Category := [.parse, .addressingMode, .internal, .fieldOverflow]

/-- Whether a diagnostic falls under one kind and under no other. -/
def Diagnostic.HasKind (d : Diagnostic) (k : Category) : Prop :=
  k ∈ Category.kinds ∧ ∀ k' ∈ Category.kinds, k' ∈ d.categories ↔ k' = k

def Cause.Kindless (c : Cause) : Prop := ∀ k ∈ Category.kinds, k ∉ c.categories

theorem FieldError.eq_overflow_of_mem {e : FieldError} {k : Category} (h : k ∈ e.categories) :
    k = .overflow := by
  unfold categories at h
  split at h
  · exact List.mem_singleton.1 h
  · cases h

theorem EncodeError.eq_addressingMode_of_mem {e : Opcode.LookupError} {k : Category}
    (hk : k ∈ Category.kinds) (h : k ∈ (opcode e).categories) : k = .addressingMode := by
  cases e with
  | unknownMnemonic written =>
    cases List.mem_singleton.1 h
    revert hk
    decide
  | noMode written mode =>
    rcases List.mem_cons.1 h with rfl | h
    · rfl
    · cases List.mem_singleton.1 h
      revert hk
      decide

namespace Cause

theorem kindless_malformed (e : SyntaxError) : (malformed e).Kindless := by
  simp [Kindless, Category.kinds, categories]

theorem kindless_reading (file reason : Text) : (reading file reason).Kindless := by
  simp [Kindless, categories]

theorem kindless_unknownMnemonic (written : Text) :
    (opcode (.unknownMnemonic written)).Kindless := by
  simp [Kindless, Category.kinds, categories, Opcode.LookupError.category]

theorem kindless_field (e : FieldError) : (field e).Kindless := by
  intro k hk hmem
  rw [FieldError.eq_overflow_of_mem hmem] at hk
  revert hk
  decide

theorem kindless_item (written : Text) (e : FieldError) : (item written e).Kindless :=
  kindless_field e

end Cause

namespace Diagnostic
variable {d : Diagnostic} {k : Category}

/-- The cause has no kind but that of the diagnostic. -/
theorem hasKind_of_cause (hk : k ∈ Category.kinds) (hkind : d.kind = k)
    (hcause : ∀ c, d.cause = some c → ∀ k' ∈ Category.kinds, k' ∈ c.categories → k' = k) :
    d.HasKind k := by
  refine ⟨hk, fun k' hk' => ⟨fun hmem => ?_, ?_⟩⟩
  · rcases List.mem_cons.1 hmem with rfl | hmem
    · exact hkind
    · cases hc : d.cause with
      | none =>
        rw [hc] at hmem
        cases hmem
      | some c =>
        rw [hc] at hmem
        exact hcause c hc k' hk' hmem
  · rintro rfl
    rw [← hkind]
    exact List.mem_cons_self

theorem hasKind_of_kindless (hk : k ∈ Category.kinds) (hkind : d.kind = k)
    (hcause : ∀ c, d.cause = some c → c.Kindless) : d.HasKind k :=
  hasKind_of_cause hk hkind fun c hc k' hk' hmem => absurd hmem (hcause c hc k' hk')

/-- What is said about a place that cannot be read is a parse error. -/
theorem hasKind_parse (label : Text) (pos : Position) {cause : Cause} (h : cause.Kindless) :
    HasKind {kind := .parse, label, pos, cause := some cause} .parse := by
  refine hasKind_of_kindless (by decide) rfl fun c hc => ?_
  cases hc
  exact h

theorem HasKind.existsUnique (h : d.HasKind k) :
    ∃! k', k' ∈ Category.kinds ∧ k' ∈ d.categories :=
  ⟨k, ⟨h.1, (h.2 k h.1).2 rfl⟩, fun k' hk' => (h.2 k' hk'.1).1 hk'.2⟩

theorem HasKind.mem_iff (h : d.HasKind k) {k' : Category} (hk' : k' ∈ Category.kinds) {P : Prop}
    (hP : P ↔ k = k') : k' ∈ d.categories ↔ P := by
  rw [h.2 k' hk', hP]
  exact eq_comm

end Diagnostic

/-- Whether a field of this size can hold a value, or a displacement if it is relative. -/
def Size.Admits (size : Size) (v : Int64) : Prop :=
  if size.isRelative then Field.relFits size v else Field.fits size.width v

namespace Instruction

/-- Whether the operand is made of constants but has no value. The mnemonic has to take one. -/
def Unfoldable (i : Instruction) : Prop :=
  (Mnemonic.ofText? i.mnemonic).isSome ∧ sizeOfText i.mnemonic ≠ .implicit ∧
    i.arg.expr.isEmpty = false ∧ i.arg.expr.isConstant ∧ i.arg.expr.value? = none

/-- Whether the operand has a value that the operand field cannot hold. -/
def Misfit (i : Instruction) : Prop :=
  ∃ mode b v, i.encoding? = some (mode, b) ∧ 0 < mode.width ∧ i.arg.expr.value? = some v ∧
    ¬mode.size.Admits v

end Instruction

/-- Whether an open field lies within the section and, once the labels have their offsets, the value
or the displacement does not fit into it. -/
def Fixup.Misfit (offsets : Offsets) (length : Nat) (f : Fixup) : Prop :=
  inRange length f.offset f.size ∧
    ((∃ v, (f.settle offsets).expr.term = .constant v ∧ f.size.isRelative = false ∧
        0 < f.size.width ∧ ¬f.size.Admits v) ∨
      ∃ k, (f.settle offsets).expr.term = .offset k ∧ f.size.isRelative ∧
        ¬f.size.Admits (k - f.offset - 1))

/-- Whether a value or a displacement does not fit, or an operand has no value. -/
def Origin.Overflows : Origin → Prop
  | instruction i => i.Misfit ∨ i.Unfoldable
  | field f offsets length => f.Misfit offsets length
  | _ => False

def Origin.IsPlace (o : Origin) : Prop := ∃ cause pos, o = place cause pos

namespace Field

theorem plain_eq_error {size : Size} {v : Int64} {e : FieldError} (h : plain size v = .error e)
    (hwidth : 0 < size.width) (hrel : size.isRelative = false) : ¬size.Admits v := by
  rw [Size.Admits, hrel, if_neg Bool.false_ne_true]
  intro hfits
  have hplain : ¬(size.width = 0 ∨ size.isRelative) := by
    rintro (hzero | hrel')
    · omega
    · rw [hrel] at hrel'
      cases hrel'
  rw [plain, if_neg hplain, if_pos hfits] at h
  cases h

theorem relative_eq_error {size : Size} {v : Int64} {e : FieldError}
    (h : relative size v = .error e) (hrel : size.isRelative) : ¬size.Admits v := by
  rw [Size.Admits, if_pos hrel]
  intro hfits
  rw [relative, if_neg (by simp [hrel]), if_pos hfits] at h
  cases h

end Field

theorem Mode.operandField_eq_error {mode : Mode} {e : Expression} {err : FieldError}
    (h : mode.operandField e = .error err) :
    0 < mode.width ∧ ∃ v, e.value? = some v ∧ ¬mode.size.Admits v := by
  unfold Mode.operandField at h
  split at h
  · rename_i v hv
    split at h
    · cases h
    rename_i hwidth
    have hpos := Nat.pos_of_ne_zero hwidth
    refine ⟨hpos, v, hv, ?_⟩
    unfold Mode.field at h
    split at h
    · rename_i hrel
      exact Field.relative_eq_error h hrel
    · rename_i hrel
      exact Field.plain_eq_error h hpos (Bool.not_eq_true _ ▸ hrel)
  · cases h

namespace Instruction
variable {i : Instruction}

theorem not_misfit_of_encoding? (h : i.encoding? = none) : ¬i.Misfit := by
  rintro ⟨mode, b, v, hsome, -⟩
  rw [h] at hsome
  cases hsome

theorem encoding?_of_settleSize_none (h : Segment.settleSize i = none) : i.encoding? = none := by
  rw [encoding?, h]
  rfl

theorem encoding?_of_mode_error {size : Size} {err : ModeError}
    (hsize : Segment.settleSize i = some size) (h : i.arg.mode size = .error err) :
    i.encoding? = none := by
  simp only [encoding?, hsize, h, bind, Option.bind, Except.toOption]

theorem encoding?_of_choose_error {size : Size} {mode : Mode} {err : Opcode.LookupError}
    (hsize : Segment.settleSize i = some size) (hmode : i.arg.mode size = .ok mode)
    (h : Opcode.choose i.mnemonic mode = .error err) : i.encoding? = none := by
  simp only [encoding?, hsize, hmode, h, bind, Option.bind, Except.toOption]

/-- An unknown mnemonic has no opcode in any mode. -/
theorem encoding?_of_unknown (h : Mnemonic.ofText? i.mnemonic = none) : i.encoding? = none := by
  have hfind : ∀ mode, (Opcode.find i.mnemonic mode).toOption = none := by
    intro mode
    rw [Opcode.find, h]
    rfl
  cases hsome : i.encoding? with
  | none => rfl
  | some p =>
    obtain ⟨size, -, hsome⟩ := Option.bind_eq_some_iff.1 hsome
    obtain ⟨mode, -, hsome⟩ := Option.bind_eq_some_iff.1 hsome
    cases hchoose : Opcode.choose i.mnemonic mode with
    | error err =>
      rw [hchoose] at hsome
      cases hsome
    | ok q =>
      have hfound := hfind q.1
      rw [(Opcode.choose_eq_ok (b := q.2) hchoose).1] at hfound
      cases hfound

end Instruction

namespace Segment

/-- The ways in which assembling fails: the mnemonic is unknown, the operand is made of constants
without a value, there is no such mode, or the operand does not fit. -/
theorem assemble_eq_error {label : Text} {i : Instruction} {d : Diagnostic}
    (h : assemble label i = .error d) :
    (d.kind = .addressingMode ∧ i.encoding? = none ∧ ¬i.Unfoldable ∧
      (d.cause = some (.opcode (.unknownMnemonic i.mnemonic)) ∨ d.cause = none ∨
        (∃ e, d.cause = some (.mode e)) ∨ ∃ e, d.cause = some (.encoding (.opcode e)))) ∨
    (d.kind = .fieldOverflow ∧ i.Unfoldable ∧ d.cause = some .unfoldable) ∨
    (d.kind = .fieldOverflow ∧ i.Misfit ∧ ∃ e, d.cause = some (.encoding (.field e))) := by
  unfold assemble at h
  simp only at h
  split at h
  · rename_i hunknown
    cases h
    refine .inl ⟨rfl, ?_, fun hunfoldable => ?_, .inl rfl⟩
    · exact Instruction.encoding?_of_unknown (Option.isNone_iff_eq_none.1 hunknown)
    · have hsome := hunfoldable.1
      rw [Option.isNone_iff_eq_none.1 hunknown] at hsome
      cases hsome
  rename_i hknown
  split at h
  · rename_i hfold
    simp only [Bool.and_eq_true, bne_iff_ne, Bool.not_eq_true', Option.isNone_iff_eq_none] at hfold
    obtain ⟨⟨⟨himplicit, hempty⟩, hconstant⟩, hvalue⟩ := hfold
    cases h
    refine .inr (.inl ⟨rfl, ⟨?_, himplicit, hempty, hconstant, hvalue⟩, rfl⟩)
    simpa [Option.isSome_iff_ne_none] using hknown
  rename_i hfold
  have hfoldable : ¬i.Unfoldable := by
    rintro ⟨-, himplicit, hempty, hconstant, hvalue⟩
    refine hfold ?_
    simp [himplicit, hempty, hconstant, hvalue]
  split at h
  · rename_i hsize
    cases h
    exact .inl ⟨rfl, Instruction.encoding?_of_settleSize_none hsize, hfoldable, .inr (.inl rfl)⟩
  rename_i size hsize
  split at h
  · rename_i err hmode
    cases h
    exact .inl ⟨rfl, Instruction.encoding?_of_mode_error hsize hmode, hfoldable,
      .inr (.inr (.inl ⟨err, rfl⟩))⟩
  rename_i mode hmode
  split at h
  · rename_i err hencoded
    unfold Encoded.of at hencoded
    split at hencoded
    · rename_i e hchoose
      cases hencoded
      cases h
      exact .inl ⟨rfl, Instruction.encoding?_of_choose_error hsize hmode hchoose, hfoldable,
        .inr (.inr (.inr ⟨e, rfl⟩))⟩
    · rename_i mode' b hchoose
      split at hencoded
      · rename_i e hfield
        cases hencoded
        cases h
        obtain ⟨hpos, v, hv, hadmits⟩ := Mode.operandField_eq_error hfield
        refine .inr (.inr ⟨rfl, ⟨mode', b, v, ?_, hpos, hv, hadmits⟩, e, rfl⟩)
        exact Instruction.encoding?_eq_some hsize hmode hchoose
      · cases hencoded
  · cases h

/-- Assembling fails with an addressing mode mismatch, or because the operand overflows. -/
theorem hasKind_of_assemble {label : Text} {i : Instruction} {d : Diagnostic}
    (h : assemble label i = .error d) :
    (d.HasKind .addressingMode ∧ ¬(i.Misfit ∨ i.Unfoldable)) ∨
      (d.HasKind .fieldOverflow ∧ (i.Misfit ∨ i.Unfoldable)) := by
  rcases assemble_eq_error h with ⟨hkind, hnone, hfoldable, hcause⟩ | ⟨hkind, hunfoldable, hcause⟩ |
    ⟨hkind, hmisfit, e, hcause⟩
  · refine .inl ⟨Diagnostic.hasKind_of_cause (by decide) hkind fun c hc k hk hmem => ?_, ?_⟩
    · rw [hc] at hcause
      rcases hcause with hcause | hcause | ⟨e, hcause⟩ | ⟨e, hcause⟩ <;> cases hcause
      · exact absurd hmem (Cause.kindless_unknownMnemonic _ k hk)
      · exact List.mem_singleton.1 hmem
      · exact EncodeError.eq_addressingMode_of_mem hk hmem
    · rintro (hmisfit | hunfoldable)
      · exact Instruction.not_misfit_of_encoding? hnone hmisfit
      · exact hfoldable hunfoldable
  · refine .inr ⟨Diagnostic.hasKind_of_kindless (by decide) hkind fun c hc => ?_, .inr hunfoldable⟩
    cases hcause.symm.trans hc
    simp [Cause.Kindless, Cause.categories]
  · refine .inr ⟨Diagnostic.hasKind_of_cause (by decide) hkind fun c hc k hk hmem => ?_,
      .inl hmisfit⟩
    cases hcause.symm.trans hc
    rcases List.mem_cons.1 hmem with rfl | hmem
    · rfl
    · exact absurd hmem (Cause.kindless_field e k hk)

theorem hasKind_of_reference {label : Text} {pos : Position} {base length : Nat} {r : DataRef}
    {d : Diagnostic} (h : reference label pos base length r = .error d) : d.HasKind .internal := by
  unfold reference at h
  split at h
  · cases h
  · cases h
    refine Diagnostic.hasKind_of_kindless (by decide) rfl fun c hc => ?_
    cases hc

end Segment

namespace Fixup
variable {label : Text} {offsets : Offsets} {length : Nat} {f : Fixup} {d : Diagnostic}

/-- The ways in which an open field fails: it is out of range, it is relative or has no width but
comes to a number, or what it comes to does not fit. -/
theorem resolve_eq_failed (h : resolve label offsets length f = .failed d) :
    (¬inRange length f.offset f.size ∧ d.kind = .internal ∧ d.cause = none) ∨
    (∃ v, (f.settle offsets).expr.term = .constant v ∧
      (f.size.isRelative ∨ f.size.width = 0) ∧
      d = { kind := .internal, label, subject := f.expr.text
            want := ascii "byte, word or long field"
            got := f.size.name ++ ascii " field for a constant" }) ∨
    (f.Misfit offsets length ∧ d.kind = .fieldOverflow ∧ ∃ e, d.cause = some (.field e)) := by
  unfold resolve at h
  simp only at h
  split at h
  · rename_i hrange
    cases h
    exact .inl ⟨by simpa using hrange, rfl, rfl⟩
  rename_i hrange
  have hin : inRange length f.offset f.size := by simpa using hrange
  split at h
  · cases h
  · rename_i v hterm
    split at h
    · rename_i hsize
      cases h
      exact .inr (.inl ⟨v, hterm, by simpa using hsize, rfl⟩)
    · rename_i hsize
      simp only [Bool.or_eq_true, beq_iff_eq, not_or, Bool.not_eq_true] at hsize
      have hpos := Nat.pos_of_ne_zero hsize.2
      split at h
      · cases h
      split at h
      · cases h
      · rename_i e hfield
        cases h
        refine .inr (.inr ⟨⟨hin, .inl ⟨v, hterm, hsize.1, hpos, ?_⟩⟩, rfl, e, rfl⟩)
        exact Field.plain_eq_error hfield hpos hsize.1
  · rename_i k hterm
    split at h
    · rename_i hrel
      split at h
      · cases h
      split at h
      · cases h
      · rename_i e hfield
        cases h
        refine .inr (.inr ⟨⟨hin, .inr ⟨k, hterm, hrel, ?_⟩⟩, rfl, e, rfl⟩)
        exact Field.relative_eq_error hfield hrel
    · cases h
  · cases h

/-- An open field is inconsistent or overflows. -/
theorem hasKind_of_resolve (h : resolve label offsets length f = .failed d) :
    (d.HasKind .internal ∧ ¬f.Misfit offsets length) ∨
      (d.HasKind .fieldOverflow ∧ f.Misfit offsets length) := by
  rcases resolve_eq_failed h with ⟨hrange, hkind, hnone⟩ | ⟨v, hterm, hsize, rfl⟩ |
    ⟨hmisfit, hkind, e, hcause⟩
  · refine .inl ⟨Diagnostic.hasKind_of_kindless (by decide) hkind fun c hc => ?_, ?_⟩
    · cases hnone.symm.trans hc
    · exact fun hmisfit => hrange hmisfit.1
  · refine .inl ⟨Diagnostic.hasKind_of_kindless (by decide) rfl fun c hc => ?_, ?_⟩
    · cases hc
    · rintro ⟨-, ⟨v', -, hrel, hwidth, -⟩ | ⟨k, hk, -⟩⟩
      · rcases hsize with hrel' | hzero
        · cases hrel.symm.trans hrel'
        · omega
      · cases hterm.symm.trans hk
  · refine .inr ⟨Diagnostic.hasKind_of_kindless (by decide) hkind fun c hc => ?_, hmisfit⟩
    cases hcause.symm.trans hc
    exact Cause.kindless_field e

end Fixup

namespace Directive
variable {labels : Labels} {size : Size} {cause : Cause}

theorem kindless_of_readTerm {s : Text} (h : readTerm labels s = .error cause) :
    cause.Kindless := by
  obtain ⟨e, rfl⟩ := Except.mapError_eq_error h
  exact Cause.kindless_malformed _

theorem kindless_of_image {base : Nat} {item : DataItem}
    (h : image labels size base item = .error cause) : cause.Kindless := by
  unfold image at h
  split at h
  · cases h
  rcases Except.bind_eq_error h with h | ⟨t, -, h⟩
  · exact kindless_of_readTerm h
  split at h
  · rcases Except.bind_eq_error h with h | ⟨field, -, h⟩
    · obtain ⟨e, rfl⟩ := Except.mapError_eq_error h
      exact Cause.kindless_item _ _
    · cases h
  · cases h

theorem kindless_of_images {base : Nat} {items : List DataItem}
    (h : images labels size base items = .error cause) : cause.Kindless := by
  induction items generalizing base with
  | nil => cases h
  | cons item items ih =>
    unfold images at h
    rcases Except.bind_eq_error h with h | ⟨first, -, h⟩
    · exact kindless_of_image h
    rcases Except.bind_eq_error h with h | ⟨rest, -, h⟩
    · exact ih h
    · cases h

theorem kindless_of_read {name args : Text} {pos : Position}
    (h : read labels name args pos = .error cause) : cause.Kindless := by
  unfold read at h
  split at h
  · unfold values at h
    split at h
    · cases h
      exact Cause.kindless_malformed _
    · rcases Except.bind_eq_error h with h | ⟨p, -, h⟩
      · exact kindless_of_images h
      · cases h
  · simp only at h
    split at h
    · cases h
    · cases h
      exact Cause.kindless_malformed _

end Directive

theorem Statement.kindless_of_read {labels : Labels} {s : Text} {pos : Position} {cause : Cause}
    (h : Statement.read labels s pos = .error cause) : cause.Kindless := by
  unfold Statement.read at h
  split at h
  · rcases Except.bind_eq_error h with h | ⟨t, -, h⟩
    · exact Directive.kindless_of_readTerm h
    · cases h
  · simp only at h
    split at h
    · exact Directive.kindless_of_read h
    · unfold readInstruction at h
      rcases Except.bind_eq_error h with h | ⟨size, -, h⟩
      · obtain ⟨e, rfl⟩ := Except.mapError_eq_error h
        exact Cause.kindless_malformed _
      rcases Except.bind_eq_error h with h | ⟨arg, -, h⟩
      · obtain ⟨e, rfl⟩ := Except.mapError_eq_error h
        exact Cause.kindless_malformed _
      · cases h

def Line.Item.Kindless (item : Line.Item) : Prop :=
  ∀ l cause fatal pos, item.statement l = .unreadable cause fatal pos → cause.Kindless

namespace Line

theorem Item.kindless_written (s : Text) (pos : Position) : (Item.written s pos).Kindless := by
  intro l cause fatal pos' h
  cases hread : Statement.read l s pos with
  | error e =>
    simp only [Item.statement, hread] at h
    cases h
    exact Statement.kindless_of_read hread
  | ok st =>
    simp only [Item.statement, hread] at h
    rcases Statement.read_eq_ok hread with ⟨name, s', t, -, rfl⟩ |
      ⟨size, items, bytes, refs, -, -, rfl⟩ | ⟨bytes, -, rfl⟩ | ⟨i, rfl, -⟩ <;> cases h

theorem kindless_labelled (pos : Position) (attributes : List Attribute) (s : Text) :
    ∀ item ∈ (labelled pos attributes s).1, item.Kindless := by
  fun_induction labelled pos attributes s with
  | case1 attributes s head r h ih =>
    intro item hitem
    rcases List.mem_cons.1 hitem with rfl | hitem
    · intro l cause fatal pos' hst
      cases head with
      | anonymous direction count => cases direction <;> cases hst
      | _ => cases hst
    · exact ih item hitem
  | case2 attributes s h =>
    intro item hitem
    split at hitem
    · cases hitem
    · cases List.mem_singleton.1 hitem
      exact Item.kindless_written s pos

theorem kindless_items {pos : Position} {attributes attributes' : List Attribute} {line : Text}
    {is : List Item} (h : items pos attributes line = .ok (is, attributes')) :
    ∀ item ∈ is, item.Kindless := by
  intro item hitem
  unfold items at h
  split at h
  · cases h
    cases hitem
  · split at h
    · cases h
      cases hitem
    · cases h
  · split at h
    · cases h
      cases List.mem_singleton.1 hitem
      exact Item.kindless_written _ pos
    · have hl := kindless_labelled pos attributes (code line)
      rw [Except.ok.inj h] at hl
      exact hl item hitem

end Line

theorem Reader.kindless_itemsFrom (file : Text) (failure : Option Text) (line : Nat)
    (attributes : List Attribute) (lines : List Text) :
    ∀ item ∈ itemsFrom file failure line attributes lines, item.Kindless := by
  induction lines generalizing line attributes with
  | nil =>
    intro item hitem
    cases failure with
    | none => cases hitem
    | some reason =>
      cases List.mem_singleton.1 hitem
      intro l cause fatal pos h
      cases h
      exact Cause.kindless_reading _ _
  | cons text lines ih =>
    intro item hitem
    unfold itemsFrom at hitem
    cases he : Line.items ⟨file, (line + 1 : Nat)⟩ attributes text with
    | error e =>
      simp only [he] at hitem
      rcases List.mem_cons.1 hitem with rfl | hitem
      · intro l cause fatal pos h
        cases h
        exact Cause.kindless_malformed _
      · exact ih _ _ item hitem
    | ok p =>
      simp only [he] at hitem
      rcases List.mem_append.1 hitem with hitem | hitem
      · exact Line.kindless_items he item hitem
      · exact ih _ _ item hitem

theorem Reader.kindless_of_mem_statements {file source : Text} {failure : Option Text}
    {labels : Labels} {cause : Cause} {fatal : Bool} {pos : Position}
    (h : .unreadable cause fatal pos ∈ statements labels (ofText file source failure).items) :
    cause.Kindless := by
  obtain ⟨item, hitem, l, hst⟩ := exists_item_of_mem_statements h
  exact Reader.kindless_itemsFrom _ _ _ _ _ item hitem l cause fatal pos hst.symm

/-- What a report is about decides its kind. -/
theorem Origin.exists_hasKind {o : Origin} {label : Text} {d : Diagnostic}
    (h : o.diagnostic? label = some d)
    (hplace : ∀ cause pos, o = .place cause pos → cause.Kindless) :
    ∃ k, d.HasKind k ∧ (o.IsPlace ↔ k = .parse) ∧ (o.Overflows ↔ k = .fieldOverflow) := by
  have hinternal : d.HasKind .internal → ¬o.IsPlace → ¬o.Overflows →
      ∃ k, d.HasKind k ∧ (o.IsPlace ↔ k = .parse) ∧ (o.Overflows ↔ k = .fieldOverflow) :=
    fun hkind hplace hover => ⟨_, hkind, by simp [hplace], by simp [hover]⟩
  cases o with
  | place cause pos =>
    cases h
    refine ⟨.parse, Diagnostic.hasKind_parse label pos (hplace cause pos rfl), ?_, ?_⟩
    · simp [IsPlace]
    · simp [Overflows]
  | instruction i =>
    simp only [diagnostic?] at h
    split at h
    · cases h
    rename_i hd
    cases h
    rcases Segment.hasKind_of_assemble hd with ⟨hkind, hover⟩ | ⟨hkind, hover⟩
    · exact ⟨_, hkind, by simp [IsPlace], by simpa [Overflows] using hover⟩
    · exact ⟨_, hkind, by simp [IsPlace], by simpa [Overflows] using hover⟩
  | reference r length pos =>
    simp only [diagnostic?] at h
    split at h
    · cases h
    rename_i hd
    cases h
    exact hinternal (Segment.hasKind_of_reference hd) (by simp [IsPlace]) id
  | unknown =>
    cases h
    refine hinternal ?_ (by simp [IsPlace]) id
    refine Diagnostic.hasKind_of_kindless (by decide) rfl fun c hc => ?_
    cases hc
    simp [Cause.Kindless, Cause.categories]
  | field f offsets length =>
    cases hresolve : f.resolve label offsets length with
    | failed d' =>
      simp only [diagnostic?, hresolve] at h
      cases h
      rcases Fixup.hasKind_of_resolve hresolve with ⟨hkind, hover⟩ | ⟨hkind, hover⟩
      · exact hinternal hkind (by simp [IsPlace]) hover
      · exact ⟨_, hkind, by simp [IsPlace], by simpa [Overflows] using hover⟩
    | _ =>
      simp only [diagnostic?, hresolve] at h
      cases h

namespace Section
variable {s : Section} {cause : Cause} {pos : Position}

theorem mem_body_of_place (h : .place cause pos ∈ s.statementOrigins) :
    .unreadable cause false pos ∈ s.body := by
  rcases mem_statementOrigins h with ⟨cause', pos', ho, hst⟩ | ⟨i, ho, -⟩ | ⟨_, _, _, _, ho, -⟩ |
    ⟨ho, -⟩ <;> cases ho
  exact hst

theorem abandoned?_eq_some {t : Section} {sts : List Statement}
    (h : s.abandoned? sts = some (t, cause, pos)) :
    t ∈ s.sections (sts.takeWhile (!·.isFatal)) ∧ ∃ fatal, .unreadable cause fatal pos ∈ sts := by
  unfold abandoned? at h
  split at h
  · rename_i cause' fatal pos' hhead
    cases h
    refine ⟨List.mem_append_right _ (List.mem_singleton_self _), fatal, ?_⟩
    exact (List.dropWhile_suffix (!·.isFatal)).subset (List.mem_of_mem_head? hhead)
  · cases h

/-- A place is reported because a statement could not be read there. -/
theorem exists_of_place_mem_allReports {sts : List Statement} {r : Report}
    (hr : r ∈ s.allReports sts) (hplace : r.origin = .place cause pos) :
    ∃ fatal, .unreadable cause fatal pos ∈ s.body ∨ .unreadable cause fatal pos ∈ sts := by
  have hbody : ∀ t ∈ s.sections (sts.takeWhile (!·.isFatal)),
      .place cause pos ∈ t.statementOrigins →
      ∃ fatal, .unreadable cause fatal pos ∈ s.body ∨ .unreadable cause fatal pos ∈ sts := by
    intro t ht h
    refine ⟨false, (mem_of_mem_sections ht (mem_body_of_place h)).imp_right fun hmem => ?_⟩
    exact (List.takeWhile_prefix _).subset hmem
  rcases List.mem_append.1 hr with hr | hr
  · obtain ⟨t, ht, hr⟩ := List.mem_flatMap.1 hr
    obtain ⟨o, ho, rfl⟩ := List.mem_map.1 hr
    cases hplace
    rcases List.mem_append.1 ho with ho | ho
    · exact hbody t ((s.closed_prefix_sections sts).subset ht) ho
    · obtain ⟨f, -, hf⟩ := List.mem_map.1 ho
      cases hf
  · obtain ⟨⟨t, cause', pos'⟩, ht, hr⟩ := List.mem_flatMap.1 hr
    obtain ⟨hsection, fatal, hmem⟩ := abandoned?_eq_some (Option.mem_toList.1 ht)
    obtain ⟨o, ho, rfl⟩ := List.mem_map.1 hr
    cases hplace
    rcases List.mem_append.1 ho with ho | ho
    · exact hbody t hsection ho
    · cases List.mem_singleton.1 ho
      exact ⟨fatal, .inr hmem⟩

end Section

/-- The diagnostics of a text are those of its reports, in order, and each has exactly one kind. It
is a parse error if and only if it is about a place that could not be read, and an overflow if and
only if a value or a displacement does not fit its field or a constant operand has no value. -/
theorem diagnostics_one_kind (file source root : Text) (failure : Option Text) :
    let reader := Reader.ofText file source failure
    let sts := (Assembly.start (.text reader) {} root).pulls.map Pull.statement
    let reports := (Section.root {} root).allReports sts
    (assemble (.text reader) {} root).filterMap Output.diagnostic? =
        reports.filterMap Report.diagnostic? ∧
      ∀ r ∈ reports, ∀ d, r.diagnostic? = some d →
        (∃! k, k ∈ Category.kinds ∧ k ∈ d.categories) ∧
        (.parse ∈ d.categories ↔ r.origin.IsPlace) ∧
        (.fieldOverflow ∈ d.categories ↔ r.origin.Overflows) := by
  intro reader sts reports
  have hlawful := Reader.lawful_items_ofText file source failure
  refine ⟨?_, fun r hr d hd => ?_⟩
  · rw [assemble, run_start hlawful]
    exact Section.diagnostics_total _ sts
  have hplace : ∀ cause pos, r.origin = .place cause pos → cause.Kindless := by
    intro cause pos ho
    obtain ⟨fatal, hnone | hst⟩ := Section.exists_of_place_mem_allReports hr ho
    · cases hnone
    have hsts : sts = statements {} reader.items := reader.statements_start hlawful {} root
    rw [hsts] at hst
    exact Reader.kindless_of_mem_statements hst
  obtain ⟨k, hkind, hparse, hoverflow⟩ := Origin.exists_hasKind hd hplace
  exact ⟨hkind.existsUnique, hkind.mem_iff (by decide) hparse, hkind.mem_iff (by decide) hoverflow⟩

/-- All four kinds: a malformed number, a mode that there is not, a value and a distance that do not
fit, and a branch to a number. -/
example :
    let source :=
      ascii "lda $\n.x: jsr #1\n lda.b #$123\n bra .x-.x\na: .db .y-.x\n.x: .ds 300\n.y:\n"
    ((assemble (.text (Reader.ofText [] source none)) {} []).filterMap Output.diagnostic?).map
      Diagnostic.kind = [.parse, .addressingMode, .fieldOverflow, .internal, .fieldOverflow] := by
  decide +kernel

end Assembler65816
