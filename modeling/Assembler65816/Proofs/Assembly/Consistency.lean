import Assembler65816.Proofs.Assembly.ControlFlow
import Assembler65816.Proofs.Assembly.Kinds
import Assembler65816.Proofs.Statement.OpenFields
import Mathlib.Data.List.Basic

/-!
# Internal consistency

The assembler checks its own work: that it knows every statement, that references lie in their data,
that open fields lie in their section and have a width, and that what goes into a relative field is
a place. On a text all of these checks hold but the last. The main statement is that a diagnostic is
an internal one if and only if it is about a stray instruction, which is a branch or the like whose
operand is written with labels and comes to a number once they have their offsets. There is one
diagnostic for each of them, in order.
-/
namespace Assembler65816

def Diagnostic.isInternal (d : Diagnostic) : Bool := d.categories.contains .internal

theorem Diagnostic.HasKind.isInternal_eq {d : Diagnostic} {k : Category} (h : d.HasKind k) :
    d.isInternal = decide (k = .internal) := by
  rw [isInternal, List.contains_eq_mem, decide_eq_decide, h.2 .internal (by decide)]
  exact eq_comm

namespace Instruction

/-- The size of the operand field of an instruction that can be assembled. -/
def fieldSize? (i : Instruction) : Option Size := do
  let _ ← i.assembled?
  let (mode, _) ← i.encoding?
  return mode.size

/-- Whether the operand of a relative instruction is not a constant as it is written, but comes to
one when the labels of the section are replaced by their offsets. -/
def isStray (offsets : Offsets) (i : Instruction) : Bool :=
  i.fieldSize?.any Size.isRelative && !i.arg.expr.isConstant &&
    (i.arg.expr.term.substitute offsets.position?).value?.isSome

def strayDiagnostic (label : Text) (i : Instruction) : Diagnostic :=
  { kind := .internal, label, subject := i.arg.expr.text
    want := ascii "byte, word or long field"
    got := (i.fieldSize?.getD .any).name ++ ascii " field for a constant" }

end Instruction

def Statement.stray? (offsets : Offsets) : Statement → Option Instruction
  | instruction i => if i.isStray offsets then some i else none
  | _ => none

def Section.strays (s : Section) : List Instruction := s.body.filterMap (Statement.stray? s.offsets)

/-- The internal diagnostic that an open field of a section comes to. -/
def Fixup.internal? (label : Text) (offsets : Offsets) (length : Nat) (f : Fixup) :
    Option Diagnostic :=
  (f.resolve label offsets length).failed?.filter Diagnostic.isInternal

/-- A field in range of some width is inconsistent only if it is relative and its expression comes
to a number. -/
theorem Fixup.internal?_eq {f : Fixup} {length : Nat} (label : Text) (offsets : Offsets)
    (hrange : inRange length f.offset f.size) (hwidth : 0 < f.size.width) :
    f.internal? label offsets length =
      if f.size.isRelative && (f.expr.term.substitute offsets.position?).value?.isSome then
        some { kind := .internal, label, subject := f.expr.text
               want := ascii "byte, word or long field"
               got := f.size.name ++ ascii " field for a constant" }
      else none := by
  have hterm : (f.settle offsets).expr.term = (f.expr.term.substitute offsets.position?).reduce :=
    rfl
  -- Every outcome but one leaves a relative field without a number.
  have hplain : (∀ v, (f.settle offsets).expr.term = .constant v → f.size.isRelative = false) →
      ¬(f.size.isRelative && (f.expr.term.substitute offsets.position?).value?.isSome) := by
    intro h hnumber
    rw [Bool.and_eq_true, Option.isSome_iff_exists] at hnumber
    obtain ⟨hrel, v, hv⟩ := hnumber
    cases (h v (hterm.trans (Term.value?_eq_some.1 hv))).symm.trans hrel
  rcases resolve_cases label offsets length f with ⟨d, hr⟩ | ⟨hempty, hr⟩ | ⟨v, hv, hrel, -, hr⟩ |
    ⟨k, hk, -, -, hr⟩ | ⟨hconstant, -, hr⟩ | ⟨-, -, hwrites, hr⟩ <;> rw [internal?, hr]
  · rcases resolve_eq_failed hr with ⟨hout, -⟩ | ⟨v, hv, hsize, rfl⟩ | ⟨hmisfit, -⟩
    · exact absurd hrange hout
    · have hrel : f.size.isRelative := hsize.resolve_right (Nat.pos_iff_ne_zero.1 hwidth)
      rw [if_pos (by simp [hrel, Term.value?_eq_some.2 (hterm.symm.trans hv)])]
      rfl
    · have hd : d.HasKind .fieldOverflow :=
        ((hasKind_of_resolve hr).resolve_left fun h => h.2 hmisfit).1
      rw [if_neg (hplain fun v hv => ?_), Resolution.failed?, Option.filter_some, hd.isInternal_eq]
      · rfl
      · rcases hmisfit.2 with ⟨v', -, hrel, -⟩ | ⟨k, hk, -⟩
        · exact hrel
        · cases hv.symm.trans hk
  · exact (if_neg (hplain fun v hv => by cases hempty.symm.trans hv)).symm
  · exact (if_neg (hplain fun _ _ => hrel)).symm
  · exact (if_neg (hplain fun v hv => by cases hk.symm.trans hv)).symm
  · exact (if_neg (hplain fun v hv => absurd hv (hconstant v))).symm
  · refine (if_neg (hplain fun v hv => ?_)).symm
    rcases hwrites with ⟨v', -, hrel, -⟩ | ⟨k, hk, -⟩
    · exact hrel
    · cases hk.symm.trans hv

/-- The fields that an instruction leaves open: its operand, unless it is a constant. -/
theorem Instruction.openFields_eq {i : Instruction} {labels : Labels}
    (hread : i.arg.IsRead labels) (base : Nat) :
    (Statement.instruction i).openFields base =
        (if i.arg.expr.isConstant then none else i.fieldSize?).toList.map fun size =>
          ⟨Int64.ofNat (base + 1), .sized i.arg.expr.term size, true⟩ := by
  cases ha : i.assembled? with
  | none =>
    simp only [Statement.openFields, fieldSize?, ha]
    split <;> rfl
  | some a =>
    obtain ⟨m, mode, b, bs, hi⟩ := exists_image ha
    have hsize : i.fieldSize? = some mode.size := by
      simp only [fieldSize?, ha, hi.encoding]
      rfl
    have hsettled : i.isSettled = i.arg.expr.isConstant := by
      cases hbare : i.arg.form.isBare with
      | true =>
        have hempty := hread.bare hbare
        simp [isSettled, Expression.isEmpty, Expression.isConstant, hempty, Term.isEmpty,
          Term.isConstant]
      | false =>
        obtain ⟨s, hs⟩ := hread.term hbare
        exact hi.settled hbare (Term.isEmpty_of_isWritten (Term.isWritten_of_read hs))
    rw [hi.openFields, hsettled, hsize]
    split <;> rfl

namespace Section.IsRead
variable {s : Section} {p : Place}

theorem length_image_lt (hlength : s.bytes.length < 2 ^ 63) (hp : p ∈ s.places) :
    p.offset + p.statement.image.length < 2 ^ 63 := by
  have hle := offset_add_length_le hp
  rw [Nat.zero_add] at hle
  exact Nat.lt_of_le_of_lt hle hlength

/-- Open fields lie in their section and have a width. Those of data are not relative. -/
theorem field_inRange (hread : s.IsRead) (hlength : s.bytes.length < 2 ^ 63) (hp : p ∈ s.places)
    {f : Fixup} (hf : f ∈ p.statement.openFields p.offset) :
    Fixup.inRange s.bytes.length f.offset f.size ∧ 0 < f.size.width ∧
      (f.size.isRelative → ∃ i, p.statement = .instruction i) := by
  obtain ⟨item, hitem, hst⟩ := hread p hp
  have himage : (item.statement p.labels).image.length < 2 ^ 63 := by
    have := length_image_lt hlength hp
    rw [← hst]
    omega
  obtain ⟨parts, hrow, hparts⟩ := Line.Item.exists_row hitem p.labels himage p.offset
  rw [hst, hrow.openFields] at hf
  obtain ⟨w, size, t, sameBank, rfl, hfield, hle⟩ := Part.exists_of_mem_openFrom hf
  obtain ⟨hwidth, hkind⟩ := Line.Item.field_of_mem_parts (hparts _ hfield)
  refine ⟨Fixup.inRange_of_le ?_ hlength, hwidth, fun hrel => ?_⟩
  · have hend := offset_add_length_le hp
    rw [hst, hrow.image, Nat.zero_add] at hend
    exact Nat.le_trans hle hend
  · rcases hkind with ⟨i, mode, b, hi, -⟩ | ⟨hplain, -⟩
    · exact ⟨i, hst.trans hi⟩
    · cases hplain.symm.trans hrel

/-- The inconsistent fields of one statement. -/
theorem internal_openFields (hread : s.IsRead) (hlength : s.bytes.length < 2 ^ 63)
    (hp : p ∈ s.places) :
    (p.statement.openFields p.offset).filterMap
        (Fixup.internal? s.label s.offsets s.bytes.length) =
      ((p.statement.stray? s.offsets).map (Instruction.strayDiagnostic s.label)).toList := by
  have hfield := fun f => hread.field_inRange (f := f) hlength hp
  cases hst : p.statement with
  | instruction i =>
    obtain ⟨item, hitem, hitemst⟩ := hread p hp
    have hopen := i.openFields_eq (Line.Item.isRead_of_instruction hitem (hitemst.symm.trans hst))
      p.offset
    rw [hst, hopen] at hfield
    rw [hopen]
    by_cases hconstant : i.arg.expr.isConstant
    · simp [Statement.stray?, Instruction.isStray, hconstant]
    cases hsize : i.fieldSize? with
    | none => simp [Statement.stray?, Instruction.isStray, hsize]
    | some size =>
      obtain ⟨hrange, hwidth, -⟩ :=
        hfield ⟨Int64.ofNat (p.offset + 1), .sized i.arg.expr.term size, true⟩
          (by simp [hconstant, hsize])
      have hinternal := Fixup.internal?_eq s.label s.offsets hrange hwidth
      have hstray : i.isStray s.offsets =
          (size.isRelative && (i.arg.expr.term.substitute s.offsets.position?).value?.isSome) := by
        simp [Instruction.isStray, hsize, hconstant]
      rw [if_neg hconstant, Option.toList_some, List.map_singleton, Statement.stray?, hstray]
      by_cases hnumber :
        size.isRelative && (i.arg.expr.term.substitute s.offsets.position?).value?.isSome
      · rw [if_pos hnumber, List.filterMap_cons_some (hinternal.trans (if_pos hnumber))]
        rw [Option.map_some, Option.toList_some, Instruction.strayDiagnostic, hsize]
        rfl
      · rw [if_neg hnumber, List.filterMap_cons_none (hinternal.trans (if_neg hnumber))]
        rfl
  | data bytes refs pos =>
    refine List.filterMap_eq_nil_iff.2 fun f hf => ?_
    obtain ⟨hrange, hwidth, hrel⟩ := hfield f (hst ▸ hf)
    rw [Fixup.internal?_eq _ _ hrange hwidth, if_neg]
    intro h
    rw [Bool.and_eq_true] at h
    obtain ⟨i, hi⟩ := hrel h.1
    cases hst.symm.trans hi
  | _ => rfl

end Section.IsRead

namespace Section
variable {s : Section}

/-- Its fields are inconsistent where its stray instructions are. -/
theorem IsRead.internal_fixupFaults (hread : s.IsRead) (hlength : s.bytes.length < 2 ^ 63) :
    s.fixupFaults.filter Diagnostic.isInternal =
      s.strays.map (Instruction.strayDiagnostic s.label) := by
  have hstrays : s.strays = s.places.flatMap fun p => (p.statement.stray? s.offsets).toList := by
    rw [strays, ← statement_places s.labels 0 s.body, List.filterMap_map,
      List.filterMap_eq_flatMap_toList]
    rfl
  calc s.fixupFaults.filter Diagnostic.isInternal
    _ = s.places.flatMap fun p => (p.statement.openFields p.offset).filterMap
          (Fixup.internal? s.label s.offsets s.bytes.length) := by
      rw [fixupFaults, fixups, List.filterMap_map, List.filter_filterMap, List.filterMap_flatMap]
      rfl
    _ = s.places.flatMap fun p =>
          ((p.statement.stray? s.offsets).map (Instruction.strayDiagnostic s.label)).toList :=
      List.flatMap_congr fun p hp => hread.internal_openFields hlength hp
    _ = s.strays.map (Instruction.strayDiagnostic s.label) := by
      rw [hstrays, List.map_flatMap]
      simp only [Option.toList_map]

/-- The assembler knows every statement of a text, and its references lie in their data. -/
theorem IsRead.statement_sound (hread : s.IsRead) (hlength : s.bytes.length < 2 ^ 63) :
    .unknown ∉ s.body ∧ ∀ bytes refs pos, .data bytes refs pos ∈ s.body →
      ∀ r ∈ refs, Fixup.inRange bytes.length r.offset r.expr.size := by
  have hplace : ∀ st ∈ s.body, (∃ i, st = .instruction i) ∨ ∀ label, st.faults label = [] := by
    intro st hst
    rw [← statement_places s.labels 0 s.body] at hst
    obtain ⟨p, hp, rfl⟩ := List.mem_map.1 hst
    obtain ⟨item, hitem, hst⟩ := hread p hp
    have himage := length_image_lt hlength hp
    rw [hst] at himage ⊢
    rcases Line.Item.faults_cases hitem p.labels (by omega) with hfaults | ⟨i, hi, -⟩
    · exact .inr hfaults
    · exact .inl ⟨i, hi⟩
  refine ⟨fun hunknown => ?_, fun bytes refs pos hdata r hr => ?_⟩
  · rcases hplace _ hunknown with ⟨i, hi⟩ | hfaults
    · cases hi
    · cases hfaults []
  · rcases hplace _ hdata with ⟨i, hi⟩ | hfaults
    · cases hi
    · exact Statement.inRange_of_faults (hfaults []) r hr

/-- Nothing that is reported before the fields are looked at is internal. -/
theorem IsRead.internal_statementOrigins (hread : s.IsRead) (hlength : s.bytes.length < 2 ^ 63)
    (hkindless : ∀ cause fatal pos, .unreadable cause fatal pos ∈ s.body → cause.Kindless) :
    (s.statementOrigins.filterMap (Origin.diagnostic? s.label)).filter Diagnostic.isInternal =
      [] := by
  obtain ⟨hunknown, hdata⟩ := hread.statement_sound hlength
  refine List.filter_eq_nil_iff.2 fun d hd => ?_
  obtain ⟨o, ho, hd⟩ := List.mem_filterMap.1 hd
  have hkind : ∃ k, d.HasKind k ∧ k ≠ .internal := by
    rcases mem_statementOrigins ho with ⟨cause, pos, rfl, hst⟩ | ⟨i, rfl, -⟩ |
      ⟨bytes, refs, pos, r, rfl, hst, hr⟩ | ⟨-, hst⟩
    · cases hd
      exact ⟨_, Diagnostic.hasKind_parse s.label pos (hkindless cause false pos hst), by decide⟩
    · cases hassemble : Segment.assemble s.label i with
      | ok a =>
        rw [Origin.diagnostic?, hassemble] at hd
        cases hd
      | error d' =>
        rw [Origin.diagnostic?, hassemble] at hd
        cases hd
        rcases Segment.hasKind_of_assemble hassemble with ⟨hkind, -⟩ | ⟨hkind, -⟩
        · exact ⟨_, hkind, by decide⟩
        · exact ⟨_, hkind, by decide⟩
    · rw [Origin.diagnostic?, Segment.reference, if_pos (hdata bytes refs pos hst r hr)] at hd
      cases hd
    · exact absurd hst hunknown
  obtain ⟨k, hkind, hne⟩ := hkind
  simp [hkind.isInternal_eq, hne]

/-- The internal diagnostics of the statements that follow the body of an open section. -/
theorem internal_total {sts : List Statement}
    (hread : ∀ t ∈ s.sections (sts.takeWhile (!·.isFatal)), t.IsRead)
    (hlength : ∀ t ∈ s.sections (sts.takeWhile (!·.isFatal)), t.bytes.length < 2 ^ 63)
    (hbody : s.body = [])
    (hkindless : ∀ cause fatal pos, .unreadable cause fatal pos ∈ sts → cause.Kindless) :
    ((s.total sts).filterMap Output.diagnostic?).filter Diagnostic.isInternal =
      (s.closed sts).flatMap fun t => t.strays.map (Instruction.strayDiagnostic t.label) := by
  have hstatements : ∀ t ∈ s.sections (sts.takeWhile (!·.isFatal)),
      (t.statementOrigins.filterMap (Origin.diagnostic? t.label)).filter Diagnostic.isInternal =
        [] := by
    intro t ht
    refine (hread t ht).internal_statementOrigins (hlength t ht) fun cause fatal pos hst => ?_
    rcases mem_of_mem_sections ht hst with hnone | hst
    · rw [hbody] at hnone
      cases hnone
    · exact hkindless cause fatal pos ((List.takeWhile_prefix _).subset hst)
  have habandoned : (((s.abandoned? sts).toList.flatMap fun p =>
      p.1.abandoned p.2.1 p.2.2).filterMap Output.diagnostic?).filter Diagnostic.isInternal = [] := by
    cases habandoned : s.abandoned? sts with
    | none => rfl
    | some p =>
      obtain ⟨ht, fatal, hst⟩ := abandoned?_eq_some habandoned
      have hkind := Diagnostic.hasKind_parse p.1.label p.2.2 (hkindless _ fatal _ hst)
      rw [Option.toList_some, List.flatMap_singleton, diagnostics_abandoned, List.filterMap_append,
        List.filter_append, hstatements p.1 ht, List.nil_append]
      exact List.filter_cons_of_neg (by simp [hkind.isInternal_eq])
  rw [total_eq_closed, List.filterMap_append, List.filter_append, habandoned, List.append_nil,
    List.filterMap_flatMap, List.filter_flatMap]
  refine List.flatMap_congr fun t ht => ?_
  have hmem := (s.closed_prefix_sections sts).subset ht
  rw [diagnostics_outputs, List.filterMap_append, List.filter_append, hstatements t hmem,
    List.nil_append, filterMap_fieldOrigins]
  exact (hread t hmem).internal_fixupFaults (hlength t hmem)

end Section

/-- The internal diagnostics of a text are those of its stray instructions, one for each in order,
over the sections that are closed. None of the other checks ever fails: every statement is known,
references lie in their data, and open fields lie in their section and have a width. Offsets are
64-bit numbers, so sections have to be shorter than 2 ^ 63 bytes. -/
theorem internal_diagnostics_stray (file source root : Text) (failure : Option Text) :
    let reader := Reader.ofText file source failure
    let sts := (Assembly.start (.text reader) {} root).pulls.map Pull.statement
    let start := Section.root {} root
    let sections := start.sections (sts.takeWhile (!·.isFatal))
    (∀ s ∈ sections, s.bytes.length < 2 ^ 63) →
      ((assemble (.text reader) {} root).filterMap Output.diagnostic?).filter
          Diagnostic.isInternal =
        ((start.closed sts).flatMap fun s => s.strays.map (Instruction.strayDiagnostic s.label)) ∧
      ∀ s ∈ sections,
        .unknown ∉ s.body ∧
        (∀ bytes refs pos, .data bytes refs pos ∈ s.body →
          ∀ r ∈ refs, Fixup.inRange bytes.length r.offset r.expr.size) ∧
        ∀ f ∈ s.fixups, Fixup.inRange s.bytes.length f.offset f.size ∧ 0 < f.size.width := by
  intro reader sts start sections hlength
  have hlawful := Reader.lawful_items_ofText file source failure
  have hsts : sts = statements {} reader.items := reader.statements_start hlawful {} root
  have hread : ∀ s ∈ sections, s.IsRead := by
    intro s hs
    apply Section.isRead_of_reads root hlawful
    rw [← statements, ← hsts]
    exact hs
  refine ⟨?_, fun s hs => ?_⟩
  · rw [assemble, run_start hlawful]
    refine Section.internal_total hread hlength rfl fun cause fatal pos (hst : _ ∈ sts) => ?_
    rw [hsts] at hst
    exact Reader.kindless_of_mem_statements hst
  · obtain ⟨hunknown, hdata⟩ := (hread s hs).statement_sound (hlength s hs)
    refine ⟨hunknown, hdata, fun f hf => ?_⟩
    obtain ⟨p, hp, hf⟩ := List.mem_flatMap.1 hf
    obtain ⟨hrange, hwidth, -⟩ := (hread s hs).field_inRange (hlength s hs) hp hf
    exact ⟨hrange, hwidth⟩

/-- Two branches go to distances, one to a place, and a distance in data is what it should be. -/
theorem internal_diagnostics_of_distances :
    let source := ascii "a: bra .y-.x\n.x: .db .y-.x\n.y: bne .x\nb: brl .z-.z+1\n.z: rts\n"
    let reader := Reader.ofText [] source none
    let sts := (Assembly.start (.text reader) {} []).pulls.map Pull.statement
    let start := Section.root {} []
    let sections := start.sections (sts.takeWhile (!·.isFatal))
    (∀ s ∈ sections, s.bytes.length < 2 ^ 63) ∧
      ((assemble (.text reader) {} []).filterMap Output.diagnostic?).filter Diagnostic.isInternal =
        ((start.closed sts).flatMap fun s => s.strays.map (Instruction.strayDiagnostic s.label)) ∧
      (start.closed sts).map (fun s => s.strays.map Instruction.mnemonic) =
        [[], [ascii "bra"], [ascii "brl"]] := by
  intro source reader sts start sections
  have hlength : ∀ s ∈ sections, s.bytes.length < 2 ^ 63 := by
    subst sections start sts reader source
    decide +kernel
  exact ⟨hlength, (internal_diagnostics_stray [] source [] none hlength).1, by
    subst sections start sts reader source
    decide +kernel⟩

end Assembler65816
