import Mathlib.Algebra.Ring.Int.Defs
import Mathlib.Algebra.Ring.Nat
import Assembler65816.Proofs.Assembly.Crashes
import Assembler65816.Proofs.Assembly.Kinds

/-!
# References stay in their data

A data statement comes with references, at any offset and of any size, and each of them is checked
against the bytes of the statement before its field is queued. The main statement says when this
keeps the statement to its own bytes: the fields lie in them, nothing is written elsewhere, and a
reference that lies elsewhere is reported once. All that is the case exactly if no reference
overruns, that is, if the end of every field is a 64-bit number. The end of a field that overruns
wraps to a negative number and passes the check, and the section crashes if there is something to
write there.
-/
namespace Assembler65816

theorem Fixup.eq_of_resolve_patched {label : Text} {offsets : Offsets} {length offset : Nat}
    {f : Fixup} {field : List UInt8}
    (h : f.resolve label offsets length = .patched offset field) :
    offset = f.offset.toInt.toNat ∧ field.length = f.size.width := by
  rcases resolve_cases label offsets length f with ⟨d, hr⟩ | ⟨-, hr⟩ | ⟨v, -, -, -, hr⟩ |
    ⟨k, -, -, -, hr⟩ | ⟨-, -, hr⟩ | ⟨-, -, -, hr⟩ <;> cases hr.symm.trans h
  · exact ⟨rfl, Field.length_bytes _ _⟩
  · exact ⟨rfl, Field.length_bytes _ _⟩

/-- Whether two rows of bytes differ between two offsets only. -/
structure AgreeOutside (first last : Nat) (xs ys : List UInt8) : Prop where
  length_eq : xs.length = ys.length
  getElem?_eq : ∀ i, ¬(first ≤ i ∧ i < last) → xs[i]? = ys[i]?

namespace AgreeOutside
variable {first last : Nat} {xs ys zs : List UInt8}

theorem refl (xs : List UInt8) : AgreeOutside first last xs xs := ⟨rfl, fun _ _ => rfl⟩

theorem trans (h : AgreeOutside first last xs ys) (h' : AgreeOutside first last ys zs) :
    AgreeOutside first last xs zs :=
  ⟨h.length_eq.trans h'.length_eq, fun i hi => (h.getElem?_eq i hi).trans (h'.getElem?_eq i hi)⟩

/-- The same patch, wherever it goes, changes both alike. -/
theorem patch (h : AgreeOutside first last xs ys) (offset : Nat) (field : List UInt8) :
    AgreeOutside first last (patch xs offset field) (Assembler65816.patch ys offset field) := by
  have hlength := h.length_eq
  constructor
  · simp only [Assembler65816.patch, List.length_append, List.length_take, List.length_drop]
    omega
  · intro i hi
    simp only [Assembler65816.patch, List.append_assoc, List.getElem?_append, List.length_take,
      hlength]
    split
    · rw [List.getElem?_take_of_lt (by omega), List.getElem?_take_of_lt (by omega),
        h.getElem?_eq i hi]
    split
    · rfl
    rw [List.getElem?_drop, List.getElem?_drop]
    -- What lies behind the patch is where it was, and behind the end there is nothing.
    by_cases hoffset : offset ≤ ys.length
    · have hsame : offset + field.length + (i - min offset ys.length - field.length) = i := by omega
      rw [hsame, h.getElem?_eq i hi]
    · rw [List.getElem?_eq_none (by omega), List.getElem?_eq_none (by omega)]

theorem apply (h : AgreeOutside first last xs ys) (r : Resolution) :
    AgreeOutside first last (r.apply xs) (r.apply ys) := by
  cases r with
  | patched offset field => exact h.patch offset field
  | _ => exact h

theorem foldl_apply (h : AgreeOutside first last xs ys) (rs : List Resolution) :
    AgreeOutside first last (rs.foldl Resolution.apply xs) (rs.foldl Resolution.apply ys) := by
  induction rs generalizing xs ys with
  | nil => exact h
  | cons r rs ih => exact ih (h.apply r)

/-- Patches between the two offsets change nothing outside of them. -/
theorem of_patches (hlast : last ≤ xs.length) {rs : List Resolution}
    (h : ∀ r ∈ rs, ∀ offset field, r = .patched offset field →
      first ≤ offset ∧ offset + field.length ≤ last) :
    AgreeOutside first last (rs.foldl Resolution.apply xs) xs := by
  induction rs generalizing xs with
  | nil => exact refl xs
  | cons r rs ih =>
    have hfirst : AgreeOutside first last (r.apply xs) xs := by
      cases r with
      | patched offset field =>
        obtain ⟨hstart, hend⟩ := h _ List.mem_cons_self offset field rfl
        have hinside : offset + field.length ≤ xs.length := Nat.le_trans hend hlast
        refine ⟨length_patch hinside, fun i hi => getElem?_patch_of_not_covers hinside ?_⟩
        omega
      | _ => exact refl xs
    have hrest := ih (by rwa [hfirst.length_eq]) fun r' hr' => h r' (List.mem_cons_of_mem r hr')
    exact hrest.trans hfirst

end AgreeOutside

theorem places_split (labels : Labels) (base : Nat) (sts sts' : List Statement) :
    places labels base (sts ++ sts') =
      places labels base sts ++
        places (sts.foldl Labels.after labels) (base + (sts.flatMap Statement.image).length)
          sts' := by
  induction sts generalizing labels base with
  | nil => rfl
  | cons st sts ih =>
    simp only [List.cons_append, places, ih, List.foldl_cons, List.flatMap_cons,
      List.length_append, Nat.add_assoc]

namespace Section
variable (s : Section) (before : List Statement) (bytes : List UInt8) (pos : Position)
  (after : List Statement)

/-- The section with other statements around data that holds these references. -/
def withData (refs : List DataRef) : Section :=
  {s with body := before ++ .data bytes refs pos :: after}

variable (refs : List DataRef)

theorem label_withData : (s.withData before bytes pos after refs).label = s.label := rfl

theorem bytes_withData :
    (s.withData before bytes pos after refs).bytes =
      before.flatMap Statement.image ++ (bytes ++ after.flatMap Statement.image) := by
  simp only [Section.bytes, withData, List.flatMap_append, List.flatMap_cons, Statement.image]

theorem places_withData :
    let base := (before.flatMap Statement.image).length
    let labels := before.foldl Labels.after s.labels
    (s.withData before bytes pos after refs).places =
      Assembler65816.places s.labels 0 before ++ ⟨labels, base, .data bytes refs pos⟩ ::
        Assembler65816.places labels (base + bytes.length) after := by
  simp only [places, withData, places_split, Nat.zero_add]
  rfl

/-- References define no labels. -/
theorem offsets_withData :
    (s.withData before bytes pos after refs).offsets =
      (s.withData before bytes pos after []).offsets := by
  simp only [offsets, places_withData, List.filterMap_append, List.filterMap_cons, Place.mark?,
    Labels.identity?, Option.map_none]

/-- The fields of the statement are queued between those of the others. -/
theorem exists_fixups_withData :
    ∃ earlier later, ∀ refs, (s.withData before bytes pos after refs).fixups =
      earlier ++ ((Statement.data bytes refs pos).openFields
        (before.flatMap Statement.image).length ++ later) := by
  let fields := fun p : Place => p.statement.openFields p.offset
  let base := (before.flatMap Statement.image).length
  refine ⟨(Assembler65816.places s.labels 0 before).flatMap fields,
    (Assembler65816.places (before.foldl Labels.after s.labels) (base + bytes.length) after).flatMap
      fields, fun refs => ?_⟩
  simp only [fixups, places_withData, List.flatMap_append, List.flatMap_cons]
  rfl

end Section

/-- What is reported of a reference as soon as its statement is taken in. -/
def DataRef.refusal? (label : Text) (pos : Position) (length : Nat) (r : DataRef) :
    Option Diagnostic :=
  (Origin.reference r length pos).diagnostic? label

def Section.fieldReport? (s : Section) (f : Fixup) : Option Diagnostic :=
  (f.resolve s.label s.offsets s.bytes.length).failed?

/-- What is reported of a reference in a section that is closed: its refusal, or what is wrong with
its field. -/
def Section.reports (s : Section) (base length : Nat) (pos : Position) (r : DataRef) :
    List Diagnostic :=
  if Fixup.inRange length r.offset r.expr.size then
    (s.fieldReport? (r.field base)).toList
  else (r.refusal? s.label pos length).toList

section Reports
variable {label : Text} {pos : Position} {length : Nat} {r : DataRef}

theorem DataRef.refusal?_of_inRange (h : Fixup.inRange length r.offset r.expr.size) :
    r.refusal? label pos length = none := by
  simp [refusal?, Origin.diagnostic?, Segment.reference, h]

/-- A refusal is internal. -/
theorem DataRef.exists_refusal? (label : Text) (pos : Position)
    (h : ¬Fixup.inRange length r.offset r.expr.size) :
    ∃ d, d.HasKind .internal ∧ r.refusal? label pos length = some d := by
  have herror : ∃ d, Segment.reference label pos 0 length r = .error d := by
    rw [Segment.reference, if_neg h]
    exact ⟨_, rfl⟩
  obtain ⟨d, hd⟩ := herror
  exact ⟨d, Segment.hasKind_of_reference hd, by simp only [refusal?, Origin.diagnostic?, hd]⟩

/-- Refusals and reports of fields come at different times but belong to one reference each. -/
theorem Section.reports_perm (s : Section) (base : Nat) (bytes : List UInt8) (pos : Position)
    (refs : List DataRef) :
    (refs.filterMap (·.refusal? s.label pos bytes.length) ++
      ((Statement.data bytes refs pos).openFields base).filterMap s.fieldReport?).Perm
      (refs.flatMap (s.reports base bytes.length pos)) := by
  let check := fun r : DataRef => Fixup.inRange bytes.length r.offset r.expr.size
  have hqueue : ∀ refs, (Statement.data bytes refs pos).openFields base =
      (refs.filter check).map (DataRef.field base) := fun _ => rfl
  simp only [hqueue]
  induction refs with
  | nil => exact .nil
  | cons r refs ih =>
    rw [List.flatMap_cons]
    by_cases h : check r
    · rw [List.filterMap_cons_none (DataRef.refusal?_of_inRange h),
        List.filter_cons_of_pos (p := check) h, List.map_cons, reports, if_pos h]
      cases hfield : s.fieldReport? (r.field base) with
      | none =>
        rw [List.filterMap_cons_none hfield]
        exact ih
      | some d =>
        rw [List.filterMap_cons_some hfield]
        exact List.perm_middle.trans (ih.cons d)
    · obtain ⟨d, -, hd⟩ := DataRef.exists_refusal? s.label pos h
      rw [List.filter_cons_of_neg (p := check) h, List.filterMap_cons_some hd, reports, if_neg h,
        hd]
      exact ih.cons d

end Reports

namespace Section
variable (s : Section) (before : List Statement) (bytes : List UInt8) (pos : Position)
  (after : List Statement) (refs : List DataRef)

theorem diagnostics_outputs_eq :
    s.outputs.filterMap Output.diagnostic? =
      s.early.filterMap Output.diagnostic? ++ s.faults ++ s.fixups.filterMap s.fieldReport? := by
  rw [diagnostics_outputs, List.filterMap_append, filterMap_statementOrigins,
    filterMap_fieldOrigins, fixupFaults, List.filterMap_map]
  rfl

theorem early_withData :
    (s.withData before bytes pos after refs).early =
      (s.withData before bytes pos after []).early := by
  simp only [early, withData, List.filterMap_append, List.filterMap_cons, Statement.early?]

/-- The refusals stand between the faults of the other statements. -/
theorem exists_faults_withData :
    ∃ earlier later, ∀ refs, (s.withData before bytes pos after refs).faults =
      earlier ++ (refs.filterMap (·.refusal? s.label pos bytes.length) ++ later) := by
  refine ⟨before.flatMap (Statement.faults s.label), after.flatMap (Statement.faults s.label),
    fun refs => ?_⟩
  simp only [faults, withData, List.flatMap_append, List.flatMap_cons]
  rfl

theorem fieldReport?_withData :
    (s.withData before bytes pos after refs).fieldReport? =
      (s.withData before bytes pos after []).fieldReport? := by
  funext f
  rw [fieldReport?, fieldReport?, offsets_withData, bytes_withData, bytes_withData]
  rfl

/-- A statement's references add their own reports to those of the section without them. -/
theorem outputs_withData_perm :
    ((s.withData before bytes pos after refs).outputs.filterMap Output.diagnostic?).Perm
      ((s.withData before bytes pos after []).outputs.filterMap Output.diagnostic? ++
        refs.flatMap ((s.withData before bytes pos after refs).reports
          (before.flatMap Statement.image).length bytes.length pos)) := by
  obtain ⟨faults, faults', hfaults⟩ := s.exists_faults_withData before bytes pos after
  obtain ⟨fields, fields', hfields⟩ := s.exists_fixups_withData before bytes pos after
  refine .trans ?_ ((reports_perm _ _ bytes pos refs).append_left _)
  rw [diagnostics_outputs_eq, diagnostics_outputs_eq, hfaults, hfaults, hfields, hfields,
    early_withData, fieldReport?_withData, label_withData]
  refine List.perm_iff_count.2 fun d => ?_
  simp only [List.filterMap_append, List.count_append, Statement.openFields, List.filter_nil,
    List.map_nil, List.filterMap_nil, List.count_nil]
  omega

/-- So they do if the source comes to a fatal end, but then no field is looked at. -/
theorem abandoned_withData_perm (cause : Cause) (place : Position) :
    (((s.withData before bytes pos after refs).abandoned cause place).filterMap
        Output.diagnostic?).Perm
      (((s.withData before bytes pos after []).abandoned cause place).filterMap
        Output.diagnostic? ++ refs.filterMap (·.refusal? s.label pos bytes.length)) := by
  obtain ⟨faults, faults', hfaults⟩ := s.exists_faults_withData before bytes pos after
  simp only [abandoned, List.filterMap_append, filterMap_error, hfaults, early_withData,
    label_withData]
  refine List.perm_iff_count.2 fun d => ?_
  simp only [List.filterMap_nil, List.count_append, List.count_nil]
  omega

end Section

/-- Whether a data statement that starts at `base` of the section keeps to its own bytes. The other
section is the same without the references of the statement. -/
structure Section.Contained (s bare : Section) (base : Nat) (bytes : List UInt8)
    (refs : List DataRef) (pos : Position) : Prop where
  /-- The fields that are queued lie in the bytes of the statement. -/
  queued : ∀ f ∈ (Statement.data bytes refs pos).openFields base,
    f.Between base (base + bytes.length)
  /-- What is written for them does too. -/
  patched : ∀ f ∈ (Statement.data bytes refs pos).openFields base, ∀ offset field,
    f.resolve s.label s.offsets s.bytes.length = .patched offset field →
      base ≤ offset ∧ offset + field.length ≤ base + bytes.length
  /-- Nothing is written out of bounds. -/
  bounded : ∀ f ∈ (Statement.data bytes refs pos).openFields base,
    f.resolve s.label s.offsets s.bytes.length ≠ .outOfBounds
  /-- All other bytes of the chunk are as they would be without the references. -/
  others : AgreeOutside base (base + bytes.length) s.segment.chunk.bytes bare.segment.chunk.bytes
  /-- A reference that does not lie in the data is reported once, when its statement is taken in. -/
  reported : ∀ r ∈ refs, ¬r.Within bytes.length →
    ∃ d, d.HasKind .internal ∧ r.refusal? s.label pos bytes.length = some d ∧
      s.reports base bytes.length pos r = [d]

section Contained
variable {base : Nat} {bytes : List UInt8} {refs : List DataRef} {pos : Position}

theorem between_of_mem_openFields (hlength : base + bytes.length < 2 ^ 63)
    (h : ∀ r ∈ refs, ¬r.Overruns) {f : Fixup}
    (hf : f ∈ (Statement.data bytes refs pos).openFields base) :
    f.Between base (base + bytes.length) := by
  obtain ⟨r, hr, hrange, rfl⟩ := mem_openFields_data.1 hf
  rcases (DataRef.inRange_iff_within (by omega)).1 hrange with hwithin | hoverruns
  · exact (DataRef.between_field_iff hlength).2 hwithin
  · exact absurd hoverruns (h r hr)

theorem Fixup.Between.patched {first last : Nat} {f : Fixup} (h : f.Between first last)
    {label : Text} {offsets : Offsets} {length offset : Nat} {field : List UInt8}
    (hpatched : f.resolve label offsets length = .patched offset field) :
    first ≤ offset ∧ offset + field.length ≤ last := by
  obtain ⟨rfl, hfield⟩ := eq_of_resolve_patched hpatched
  obtain ⟨hstart, hend⟩ := h
  omega

namespace Section
variable (s : Section) (before after : List Statement)

/-- The fields of every variant are resolved and written alike. -/
theorem chunk_withData (refs : List DataRef) :
    let t := s.withData before bytes pos after []
    (s.withData before bytes pos after refs).segment.chunk.bytes =
      ((s.withData before bytes pos after refs).fixups.map
        (Fixup.resolve t.label t.offsets t.bytes.length)).foldl Resolution.apply t.bytes := by
  intro t
  change ((s.withData before bytes pos after refs).fixups.map (Fixup.resolve s.label
      (s.withData before bytes pos after refs).offsets
      (s.withData before bytes pos after refs).bytes.length)).foldl Resolution.apply
      (s.withData before bytes pos after refs).bytes = _
  rw [offsets_withData, bytes_withData, ← bytes_withData s before bytes pos after []]
  rfl

/-- Without a reference that overruns, the bytes of the other statements do not depend on them. -/
theorem agreeOutside_chunk_withData
    (hlength : (s.withData before bytes pos after refs).bytes.length < 2 ^ 63)
    (h : ∀ r ∈ refs, ¬r.Overruns) :
    AgreeOutside (before.flatMap Statement.image).length
      ((before.flatMap Statement.image).length + bytes.length)
      (s.withData before bytes pos after refs).segment.chunk.bytes
      (s.withData before bytes pos after []).segment.chunk.bytes := by
  obtain ⟨earlier, later, hfixups⟩ := s.exists_fixups_withData before bytes pos after
  rw [bytes_withData, List.length_append, List.length_append] at hlength
  rw [chunk_withData, chunk_withData, hfixups, hfixups]
  simp only [List.map_append, List.foldl_append]
  -- Only the fields in the middle differ, and those are written where the statement stands.
  refine AgreeOutside.foldl_apply (AgreeOutside.of_patches ?_ ?_) _
  · refine Nat.le_trans ?_ (length_le_foldl_apply _ _)
    rw [bytes_withData, List.length_append, List.length_append]
    omega
  · intro outcome houtcome offset field hpatched
    obtain ⟨f, hf, rfl⟩ := List.mem_map.1 houtcome
    exact (between_of_mem_openFields (by omega) h hf).patched hpatched

/-- A data statement keeps to its own bytes exactly if none of its references overruns. -/
theorem contained_withData_iff
    (hlength : (s.withData before bytes pos after refs).bytes.length < 2 ^ 63) :
    (s.withData before bytes pos after refs).Contained (s.withData before bytes pos after [])
        (before.flatMap Statement.image).length bytes refs pos ↔
      ∀ r ∈ refs, ¬r.Overruns := by
  have htotal : (before.flatMap Statement.image).length + bytes.length ≤
      (s.withData before bytes pos after refs).bytes.length := by
    rw [bytes_withData, List.length_append, List.length_append]
    omega
  have hend : (before.flatMap Statement.image).length + bytes.length < 2 ^ 63 := by omega
  constructor
  · intro hcontained r hr hoverruns
    have hrange : Fixup.inRange bytes.length r.offset r.expr.size :=
      (DataRef.inRange_iff_within (by omega)).2 (.inr hoverruns)
    have hbetween := hcontained.queued _ (mem_openFields_data.2 ⟨r, hr, hrange, rfl⟩)
    exact DataRef.not_overruns_of_within (by omega) ((DataRef.between_field_iff hend).1 hbetween)
      hoverruns
  · intro h
    constructor
    case queued => exact fun f hf => between_of_mem_openFields hend h hf
    case patched =>
      exact fun f hf offset field hpatched =>
        (between_of_mem_openFields hend h hf).patched hpatched
    case bounded =>
      intro f hf hout
      obtain ⟨r, hr, hpassed, rfl⟩ := mem_openFields_data.1 hf
      exact h r hr ((DataRef.resolve_field_eq_outOfBounds_iff _ _ hlength htotal hpassed).1 hout).1
    case others => exact s.agreeOutside_chunk_withData before after hlength h
    case reported =>
      intro r hr hwithin
      have hrange : ¬Fixup.inRange bytes.length r.offset r.expr.size := by
        rw [DataRef.inRange_iff_within (by omega)]
        exact not_or.2 ⟨hwithin, h r hr⟩
      obtain ⟨d, hkind, hd⟩ := DataRef.exists_refusal? s.label pos hrange
      exact ⟨d, hkind, hd, by rw [reports, if_neg hrange, label_withData, hd]; rfl⟩

/-- What becomes of a reference that overruns: it is queued like one in the data, and written out
of bounds if there is something to write. -/
theorem overrun_withData
    (hlength : (s.withData before bytes pos after refs).bytes.length < 2 ^ 63) {r : DataRef}
    (hr : r ∈ refs) (h : r.Overruns) :
    let t := s.withData before bytes pos after refs
    let base := (before.flatMap Statement.image).length
    r.refusal? t.label pos bytes.length = none ∧ r.field base ∈ t.fixups ∧
      ¬(r.field base).Between base (base + bytes.length) ∧
      (Fixup.inRange t.bytes.length (r.field base).offset (r.field base).size ↔
        base + r.offset.toInt < 2 ^ 63) ∧
      ((r.field base).resolve t.label t.offsets t.bytes.length = .outOfBounds ↔
        r.RunsOff t.offsets base) := by
  intro t base
  have htotal : t.bytes.length < 2 ^ 63 := hlength
  have hend : base + bytes.length ≤ t.bytes.length := by
    rw [bytes_withData, List.length_append, List.length_append]
    omega
  have hrange : Fixup.inRange bytes.length r.offset r.expr.size :=
    (DataRef.inRange_iff_within (by omega)).2 (.inr h)
  obtain ⟨earlier, later, hfixups⟩ := s.exists_fixups_withData before bytes pos after
  refine ⟨DataRef.refusal?_of_inRange hrange, ?_, ?_, ?_, ?_⟩
  · rw [hfixups]
    have hmem : r.field base ∈ (Statement.data bytes refs pos).openFields base :=
      mem_openFields_data.2 ⟨r, hr, hrange, rfl⟩
    exact List.mem_append_right _ (List.mem_append_left _ hmem)
  · rw [DataRef.between_field_iff (by omega)]
    exact fun hwithin => DataRef.not_overruns_of_within (by omega) hwithin h
  · exact DataRef.inRange_field_iff htotal (by omega) h
  · exact DataRef.resolve_field_eq_outOfBounds_iff _ _ htotal hend hrange

/-- The bodies of the sections are the statements in order, without the labels between them. -/
theorem flatMap_body_sections (s : Section) (sts : List Statement) :
    (s.sections sts).flatMap Section.body = s.body ++ sts.filter (!·.isTop) := by
  induction sts generalizing s with
  | nil => simp [sections, cut]
  | cons st sts ih =>
    by_cases htop : st.isTop
    · obtain ⟨name, attributes, pos, rfl⟩ := Statement.exists_of_isTop htop
      exact congrArg (s.body ++ ·) (ih {labels := s.exit.enterScope, label := name, attributes})
    · rw [Bool.not_eq_true] at htop
      have hrest := ih (s.add st)
      rw [sections, s.cut_add htop, List.filter_cons_of_pos (by simp [htop])]
      rw [sections, add, List.append_assoc] at hrest
      exact hrest

end Section

/-- Every data statement of a list of statements, in the section it falls into. Its references add
to the reports of the section what each of them gives, and they are contained exactly if none of
them overruns. One that does is queued without a report, and at the end of the section it passes
for a field of the section as long as the place of the field itself does not wrap. If there is
something to write for it then, the section crashes. -/
theorem data_contained_iff (sts : List Statement) (labels : Labels) (root : Text) :
    let start := Section.root labels root
    let read := sts.takeWhile (!·.isFatal)
    ((∀ s ∈ start.closed sts, s.crashes = false) →
      assemble (.statements sts) labels root =
        (start.closed sts).flatMap Section.outputs ++
          (start.abandoned? sts).toList.flatMap (fun p => p.1.abandoned p.2.1 p.2.2)) ∧
    (start.sections read).flatMap Section.body = read.filter (!·.isTop) ∧
    ∀ s ∈ start.sections read, s.bytes.length < 2 ^ 63 →
      ∀ before bytes refs pos after, s.body = before ++ .data bytes refs pos :: after →
        let base := (before.flatMap Statement.image).length
        let bare := s.withData before bytes pos after []
        (s.outputs.filterMap Output.diagnostic?).Perm
          (bare.outputs.filterMap Output.diagnostic? ++
            refs.flatMap (s.reports base bytes.length pos)) ∧
        (∀ cause place, ((s.abandoned cause place).filterMap Output.diagnostic?).Perm
          ((bare.abandoned cause place).filterMap Output.diagnostic? ++
            refs.filterMap (·.refusal? s.label pos bytes.length))) ∧
        (s.Contained bare base bytes refs pos ↔ ∀ r ∈ refs, ¬r.Overruns) ∧
        ∀ r ∈ refs, r.Overruns →
          r.refusal? s.label pos bytes.length = none ∧ r.field base ∈ s.fixups ∧
          ¬(r.field base).Between base (base + bytes.length) ∧
          (Fixup.inRange s.bytes.length (r.field base).offset (r.field base).size ↔
            base + r.offset.toInt < 2 ^ 63) ∧
          ((r.field base).resolve s.label s.offsets s.bytes.length = .outOfBounds ↔
            r.RunsOff s.offsets base) := by
  intro start read
  refine ⟨?_, ?_, ?_⟩
  · intro hsound
    rw [assemble_statements sts labels root hsound, sectionOutputs, Section.total_eq_closed]
  · rw [Section.flatMap_body_sections]
    rfl
  intro s hs hlength before bytes refs pos after hbody base bare
  have heq : s.withData before bytes pos after refs = s := by rw [Section.withData, ← hbody]
  rw [← heq] at hlength
  refine ⟨?_, fun cause place => ?_, ?_, fun r hr hoverruns => ?_⟩
  · have hperm := s.outputs_withData_perm before bytes pos after refs
    rwa [heq] at hperm
  · have hperm := s.abandoned_withData_perm before bytes pos after refs cause place
    rwa [heq] at hperm
  · have hiff := s.contained_withData_iff before after hlength
    rwa [heq] at hiff
  · have hoverrun := s.overrun_withData before after hlength hr hoverruns
    rwa [heq] at hoverrun

end Contained

/-- One reference in the last byte of its data and one right behind it; then one that overruns. -/
theorem data_contained_iff_of_edge :
    let inside : DataRef := ⟨1, .sized (.constant 5) .byte⟩
    let outside : DataRef := ⟨2, .sized (.ref (.global (ascii "x"))) .byte⟩
    let far : DataRef := ⟨Int64.maxValue, .sized (.ref (.global (ascii "x"))) .word⟩
    let s : Section :=
      { labels := {}, label := Assembly.rootLabel
        body := [.data [9] [] {}, .data [0, 0] [inside, outside] {}, .data [7] [far] {}] }
    s ∈ (Section.root {} []).sections s.body ∧ s.bytes.length < 2 ^ 63 ∧
      s.Contained (s.withData [.data [9] [] {}] [0, 0] {} [.data [7] [far] {}] []) 1 [0, 0]
        [inside, outside] {} ∧
      far.Overruns ∧ far.field 3 ∈ s.fixups ∧ ¬(far.field 3).Between 3 4 := by
  intro inside outside far s
  have hs : s ∈ (Section.root {} []).sections s.body := List.mem_singleton.2 rfl
  have hlength : s.bytes.length < 2 ^ 63 := by decide
  have hedge : ∀ r ∈ [inside, outside], ¬r.Overruns := by decide
  have hfar : far.Overruns := by decide
  have hdata := (data_contained_iff s.body {} []).2.2 s hs hlength
  obtain ⟨-, -, hcontained, -⟩ :=
    hdata [.data [9] [] {}] [0, 0] [inside, outside] {} [.data [7] [far] {}] rfl
  obtain ⟨-, -, -, hoverrun⟩ :=
    hdata [.data [9] [] {}, .data [0, 0] [inside, outside] {}] [7] [far] {} [] rfl
  obtain ⟨-, hqueued, hbetween, -⟩ := hoverrun far List.mem_cons_self hfar
  exact ⟨hs, hlength, hcontained.2 hedge, hfar, hqueued, hbetween⟩

/-- A reference far outside of its data that is queued and not reported. -/
theorem exists_data_overrun :
    let r : DataRef := ⟨Int64.maxValue, .sized (.ref (.global (ascii "x"))) .byte⟩
    ¬r.Within 1 ∧
      assemble (.statements [.data [0] [r] {}]) {} [] =
        [.chunk Assembly.rootLabel
          {bytes := [0], fixups := [⟨r.offset, r.expr, false⟩], diverging := true}] := by
  intro r
  have hwithin : ¬r.Within 1 := by decide
  refine ⟨hwithin, ?_⟩
  rw [assemble_statements _ _ _ (by decide)]
  decide

end Assembler65816
