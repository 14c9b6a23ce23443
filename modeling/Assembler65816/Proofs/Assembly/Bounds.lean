import Assembler65816.Proofs.Statement.OpenFields

/-!
# Fields stay in bounds

A statement as it can be written leaves no field open that ends behind its own bytes. The machine
keeps this for the whole of the open segment, so no segment of a text is ever out of bounds and an
assembly of a text never crashes. It pulls every item of the text, up to a fatal one, and hands out
what the sections of its statements come to.

Nothing here depends on how long a text is: an offset that wraps is smaller than the number it
stands for.
-/
namespace Assembler65816

/-- Whether a field ends within so many bytes, by the number that its offset stands for. -/
def Fixup.EndsBy (last : Nat) (f : Fixup) : Prop :=
  ∃ u, f.offset = Int64.ofNat u ∧ u + f.size.width ≤ last

namespace Fixup
variable {last : Nat} {f : Fixup}

theorem EndsBy.mono (h : f.EndsBy last) {last' : Nat} (hle : last ≤ last') : f.EndsBy last' := by
  obtain ⟨u, hoffset, hu⟩ := h
  exact ⟨u, hoffset, Nat.le_trans hu hle⟩

theorem EndsBy.isOutOfBounds_resolve (h : f.EndsBy last) (label : Text) (offsets : Offsets) :
    (f.resolve label offsets last).isOutOfBounds = false := by
  obtain ⟨u, hoffset, hu⟩ := h
  rw [← Bool.not_eq_true, Resolution.isOutOfBounds_iff, resolve_eq_outOfBounds_iff]
  exact fun hout => hout.2.1 (isWithin_of_le hoffset hu)

end Fixup

/-- Whether a statement leaves no field open that ends behind its bytes. -/
def Statement.Bounded (st : Statement) : Prop :=
  ∀ base, ∀ f ∈ st.openFields base, f.EndsBy (base + st.image.length)

theorem Statement.bounded_of_isInert {st : Statement} (h : st.isInert) : st.Bounded := by
  intro base f hf
  cases st with
  | data | instruction | unknown => cases h
  | _ => cases hf

/-- The operand of an instruction lies in its image. -/
theorem Instruction.bounded (i : Instruction) : (Statement.instruction i).Bounded := by
  intro base f hf
  cases ha : i.assembled? with
  | none =>
    simp only [Statement.openFields, ha] at hf
    cases hf
  | some a =>
    obtain ⟨m, mode, b, bs, hi⟩ := exists_image ha
    cases hi.eq_of_mem_openFields hf
    refine ⟨base + 1, rfl, ?_⟩
    have hsize : Fixup.size ⟨Int64.ofNat (base + 1), {i.arg.expr.map id with size := mode.size},
        true⟩ = mode.size := rfl
    rw [hi.image, List.length_cons, hi.width, hsize, Mode.width]
    omega

theorem Directive.bounded_of_images {labels : Labels} {size : Size} {items : List DataItem}
    {bytes : List UInt8} {refs : List DataRef} (pos : Position)
    (h : Directive.images labels size 0 items = .ok (bytes, refs)) :
    (Statement.data bytes refs pos).Bounded := by
  obtain ⟨hbytes, hrefs, -⟩ := Directive.images_eq_ok h
  intro base f hf
  have hmem : f ∈ Part.openFrom base (items.flatMap (DataItem.parts labels size)) := by
    rw [← Nat.add_zero base, ← hrefs base]
    simp only [Statement.openFields, List.mem_map, List.mem_filter] at hf
    obtain ⟨r, ⟨hr, -⟩, rfl⟩ := hf
    exact List.mem_map_of_mem hr
  obtain ⟨w, size', t, sameBank, rfl, -, hle⟩ := Part.exists_of_mem_openFrom hmem
  rw [← hbytes] at hle
  exact ⟨w, rfl, hle⟩

theorem Line.Item.bounded {item : Line.Item} (hitem : item.Lawful) (labels : Labels) :
    (item.statement labels).Bounded := by
  rcases statement_forms hitem labels with hinert | ⟨size, items, bytes, refs, pos, himages, hst⟩ |
    ⟨bytes, pos, hst⟩ | ⟨i, hst, -⟩
  · exact Statement.bounded_of_isInert hinert
  · rw [hst]
    exact Directive.bounded_of_images pos himages
  · rw [hst]
    intro base f hf
    cases hf
  · rw [hst]
    exact i.bounded

namespace Segment

def Bounded (g : Segment) : Prop := ∀ f ∈ g.fixups, f.EndsBy g.bytes.length

theorem Bounded.crashes {g : Segment} (h : g.Bounded) : g.crashes = false := by
  refine List.any_eq_false.2 fun r hr => ?_
  obtain ⟨f, hf, rfl⟩ := List.mem_map.1 hr
  rw [(h f hf).isOutOfBounds_resolve]
  exact Bool.false_ne_true

/-- What a statement adds to a segment. -/
theorem Bounded.append {g g' : Segment} (h : g.Bounded) {st : Statement} (hst : st.Bounded)
    (hfixups : g'.fixups = g.fixups ++ st.openFields g.bytes.length)
    (hbytes : g'.bytes = g.bytes ++ st.image) : g'.Bounded := by
  intro f hf
  have hlength : g'.bytes.length = g.bytes.length + st.image.length := by
    rw [hbytes, List.length_append]
  rw [hfixups] at hf
  rw [hlength]
  rcases List.mem_append.1 hf with hf | hf
  · exact (h f hf).mono (Nat.le_add_right _ _)
  · exact hst _ f hf

end Segment

theorem Section.crashes_of_bounded {s : Section} (h : ∀ st ∈ s.body, st.Bounded) :
    s.crashes = false := by
  refine Segment.Bounded.crashes fun f hf => ?_
  obtain ⟨p, hp, hf⟩ := List.mem_flatMap.1 hf
  have hmem : p.statement ∈ s.body := by
    rw [← statement_places s.labels 0 s.body]
    exact List.mem_map_of_mem hp
  have hle := offset_add_length_le hp
  rw [Nat.zero_add] at hle
  exact (h _ hmem p.offset f hf).mono hle

theorem Section.closed_crashes_of_bounded {s : Section} {sts : List Statement}
    (hbody : ∀ st ∈ s.body, st.Bounded) (h : ∀ st ∈ sts, st.Bounded) :
    ∀ t ∈ s.closed sts, t.crashes = false := by
  intro t ht
  refine crashes_of_bounded fun st hst => ?_
  rcases mem_of_mem_sections ((s.closed_prefix_sections sts).subset ht) hst with hmem | hmem
  · exact hbody st hmem
  · exact h st ((List.takeWhile_prefix _).subset hmem)

namespace Assembly

theorem bounded_handle {a : Assembly} (h : a.segment.Bounded) {st : Statement}
    (hst : st.Bounded) : (a.handle st).segment.Bounded := by
  cases st with
  | topLabel name attributes pos =>
    cases hclose : a.segment.close with
    | none =>
      rw [handle, close_of_none hclose]
      exact h
    | some out =>
      rw [handle, close_of_some hclose]
      exact fun f hf => by cases hf
  | data bytes refs pos =>
    simp only [handle, Segment.data_eq]
    exact h.append hst rfl rfl
  | instruction i =>
    simp only [handle, Segment.instruction_eq]
    exact h.append hst rfl rfl
  | unreadable cause fatal pos =>
    cases fatal with
    | true => exact fun f hf => by cases hf
    | false => exact h
  | _ => exact h

/-- An assembly over a text pulls the items of the text. -/
theorem pulls_text {a : Assembly} (h : ¬a.done) (hsegment : a.segment.Bounded) {r : Reader}
    (hs : a.source = .text r) (hitems : ∀ item ∈ r.items, item.Lawful) :
    a.pulls = reads a.labels r.items := by
  fun_induction pulls a generalizing r with
  | case1 a hd => exact absurd hd h
  | case2 a hd hnext =>
    rw [hs] at hnext
    have hr : r.next a.labels = none := Option.map_eq_none_iff.1 hnext
    rw [Reader.items_of_next_none hr]
    rfl
  | case3 a hd st source hnext ih =>
    have hstep := step_of_some hnext
    have hdone := done_step hnext
    rw [hs] at hnext
    obtain ⟨⟨st', r'⟩, hr, he⟩ := Option.map_eq_some_iff.1 hnext
    cases he
    obtain ⟨item, hfirst, rfl⟩ := Reader.items_of_next_some hr
    rw [hfirst] at hitems
    have hbounded := Line.Item.bounded (hitems item List.mem_cons_self) a.labels
    rw [done_handle, hsegment.crashes, Bool.and_false, Bool.or_false] at hdone
    rw [hfirst, reads]
    congr 1
    by_cases hf : (item.statement a.labels).isFatal
    · rw [if_pos hf, pulls, dif_pos]
      rw [hdone, hf, Bool.or_true]
    · have hrunning : ¬a.step.done := by
        rw [hdone]
        simpa [hf] using hd
      have hlabels : a.step.labels = a.labels.after (item.statement a.labels) := by
        rw [hstep]
        apply labels_handle
        rwa [← done_step (by rw [hs]; exact hnext)]
      rw [if_neg hf, ← hlabels]
      apply ih hrunning
      · rw [hstep]
        exact bounded_handle hsegment hbounded
      · rw [hstep]
      · exact fun item' hitem' => hitems item' (List.mem_cons_of_mem item hitem')

end Assembly

section Texts
variable {r : Reader} (hitems : ∀ item ∈ r.items, item.Lawful) (labels : Labels) (root : Text)
include hitems

theorem Reader.pulls_start :
    (Assembly.start (.text r) labels root).pulls = reads labels r.items :=
  Assembly.pulls_text (Assembly.holds_start (.text r) labels root).running
    (fun f hf => by cases hf) rfl hitems

/-- The statements of a text, from the start. -/
theorem Reader.statements_start :
    (Assembly.start (.text r) labels root).pulls.map Pull.statement = statements labels r.items :=
  congrArg (List.map Pull.statement) (r.pulls_start hitems labels root)

theorem ending_start :
    let a := Assembly.start (.text r) labels root
    let sts := a.pulls.map Pull.statement
    (a.ending sts).queue = sectionOutputs labels root sts ∧ (a.ending sts).crashed = false := by
  intro a sts
  refine (Assembly.holds_start (.text r) labels root).ending_eq sts ?_
  have hsts : sts = statements labels r.items := r.statements_start hitems labels root
  have hbounded : ∀ st ∈ sts, st.Bounded := by
    rw [hsts]
    exact forall_mem_statements fun item hitem => Line.Item.bounded (hitems item hitem)
  exact Section.closed_crashes_of_bounded (fun st hst => by cases hst) hbounded

/-- The outputs of a text are those of the sections of its statements. -/
theorem run_start :
    (Assembly.start (.text r) labels root).run.1 =
      sectionOutputs labels root
        ((Assembly.start (.text r) labels root).pulls.map Pull.statement) := by
  rw [(Assembly.run_eq_ending (Assembly.holds_start (.text r) labels root).running).1]
  exact (ending_start hitems labels root).1

/-- An assembly of a text does not crash. -/
theorem crashed_run_start : (Assembly.start (.text r) labels root).run.2.crashed = false := by
  rw [(Assembly.run_eq_ending (Assembly.holds_start (.text r) labels root).running).2]
  exact (ending_start hitems labels root).2

end Texts
end Assembler65816
