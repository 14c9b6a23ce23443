import Mathlib.Algebra.Ring.Int.Defs
import Mathlib.Algebra.Ring.Nat
import Assembler65816.Proofs.Assembly.Bounds
import Assembler65816.Proofs.Chunk.Patching

/-!
# What a consumer of a list of statements sees

The outputs of a list of statements are those of its sections, however they are asked for. There is
one exception. The end of a reference in data is computed in 64-bit numbers, and if it is too large
for one, both range checks let the reference pass. Once there is something to write for it, the
program crashes when the section is closed: whoever asks for more has seen the sections before and
what the broken section hands out early. Statements that are read from a text have no such
references.
-/
namespace Assembler65816

def Fixup.Between (first last : Nat) (f : Fixup) : Prop :=
  first ≤ f.offset.toInt ∧ f.offset.toInt + f.size.width ≤ last

namespace DataRef

def Within (length : Nat) (r : DataRef) : Prop :=
  0 ≤ r.offset.toInt ∧ r.offset.toInt + r.expr.size.width ≤ length

/-- Whether the end of the field is too large for a 64-bit number. -/
def Overruns (r : DataRef) : Prop := 2 ^ 63 ≤ r.offset.toInt + r.expr.size.width

instance (length : Nat) (r : DataRef) : Decidable (r.Within length) :=
  inferInstanceAs (Decidable (_ ∧ _))

instance (r : DataRef) : Decidable r.Overruns := inferInstanceAs (Decidable (_ ≤ _))

/-- The field of a reference in data that starts at `base`. -/
def field (base : Nat) (r : DataRef) : Fixup :=
  {offset := Int64.ofNat base + r.offset, expr := r.expr.map id, sameBank := false}

/-- Whether something is written for a reference whose end is too large for a 64-bit number. The
place of its field in the section is one, or the field is reported instead. -/
def RunsOff (offsets : Offsets) (base : Nat) (r : DataRef) : Prop :=
  r.Overruns ∧ base + r.offset.toInt < 2 ^ 63 ∧ (r.field base).Writes offsets

variable {r : DataRef} {base length total : Nat}

theorem not_overruns_of_within (hlength : length < 2 ^ 63) (h : r.Within length) :
    ¬r.Overruns := by
  unfold Within at h
  unfold Overruns
  omega

theorem inRange_iff_within (hlength : length < 2 ^ 63) :
    Fixup.inRange length r.offset r.expr.size ↔ r.Within length ∨ r.Overruns :=
  Fixup.inRange_iff_or hlength

theorem toInt_offset_field (hbase : base < 2 ^ 63) :
    (r.field base).offset.toInt =
      if base + r.offset.toInt < 2 ^ 63 then base + r.offset.toInt
      else base + r.offset.toInt - 2 ^ 64 := by
  have hlt := r.offset.toInt_lt
  have hle := r.offset.le_toInt
  rw [field, Int64.toInt_add, Int64.toInt_ofNat_of_lt hbase, Int.bmod_def]
  omega

/-- The field lies in the bytes of the statement exactly if the reference lies in the data. -/
theorem between_field_iff (hlength : base + length < 2 ^ 63) :
    (r.field base).Between base (base + length) ↔ r.Within length := by
  have hlt := r.offset.toInt_lt
  have hle := r.offset.le_toInt
  have hsize : (r.field base).size = r.expr.size := rfl
  rw [Fixup.Between, toInt_offset_field (by omega), hsize, Within]
  split <;> omega

/-- A field that overruns its data passes for one in the section, unless its start overruns too. -/
theorem inRange_field_iff (htotal : total < 2 ^ 63) (hbase : base ≤ total) (h : r.Overruns) :
    Fixup.inRange total (r.field base).offset (r.field base).size ↔
      base + r.offset.toInt < 2 ^ 63 := by
  have hlt := r.offset.toInt_lt
  have hle := r.expr.size.width_le
  have hsize : (r.field base).size = r.expr.size := rfl
  unfold Overruns at h
  rw [Fixup.inRange_iff_or htotal, toInt_offset_field (by omega), hsize]
  split <;> omega

theorem isWithin_field (htotal : total < 2 ^ 63) (hbase : base + length ≤ total)
    (h : r.Within length) : (r.field base).isWithin total := by
  have hbetween : (r.field base).Between base (base + length) :=
    (between_field_iff (by omega)).2 h
  obtain ⟨hstart, hend⟩ := hbetween
  exact Fixup.Within.isWithin ⟨by omega, by omega⟩

theorem not_isWithin_field (htotal : total < 2 ^ 63) (hbase : base ≤ total) (h : r.Overruns)
    (hstart : base + r.offset.toInt < 2 ^ 63) : ¬(r.field base).isWithin total := by
  have hsize : (r.field base).size = r.expr.size := rfl
  unfold Overruns at h
  rw [Fixup.isWithin, decide_eq_true_eq, toInt_offset_field (by omega), if_pos hstart, hsize]
  omega

/-- A reference that was let pass is written out of bounds exactly if it runs off. -/
theorem resolve_field_eq_outOfBounds_iff (label : Text) (offsets : Offsets)
    (htotal : total < 2 ^ 63) (hbase : base + length ≤ total)
    (hpassed : Fixup.inRange length r.offset r.expr.size) :
    (r.field base).resolve label offsets total = .outOfBounds ↔ r.RunsOff offsets base := by
  rw [Fixup.resolve_eq_outOfBounds_iff]
  rcases (inRange_iff_within (by omega)).1 hpassed with hwithin | hoverruns
  · constructor
    · exact fun h => absurd (isWithin_field htotal hbase hwithin) h.2.1
    · exact fun h => absurd h.1 (not_overruns_of_within (by omega) hwithin)
  · rw [inRange_field_iff htotal (by omega) hoverruns]
    constructor
    · exact fun h => ⟨hoverruns, h.1, h.2.2⟩
    · exact fun h => ⟨h.2.1, not_isWithin_field htotal (by omega) hoverruns h.2.1, h.2.2⟩

end DataRef

theorem mem_openFields_data {base : Nat} {bytes : List UInt8} {refs : List DataRef} {pos : Position}
    {f : Fixup} :
    f ∈ (Statement.data bytes refs pos).openFields base ↔
      ∃ r ∈ refs, Fixup.inRange bytes.length r.offset r.expr.size ∧ f = r.field base := by
  simp only [Statement.openFields, List.mem_map, List.mem_filter, and_assoc, eq_comm (a := f)]
  rfl

namespace Section
variable {s : Section}

theorem crashes_iff_exists :
    s.crashes ↔
      ∃ f ∈ s.fixups, f.resolve s.label s.offsets s.bytes.length = .outOfBounds := by
  change (s.fixups.map (Fixup.resolve s.label s.offsets s.bytes.length)).any
    Resolution.isOutOfBounds ↔ _
  rw [List.any_map, List.any_eq_true]
  exact exists_congr fun f => and_congr_right fun _ => Resolution.isOutOfBounds_iff

/-- A section crashes exactly if a reference in its data runs off. -/
theorem crashes_iff (hlength : s.bytes.length < 2 ^ 63) :
    s.crashes ↔
      ∃ p ∈ s.places, ∃ bytes refs pos, p.statement = .data bytes refs pos ∧
        ∃ r ∈ refs, r.RunsOff s.offsets p.offset := by
  have hplace : ∀ p ∈ s.places, p.offset + p.statement.image.length ≤ s.bytes.length := by
    intro p hp
    have hle := offset_add_length_le hp
    rwa [Nat.zero_add] at hle
  rw [crashes_iff_exists]
  constructor
  · rintro ⟨f, hf, hout⟩
    obtain ⟨p, hp, hf⟩ := List.mem_flatMap.1 hf
    have hend := hplace p hp
    refine ⟨p, hp, ?_⟩
    cases hst : p.statement with
    | data bytes refs pos =>
      rw [hst] at hf hend
      obtain ⟨r, hr, hpassed, rfl⟩ := mem_openFields_data.1 hf
      exact ⟨bytes, refs, pos, rfl, r, hr,
        (DataRef.resolve_field_eq_outOfBounds_iff _ _ hlength hend hpassed).1 hout⟩
    | instruction i =>
      rw [hst] at hf hend
      have hinside := ((i.bounded p.offset f hf).mono hend).isOutOfBounds_resolve s.label s.offsets
      rw [hout] at hinside
      cases hinside
    | _ =>
      rw [hst] at hf
      cases hf
  · rintro ⟨p, hp, bytes, refs, pos, hst, r, hr, hruns⟩
    have hend := hplace p hp
    rw [hst] at hend
    have hbytes : bytes.length < 2 ^ 63 := by
      simp only [Statement.image] at hend
      omega
    have hpassed : Fixup.inRange bytes.length r.offset r.expr.size :=
      (DataRef.inRange_iff_within hbytes).2 (.inr hruns.1)
    refine ⟨r.field p.offset, List.mem_flatMap.2 ⟨p, hp, ?_⟩,
      (DataRef.resolve_field_eq_outOfBounds_iff _ _ hlength hend hpassed).2 hruns⟩
    rw [hst]
    exact mem_openFields_data.2 ⟨r, hr, hpassed, rfl⟩

end Section

namespace Assembly

/-- Whether a consumer sees these outputs, as many of them as it asks for, and nothing after
them. -/
structure Delivers (a : Assembly) (outs : List Output) : Prop where
  whole : a.run.1 = outs
  front : ∀ requests, (serve requests a).1 = outs.take (demand requests)
  ended : ∀ requests, outs.length ≤ demand requests → ∀ more,
    (serve more (serve requests a).2).1 = [] ∧ (serve more (serve requests a).2).2.next.1 = none
  sound : ∀ requests, ¬(serve requests a).2.crashed

/-- Whether a consumer sees these outputs, and crashes if it asks for more. -/
structure BreaksOff (a : Assembly) (outs : List Output) : Prop where
  whole : a.run.1 = outs
  front : ∀ requests, (serve requests a).1 = outs.take (demand requests)
  crashed : ∀ requests, (serve requests a).2.crashed ↔ outs.length < demand requests

variable {a : Assembly} {outs outs' : List Output}

theorem delivers_of_run (ha : ¬a.done) (hrun : a.run.1 = outs) (hsound : ¬a.run.2.crashed) :
    a.Delivers outs := by
  subst hrun
  refine ⟨rfl, fun requests => (serves_serve requests a).seen, ?_, fun requests hcrashed => ?_⟩
  · intro requests hall more
    have hnone : (serve requests a).2.run.1 = [] := by
      rw [(serves_serve requests a).left, List.drop_of_length_le hall]
    have hmore := serves_serve more (serve requests a).2
    have hafter : (serve more (serve requests a).2).2.run.1 = [] := by
      rw [hmore.left, hnone, List.drop_nil]
    refine ⟨by rw [hmore.seen, hnone, List.take_nil], ?_⟩
    have hnext := (serves_next (serve more (serve requests a).2).2).seen
    rw [hafter, List.take_nil] at hnext
    exact Option.toList_eq_nil_iff.1 hnext
  · rcases (serves_serve requests a).crashed.1 hcrashed with hnow | ⟨-, hlater⟩
    · exact ha (done_of_crashed hnow)
    · exact hsound hlater

theorem breaksOff_of_run (ha : ¬a.done) (hrun : a.run.1 = outs) (hcrashed : a.run.2.crashed) :
    a.BreaksOff outs := by
  subst hrun
  refine ⟨rfl, fun requests => (serves_serve requests a).seen, fun requests => ?_⟩
  rw [(serves_serve requests a).crashed]
  constructor
  · rintro (hnow | ⟨hless, -⟩)
    · exact absurd (done_of_crashed hnow) ha
    · exact hless
  · exact fun hless => .inr ⟨hless, hcrashed⟩

theorem BreaksOff.not_delivers (h : a.BreaksOff outs) : ¬a.Delivers outs' := by
  intro hdelivers
  have hdemand : demand [.loop (outs.length + 1)] = outs.length + 1 := rfl
  refine hdelivers.sound [.loop (outs.length + 1)] ((h.crashed _).2 ?_)
  rw [hdemand]
  exact Nat.lt_succ_self _

/-- The part of a list of statements that an assembly has pulled: nothing after a fatal one. -/
def HasPulled (sts : List Statement) (a : Assembly) : Prop :=
  ∃ pulled rest, sts = pulled ++ rest ∧ a.source = .statements rest ∧
    (∀ st ∈ pulled.dropLast, st.isFatal = false) ∧
    (¬a.done → ∀ st ∈ pulled, st.isFatal = false)

theorem HasPulled.step {sts : List Statement} (h : a.HasPulled sts) (hd : ¬a.done) :
    a.step.HasPulled sts := by
  obtain ⟨pulled, rest, hsts, hsource, -, hopen⟩ := h
  have hread := hopen hd
  cases rest with
  | nil =>
    have hnext : a.source.next a.labels = none := by rw [hsource]; rfl
    refine ⟨pulled, [], hsts, ?_, fun st hst => hread st (List.dropLast_subset pulled hst), ?_⟩
    · rw [step_of_none hnext, finish, source_close]
      exact hsource
    · rw [step_of_none hnext]
      exact fun h => absurd a.done_finish h
  | cons st rest =>
    have hnext : a.source.next a.labels = some (st, .statements rest) := by rw [hsource]; rfl
    refine ⟨pulled ++ [st], rest, ?_, ?_, ?_, ?_⟩
    · rw [hsts, List.append_assoc]
      rfl
    · rw [step_of_some hnext]
    · rw [List.dropLast_concat]
      exact hread
    · rw [done_step hnext, done_handle]
      intro hdone st' hst'
      rcases List.mem_append.1 hst' with hst' | hst'
      · exact hread st' hst'
      · rw [List.mem_singleton.1 hst']
        simp only [Bool.or_eq_true, not_or] at hdone
        simpa using hdone.1.2

end Assembly

section Statements
variable (sts : List Statement) (labels : Labels) (root : Text)

theorem delivers_statements
    (h : ∀ s ∈ (Section.root labels root).closed sts, s.crashes = false) :
    (Assembly.start (.statements sts) labels root).Delivers (sectionOutputs labels root sts) := by
  have hstart := Assembly.holds_start (.statements sts) labels root
  obtain ⟨hrun, hcrashed⟩ := run_statements sts labels root
  obtain ⟨hqueue, hsound⟩ := hstart.ending_eq sts h
  refine Assembly.delivers_of_run hstart.running (hrun.trans hqueue) ?_
  rw [hcrashed, hsound]
  exact Bool.false_ne_true

theorem breaksOff_statements {before after : List Section} {s : Section}
    (hclosed : (Section.root labels root).closed sts = before ++ s :: after)
    (hbefore : ∀ t ∈ before, t.crashes = false) (hs : s.crashes) :
    (Assembly.start (.statements sts) labels root).BreaksOff
      (before.flatMap Section.outputs ++ s.early) := by
  have hstart := Assembly.holds_start (.statements sts) labels root
  obtain ⟨hrun, hcrashed⟩ := run_statements sts labels root
  obtain ⟨hqueue, hends⟩ := hstart.ending_of_crashes hclosed hbefore hs
  exact Assembly.breaksOff_of_run hstart.running (hrun.trans hqueue) (hcrashed.trans hends)

end Statements

/-- A text delivers the outputs of its sections in any case. -/
theorem delivers_text {r : Reader} (hitems : ∀ item ∈ r.items, item.Lawful) (labels : Labels)
    (root : Text) :
    (Assembly.start (.text r) labels root).Delivers
      (sectionOutputs labels root (statements labels r.items)) := by
  refine Assembly.delivers_of_run (Assembly.holds_start (.text r) labels root).running ?_ ?_
  · rw [run_start hitems labels root, r.statements_start hitems labels root]
  · rw [crashed_run_start hitems labels root]
    exact Bool.false_ne_true

/-- The outputs of a list of statements are those of its sections, however they are asked for, if
and only if no section crashes. The first one that does ends the program, and what was handed out
before stays. A section crashes exactly if a reference in its data runs off. No statement after a
fatal one is ever pulled. -/
theorem delivers_sections_iff (sts : List Statement) (labels : Labels) (root : Text) :
    let a := Assembly.start (.statements sts) labels root
    let closed := (Section.root labels root).closed sts
    (a.Delivers (sectionOutputs labels root sts) ↔ ∀ s ∈ closed, s.crashes = false) ∧
      (∀ before s after, closed = before ++ s :: after → (∀ t ∈ before, t.crashes = false) →
        s.crashes → a.BreaksOff (before.flatMap Section.outputs ++ s.early)) ∧
      (∀ s ∈ closed, s.bytes.length < 2 ^ 63 →
        (s.crashes ↔ ∃ p ∈ s.places, ∃ bytes refs pos, p.statement = .data bytes refs pos ∧
          ∃ r ∈ refs, r.RunsOff s.offsets p.offset)) ∧
      ∀ requests, ∃ pulled rest, sts = pulled ++ rest ∧
        (Assembly.serve requests a).2.source = .statements rest ∧
        ∀ st ∈ pulled.dropLast, st.isFatal = false := by
  intro a closed
  have hbroken : ∀ before s after, closed = before ++ s :: after →
      (∀ t ∈ before, t.crashes = false) → s.crashes →
      a.BreaksOff (before.flatMap Section.outputs ++ s.early) :=
    fun _ _ _ hclosed hbefore hs => breaksOff_statements sts labels root hclosed hbefore hs
  refine ⟨⟨?_, delivers_statements sts labels root⟩, hbroken,
    fun s _ hlength => Section.crashes_iff hlength, fun requests => ?_⟩
  · intro hdelivers
    cases hfirst : closed.find? Section.crashes with
    | none =>
      intro s hs
      simpa using List.find?_eq_none.1 hfirst s hs
    | some s =>
      obtain ⟨hs, before, after, hclosed, hbefore⟩ := List.find?_eq_some_iff_append.1 hfirst
      refine absurd hdelivers (hbroken before s after hclosed (fun t ht => ?_) hs).not_delivers
      simpa using hbefore t ht
  · have hnone : a.HasPulled sts :=
      ⟨[], sts, rfl, rfl, fun _ h => absurd h List.not_mem_nil,
        fun _ _ h => absurd h List.not_mem_nil⟩
    obtain ⟨pulled, rest, hsts, hsource, hfatal, -⟩ :=
      Assembly.serve_preserves (P := Assembly.HasPulled sts) (fun _ _ h => h)
        (fun _ hd h => h.step hd) requests hnone
    exact ⟨pulled, rest, hsts, hsource, hfatal⟩

/-- Nothing at all is handed out for a byte with a number that is to be written far behind it. -/
theorem exists_breaking_off :
    let r : DataRef := ⟨Int64.maxValue, .sized (.constant 1) .byte⟩
    let a := Assembly.start (.statements [.data [0] [r] {}]) {} []
    a.BreaksOff [] ∧ ¬∃ outs, a.Delivers outs := by
  intro r a
  let s : Section := {labels := {}, label := Assembly.rootLabel, body := [.data [0] [r] {}]}
  have hclosed : (Section.root {} []).closed [.data [0] [r] {}] = [] ++ s :: [] := rfl
  have hbroken : a.BreaksOff [] :=
    breaksOff_statements _ {} [] hclosed (fun _ h => absurd h List.not_mem_nil) (by decide)
  exact ⟨hbroken, fun ⟨_, hdelivers⟩ => hbroken.not_delivers hdelivers⟩

end Assembler65816
