import Assembler65816.Proofs.Label.References

/-!
# Reports

Every diagnostic of a run is about something: a place that could not be read, an instruction, a
reference in data, or a field that was left open when its section was closed. `Section.allReports`
lists all of these in the order in which they are looked at. The main statement is that the
diagnostics of a run are what they come to, one after the other.
-/
namespace Assembler65816

namespace Output

def diagnostic? : Output → Option Diagnostic
  | error d => some d
  | _ => none

def chunk? : Output → Option (Text × Chunk)
  | chunk label c => some (label, c)
  | _ => none

end Output

inductive Origin
  /-- A place that could not be read. -/
  | place (cause : Cause) (pos : Position)
  | instruction (i : Instruction)
  /-- A reference in so many bytes of data. -/
  | reference (r : DataRef) (length : Nat) (pos : Position)
  /-- Something that is no statement. -/
  | unknown
  /-- A field left open in a section of so many bytes, the labels of which stand at the offsets. -/
  | field (f : Fixup) (offsets : Offsets) (length : Nat)

/-- What is said about it under a top-level label, if there is anything to say. -/
def Origin.diagnostic? (label : Text) : Origin → Option Diagnostic
  | place cause pos => some {kind := .parse, label, pos, cause := some cause}
  | instruction i =>
    match Segment.assemble label i with
    | .ok _ => none
    | .error d => some d
  | reference r length pos =>
    match Segment.reference label pos 0 length r with
    | .ok _ => none
    | .error d => some d
  | unknown => some {kind := .internal, label, cause := some .unknownStatement}
  | field f offsets length => (f.resolve label offsets length).failed?

structure Report where
  label : Text
  origin : Origin

def Report.diagnostic? (r : Report) : Option Diagnostic := r.origin.diagnostic? r.label

namespace Statement

/-- A statement that is reported as soon as it is taken in. -/
def unread? : Statement → Option Origin
  | unreadable cause false pos => some (.place cause pos)
  | _ => none

/-- What is looked at when a statement is taken in and reported when its section ends. -/
def origins : Statement → List Origin
  | data bytes refs pos => refs.map (.reference · bytes.length pos)
  | instruction i => [.instruction i]
  | unknown => [.unknown]
  | _ => []

theorem faults_eq_origins (label : Text) (st : Statement) :
    st.faults label = st.origins.filterMap (Origin.diagnostic? label) := by
  cases st with
  | data bytes refs pos =>
    rw [origins, List.filterMap_map]
    rfl
  | instruction i =>
    simp only [faults, origins, Origin.diagnostic?, List.filterMap_cons, List.filterMap_nil]
    cases Segment.assemble label i <;> rfl
  | _ => rfl

theorem early?_eq_unread? (label : Text) (st : Statement) :
    (st.early? label).bind Output.diagnostic? = st.unread?.bind (Origin.diagnostic? label) := by
  cases st with
  | unreadable cause fatal pos => cases fatal <;> rfl
  | _ => rfl

end Statement

namespace Section

def statementOrigins (s : Section) : List Origin :=
  s.body.filterMap Statement.unread? ++ s.body.flatMap Statement.origins

def fieldOrigins (s : Section) : List Origin := s.fixups.map (.field · s.offsets s.bytes.length)

/-- Everything that statements can report that follow the body of an open section. -/
def allReports (s : Section) (sts : List Statement) : List Report :=
  (s.closed sts).flatMap (fun t => (t.statementOrigins ++ t.fieldOrigins).map (⟨t.label, ·⟩)) ++
    (s.abandoned? sts).toList.flatMap fun p =>
      (p.1.statementOrigins ++ [.place p.2.1 p.2.2]).map (⟨p.1.label, ·⟩)

variable (s : Section)

variable {s} in
/-- What is reported of a section before its fields are looked at stands in its body. -/
theorem mem_statementOrigins {o : Origin} (h : o ∈ s.statementOrigins) :
    (∃ cause pos, o = .place cause pos ∧ .unreadable cause false pos ∈ s.body) ∨
    (∃ i, o = .instruction i ∧ .instruction i ∈ s.body) ∨
    (∃ bytes refs pos r, o = .reference r bytes.length pos ∧ .data bytes refs pos ∈ s.body ∧
      r ∈ refs) ∨
    o = .unknown ∧ .unknown ∈ s.body := by
  rcases List.mem_append.1 h with h | h
  · obtain ⟨st, hst, hunread⟩ := List.mem_filterMap.1 h
    unfold Statement.unread? at hunread
    split at hunread
    · cases hunread
      exact .inl ⟨_, _, rfl, hst⟩
    · cases hunread
  · obtain ⟨st, hst, ho⟩ := List.mem_flatMap.1 h
    cases st with
    | data bytes refs pos =>
      obtain ⟨r, hr, rfl⟩ := List.mem_map.1 ho
      exact .inr (.inr (.inl ⟨bytes, refs, pos, r, rfl, hst, hr⟩))
    | instruction i => exact .inr (.inl ⟨i, List.mem_singleton.1 ho, hst⟩)
    | unknown => exact .inr (.inr (.inr ⟨List.mem_singleton.1 ho, hst⟩))
    | _ => cases ho

theorem filterMap_statementOrigins :
    s.statementOrigins.filterMap (Origin.diagnostic? s.label) =
      s.early.filterMap Output.diagnostic? ++ s.faults := by
  have hearly : s.early.filterMap Output.diagnostic? =
      (s.body.filterMap Statement.unread?).filterMap (Origin.diagnostic? s.label) := by
    simp only [early, List.filterMap_filterMap, Statement.early?_eq_unread?]
  have hfaults : s.faults =
      (s.body.flatMap Statement.origins).filterMap (Origin.diagnostic? s.label) := by
    simp only [faults, List.filterMap_flatMap, ← Statement.faults_eq_origins]
  rw [statementOrigins, List.filterMap_append, hearly, hfaults]

theorem filterMap_fieldOrigins :
    s.fieldOrigins.filterMap (Origin.diagnostic? s.label) = s.fixupFaults := by
  rw [fieldOrigins, fixupFaults, List.filterMap_map, List.filterMap_map]
  rfl

theorem filterMap_error (ds : List Diagnostic) :
    (ds.map Output.error).filterMap Output.diagnostic? = ds := by
  rw [List.filterMap_map]
  exact List.filterMap_some

/-- Closing a section reports what is wrong with its statements and with its fields. -/
theorem diagnostics_outputs :
    s.outputs.filterMap Output.diagnostic? =
      (s.statementOrigins ++ s.fieldOrigins).filterMap (Origin.diagnostic? s.label) := by
  have hverdict : s.verdict.filterMap Output.diagnostic? = s.faults ++ s.fixupFaults := by
    unfold verdict
    split
    · rename_i hnone
      rw [hnone.1, hnone.2]
      rfl
    · rw [List.filterMap_append, filterMap_error, filterMap_error]
  rw [outputs, List.filterMap_append, hverdict, List.filterMap_append, filterMap_statementOrigins,
    filterMap_fieldOrigins, List.append_assoc]

theorem diagnostics_abandoned (cause : Cause) (pos : Position) :
    (s.abandoned cause pos).filterMap Output.diagnostic? =
      (s.statementOrigins ++ [Origin.place cause pos]).filterMap (Origin.diagnostic? s.label) := by
  rw [abandoned, List.filterMap_append, List.filterMap_append, filterMap_error,
    List.filterMap_append, filterMap_statementOrigins]
  rfl

/-- The diagnostics are what the reports come to. -/
theorem diagnostics_total (sts : List Statement) :
    (s.total sts).filterMap Output.diagnostic? =
      (s.allReports sts).filterMap Report.diagnostic? := by
  have hlabel : ∀ (label : Text) (os : List Origin),
      (os.map (Report.mk label)).filterMap Report.diagnostic? =
        os.filterMap (Origin.diagnostic? label) := by
    intro label os
    rw [List.filterMap_map]
    rfl
  simp only [total_eq_closed, allReports, List.filterMap_append, List.filterMap_flatMap,
    diagnostics_outputs, diagnostics_abandoned, hlabel]

end Section

end Assembler65816
