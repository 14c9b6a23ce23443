import Assembler65816.Proofs.Assembly.Run
import Mathlib.Data.List.TakeWhile

/-!
# Sections

A list of statements falls into sections, one for the code before the first top-level label and one
for each such label. This module says what a section assembles to without running the machine: its
bytes, the fields left open in it, the places of its labels and its faults are read off its body,
and the number of bytes before a statement is all that one statement needs to know of the others.

The main statement is that the machine agrees. The outputs are those of the sections, one after the
other: first the defines and the places that could not be read, then either one chunk or, if
anything is at fault, the diagnostics. A fatal statement ends the section it stands in before its
fields are looked at. A section with a field out of bounds cannot be closed: what was handed out
early is all that it gives, and nothing follows.
-/
namespace Assembler65816

def Instruction.assembled? (i : Instruction) : Option Segment.Assembled :=
  (Segment.assemble [] i).toOption

namespace Statement

def image : Statement → List UInt8
  | data bytes _ _ => bytes
  | instruction i => (i.assembled?.map (·.encoded.bytes)).getD []
  | _ => []

/-- The fields that a statement leaves open if it starts at `base`. -/
def openFields (base : Nat) : Statement → List Fixup
  | data bytes refs _ =>
    (refs.filter fun r => Fixup.inRange bytes.length r.offset r.expr.size).map fun r =>
      {offset := Int64.ofNat base + r.offset, expr := r.expr.map id, sameBank := false}
  | instruction i =>
    ((i.assembled?.bind (·.operand)).map fun expr =>
      {offset := Int64.ofNat (base + 1), expr, sameBank := true : Fixup}).toList
  | _ => []

/-- What is wrong with a statement under the top-level label `label`. -/
def faults (label : Text) : Statement → List Diagnostic
  | data bytes refs pos =>
    refs.filterMap fun r =>
      match Segment.reference label pos 0 bytes.length r with
      | .ok _ => none
      | .error d => some d
  | instruction i =>
    match Segment.assemble label i with
    | .ok _ => []
    | .error d => [d]
  | unknown => [{kind := .internal, label, cause := some .unknownStatement}]
  | _ => []

/-- Whether control cannot run off the end after a statement, given whether it could not before. -/
def diverges (before : Bool) : Statement → Bool
  | forwardLabel _ | localLabel .. => false
  | data .. => true
  | instruction i => before || (i.assembled?.map (·.encoded.diverging)).getD false
  | _ => before

/-- What is handed out for a statement as soon as it is taken in. -/
def early? (label : Text) : Statement → Option Output
  | define name value _ => some (.define name value)
  | unreadable cause false pos => some (.error {kind := .parse, label, pos, cause := some cause})
  | _ => none

end Statement

/-- Diagnostics name the label; nothing else depends on it. -/
theorem Segment.toOption_assemble (label : Text) (i : Instruction) :
    (Segment.assemble label i).toOption = i.assembled? := by
  unfold Instruction.assembled? Segment.assemble
  simp only
  split
  · rfl
  split
  · rfl
  split
  · rfl
  split
  · rfl
  split <;> rfl

theorem Instruction.exists_assembled? {label : Text} {i : Instruction}
    (h : (Statement.instruction i).faults label = []) : ∃ a, i.assembled? = some a := by
  rw [← Segment.toOption_assemble label]
  simp only [Statement.faults] at h
  split at h
  · rename_i a ha
    exact ⟨a, by rw [ha]; rfl⟩
  · cases h

/-- A statement with the labels known before it and the number of bytes before it. -/
structure Place where
  labels : Labels
  offset : Nat
  statement : Statement

def places (labels : Labels) (base : Nat) : List Statement → List Place
  | [] => []
  | st :: sts => ⟨labels, base, st⟩ :: places (labels.after st) (base + st.image.length) sts

def Place.mark? (p : Place) : Option (Ident × Nat) :=
  (p.labels.identity? p.statement).map (·, p.offset)

/-- A top-level label and the statements under it, up to the next one. -/
structure Section where
  /-- The labels known at its start. -/
  labels : Labels
  label : Text
  attributes : List Attribute := []
  body : List Statement := []

namespace Section

def add (s : Section) (st : Statement) : Section := {s with body := s.body ++ [st]}

def exit (s : Section) : Labels := s.body.foldl Labels.after s.labels

def places (s : Section) : List Place := Assembler65816.places s.labels 0 s.body

def bytes (s : Section) : List UInt8 := s.body.flatMap Statement.image

/-- The labels of the section with their offsets, latest first. -/
def offsets (s : Section) : Offsets := (s.places.filterMap Place.mark?).reverse

def fixups (s : Section) : List Fixup := s.places.flatMap fun p => p.statement.openFields p.offset

def faults (s : Section) : List Diagnostic := s.body.flatMap (Statement.faults s.label)

def segment (s : Section) : Segment :=
  { label := s.label
    attributes := s.attributes
    bytes := s.bytes
    diverging := s.body.foldl Statement.diverges false
    offsets := s.offsets
    fixups := s.fixups
    faults := s.faults }

/-- The faults of its fields once the places of its labels are known. -/
def fixupFaults (s : Section) : List Diagnostic :=
  (s.fixups.map (Fixup.resolve s.label s.offsets s.bytes.length)).filterMap Resolution.failed?

/-- Defines and places that could not be read. -/
def early (s : Section) : List Output := s.body.filterMap (Statement.early? s.label)

/-- One chunk, or everything that is wrong. -/
def verdict (s : Section) : List Output :=
  if s.faults = [] ∧ s.fixupFaults = [] then [.chunk s.label s.segment.chunk]
  else s.faults.map .error ++ s.fixupFaults.map .error

def outputs (s : Section) : List Output := s.early ++ s.verdict

/-- What is left of a section in which the source came to a fatal end. -/
def abandoned (s : Section) (cause : Cause) (pos : Position) : List Output :=
  s.early ++ s.faults.map .error ++
    [.error {kind := .parse, label := s.label, pos, cause := some cause}]

/-- The sections that statements close, and the one left open at their end. -/
def cut (s : Section) : List Statement → List Section × Section
  | [] => ([], s)
  | .topLabel name attributes _ :: sts =>
    let rest := cut {labels := s.exit.enterScope, label := name, attributes} sts
    (s :: rest.1, rest.2)
  | st :: sts => cut (s.add st) sts

/-- The section of the code before the first top-level label, before its first statement. -/
def root (labels : Labels) (label : Text) : Section :=
  {labels, label := if label.isEmpty then Assembly.rootLabel else label}

/-- What statements assemble to that follow the body of an open section. -/
def total (s : Section) (sts : List Statement) : List Output :=
  let sections := s.cut (sts.takeWhile (!·.isFatal))
  sections.1.flatMap outputs ++
    match (sts.dropWhile (!·.isFatal)).head? with
    | some (.unreadable cause _ pos) => sections.2.abandoned cause pos
    | _ => sections.2.outputs

/-- The sections of some statements, the one left open at their end included. -/
def sections (s : Section) (sts : List Statement) : List Section :=
  (s.cut sts).1 ++ [(s.cut sts).2]

/-- The sections that are closed: all of them, unless the source comes to a fatal end. -/
def closed (s : Section) (sts : List Statement) : List Section :=
  let sections := s.cut (sts.takeWhile (!·.isFatal))
  sections.1 ++ if sts.any Statement.isFatal then [] else [sections.2]

/-- The section in which the source comes to a fatal end, with the cause and the place. -/
def abandoned? (s : Section) (sts : List Statement) : Option (Section × Cause × Position) :=
  match (sts.dropWhile (!·.isFatal)).head? with
  | some (.unreadable cause _ pos) => some ((s.cut (sts.takeWhile (!·.isFatal))).2, cause, pos)
  | _ => none

/-- Whether a field of the section is out of bounds, so that it cannot be closed. -/
def crashes (s : Section) : Bool := s.segment.crashes

end Section

theorem places_append (labels : Labels) (base : Nat) (sts : List Statement) (st : Statement) :
    places labels base (sts ++ [st]) =
      places labels base sts ++
        [⟨sts.foldl Labels.after labels, base + (sts.flatMap Statement.image).length, st⟩] := by
  induction sts generalizing labels base with
  | nil => rfl
  | cons st' sts ih =>
    simp only [List.cons_append, places, ih, List.foldl_cons, List.flatMap_cons,
      List.length_append, Nat.add_assoc]

theorem statement_places (labels : Labels) (base : Nat) (sts : List Statement) :
    (places labels base sts).map Place.statement = sts := by
  induction sts generalizing labels base with
  | nil => rfl
  | cons st sts ih => rw [places, List.map_cons, ih]

theorem offset_add_length_le {labels : Labels} {base : Nat} {sts : List Statement} {p : Place}
    (hp : p ∈ places labels base sts) :
    p.offset + p.statement.image.length ≤ base + (sts.flatMap Statement.image).length := by
  induction sts generalizing labels base with
  | nil => cases hp
  | cons st sts ih =>
    rw [List.flatMap_cons, List.length_append]
    rcases List.mem_cons.1 hp with rfl | hp
    · exact Nat.add_le_add_left (Nat.le_add_right _ _) _
    · have hle := ih hp
      omega

namespace Section

variable (s : Section) (st : Statement)

theorem exit_add : (s.add st).exit = s.exit.after st := by
  simp only [exit, add, List.foldl_append, List.foldl_cons, List.foldl_nil]

theorem places_add : (s.add st).places = s.places ++ [⟨s.exit, s.bytes.length, st⟩] := by
  simp only [places, add, places_append, Nat.zero_add]
  rfl

theorem bytes_add : (s.add st).bytes = s.bytes ++ st.image := by
  simp only [bytes, add, List.flatMap_append, List.flatMap_singleton]

theorem offsets_add :
    (s.add st).offsets =
      ((s.exit.identity? st).map (·, s.bytes.length)).toList ++ s.offsets := by
  simp only [offsets, places_add, List.filterMap_append, List.reverse_append]
  congr 1
  simp only [Place.mark?, List.filterMap_cons, List.filterMap_nil]
  cases s.exit.identity? st <;> rfl

theorem fixups_add : (s.add st).fixups = s.fixups ++ st.openFields s.bytes.length := by
  simp only [fixups, places_add, List.flatMap_append, List.flatMap_singleton]

theorem faults_add : (s.add st).faults = s.faults ++ st.faults s.label := by
  simp only [faults, add, List.flatMap_append, List.flatMap_singleton]

theorem early_add : (s.add st).early = s.early ++ (st.early? s.label).toList := by
  simp only [early, add, List.filterMap_append, List.filterMap_cons, List.filterMap_nil]
  cases st.early? s.label <;> rfl

/-- A segment changes with a statement as its section says. -/
theorem segment_add :
    (s.add st).segment =
      { s.segment with
        bytes := s.bytes ++ st.image
        diverging := st.diverges s.segment.diverging
        offsets := ((s.exit.identity? st).map (·, s.bytes.length)).toList ++ s.offsets
        fixups := s.fixups ++ st.openFields s.bytes.length
        faults := s.faults ++ st.faults s.label } := by
  have hd : (s.add st).body.foldl Statement.diverges false =
      st.diverges (s.body.foldl Statement.diverges false) := by
    simp only [add, List.foldl_append, List.foldl_cons, List.foldl_nil]
  simp only [segment, bytes_add, offsets_add, fixups_add, faults_add, hd]
  rfl

end Section

namespace Statement

theorem exists_of_isFatal {st : Statement} (h : st.isFatal) :
    ∃ cause pos, st = .unreadable cause true pos := by
  cases st with
  | unreadable cause fatal pos =>
    cases fatal with
    | true => exact ⟨cause, pos, rfl⟩
    | false => cases h
  | _ => cases h

theorem exists_of_isTop {st : Statement} (h : st.isTop) :
    ∃ name attributes pos, st = .topLabel name attributes pos := by
  cases st with
  | topLabel name attributes pos => exact ⟨name, attributes, pos, rfl⟩
  | _ => cases h

end Statement

namespace Section

theorem cut_add (s : Section) {st : Statement} (htop : st.isTop = false) (sts : List Statement) :
    s.cut (st :: sts) = (s.add st).cut sts := by
  cases st with
  | topLabel => cases htop
  | _ => rfl

theorem total_nil (s : Section) : s.total [] = s.outputs := rfl

theorem total_fatal (s : Section) (cause : Cause) (pos : Position) (sts : List Statement) :
    s.total (.unreadable cause true pos :: sts) = s.abandoned cause pos := rfl

theorem total_top (s : Section) (name : Text) (attributes : List Attribute) (pos : Position)
    (sts : List Statement) :
    s.total (.topLabel name attributes pos :: sts) =
      s.outputs ++
        total {labels := s.exit.enterScope, label := name, attributes} sts :=
  List.append_assoc ..

theorem total_add (s : Section) {st : Statement} (sts : List Statement) (htop : st.isTop = false)
    (hfatal : st.isFatal = false) : s.total (st :: sts) = (s.add st).total sts := by
  have htake : (st :: sts).takeWhile (!·.isFatal) = st :: sts.takeWhile (!·.isFatal) :=
    List.takeWhile_cons_of_pos (by simp [hfatal])
  have hdrop : (st :: sts).dropWhile (!·.isFatal) = sts.dropWhile (!·.isFatal) :=
    List.dropWhile_cons_of_pos (by simp [hfatal])
  simp only [total, htake, hdrop, s.cut_add htop]

theorem closed_nil (s : Section) : s.closed [] = [s] := rfl

theorem closed_fatal (s : Section) (cause : Cause) (pos : Position) (sts : List Statement) :
    s.closed (.unreadable cause true pos :: sts) = [] := rfl

theorem closed_top (s : Section) (name : Text) (attributes : List Attribute) (pos : Position)
    (sts : List Statement) :
    s.closed (.topLabel name attributes pos :: sts) =
      s :: closed {labels := s.exit.enterScope, label := name, attributes} sts := rfl

theorem closed_add (s : Section) {st : Statement} (sts : List Statement) (htop : st.isTop = false)
    (hfatal : st.isFatal = false) : s.closed (st :: sts) = (s.add st).closed sts := by
  have htake : (st :: sts).takeWhile (!·.isFatal) = st :: sts.takeWhile (!·.isFatal) :=
    List.takeWhile_cons_of_pos (by simp [hfatal])
  simp only [closed, htake, s.cut_add htop, List.any_cons, hfatal, Bool.false_or]

/-- Statements that open no section and are not fatal all go into the open one. -/
theorem total_of_plain (s : Section) {sts : List Statement}
    (h : ∀ st ∈ sts, st.isTop = false ∧ st.isFatal = false) :
    s.total sts = outputs {s with body := s.body ++ sts} := by
  induction sts generalizing s with
  | nil => rw [total_nil, List.append_nil]
  | cons st sts ih =>
    obtain ⟨htop, hfatal⟩ := h st List.mem_cons_self
    have hrest := ih (s.add st) fun st' hst' => h st' (List.mem_cons_of_mem st hst')
    rw [s.total_add sts htop hfatal, hrest]
    simp only [add, List.append_assoc, List.singleton_append]

theorem closed_prefix_sections (s : Section) (sts : List Statement) :
    s.closed sts <+: s.sections (sts.takeWhile (!·.isFatal)) := by
  unfold closed sections
  split
  · rw [List.append_nil]
    exact List.prefix_append _ _
  · exact List.prefix_rfl

theorem closed_eq_sections (s : Section) {sts : List Statement}
    (h : sts.any Statement.isFatal = false) :
    s.closed sts = s.sections (sts.takeWhile (!·.isFatal)) := by
  rw [closed, h]
  rfl

/-- The outputs of the closed sections come first, then those of the one that is not. -/
theorem total_eq_closed (s : Section) (sts : List Statement) :
    s.total sts = (s.closed sts).flatMap outputs ++
      (s.abandoned? sts).toList.flatMap fun p => p.1.abandoned p.2.1 p.2.2 := by
  unfold total closed abandoned?
  cases hdrop : sts.dropWhile (!·.isFatal) with
  | nil =>
    have hany : sts.any Statement.isFatal = false := by
      simpa using List.dropWhile_eq_nil_iff.1 hdrop
    simp [hany]
  | cons st rest =>
    have hfatal : st.isFatal := by
      have hhead := List.head?_dropWhile_not (fun st : Statement => !st.isFatal) sts
      rw [hdrop] at hhead
      simpa using hhead
    have hany : sts.any Statement.isFatal := by
      refine List.any_eq_true.2 ⟨st, ?_, hfatal⟩
      apply (List.dropWhile_suffix (!·.isFatal)).subset
      rw [hdrop]
      exact List.mem_cons_self
    obtain ⟨cause, pos, rfl⟩ := Statement.exists_of_isFatal hfatal
    simp [hany]

/-- What stands in a section was there from the start or is one of the statements. -/
theorem mem_of_mem_sections {s t : Section} {sts : List Statement} (ht : t ∈ s.sections sts)
    {st : Statement} (hst : st ∈ t.body) : st ∈ s.body ∨ st ∈ sts := by
  induction sts generalizing s with
  | nil =>
    cases List.mem_singleton.1 ht
    exact .inl hst
  | cons first sts ih =>
    by_cases htop : first.isTop
    · obtain ⟨name, attributes, pos, rfl⟩ := Statement.exists_of_isTop htop
      rcases List.mem_cons.1 ht with rfl | ht
      · exact .inl hst
      · rcases ih ht with hnone | hmem
        · cases hnone
        · exact .inr (List.mem_cons_of_mem _ hmem)
    · rw [Bool.not_eq_true] at htop
      rw [sections, s.cut_add htop] at ht
      rcases ih ht with hbody | hmem
      · rcases List.mem_append.1 hbody with hbody | hfirst
        · exact .inl hbody
        · cases List.mem_singleton.1 hfirst
          exact .inr List.mem_cons_self
      · exact .inr (List.mem_cons_of_mem _ hmem)

/-- Closing a segment gives the verdict on its section. -/
theorem close_segment {s : Section} (h : s.crashes = false) : s.segment.close = some s.verdict := by
  have hds : s.segment.diagnostics = s.faults ++ s.fixupFaults := rfl
  have hcrashes : ¬s.segment.crashes := by rw [Bool.not_eq_true]; exact h
  unfold Segment.close verdict
  rw [if_neg hcrashes]
  split
  · rename_i hnil
    rw [hds, List.append_eq_nil_iff] at hnil
    rw [if_pos hnil]
    rfl
  · rename_i hcons
    rw [if_neg, hds, List.map_append]
    intro hnil
    apply hcons
    rw [hds, hnil.1, hnil.2, List.append_nil]

/-- The verdict depends on the segment only. -/
theorem verdict_congr {s s' : Section} (h : s'.segment = s.segment) : s'.verdict = s.verdict := by
  have hfaults : s'.faults = s.faults := congrArg Segment.faults h
  have hfixups : s'.fixupFaults = s.fixupFaults := by
    change s'.segment.resolutions.filterMap Resolution.failed? =
      s.segment.resolutions.filterMap Resolution.failed?
    rw [h]
  have hlabel : s'.label = s.label := congrArg Segment.label h
  rw [verdict, verdict, hfaults, hfixups, hlabel, h]

theorem chunk_notMem_early (s : Section) (label : Text) (c : Chunk) :
    Output.chunk label c ∉ s.early := by
  intro h
  obtain ⟨st, -, hst⟩ := List.mem_filterMap.1 h
  unfold Statement.early? at hst
  split at hst <;> cases hst

theorem chunk_mem_outputs {s : Section} {label : Text} {c : Chunk}
    (h : Output.chunk label c ∈ s.outputs) :
    label = s.label ∧ c = s.segment.chunk ∧ s.faults = [] ∧ s.fixupFaults = [] := by
  rcases List.mem_append.1 h with h | h
  · exact absurd h (s.chunk_notMem_early label c)
  unfold verdict at h
  split at h
  · rename_i hnone
    cases List.mem_singleton.1 h
    exact ⟨rfl, rfl, hnone⟩
  · simp at h

theorem chunk_notMem_abandoned (s : Section) (label : Text) (c : Chunk) (cause : Cause)
    (pos : Position) : Output.chunk label c ∉ s.abandoned cause pos := by
  intro h
  simp [abandoned, s.chunk_notMem_early] at h

end Section

namespace Segment

theorem data_eq (g : Segment) (bytes : List UInt8) (refs : List DataRef) (pos : Position) :
    g.data bytes refs pos =
      { g with
        bytes := g.bytes ++ bytes
        diverging := true
        fixups := g.fixups ++ (Statement.data bytes refs pos).openFields g.bytes.length
        faults := g.faults ++ (Statement.data bytes refs pos).faults g.label } := by
  simp only [data, List.filterMap_map, Statement.openFields, Statement.faults]
  congr 2
  · rw [← List.filterMap_eq_map, ← List.filterMap_eq_filter, List.filterMap_filterMap]
    congr 1
    funext r
    unfold reference
    by_cases h : Fixup.inRange bytes.length r.offset r.expr.size <;> simp [h, Option.guard]
  · congr 1
    funext r
    unfold reference
    by_cases h : Fixup.inRange bytes.length r.offset r.expr.size <;> simp [h]

theorem instruction_eq (g : Segment) (i : Instruction) :
    g.instruction i =
      { g with
        bytes := g.bytes ++ (Statement.instruction i).image
        diverging := (Statement.instruction i).diverges g.diverging
        fixups := g.fixups ++ (Statement.instruction i).openFields g.bytes.length
        faults := g.faults ++ (Statement.instruction i).faults g.label } := by
  have ho := toOption_assemble g.label i
  unfold instruction
  split
  · rename_i d hd
    rw [hd] at ho
    simp only [Statement.image, Statement.diverges, Statement.openFields, Statement.faults, ← ho,
      hd, fault]
    simp [Except.toOption]
  · rename_i e he
    rw [he] at ho
    simp only [Statement.image, Statement.diverges, Statement.openFields, Statement.faults, ← ho,
      he]
    simp [Except.toOption]

end Segment

namespace Assembly

/-- While a section goes on, the machine holds its segment. -/
theorem segment_handle {a : Assembly} {s : Section} (hseg : a.segment = s.segment)
    (hlabels : a.labels = s.exit) {st : Statement} (htop : st.isTop = false)
    (hfatal : st.isFatal = false) : (a.handle st).segment = (s.add st).segment := by
  -- What a statement leaves alone is written as an addition of nothing.
  have hinert : ∀ g : Segment, g =
      { g with
        bytes := g.bytes ++ [], offsets := [] ++ g.offsets, fixups := g.fixups ++ []
        faults := g.faults ++ [] } := by
    intro g
    simp
  have hmark : ∀ (g : Segment) (id : Ident), g.mark id =
      { g with
        bytes := g.bytes ++ [], offsets := [(id, g.bytes.length)] ++ g.offsets
        fixups := g.fixups ++ [], faults := g.faults ++ [] } := by
    intro g id
    simp [Segment.mark]
  have hfault : ∀ (g : Segment) (d : Diagnostic), g.fault d =
      { g with
        bytes := g.bytes ++ [], offsets := [] ++ g.offsets, fixups := g.fixups ++ []
        faults := g.faults ++ [d] } := by
    intro g d
    simp [Segment.fault]
  rw [s.segment_add st, ← hlabels]
  cases st with
  | topLabel => cases htop
  | define name value pos => exact hseg.trans (hinert s.segment)
  | unreadable cause fatal pos =>
    cases fatal with
    | true => cases hfatal
    | false => exact hseg.trans (hinert s.segment)
  | backwardLabel count =>
    simp only [handle, define, hseg]
    exact hmark s.segment _
  | forwardLabel count =>
    simp only [handle, define, entered, hseg]
    exact hmark s.segment.entered _
  | localLabel depth name =>
    simp only [handle, define, entered, hseg]
    exact hmark s.segment.entered _
  | data bytes refs pos =>
    simp only [handle, hseg, Segment.data_eq]
    rfl
  | instruction i =>
    simp only [handle, hseg, Segment.instruction_eq]
    rfl
  | unknown =>
    simp only [handle, unknown, hseg]
    exact hfault s.segment _

theorem queue_handle_early {a : Assembly} {s : Section} (hseg : a.segment = s.segment)
    (hqueue : a.queue = s.early) {st : Statement} (htop : st.isTop = false)
    (hfatal : st.isFatal = false) : (a.handle st).queue = (s.add st).early := by
  have hlabel : a.segment.label = s.label := congrArg Segment.label hseg
  rw [s.early_add st, ← hqueue, ← hlabel]
  cases st with
  | topLabel => cases htop
  | unreadable cause fatal pos =>
    cases fatal with
    | true => cases hfatal
    | false => rfl
  | define name value pos => rfl
  | _ => exact (List.append_nil _).symm

/-- Whether the machine has taken in the body of an open section and handed nothing out for it. -/
structure Holds (a : Assembly) (s : Section) : Prop where
  running : ¬a.done
  segment : a.segment = s.segment
  labels : a.labels = s.exit
  queue : a.queue = s.early

namespace Holds
variable {a : Assembly} {s : Section}

theorem add (h : a.Holds s) {st : Statement} (htop : st.isTop = false)
    (hfatal : st.isFatal = false) : (a.handle st).Holds (s.add st) := by
  have hrunning : ¬(a.handle st).done := by
    rw [done_handle, htop, hfatal]
    simpa using h.running
  refine ⟨hrunning, segment_handle h.segment h.labels htop hfatal, ?_,
    queue_handle_early h.segment h.queue htop hfatal⟩
  rw [labels_handle hrunning, h.labels, s.exit_add]

theorem close_eq (h : a.Holds s) (hs : s.crashes = false) : a.segment.close = some s.verdict := by
  rw [h.segment]
  exact Section.close_segment hs

theorem close_eq_none (h : a.Holds s) (hs : s.crashes) : a.segment.close = none := by
  rw [h.segment]
  exact (Segment.close_eq_none_iff _).2 hs

theorem ending_add (h : a.Holds s) {st : Statement} (htop : st.isTop = false)
    (hfatal : st.isFatal = false) (sts : List Statement) :
    a.ending (st :: sts) = (a.handle st).ending sts := by
  rw [ending, if_neg (h.add htop hfatal).running]

/-- A top-level label closes the section and opens the next one. -/
theorem ending_top (h : a.Holds s) (hs : s.crashes = false) (name : Text)
    (attributes : List Attribute) (pos : Position) :
    ∃ b : Assembly, b.Holds {labels := s.exit.enterScope, label := name, attributes} ∧
      ∀ sts, a.ending (.topLabel name attributes pos :: sts) =
        {b.ending sts with queue := s.outputs ++ (b.ending sts).queue} := by
  let b := a.handle (.topLabel name attributes pos)
  have hb : b = { a.emit s.verdict with
      segment := {label := name, attributes}, labels := a.labels.enterScope } :=
    close_of_some (h.close_eq hs) ..
  have hrunning : ¬b.done := by
    rw [hb]
    exact h.running
  have hqueue : b.queue = s.outputs := by
    rw [hb]
    exact congrArg (· ++ s.verdict) h.queue
  refine ⟨{b with queue := []}, ⟨hrunning, ?_, ?_, rfl⟩, fun sts => ?_⟩
  · rw [hb]
    rfl
  · rw [hb]
    exact congrArg Labels.enterScope h.labels
  · rw [ending, if_neg hrunning, ← hqueue]
    exact ending_withQueue {b with queue := []} b.queue sts

/-- The machine agrees with the sections if all of them can be closed. -/
theorem ending_eq (h : a.Holds s) (sts : List Statement)
    (hsound : ∀ t ∈ s.closed sts, t.crashes = false) :
    (a.ending sts).queue = s.total sts ∧ (a.ending sts).crashed = false := by
  induction sts generalizing a s with
  | nil =>
    have hclose := h.close_eq (hsound s (by rw [s.closed_nil]; exact List.mem_singleton_self s))
    rw [ending, finish, close_of_some hclose, s.total_nil]
    exact ⟨congrArg (· ++ s.verdict) h.queue, rfl⟩
  | cons st sts ih =>
    by_cases hfatal : st.isFatal
    · obtain ⟨cause, pos, rfl⟩ := Statement.exists_of_isFatal hfatal
      have hend : a.ending (.unreadable cause true pos :: sts) =
          a.handle (.unreadable cause true pos) := rfl
      have hqueue : (a.handle (.unreadable cause true pos)).queue =
          a.queue ++ (a.segment.faults.map .error ++ [a.unread cause pos]) := rfl
      refine ⟨?_, rfl⟩
      rw [hend, hqueue, unread, h.queue, h.segment, s.total_fatal, Section.abandoned,
        List.append_assoc]
      rfl
    rw [Bool.not_eq_true] at hfatal
    by_cases htop : st.isTop
    · obtain ⟨name, attributes, pos, rfl⟩ := Statement.exists_of_isTop htop
      rw [s.closed_top] at hsound
      obtain ⟨b, hb, hending⟩ := h.ending_top (hsound s List.mem_cons_self) name attributes pos
      obtain ⟨hqueue, hcrashed⟩ := ih hb fun t ht => hsound t (List.mem_cons_of_mem s ht)
      rw [hending, s.total_top, ← hqueue]
      exact ⟨rfl, hcrashed⟩
    · rw [Bool.not_eq_true] at htop
      rw [s.closed_add sts htop hfatal] at hsound
      rw [h.ending_add htop hfatal, s.total_add sts htop hfatal]
      exact ih (h.add htop hfatal) hsound

/-- The first section that cannot be closed ends the program. -/
theorem ending_of_crashes (h : a.Holds s) {sts : List Statement} {before after : List Section}
    {t : Section} (hclosed : s.closed sts = before ++ t :: after)
    (hbefore : ∀ u ∈ before, u.crashes = false) (ht : t.crashes) :
    (a.ending sts).queue = before.flatMap Section.outputs ++ t.early ∧
      (a.ending sts).crashed := by
  induction sts generalizing a s before with
  | nil =>
    have hfirst : before = [] ∧ t = s := by
      cases before with
      | nil => exact ⟨rfl, (List.cons.inj hclosed).1.symm⟩
      | cons u before => simp [s.closed_nil] at hclosed
    obtain ⟨rfl, rfl⟩ := hfirst
    rw [ending, finish, close_of_none (h.close_eq_none ht)]
    exact ⟨h.queue, rfl⟩
  | cons st sts ih =>
    by_cases hfatal : st.isFatal
    · obtain ⟨cause, pos, rfl⟩ := Statement.exists_of_isFatal hfatal
      rw [s.closed_fatal] at hclosed
      simp at hclosed
    rw [Bool.not_eq_true] at hfatal
    by_cases htop : st.isTop
    · obtain ⟨name, attributes, pos, rfl⟩ := Statement.exists_of_isTop htop
      rw [s.closed_top] at hclosed
      cases before with
      | nil =>
        obtain ⟨rfl, -⟩ := List.cons.inj hclosed
        have hhandle : a.handle (.topLabel name attributes pos) =
            {a with progress := .crashed} := close_of_none (h.close_eq_none ht) ..
        have hdone : (a.handle (.topLabel name attributes pos)).done := by
          rw [hhandle]
          rfl
        rw [ending, if_pos hdone, hhandle]
        exact ⟨h.queue, rfl⟩
      | cons u before =>
        obtain ⟨rfl, hrest⟩ := List.cons.inj hclosed
        obtain ⟨b, hb, hending⟩ := h.ending_top (hbefore s List.mem_cons_self) name attributes pos
        obtain ⟨hqueue, hcrashed⟩ := ih hb hrest fun u hu => hbefore u (List.mem_cons_of_mem s hu)
        rw [hending, List.flatMap_cons, List.append_assoc, ← hqueue]
        exact ⟨rfl, hcrashed⟩
    · rw [Bool.not_eq_true] at htop
      rw [s.closed_add sts htop hfatal] at hclosed
      rw [h.ending_add htop hfatal]
      exact ih (h.add htop hfatal) hclosed hbefore

end Holds

theorem holds_start (source : Source) (labels : Labels) (root : Text) :
    (start source labels root).Holds (Section.root labels root) :=
  ⟨Bool.false_ne_true, rfl, rfl, rfl⟩

end Assembly

/-- The outputs of a list of statements, section by section. -/
def sectionOutputs (labels : Labels) (root : Text) (sts : List Statement) : List Output :=
  (Section.root labels root).total sts

section Statements
variable (sts : List Statement) (labels : Labels) (root : Text)

/-- A run over a list of statements ends as the machine does that takes them in. -/
theorem run_statements :
    let a := Assembly.start (.statements sts) labels root
    a.run.1 = (a.ending sts).queue ∧ a.run.2.crashed = (a.ending sts).crashed := by
  intro a
  have hstart := Assembly.holds_start (.statements sts) labels root
  have hrun := Assembly.run_eq_ending hstart.running
  rwa [Assembly.ending_pulls hstart.running rfl] at hrun

theorem assemble_statements
    (h : ∀ s ∈ (Section.root labels root).closed sts, s.crashes = false) :
    assemble (.statements sts) labels root = sectionOutputs labels root sts :=
  (run_statements sts labels root).1.trans ((Assembly.holds_start _ labels root).ending_eq sts h).1

end Statements
end Assembler65816
