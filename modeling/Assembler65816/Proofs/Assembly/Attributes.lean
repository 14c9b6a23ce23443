import Assembler65816.Proofs.Assembly.Isolation
import Assembler65816.Proofs.Assembly.Reports
import Assembler65816.Proofs.Assembly.TwoPass
import Mathlib.Data.List.Basic

/-!
# Attributes

An attribute stands on a line of its own and belongs to the next top-level label, wherever that
comes. The marks of a text are its attribute lines and its top-level labels in order; between two
labels stand the attributes of the second. The main statement is that every chunk has the attributes
of its label and no others, so that no attribute line counts twice, and that the last bank among
them is the bank of the chunk.
-/
namespace Assembler65816

inductive Mark
  /-- An attribute and the number of its line. -/
  | decoration (line : Nat) (a : Attribute)
  | top (name : Text)

namespace Mark

def isTop : Mark → Bool
  | top _ => true
  | decoration .. => false

def top? : Mark → Option Text
  | top name => some name
  | decoration .. => none

def decoration? : Mark → Option (Nat × Attribute)
  | decoration line a => some (line, a)
  | top _ => none

end Mark

namespace Line

/-- The top-level labels that a text starts with, among other labels. -/
def tops (s : Text) : List Text :=
  match _h : LabelHead.read? s with
  | some (.top name, r) => name :: tops (Text.trim r)
  | some (_, r) => tops (Text.trim r)
  | none => []
termination_by s.length
decreasing_by
  all_goals
    have := LabelHead.read?_length _h
    have := Text.length_trim r
    omega

def marks (n : Nat) (line : Text) : List Mark :=
  match code line with
  | 64 :: s => (Attribute.read s).toOption.toList.map (.decoration n)
  | s => (tops s).map .top

theorem marks_of_attribute {line s : Text} (h : code line = 64 :: s) (n : Nat) :
    marks n line = (Attribute.read s).toOption.toList.map (.decoration n) := by
  rw [marks, h]
  rfl

theorem marks_of_code {line : Text} (h : ∀ s, code line ≠ 64 :: s) (n : Nat) :
    marks n line = (tops (code line)).map .top := by
  unfold marks
  split
  · rename_i s hs
    exact absurd hs (h s)
  · rfl

theorem tops_of_none {s : Text} (h : LabelHead.read? s = none) : tops s = [] := by
  rw [tops]
  split
  · rename_i h'
    cases h.symm.trans h'
  · rename_i h'
    cases h.symm.trans h'
  · rfl

def allMarks (n : Nat) (lines : List Text) : List Mark :=
  (lines.zipIdx n).flatMap fun p => marks p.2 p.1

theorem allMarks_cons (n : Nat) (line : Text) (lines : List Text) :
    allMarks n (line :: lines) = marks n line ++ allMarks (n + 1) lines := by
  rw [allMarks, List.zipIdx_cons, List.flatMap_cons]
  rfl

/-- A line holds at most one attribute. -/
theorem exists_decoration_marks (n : Nat) (line : Text) :
    ∃ a : Option Attribute, (marks n line).filterMap Mark.decoration? = a.toList.map (n, ·) := by
  by_cases hattribute : ∃ s, code line = 64 :: s
  · obtain ⟨s, hs⟩ := hattribute
    refine ⟨(Attribute.read s).toOption, ?_⟩
    rw [marks_of_attribute hs]
    cases (Attribute.read s).toOption <;> rfl
  · refine ⟨none, ?_⟩
    rw [marks_of_code (not_exists.1 hattribute), List.filterMap_map]
    exact List.filterMap_eq_nil_iff.2 fun name _ => rfl

/-- The numbers of attribute lines grow. -/
theorem pairwise_decorations (n : Nat) (lines : List Text) :
    ((allMarks n lines).filterMap Mark.decoration?).Pairwise (·.1 < ·.1) ∧
      ∀ d ∈ (allMarks n lines).filterMap Mark.decoration?, n ≤ d.1 := by
  induction lines generalizing n with
  | nil => exact ⟨List.Pairwise.nil, fun d hd => by cases hd⟩
  | cons line lines ih =>
    obtain ⟨a, ha⟩ := exists_decoration_marks n line
    obtain ⟨hpairwise, hle⟩ := ih (n + 1)
    have hfirst : ∀ d ∈ a.toList.map (n, ·), d.1 = n := by
      intro d hd
      obtain ⟨_, -, rfl⟩ := List.mem_map.1 hd
      rfl
    rw [allMarks_cons, List.filterMap_append, ha]
    refine ⟨List.pairwise_append.2 ⟨?_, hpairwise, fun d hd d' hd' => ?_⟩, fun d hd => ?_⟩
    · cases a with
      | none => exact List.Pairwise.nil
      | some a => exact List.pairwise_singleton _ _
    · have hlt := hle d' hd'
      rw [hfirst d hd]
      omega
    · rcases List.mem_append.1 hd with hd | hd
      · rw [hfirst d hd]
      · have hlt := hle d hd
        omega

end Line

/-- A top-level label and the attributes before it, with the numbers of their lines. -/
structure Heading where
  label : Text
  attributes : List (Nat × Attribute)

namespace Heading

def plain (h : Heading) : Text × List Attribute := (h.label, h.attributes.map Prod.snd)

/-- The top-level labels, each with the attributes since the one before. -/
def ofMarks (marks : List Mark) : List Heading :=
  List.zipWith mk (marks.filterMap Mark.top?)
    ((marks.splitOnP Mark.isTop).map (List.filterMap Mark.decoration?))

/-- The headings of marks before which some attributes are already waiting. -/
def waitingFor (waiting : List (Nat × Attribute)) : List Mark → List Heading
  | [] => []
  | .decoration n a :: marks => waitingFor (waiting ++ [(n, a)]) marks
  | .top name :: marks => ⟨name, waiting⟩ :: waitingFor [] marks

theorem waitingFor_eq (waiting : List (Nat × Attribute)) (marks : List Mark) :
    waitingFor waiting marks =
      List.zipWith mk (marks.filterMap Mark.top?)
        (((marks.splitOnP Mark.isTop).map (List.filterMap Mark.decoration?)).modifyHead
          (waiting ++ ·)) := by
  induction marks generalizing waiting with
  | nil => rfl
  | cons mark marks ih =>
    -- There is always a first piece, and a decoration is added to its front.
    obtain ⟨between, rest, hsplit⟩ := List.exists_cons_of_ne_nil
      (List.splitOnP_ne_nil Mark.isTop marks)
    rw [List.splitOnP_cons_eq_if_modifyHead]
    cases mark with
    | decoration n a =>
      have htops : (Mark.decoration n a :: marks).filterMap Mark.top? = marks.filterMap Mark.top? :=
        rfl
      rw [waitingFor, ih, hsplit, htops]
      simp [Mark.isTop, Mark.decoration?]
    | top name =>
      rw [waitingFor, ih, hsplit]
      simp [Mark.isTop, Mark.top?]

theorem waitingFor_nil (marks : List Mark) : waitingFor [] marks = ofMarks marks := by
  rw [waitingFor_eq, ofMarks]
  cases (marks.splitOnP Mark.isTop).map (List.filterMap Mark.decoration?) <;> rfl

/-- Every attribute goes to one heading, in order; those at the end are still waiting. -/
theorem attributes_waitingFor (waiting : List (Nat × Attribute)) (marks : List Mark) :
    (waitingFor waiting marks).flatMap attributes <+:
      waiting ++ marks.filterMap Mark.decoration? := by
  induction marks generalizing waiting with
  | nil => exact List.nil_prefix
  | cons mark marks ih =>
    cases mark with
    | decoration n a =>
      have h := ih (waiting ++ [(n, a)])
      rw [List.append_assoc] at h
      exact h
    | top name =>
      rw [waitingFor, List.flatMap_cons]
      exact (List.prefix_append_right_inj waiting).2 (ih [])

/-- No attribute line belongs to two labels. -/
theorem nodup_attributes (n : Nat) (lines : List Text) :
    ((ofMarks (Line.allMarks n lines)).flatMap attributes).Nodup := by
  have hprefix := attributes_waitingFor [] (Line.allMarks n lines)
  rw [waitingFor_nil] at hprefix
  refine List.Nodup.sublist hprefix.sublist ?_
  refine (Line.pairwise_decorations n lines).1.imp fun hlt heq => ?_
  rw [heq] at hlt
  exact Nat.lt_irrefl _ hlt

end Heading

def Statement.heading? : Statement → Option (Text × List Attribute)
  | topLabel name attributes _ => some (name, attributes)
  | _ => none

def Line.Item.heading? : Line.Item → Option (Text × List Attribute)
  | ready st => st.heading?
  | written .. => none

/-- The labels of a line take the attributes that wait. -/
theorem Line.headings_labelled (pos : Position) (waiting : List (Nat × Attribute)) (s : Text) :
    ∃ waiting', (labelled pos (waiting.map Prod.snd) s).2 = waiting'.map Prod.snd ∧
      ∀ marks, (Heading.waitingFor waiting ((tops s).map .top ++ marks)).map Heading.plain =
        (labelled pos (waiting.map Prod.snd) s).1.filterMap Item.heading? ++
          (Heading.waitingFor waiting' marks).map Heading.plain := by
  fun_induction tops s generalizing waiting with
  | case1 s name r h ih =>
    obtain ⟨waiting', hwaiting, hmarks⟩ := ih []
    rw [labelled_of_some h]
    refine ⟨waiting', hwaiting, fun marks => ?_⟩
    rw [List.map_cons, List.cons_append, Heading.waitingFor, List.map_cons, hmarks]
    rfl
  | case2 s head r hne h ih =>
    obtain ⟨waiting', hwaiting, hmarks⟩ := ih waiting
    have hsame : head.waiting (waiting.map Prod.snd) = waiting.map Prod.snd := by
      cases head with
      | top name => exact absurd rfl (hne name)
      | _ => rfl
    have hnone : (Item.ready (head.statement (waiting.map Prod.snd) pos)).heading? = none := by
      cases head with
      | top name => exact absurd rfl (hne name)
      | nested depth name => rfl
      | anonymous direction count => cases direction <;> rfl
    rw [labelled_of_some h, hsame]
    refine ⟨waiting', hwaiting, fun marks => (hmarks marks).trans ?_⟩
    rw [Prod.map_fst, List.filterMap_cons_none hnone]
  | case3 s h =>
    rw [labelled_of_none h]
    refine ⟨waiting, rfl, fun marks => ?_⟩
    simp only
    split <;> rfl

/-- A line hands out the headings that its marks make. -/
theorem Reader.headings_handed (file : Text) (n : Nat) (waiting : List (Nat × Attribute))
    (line : Text) :
    ∃ waiting', (handed ⟨file, n⟩ (waiting.map Prod.snd) line).2 = waiting'.map Prod.snd ∧
      ∀ marks, (Heading.waitingFor waiting (Line.marks n line ++ marks)).map Heading.plain =
        (handed ⟨file, n⟩ (waiting.map Prod.snd) line).1.filterMap Line.Item.heading? ++
          (Heading.waitingFor waiting' marks).map Heading.plain := by
  by_cases hattribute : ∃ s, Line.code line = 64 :: s
  · obtain ⟨s, hcode⟩ := hattribute
    rw [handed, Line.marks_of_attribute hcode, Line.items_of_attribute _ _ _ hcode]
    cases hread : Attribute.read s with
    | error e => exact ⟨waiting, rfl, fun marks => rfl⟩
    | ok a =>
      refine ⟨waiting ++ [(n, a)], ?_, fun marks => rfl⟩
      rw [List.map_append]
      rfl
  rw [not_exists] at hattribute
  rw [Line.marks_of_code hattribute]
  by_cases hlabels : Line.code line = [] ∨ (LabelHead.read? (Line.code line)).isSome
  · rw [handed, Line.items_of_labels _ _ _ hlabels]
    exact Line.headings_labelled _ waiting _
  · -- A define or a statement without labels: one item, and everything goes on waiting.
    rw [not_or, Bool.not_eq_true, Option.isSome_eq_false_iff, Option.isNone_iff_eq_none] at hlabels
    obtain ⟨c, s, hcode⟩ := List.exists_cons_of_ne_nil hlabels.1
    have hitems : Line.items ⟨file, n⟩ (waiting.map Prod.snd) line =
        .ok ([.written (Line.code line) ⟨file, n⟩], waiting.map Prod.snd) := by
      rw [Line.items_of_code _ _ _ hcode fun hc => hattribute s (hc ▸ hcode),
        Line.labelled_of_none hlabels.2]
      simp [hcode]
    rw [handed, hitems, Line.tops_of_none hlabels.2]
    exact ⟨waiting, rfl, fun marks => rfl⟩

/-- The headings that lines hand out are those of their marks. -/
theorem Reader.headings_itemsFrom (file : Text) (n : Nat) (waiting : List (Nat × Attribute))
    (lines : List Text) :
    (itemsFrom file none n (waiting.map Prod.snd) lines).filterMap Line.Item.heading? =
      (Heading.waitingFor waiting (Line.allMarks (n + 1) lines)).map Heading.plain := by
  induction lines generalizing n waiting with
  | nil => rfl
  | cons line lines ih =>
    obtain ⟨waiting', hwaiting, hmarks⟩ := headings_handed file (n + 1) waiting line
    rw [itemsFrom_cons, List.filterMap_append, hwaiting, ih, Line.allMarks_cons, hmarks]

theorem Line.Item.heading?_statement {item : Item} (h : item.Lawful) (labels : Labels) :
    (item.statement labels).heading? = item.heading? := by
  cases item with
  | ready st => rfl
  | written s pos =>
    have htop := isTop_statement h labels
    cases hst : (written s pos).statement labels with
    | topLabel name attributes pos' =>
      rw [hst] at htop
      cases htop
    | _ => rfl

theorem headings_statements {items : List Line.Item} (hitems : ∀ item ∈ items, item.Lawful)
    (hfatal : ∀ item ∈ items, ∀ l, (item.statement l).isFatal = false) (labels : Labels) :
    (statements labels items).filterMap Statement.heading? =
      items.filterMap Line.Item.heading? := by
  induction items generalizing labels with
  | nil => rfl
  | cons item items ih =>
    have hrest := ih (fun it hit => hitems it (List.mem_cons_of_mem _ hit))
      (fun it hit => hfatal it (List.mem_cons_of_mem _ hit))
    rw [statements_cons (hfatal item List.mem_cons_self labels), List.filterMap_cons,
      List.filterMap_cons, hrest, Line.Item.heading?_statement (hitems item List.mem_cons_self)]

namespace Section

def heading (s : Section) : Text × List Attribute := (s.label, s.attributes)

theorem heading_sections (s : Section) (sts : List Statement) :
    (s.sections sts).map heading = s.heading :: sts.filterMap Statement.heading? := by
  induction sts generalizing s with
  | nil => rfl
  | cons st sts ih =>
    by_cases htop : st.isTop
    · obtain ⟨name, attributes, pos, rfl⟩ := Statement.exists_of_isTop htop
      exact congrArg (s.heading :: ·) (ih {labels := s.exit.enterScope, label := name, attributes})
    · rw [Bool.not_eq_true] at htop
      have hnone : st.heading? = none := by
        cases st with
        | topLabel name attributes pos => cases htop
        | _ => rfl
      rw [sections, s.cut_add htop, List.filterMap_cons_none hnone]
      exact ih (s.add st)

def chunk? (s : Section) : Option (Text × Chunk) :=
  if s.faults = [] ∧ s.fixupFaults = [] then some (s.label, s.segment.chunk) else none

theorem chunks_of_notMem {outs : List Output} (h : ∀ label c, .chunk label c ∉ outs) :
    outs.filterMap Output.chunk? = [] := by
  refine List.filterMap_eq_nil_iff.2 fun out hout => ?_
  cases out with
  | chunk label c => exact absurd hout (h label c)
  | _ => rfl

theorem chunks_outputs (s : Section) :
    s.outputs.filterMap Output.chunk? = s.chunk?.toList := by
  rw [outputs, List.filterMap_append, chunks_of_notMem (s.chunk_notMem_early), verdict, chunk?]
  split
  · rfl
  · rw [List.nil_append]
    refine chunks_of_notMem fun label c h => ?_
    simp at h

/-- The chunks are those of the closed sections, in order. -/
theorem chunks_total (s : Section) (sts : List Statement) :
    (s.total sts).filterMap Output.chunk? = (s.closed sts).filterMap chunk? := by
  have habandoned : ((s.abandoned? sts).toList.flatMap fun p =>
      p.1.abandoned p.2.1 p.2.2).filterMap Output.chunk? = [] := by
    refine chunks_of_notMem fun label c h => ?_
    obtain ⟨p, -, hp⟩ := List.mem_flatMap.1 h
    exact p.1.chunk_notMem_abandoned label c _ _ hp
  rw [total_eq_closed, List.filterMap_append, habandoned, List.append_nil, List.filterMap_flatMap]
  simp only [chunks_outputs]
  exact (List.filterMap_eq_flatMap_toList _ _).symm

end Section

def Attribute.bank? : Attribute → Option UInt8
  | bank n => some n
  | named .. => none

theorem Attribute.filterMap_bank?_eq_nil_iff {attributes : List Attribute} :
    attributes.filterMap bank? = [] ↔ ∀ n, .bank n ∉ attributes := by
  rw [List.filterMap_eq_nil_iff]
  constructor
  · intro h n hn
    cases h _ hn
  · intro h a ha
    cases a with
    | bank n => exact absurd ha (h n)
    | named name value => rfl

namespace Segment

theorem bank?_eq (attributes : List Attribute) :
    bank? attributes = (attributes.filterMap Attribute.bank?).getLast? := by
  rfl

/-- The bank is that of the last bank attribute. -/
theorem bank?_eq_some_iff {attributes : List Attribute} {n : UInt8} :
    bank? attributes = some n ↔
      ∃ before after, attributes = before ++ .bank n :: after ∧ ∀ m, .bank m ∉ after := by
  rw [bank?_eq, List.getLast?_eq_some_iff]
  constructor
  · rintro ⟨banks, hbanks⟩
    obtain ⟨before, rest, rfl, -, hrest⟩ := List.filterMap_eq_append_iff.1 hbanks
    obtain ⟨between, a, after, rfl, -, ha, hafter⟩ := List.filterMap_eq_cons_iff.1 hrest
    have hbank : a = .bank n := by
      cases a with
      | bank m =>
        cases ha
        rfl
      | named name value => cases ha
    subst hbank
    refine ⟨before ++ between, after, ?_, Attribute.filterMap_bank?_eq_nil_iff.1 hafter⟩
    rw [List.append_assoc]
  · rintro ⟨before, after, rfl, hafter⟩
    have hbank : Attribute.bank? (.bank n) = some n := rfl
    refine ⟨before.filterMap Attribute.bank?, ?_⟩
    rw [List.filterMap_append, List.filterMap_cons_some hbank,
      Attribute.filterMap_bank?_eq_nil_iff.2 hafter]

theorem bank?_eq_none_iff {attributes : List Attribute} :
    bank? attributes = none ↔ ∀ n, .bank n ∉ attributes := by
  rw [bank?_eq, List.getLast?_eq_none_iff, Attribute.filterMap_bank?_eq_nil_iff]

end Segment

theorem isFatal_of_mem_statements {file : Text} {lines : List Text} {st : Statement}
    (h : st ∈ statements {} (Reader.itemsFrom file none 0 [] lines)) : st.isFatal = false :=
  forall_mem_statements (P := (·.isFatal = false)) (Reader.isFatal_of_mem_itemsFrom file 0 [] lines)
    st h

/-- Before a failure the statements are those of the lines that could be read. -/
theorem takeWhile_statements (file : Text) (failure : Option Text) (lines : List Text) :
    (statements {} (Reader.itemsFrom file failure 0 [] lines)).takeWhile (!·.isFatal) =
      statements {} (Reader.itemsFrom file none 0 [] lines) := by
  have hfatal := Reader.isFatal_of_mem_itemsFrom file 0 [] lines
  have hitems := Reader.itemsFrom_append file failure 0 [] lines []
  rw [List.append_nil] at hitems
  rw [hitems, statements_append hfatal, List.takeWhile_append_of_pos fun st hst => ?_]
  · cases failure with
    | none => exact List.append_nil _
    | some reason => exact List.append_nil _
  · rw [isFatal_of_mem_statements hst]
    rfl

/-- Attributes go to the chunks that they decorate. The chunks of a text are those of its closed
sections. These have, in order, the label and the attributes of the root, which has none, and of the
headings of the text, all of them unless the source could not be read to its end. A chunk has the
attributes of its section, and its bank is that of the last bank attribute among them. No attribute
line belongs to two headings. -/
theorem chunk_attributes_of_headings (file source root : Text) (failure : Option Text) :
    let reader := Reader.ofText file source failure
    let sts := (Assembly.start (.text reader) {} root).pulls.map Pull.statement
    let start := Section.root {} root
    let headings := Heading.ofMarks (Line.allMarks 1 reader.lines)
    (assemble (.text reader) {} root).filterMap Output.chunk? =
        (start.closed sts).filterMap Section.chunk? ∧
      (start.closed sts).map Section.heading <+: (start.label, []) :: headings.map Heading.plain ∧
      (reader.failure = none →
        (start.closed sts).map Section.heading =
          (start.label, []) :: headings.map Heading.plain) ∧
      (∀ s ∈ start.closed sts, ∀ label c, s.chunk? = some (label, c) →
        (label, c.attributes) = s.heading ∧
        (∀ n, c.bank = some n ↔ ∃ before after,
          c.attributes = before ++ .bank n :: after ∧ ∀ m, .bank m ∉ after) ∧
        (c.bank = none ↔ ∀ n, .bank n ∉ c.attributes)) ∧
      (headings.flatMap Heading.attributes).Nodup := by
  intro reader sts start headings
  have hlawful := Reader.lawful_items_ofText file source failure
  have hsts : sts = statements {} reader.items := reader.statements_start hlawful {} root
  have htake : sts.takeWhile (!·.isFatal) =
      statements {} (Reader.itemsFrom file none 0 [] reader.lines) := by
    rw [hsts]
    exact takeWhile_statements file reader.failure reader.lines
  have hheadings : (start.sections (sts.takeWhile (!·.isFatal))).map Section.heading =
      (start.label, []) :: headings.map Heading.plain := by
    have hlines := Reader.headings_itemsFrom file 0 [] reader.lines
    rw [Heading.waitingFor_nil] at hlines
    rw [Section.heading_sections, htake,
      headings_statements (Reader.lawful_itemsFrom _ _ _ _ _)
        (Reader.isFatal_of_mem_itemsFrom file 0 [] reader.lines)]
    exact congrArg _ hlines
  refine ⟨?_, ?_, fun hfailure => ?_, fun s hs label c hchunk => ?_, ?_⟩
  · rw [assemble, run_start hlawful]
    exact Section.chunks_total start sts
  · rw [← hheadings]
    exact (start.closed_prefix_sections sts).map Section.heading
  · have hitems : reader.items = Reader.itemsFrom file none 0 [] reader.lines := by
      rw [Reader.items, hfailure]
      rfl
    have hfatal : sts.any Statement.isFatal = false := by
      refine List.any_eq_false.2 fun st hst => ?_
      rw [hsts, hitems] at hst
      rw [isFatal_of_mem_statements hst]
      exact Bool.false_ne_true
    rw [start.closed_eq_sections hfatal, hheadings]
  · unfold Section.chunk? at hchunk
    split at hchunk
    · cases hchunk
      exact ⟨rfl, fun n => Segment.bank?_eq_some_iff, Segment.bank?_eq_none_iff⟩
    · cases hchunk
  · exact Heading.nodup_attributes 1 reader.lines

/-- The second label of a line gets no attributes, and neither a bad attribute nor other labels come
between an attribute and its label. -/
example :
    let source := ascii "@bank 1\n@x y\na: b:\n@bank\n@bank 2\n.l: nop\n@bank 3\nc:\n@z\n"
    let chunks := (assemble (.text (Reader.ofText [] source none)) {} []).filterMap Output.chunk?
    chunks.map (fun p => (p.1, p.2.attributes, p.2.bank)) =
      [(Assembly.rootLabel, [], none),
        (ascii "a", [.bank 1, .named (ascii "x") (ascii "y")], some 1),
        (ascii "b", [], none),
        (ascii "c", [.bank 2, .bank 3], some 3)] := by
  decide +kernel

end Assembler65816
