import Assembler65816.Proofs.Assembly.Kinds
import Assembler65816.Proofs.Source.Erasure
import Assembler65816.Proofs.Source.Lines

/-!
# A line that cannot be read

A place that cannot be read is reported and does nothing else: it leaves the labels, the waiting
attributes and the open section as they are. So a text with such places assembles to the same as
the text in which they are erased, but for the reports.

The argument has two halves. On the side of the text, erasing the clause of a line takes away one
item, and the labels on the line stay. On the side of the assembly, a section is the same with and
without the places that cannot be read, except for what it hands out early.
-/
namespace Assembler65816

namespace Statement

/-- The line of a place that could not be read, unless the source ends there. -/
def faultyLine? : Statement → Option Int
  | unreadable _ false pos => some pos.line
  | _ => none

theorem exists_of_faultyLine? {st : Statement} {line : Int} (h : st.faultyLine? = some line) :
    ∃ cause pos, st = .unreadable cause false pos ∧ pos.line = line := by
  cases st with
  | unreadable cause fatal pos =>
    cases fatal with
    | true => cases h
    | false => exact ⟨cause, pos, rfl, Option.some.inj h⟩
  | _ => cases h

theorem isUnreadable_eq {st : Statement} (h : st.isFatal = false) :
    st.isUnreadable = st.faultyLine?.isSome := by
  cases st with
  | unreadable cause fatal pos =>
    cases fatal with
    | true => cases h
    | false => rfl
  | _ => rfl

end Statement

def faults (sts : List Statement) : List Int := sts.filterMap Statement.faultyLine?

/-- The lines of a text on which something cannot be read. -/
def faultyLines (file source : Text) (labels : Labels) (root : Text) : List Int :=
  faults ((Assembly.start (.text (Reader.ofText file source none)) labels root).pulls.map
    Pull.statement)

/-- Erases the clauses on the given lines; `n` lines stand before. -/
def eraseFrom (faulty : List Int) : (n : Nat) → List Text → List Text
  | _, [] => []
  | n, line :: lines =>
    (if ((n + 1 : Nat) : Int) ∈ faulty then Line.erase line else line) ::
      eraseFrom faulty (n + 1) lines

def eraseLines (faulty : List Int) (source : Text) : Text :=
  List.intercalate [10] (eraseFrom faulty 0 (source.splitOn 10))

theorem forall_mem_eraseFrom {P : Text → Prop} (herase : ∀ line, P line → P (Line.erase line))
    (faulty : List Int) (n : Nat) {lines : List Text} (h : ∀ line ∈ lines, P line) :
    ∀ line ∈ eraseFrom faulty n lines, P line := by
  induction lines generalizing n with
  | nil => exact fun line hline => nomatch hline
  | cons line lines ih =>
    have hline := h line List.mem_cons_self
    intro l hl
    rcases List.mem_cons.1 hl with rfl | hl
    · split
      · exact herase line hline
      · exact hline
    · exact ih (n + 1) (fun k hk => h k (List.mem_cons_of_mem _ hk)) l hl

theorem splitOn_eraseLines (faulty : List Int) (source : Text) :
    (eraseLines faulty source).splitOn 10 = eraseFrom faulty 0 (source.splitOn 10) := by
  refine List.splitOn_intercalate 10 ?_ ?_
  · exact forall_mem_eraseFrom (P := (10 ∉ ·)) (fun _ h hmem => h (Line.mem_of_mem_erase hmem)) _ _
      fun _ => notMem_of_mem_splitOn
  · obtain ⟨first, others, hs⟩ := List.exists_cons_of_ne_nil (List.splitOn_ne_nil 10 source)
    rw [hs]
    exact List.cons_ne_nil _ _

theorem failure_eraseLines (faulty : List Int) {source : Text}
    (h : (Lines.ofText none source).failure = none) :
    (Lines.ofText none (eraseLines faulty source)).failure = none := by
  rw [Lines.failure_eq_none_iff] at h ⊢
  rw [splitOn_eraseLines]
  exact forall_mem_eraseFrom (fun line hline => Nat.lt_of_le_of_lt (Line.length_erase line) hline)
    _ _ h

namespace Line.Item

/-- The line of an item at which reading can fail. -/
def line? : Item → Option Int
  | written _ pos => some pos.line
  | ready st => st.faultyLine?

theorem line?_of_faultyLine? {item : Item} {l : Labels} {line : Int}
    (h : (item.statement l).faultyLine? = some line) : item.line? = some line := by
  cases item with
  | ready st => exact h
  | written s pos =>
    obtain ⟨cause, pos', hst, hline⟩ := Statement.exists_of_faultyLine? h
    unfold statement at hst
    simp only at hst
    split at hst
    · rename_i st hread
      have := isUnreadable_of_read hread
      rw [hst] at this
      cases this
    · cases hst
      exact congrArg some hline

theorem isFatal_written (s : Text) (pos : Position) (l : Labels) :
    ((written s pos).statement l).isFatal = false := by
  unfold statement
  simp only
  split
  · rename_i st hread
    have := isUnreadable_of_read hread
    cases st with
    | unreadable => cases this
    | _ => rfl
  · rfl

end Line.Item

/-- Labels can always be read. -/
theorem line?_of_labels {pos : Position} {items : List Line.Item}
    (h : ∀ item ∈ items, ∃ (head : LabelHead) (waiting : List Attribute),
      item = .ready (head.statement waiting pos)) :
    ∀ item ∈ items, item.line? = none ∧ ∀ l, (item.statement l).isFatal = false := by
  intro item hitem
  obtain ⟨head, waiting, rfl⟩ := h item hitem
  cases head with
  | anonymous direction count => cases direction <;> exact ⟨rfl, fun _ => rfl⟩
  | _ => exact ⟨rfl, fun _ => rfl⟩

/-- Reading fails where an item says. -/
theorem exists_item_of_mem_faults {labels : Labels} {items : List Line.Item} {line : Int}
    (h : line ∈ faults (statements labels items)) : ∃ item ∈ items, item.line? = some line := by
  obtain ⟨st, hst, hline⟩ := List.mem_filterMap.1 h
  obtain ⟨item, hitem, l, rfl⟩ := exists_item_of_mem_statements hst
  exact ⟨item, hitem, Line.Item.line?_of_faultyLine? hline⟩

theorem filter_of_faults {sts : List Statement} (hfatal : ∀ st ∈ sts, st.isFatal = false)
    (h : faults sts = []) : sts.filter (!·.isUnreadable) = sts := by
  refine List.filter_eq_self.2 fun st hst => ?_
  rw [Statement.isUnreadable_eq (hfatal st hst), List.filterMap_eq_nil_iff.1 h st hst]
  rfl

theorem foldl_after_filter (sts : List Statement) (labels : Labels) :
    (sts.filter (!·.isUnreadable)).foldl Labels.after labels = sts.foldl Labels.after labels := by
  induction sts generalizing labels with
  | nil => rfl
  | cons st sts ih =>
    cases st with
    | unreadable cause fatal pos => exact ih labels
    | _ => exact ih _

namespace Reader

section
variable (pos : Position) (attributes : List Attribute) (line : Text)

/-- Whatever is wrong in a line is wrong at that line and does not end the source. -/
theorem line?_of_mem_handed :
    ∀ item ∈ (handed pos attributes line).1,
      (∀ k, item.line? = some k → k = pos.line) ∧ ∀ l, (item.statement l).isFatal = false := by
  intro item hitem
  cases Line.erased pos attributes line with
  | malformed e hitems =>
    simp only [handed, hitems] at hitem
    cases List.mem_singleton.1 hitem
    exact ⟨fun k hk => (Option.some.inj hk).symm, fun _ => rfl⟩
  | labels labels waiting hitems hlabels =>
    simp only [handed, hitems] at hitem
    obtain ⟨hline, hfatal⟩ := line?_of_labels hlabels item hitem
    exact ⟨fun k hk => (by cases hline.symm.trans hk), hfatal⟩
  | statement labels s waiting hitems _ hlabels =>
    simp only [handed, hitems] at hitem
    rcases List.mem_append.1 hitem with hitem | hitem
    · obtain ⟨hline, hfatal⟩ := line?_of_labels hlabels item hitem
      exact ⟨fun k hk => (by cases hline.symm.trans hk), hfatal⟩
    · cases List.mem_singleton.1 hitem
      exact ⟨fun k hk => (Option.some.inj hk).symm, Line.Item.isFatal_written s pos⟩

/-- Without its clause, a line in which something cannot be read hands out the rest. -/
theorem handed_erase {labels : Labels}
    (h : faults (statements labels (handed pos attributes line).1) ≠ []) :
    (handed pos attributes (Line.erase line)).2 = (handed pos attributes line).2 ∧
      statements labels (handed pos attributes (Line.erase line)).1 =
        (statements labels (handed pos attributes line).1).filter (!·.isUnreadable) := by
  have hready {items : List Line.Item} (hlabels : ∀ item ∈ items, ∃ (head : LabelHead)
      (waiting : List Attribute), item = .ready (head.statement waiting pos)) :
      faults (statements labels items) = [] := by
    refine List.eq_nil_iff_forall_not_mem.2 fun k hk => ?_
    obtain ⟨item, hitem, hline⟩ := exists_item_of_mem_faults hk
    cases (line?_of_labels hlabels item hitem).1.symm.trans hline
  cases Line.erased pos attributes line with
  | malformed e hitems herase =>
    simp only [handed, hitems, herase]
    exact ⟨trivial, rfl⟩
  | labels ready waiting hitems hlabels =>
    simp only [handed, hitems] at h
    exact absurd (hready hlabels) h
  | statement ready s waiting hitems herase hlabels =>
    have hfatal := fun item hitem => (line?_of_labels hlabels item hitem).2
    simp only [handed, hitems, herase] at h ⊢
    rw [statements_append hfatal] at h ⊢
    refine ⟨trivial, ?_⟩
    rw [List.filter_append, filter_of_faults (forall_mem_statements hfatal) (hready hlabels)]
    -- The labels can be read, so it is the statement that cannot.
    rw [faults, List.filterMap_append, ← faults, hready hlabels, List.nil_append] at h
    generalize (statements labels ready).foldl Labels.after labels = l at h ⊢
    rw [statements_cons (Line.Item.isFatal_written s pos l)] at h ⊢
    cases hline : ((Line.Item.written s pos).statement l).faultyLine? with
    | none => exact absurd (by simp [hline, statements, reads]) h
    | some k =>
      have hunreadable := Statement.isUnreadable_eq (Line.Item.isFatal_written s pos l)
      simp [hunreadable, hline, statements, reads]

end

/-- No item of the lines to come stands on a line that was read before. -/
theorem lt_line_of_mem_itemsFrom (file : Text) (n : Nat) (attributes : List Attribute)
    (lines : List Text) :
    ∀ item ∈ itemsFrom file none n attributes lines, ∀ k, item.line? = some k →
      (n : Int) < k := by
  induction lines generalizing n attributes with
  | nil => exact fun item hitem => nomatch hitem
  | cons line lines ih =>
    intro item hitem k hk
    rw [itemsFrom_cons] at hitem
    rcases List.mem_append.1 hitem with hitem | hitem
    · have := (line?_of_mem_handed _ _ _ item hitem).1 k hk
      simp only at this
      omega
    · have := ih (n + 1) _ item hitem k hk
      omega

theorem isFatal_of_mem_itemsFrom (file : Text) (n : Nat) (attributes : List Attribute)
    (lines : List Text) :
    ∀ item ∈ itemsFrom file none n attributes lines, ∀ l, (item.statement l).isFatal = false := by
  induction lines generalizing n attributes with
  | nil => exact fun item hitem => nomatch hitem
  | cons line lines ih =>
    intro item hitem
    rw [itemsFrom_cons] at hitem
    rcases List.mem_append.1 hitem with hitem | hitem
    · exact (line?_of_mem_handed _ _ _ item hitem).2
    · exact ih (n + 1) _ item hitem

end Reader

/-- Which of the faulty lines is the next one, and which are to come. -/
theorem mem_faulty_iff {faulty here later : List Int} {n : Int}
    (h : ∀ k, n < k → (k ∈ faulty ↔ k ∈ here ++ later)) (hhere : ∀ k ∈ here, k = n + 1)
    (hlater : ∀ k ∈ later, n + 1 < k) :
    (n + 1 ∈ faulty ↔ here ≠ []) ∧ ∀ k, n + 1 < k → (k ∈ faulty ↔ k ∈ later) := by
  constructor
  · rw [h (n + 1) (by omega), List.mem_append]
    constructor
    · rintro (hk | hk) rfl
      · cases hk
      · exact Int.lt_irrefl _ (hlater _ hk)
    · intro hne
      obtain ⟨k, rest, rfl⟩ := List.exists_cons_of_ne_nil hne
      rw [hhere k List.mem_cons_self]
      exact .inl List.mem_cons_self
  · intro k hk
    rw [h k (by omega), List.mem_append]
    refine or_iff_right fun hmem => ?_
    have := hhere k hmem
    omega

/-- Erasing the faulty lines takes away the places that cannot be read. -/
theorem statements_eraseFrom (file : Text) (faulty : List Int) (lines : List Text) (n : Nat)
    (attributes : List Attribute) (labels : Labels)
    (h : ∀ k : Int, n < k → (k ∈ faulty ↔
      k ∈ faults (statements labels (Reader.itemsFrom file none n attributes lines)))) :
    statements labels (Reader.itemsFrom file none n attributes (eraseFrom faulty n lines)) =
      (statements labels (Reader.itemsFrom file none n attributes lines)).filter
        (!·.isUnreadable) := by
  induction lines generalizing n attributes labels with
  | nil => rfl
  | cons line lines ih =>
    let pos : Position := ⟨file, (n + 1 : Nat)⟩
    have hfatal (line : Text) : ∀ item ∈ (Reader.handed pos attributes line).1, ∀ l,
        (item.statement l).isFatal = false :=
      fun item hitem => (Reader.line?_of_mem_handed pos attributes line item hitem).2
    rw [Reader.itemsFrom_cons, statements_append (hfatal line)] at h ⊢
    generalize hfront : statements labels (Reader.handed pos attributes line).1 = front at h ⊢
    rw [faults, List.filterMap_append] at h
    obtain ⟨hhere, hrest⟩ := mem_faulty_iff h
      (fun k hk => by
        rw [← hfront] at hk
        obtain ⟨item, hitem, hline⟩ := exists_item_of_mem_faults hk
        exact (Reader.line?_of_mem_handed pos attributes line item hitem).1 k hline)
      (fun k hk => by
        obtain ⟨item, hitem, hline⟩ := exists_item_of_mem_faults hk
        exact Reader.lt_line_of_mem_itemsFrom file (n + 1) _ lines item hitem k hline)
    have ih := ih (n + 1) _ _ hrest
    rw [eraseFrom, Reader.itemsFrom_cons, statements_append (hfatal _), List.filter_append]
    by_cases hfaulty : ((n + 1 : Nat) : Int) ∈ faulty
    · have hne : faults (statements labels (Reader.handed pos attributes line).1) ≠ [] := by
        rw [hfront]
        exact hhere.1 hfaulty
      obtain ⟨hwaiting, hitems⟩ := Reader.handed_erase pos attributes line hne
      rw [if_pos hfaulty, hwaiting, hitems, hfront, foldl_after_filter, ih]
    · have hnil : faults front = [] := Classical.not_not.1 fun hne => hfaulty (hhere.2 hne)
      have hread : ∀ st ∈ front, st.isFatal = false := by
        rw [← hfront]
        exact forall_mem_statements (hfatal line)
      rw [if_neg hfaulty, hfront, ih, filter_of_faults hread hnil]

def Output.isParseError : Output → Bool
  | error d => d.kind == .parse
  | _ => false

theorem Diagnostic.HasKind.kind_ne_parse {d : Diagnostic} {k : Category} (h : d.HasKind k)
    (hk : k ≠ .parse) : d.kind ≠ .parse := by
  intro hparse
  refine hk ((h.2 .parse (by decide)).1 ?_).symm
  rw [← hparse]
  exact List.mem_cons_self

theorem Statement.kind_of_mem_faults {label : Text} {st : Statement} {d : Diagnostic}
    (h : d ∈ st.faults label) : d.kind ≠ .parse := by
  cases st with
  | data bytes refs pos =>
    obtain ⟨r, -, hr⟩ := List.mem_filterMap.1 h
    split at hr
    · cases hr
    · rename_i hd
      cases hr
      exact (Segment.hasKind_of_reference hd).kind_ne_parse (by decide)
  | instruction i =>
    simp only [faults] at h
    split at h
    · cases h
    · rename_i hd
      cases List.mem_singleton.1 h
      rcases Segment.hasKind_of_assemble hd with ⟨hkind, -⟩ | ⟨hkind, -⟩
      · exact hkind.kind_ne_parse (by decide)
      · exact hkind.kind_ne_parse (by decide)
  | unknown =>
    cases List.mem_singleton.1 h
    simp
  | _ => cases h

namespace Section

/-- Closing a section reports nothing that could not be read. -/
theorem filter_verdict (s : Section) : s.verdict.filter (!·.isParseError) = s.verdict := by
  refine List.filter_eq_self.2 fun out hout => ?_
  have hkind : ∀ d : Diagnostic, d.kind ≠ .parse → (!(Output.error d).isParseError) = true := by
    intro d hd
    simpa [Output.isParseError] using hd
  unfold verdict at hout
  split at hout
  · cases List.mem_singleton.1 hout
    rfl
  · rcases List.mem_append.1 hout with hout | hout
    · obtain ⟨d, hd, rfl⟩ := List.mem_map.1 hout
      obtain ⟨st, -, hst⟩ := List.mem_flatMap.1 hd
      exact hkind d (Statement.kind_of_mem_faults hst)
    · obtain ⟨d, hd, rfl⟩ := List.mem_map.1 hout
      obtain ⟨resolution, hmem, hfailed⟩ := List.mem_filterMap.1 hd
      obtain ⟨f, -, rfl⟩ := List.mem_map.1 hmem
      cases hresolve : f.resolve s.label s.offsets s.bytes.length with
      | failed d' =>
        rw [hresolve] at hfailed
        cases hfailed
        rcases Fixup.hasKind_of_resolve hresolve with ⟨hd', -⟩ | ⟨hd', -⟩
        · exact hkind d (hd'.kind_ne_parse (by decide))
        · exact hkind d (hd'.kind_ne_parse (by decide))
      | _ =>
        rw [hresolve] at hfailed
        cases hfailed

/-- The same section, but for the places that cannot be read. -/
structure Agree (s s' : Section) : Prop where
  segment : s'.segment = s.segment
  exit : s'.exit = s.exit
  early : s'.early = s.early.filter (!·.isParseError)

namespace Agree

variable {s s' : Section}

/-- A statement that can be read adds the same to both. -/
theorem add (h : Agree s s') {st : Statement} (hst : st.isUnreadable = false) :
    Agree (s.add st) (s'.add st) := by
  obtain ⟨hsegment, hexit, hearly⟩ := h
  have hlabel : s'.label = s.label := congrArg Segment.label hsegment
  have hbytes : s'.bytes = s.bytes := congrArg Segment.bytes hsegment
  have hoffsets : s'.offsets = s.offsets := congrArg Segment.offsets hsegment
  have hfixups : s'.fixups = s.fixups := congrArg Segment.fixups hsegment
  have hfaults : s'.faults = s.faults := congrArg Segment.faults hsegment
  refine ⟨?_, ?_, ?_⟩
  · rw [segment_add, segment_add, hsegment, hexit, hlabel, hbytes, hoffsets, hfixups, hfaults]
  · rw [exit_add, exit_add, hexit]
  · have hkept : ((st.early? s.label).toList).filter (!·.isParseError) =
        (st.early? s.label).toList := by
      cases st with
      | unreadable => cases hst
      | _ => rfl
    rw [early_add, early_add, hearly, hlabel, List.filter_append, hkept]

/-- A place that cannot be read adds a report to one of them. -/
theorem add_unreadable (h : Agree s s') (cause : Cause) (pos : Position) :
    Agree (s.add (.unreadable cause false pos)) s' := by
  obtain ⟨hsegment, hexit, hearly⟩ := h
  refine ⟨?_, ?_, ?_⟩
  · rw [hsegment, segment_add]
    simp [Statement.image, Statement.diverges, Statement.openFields, Statement.faults,
      Labels.identity?, Section.segment]
  · rw [hexit, exit_add]
    rfl
  · rw [hearly, early_add, List.filter_append]
    exact (List.append_nil _).symm

theorem total (h : Agree s s') {sts : List Statement} (hfatal : ∀ st ∈ sts, st.isFatal = false) :
    s'.total (sts.filter (!·.isUnreadable)) = (s.total sts).filter (!·.isParseError) := by
  have houtputs {s s' : Section} (h : Agree s s') :
      s'.outputs = s.outputs.filter (!·.isParseError) := by
    rw [outputs, outputs, List.filter_append, filter_verdict, h.early, verdict_congr h.segment]
  induction sts generalizing s s' with
  | nil => exact houtputs h
  | cons st sts ih =>
    have hst := hfatal st List.mem_cons_self
    have hsts := fun k hk => hfatal k (List.mem_cons_of_mem st hk)
    cases hunreadable : st.isUnreadable with
    | true =>
      rw [Statement.isUnreadable_eq hst, Option.isSome_iff_exists] at hunreadable
      obtain ⟨line, hline⟩ := hunreadable
      obtain ⟨cause, pos, rfl, -⟩ := Statement.exists_of_faultyLine? hline
      rw [s.total_add sts rfl rfl]
      exact ih (h.add_unreadable cause pos) hsts
    | false =>
      rw [List.filter_cons_of_pos (by rw [hunreadable]; rfl)]
      by_cases htop : st.isTop
      · obtain ⟨name, attributes, pos, rfl⟩ := Statement.exists_of_isTop htop
        have hopened : Agree {labels := s.exit.enterScope, label := name, attributes}
            {labels := s'.exit.enterScope, label := name, attributes} := by
          rw [h.exit]
          exact ⟨rfl, rfl, rfl⟩
        rw [total_top, total_top, List.filter_append, houtputs h, ih hopened hsts]
      · rw [Bool.not_eq_true] at htop
        rw [total_add _ _ htop hst, total_add _ _ htop hst]
        exact ih (h.add hunreadable) hsts

end Agree
end Section

/-- A text assembles to the same with the clauses on its faulty lines erased, but for the reports
of what could not be read. -/
theorem assemble_eraseLines (file source : Text) (labels : Labels) (root : Text)
    (h : (Lines.ofText none source).failure = none) :
    assemble (.text (Reader.ofText file (eraseLines (faultyLines file source labels root) source)
        none)) labels root =
      (assemble (.text (Reader.ofText file source none)) labels root).filter
        (!·.isParseError) := by
  have hlawful (source : Text) := Reader.lawful_items_ofText file source none
  have hpulls (source : Text) :=
    Reader.statements_start (hlawful source) labels root
  let items := Reader.itemsFrom file none 0 [] (source.splitOn 10)
  have hfaulty : faultyLines file source labels root = faults (statements labels items) := by
    rw [faultyLines, hpulls, Reader.items_ofText file h]
  have hfatal : ∀ st ∈ statements labels items, st.isFatal = false :=
    forall_mem_statements (Reader.isFatal_of_mem_itemsFrom file 0 [] (source.splitOn 10))
  have hread := statements_eraseFrom file (faults (statements labels items)) (source.splitOn 10) 0
    [] labels fun k _ => Iff.rfl
  rw [assemble, assemble, run_start (hlawful _), run_start (hlawful _), hpulls, hpulls,
    Reader.items_ofText file (failure_eraseLines _ h), Reader.items_ofText file h,
    splitOn_eraseLines, hfaulty, hread]
  exact Section.Agree.total ⟨rfl, rfl, rfl⟩ hfatal

/-- A malformed attribute, an operand that does not end, a value that does not fit and a branch to a
label of a line that is otherwise erased. -/
theorem assemble_eraseLines_mixed :
    let source := ascii "@bank 300\nmain: - lda #(1 ; one\n  .db $100\n bra -\n lda.b #$123\n"
    let faulty := faultyLines [] source {} []
    let erased := eraseLines faulty source
    (Lines.ofText none source).failure = none ∧ faulty = [1, 2, 3] ∧
      erased = ascii "\nmain: -  ; one\n  \n bra -\n lda.b #$123\n" ∧
      assemble (.text (Reader.ofText [] erased none)) {} [] =
        (assemble (.text (Reader.ofText [] source none)) {} []).filter (!·.isParseError) := by
  intro source faulty erased
  have hfailure : (Lines.ofText none source).failure = none := by decide +kernel
  exact ⟨hfailure, by decide +kernel, by decide +kernel,
    assemble_eraseLines [] source {} [] hfailure⟩

end Assembler65816
