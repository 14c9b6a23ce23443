import Assembler65816.Proofs.Assembly.Isolation
import Assembler65816.Proofs.Assembly.TwoPass
import Assembler65816.Proofs.Label.Definitions
import Assembler65816.Proofs.Statement.Renaming
import Mathlib.Data.List.TakeWhile

/-!
# What precedes a section

A section that stands further down in a text, after other sections, assembles to what it assembles
to on its own. The labels of the text before it make the turns and scopes of its own labels larger
and its lines have larger numbers, but nothing else changes, as long as no reference reaches back
out of the section and no attribute is left over from before.

The two runs are followed side by side: the items of the section are read under labels that differ
by a shift, so its statements, and with them everything that the section assembles to, differ by a
renaming.
-/
namespace Assembler65816

theorem Position.later_line (file : Text) (n k : Nat) :
    Position.later k ⟨file, (n + 1 : Nat)⟩ = ⟨file, (n + k + 1 : Nat)⟩ := by
  have hne : ((n + 1 : Nat) : Int) ≠ 0 := by omega
  have hsum : ((n + 1 : Nat) : Int) + k = (n + k + 1 : Nat) := by omega
  rw [later, if_neg hne, hsum]

theorem LabelHead.statement_later (head : LabelHead) (attributes : List Attribute) (pos : Position)
    (k : Nat) : head.statement attributes (pos.later k) = (head.statement attributes pos).later k := by
  cases head with
  | anonymous direction count => cases direction <;> rfl
  | _ => rfl

theorem Line.labelled_later (pos : Position) (attributes : List Attribute) (s : Text) (k : Nat) :
    labelled (pos.later k) attributes s =
      ((labelled pos attributes s).1.map (Item.later k), (labelled pos attributes s).2) := by
  fun_induction labelled pos attributes s with
  | case1 attributes s head r h ih =>
    rw [labelled_of_some h, ih, head.statement_later]
    rfl
  | case2 attributes s h =>
    rw [labelled_of_none h]
    split <;> rfl

theorem Line.items_later (pos : Position) (attributes : List Attribute) (line : Text) (k : Nat) :
    items (pos.later k) attributes line =
      (items pos attributes line).map fun p => (p.1.map (Item.later k), p.2) := by
  unfold items
  split
  · rfl
  · split <;> rfl
  · split
    · rfl
    · rw [labelled_later]
      rfl

namespace Reader

theorem handed_later (pos : Position) (attributes : List Attribute) (line : Text) (k : Nat) :
    handed (pos.later k) attributes line =
      ((handed pos attributes line).1.map (Line.Item.later k), (handed pos attributes line).2) := by
  rw [handed, Line.items_later, handed]
  cases Line.items pos attributes line <;> rfl

theorem itemsFrom_later (file : Text) (n k : Nat) (attributes : List Attribute)
    (lines : List Text) :
    itemsFrom file none (n + k) attributes lines =
      (itemsFrom file none n attributes lines).map (Line.Item.later k) := by
  induction lines generalizing n attributes with
  | nil => rfl
  | cons line lines ih =>
    rw [itemsFrom_cons, itemsFrom_cons, ← Position.later_line, handed_later,
      Nat.add_right_comm n k 1, ih, List.map_append]

section Read
variable (file : Text)

theorem items_of_read {source : Text} (h : (Lines.ofText none source).failure = none) :
    (Reader.ofText file source none).items =
      itemsFrom file none 0 [] (Lines.ofText none source).lines := by
  simp only [items, ofText, h, List.nil_append]

theorem isFatal_of_read {source : Text} (h : (Lines.ofText none source).failure = none) :
    ∀ item ∈ (Reader.ofText file source none).items, ∀ l,
      (item.statement l).isFatal = false := by
  rw [items_of_read file h]
  exact isFatal_of_mem_itemsFrom file 0 [] _

/-- After complete lines that leave no attribute waiting, the items of a text are the same but for
their lines. -/
theorem items_append {p q : Text} (hlines : p = [] ∨ p.getLast? = some 10)
    (hwaiting : waitingFrom file 0 [] (Lines.ofText none p).lines = [])
    (hread : (Lines.ofText none (p ++ q)).failure = none) :
    (Reader.ofText file (p ++ q) none).items =
      (Reader.ofText file p none).items ++ (Reader.ofText file q none).items.map
        (Line.Item.later (Lines.ofText none p).lines.length) := by
  obtain ⟨happend, hp, hq⟩ := Lines.lines_append hlines hread
  rw [items_of_read file hread, items_of_read file hp, items_of_read file hq, happend,
    itemsFrom_append, hwaiting, itemsFrom_later]

end Read

end Reader

namespace Section

theorem cut_append (s : Section) (xs ys : List Statement) :
    s.cut (xs ++ ys) =
      ((s.cut xs).1 ++ ((s.cut xs).2.cut ys).1, ((s.cut xs).2.cut ys).2) := by
  induction xs generalizing s with
  | nil => rfl
  | cons st xs ih =>
    by_cases htop : st.isTop
    · obtain ⟨name, attributes, pos, rfl⟩ := Statement.exists_of_isTop htop
      simp only [List.cons_append, cut, ih]
    · rw [Bool.not_eq_true] at htop
      rw [List.cons_append, s.cut_add htop, s.cut_add htop, ih]

theorem exit_cut (s : Section) (sts : List Statement) :
    (s.cut sts).2.exit = sts.foldl Labels.after s.exit := by
  induction sts generalizing s with
  | nil => rfl
  | cons st sts ih =>
    by_cases htop : st.isTop
    · obtain ⟨name, attributes, pos, rfl⟩ := Statement.exists_of_isTop htop
      simp only [cut, ih]
      rfl
    · rw [Bool.not_eq_true] at htop
      rw [s.cut_add htop, ih, exit_add]
      rfl

theorem cut_of_plain (s : Section) {sts : List Statement} (h : ∀ st ∈ sts, st.isTop = false) :
    s.cut sts = ([], {s with body := s.body ++ sts}) := by
  induction sts generalizing s with
  | nil => rw [List.append_nil]; rfl
  | cons st sts ih =>
    rw [s.cut_add (h st List.mem_cons_self), ih _ fun st' hst' => h st' (List.mem_cons_of_mem st hst')]
    simp only [add, List.append_assoc, List.singleton_append]

/-- The section that the last top-level label opens. -/
theorem cut_last (s : Section) (before : List Statement) (name : Text)
    (attributes : List Attribute) (pos : Position) {body : List Statement}
    (h : ∀ st ∈ body, st.isTop = false) :
    (s.cut (before ++ .topLabel name attributes pos :: body)).2 =
      {labels := (before.foldl Labels.after s.exit).enterScope, label := name, attributes, body} := by
  rw [cut_append]
  simp only [cut, cut_of_plain _ h, exit_cut, List.nil_append]

/-- If nothing is fatal, all sections are closed in turn. -/
theorem total_of_read (s : Section) {sts : List Statement} (h : ∀ st ∈ sts, st.isFatal = false) :
    s.total sts = (s.cut sts).1.flatMap outputs ++ (s.cut sts).2.outputs := by
  have hread : ∀ st ∈ sts, (!st.isFatal) = true := fun st hst => by simp [h st hst]
  have htake : sts.takeWhile (!·.isFatal) = sts := List.takeWhile_eq_self_iff.2 hread
  have hdrop : sts.dropWhile (!·.isFatal) = [] := List.dropWhile_eq_nil_iff.2 hread
  simp only [total, htake, hdrop]
  rfl

end Section

section Places
variable {d : Labels} {k : Nat} {sts sts' : List Statement}
  (h : List.Forall₂ (Statement.Like (Ident.shift d) k) sts sts')
include h

theorem image_like : sts'.flatMap Statement.image = sts.flatMap Statement.image := by
  induction h with
  | nil => rfl
  | cons hst _ ih => rw [List.flatMap_cons, List.flatMap_cons, hst.image, ih]

theorem diverges_like (before : Bool) :
    sts'.foldl Statement.diverges before = sts.foldl Statement.diverges before := by
  induction h generalizing before with
  | nil => rfl
  | cons hst _ ih => rw [List.foldl_cons, List.foldl_cons, hst.diverges, ih]

theorem marks_like (l : Labels) (base : Nat) :
    (places (l.shift d) base sts').filterMap Place.mark? =
      ((places l base sts).filterMap Place.mark?).map (Prod.map (Ident.shift d) id) := by
  induction h generalizing l base with
  | nil => rfl
  | cons hst _ ih =>
    rw [places, places, List.filterMap_cons, List.filterMap_cons, hst.after, hst.image, ih,
      Place.mark?, Place.mark?, hst.identity?]
    cases l.identity? _ <;> rfl

theorem openFields_like (l : Labels) (base : Nat) :
    (places (l.shift d) base sts').flatMap (fun p => p.statement.openFields p.offset) =
      ((places l base sts).flatMap fun p => p.statement.openFields p.offset).map
        (Fixup.renamed (Ident.shift d)) := by
  induction h generalizing l base with
  | nil => rfl
  | cons hst _ ih =>
    rw [places, places, List.flatMap_cons, List.flatMap_cons, hst.after, hst.image, ih,
      hst.openFields, List.map_append]

end Places

/-- Whether a section is the other one after more labels, `k` lines further down. -/
structure Section.Like (d : Labels) (k : Nat) (s s' : Section) : Prop where
  labels : s'.labels = s.labels.shift d
  label : s'.label = s.label
  attributes : s'.attributes = s.attributes
  body : List.Forall₂ (Statement.Like (Ident.shift d) k) s.body s'.body

namespace Section.Like

variable {d : Labels} {k : Nat} {s s' : Section} (h : Section.Like d k s s')
include h

theorem bytes : s'.bytes = s.bytes := image_like h.body

theorem offsets : s'.offsets = s.offsets.map (Prod.map (Ident.shift d) id) := by
  simp only [Section.offsets, Section.places, h.labels, marks_like h.body, List.map_reverse]

theorem fixups : s'.fixups = s.fixups.map (Fixup.renamed (Ident.shift d)) := by
  simp only [Section.fixups, Section.places, h.labels, openFields_like h.body]

theorem diverging : s'.segment.diverging = s.segment.diverging := diverges_like h.body false

theorem faults : List.Forall₂ (Diagnostic.Like k) s.faults s'.faults := by
  simp only [Section.faults, h.label]
  exact List.rel_flatMap h.body fun _ _ hst => hst.faults s.label

theorem early : List.Forall₂ (Output.Like (Ident.shift d) k) s.early s'.early := by
  simp only [Section.early, h.label]
  exact List.rel_filterMap (fun _ _ hst => hst.early? s.label) h.body

theorem resolutions : List.Forall₂ (Resolution.Like (Ident.shift d) k) s.segment.resolutions
    s'.segment.resolutions := by
  simp only [Segment.resolutions, segment, h.label, h.offsets, h.bytes, h.fixups,
    List.forall₂_map_left_iff, List.forall₂_map_right_iff, List.forall₂_same]
  exact fun f _ => f.resolve_renamed (Ident.shift_injective d) k s.label s.offsets s.bytes.length

theorem chunk : s'.segment.chunk = s.segment.chunk.renamed (Ident.shift d) := by
  have hbytes : s'.segment.bytes = s.segment.bytes := h.bytes
  have hattributes : s'.segment.attributes = s.segment.attributes := h.attributes
  simp only [Segment.chunk, Chunk.renamed, hbytes, hattributes, h.diverging,
    Resolution.foldl_apply_like h.resolutions, Resolution.outgoing_like h.resolutions]

theorem outputs : List.Forall₂ (Output.Like (Ident.shift d) k) s.outputs s'.outputs := by
  have hlate : List.Forall₂ (Diagnostic.Like k) s.fixupFaults s'.fixupFaults :=
    Resolution.failed_like h.resolutions
  have herrors : ∀ {ds ds' : List Diagnostic}, List.Forall₂ (Diagnostic.Like k) ds ds' →
      List.Forall₂ (Output.Like (Ident.shift d) k) (ds.map .error) (ds'.map .error) :=
    fun hds => List.rel_map (fun _ _ hd => .error hd) hds
  have hsound : s'.faults = [] ∧ s'.fixupFaults = [] ↔ s.faults = [] ∧ s.fixupFaults = [] := by
    simp only [← List.length_eq_zero_iff, h.faults.length_eq, hlate.length_eq]
  refine List.rel_append h.early ?_
  unfold verdict
  rw [h.label, h.chunk]
  by_cases hnone : s.faults = [] ∧ s.fixupFaults = []
  · rw [if_pos hnone, if_pos (hsound.2 hnone)]
    exact .cons (.chunk s.label s.segment.chunk) .nil
  · rw [if_neg hnone, if_neg (mt hsound.1 hnone)]
    exact List.rel_append (herrors h.faults) (herrors hlate)

end Section.Like

/-- Whether every mention of a backward label comes after such a label, those in `seen` counted. -/
def refersBack (seen : List Line.Item) : List Line.Item → Bool
  | [] => true
  | item :: items =>
    (item.mentions.all fun
      | .backward count => seen.contains (.ready (.backwardLabel count))
      | _ => true) && refersBack (item :: seen) items

theorem refersBack_append {seen xs ys : List Line.Item} (h : refersBack seen (xs ++ ys)) :
    refersBack (xs.reverse ++ seen) ys := by
  induction xs generalizing seen with
  | nil => exact h
  | cons item xs ih =>
    rw [List.cons_append, refersBack, Bool.and_eq_true] at h
    rw [List.reverse_cons, List.append_assoc]
    exact ih h.2

/-- A backward label is known from its definition on. -/
theorem Labels.hasBackward_after {l : Labels} {st : Statement} {n : Int}
    (h : l.hasBackward n ∨ st = .backwardLabel n) : (l.after st).hasBackward n := by
  have hcount := l.backward_foldl_after [st] n
  rw [List.foldl_cons, List.foldl_nil] at hcount
  rw [hasBackward, decide_eq_true_eq, hcount]
  rcases h with h | rfl
  · exact Nat.add_pos_left (of_decide_eq_true h) _
  · simp

theorem statements_like {items : List Line.Item} (hitems : ∀ item ∈ items, item.Lawful)
    (hread : ∀ item ∈ items, ∀ l, (item.statement l).isFatal = false) {l : Labels}
    {seen : List Line.Item} (hback : refersBack seen items)
    (hseen : ∀ n, .ready (.backwardLabel n) ∈ seen → l.hasBackward n) (d : Labels) (k : Nat) :
    List.Forall₂ (Statement.Like (Ident.shift d) k) (statements l items)
      (statements (l.shift d) (items.map (Line.Item.later k))) := by
  induction items generalizing l seen with
  | nil => exact .nil
  | cons item items ih =>
    rw [refersBack, Bool.and_eq_true, List.all_eq_true] at hback
    have hknows : ∀ m ∈ item.mentions, l.knows m := by
      intro m hm
      cases m with
      | backward n => exact hseen n (List.contains_iff_mem.1 (hback.1 _ hm))
      | _ => rfl
    have hst := item.statement_like (hitems item List.mem_cons_self) hknows d k
    have hfatal := hread item List.mem_cons_self l
    have hnext : ∀ n, .ready (.backwardLabel n) ∈ item :: seen →
        (l.after (item.statement l)).hasBackward n := by
      intro n hn
      refine Labels.hasBackward_after ?_
      rcases List.mem_cons.1 hn with rfl | hn
      · exact .inr rfl
      · exact .inl (hseen n hn)
    rw [List.map_cons, statements_cons hfatal, statements_cons (hst.isFatal ▸ hfatal), hst.after]
    exact .cons hst (ih (fun it hit => hitems it (List.mem_cons_of_mem _ hit))
      (fun it hit => hread it (List.mem_cons_of_mem _ hit)) hback.2 hnext)

theorem foldl_after_statements {items : List Line.Item}
    (hread : ∀ item ∈ items, ∀ l, (item.statement l).isFatal = false) (l : Labels) :
    (statements l items).foldl Labels.after l = l.through items := by
  induction items generalizing l with
  | nil => rfl
  | cons item items ih =>
    rw [statements_cons (hread item List.mem_cons_self l), List.foldl_cons,
      ih fun it hit => hread it (List.mem_cons_of_mem _ hit)]
    rfl

/-- Whether the line holds no more than an attribute. -/
def Line.isDecoration (line : Text) : Bool := (code line).head?.all (· == 64)

/-- A text with one top-level label, which opens a line after attributes and nothing else, and
without references to backward labels that are not its own. -/
structure Standalone (file source name : Text) : Prop where
  opens : ∃ attributes line body rest,
    (Lines.ofText none source).lines = attributes ++ line :: body ∧
      (∀ l ∈ attributes, Line.isDecoration l) ∧
      LabelHead.top? (Line.code line) = some (.top name, rest)
  single : (Reader.ofText file source none).items.filterMap Line.Item.top? = [name]
  inside : refersBack [] (Reader.ofText file source none).items

namespace Reader

/-- What an attribute line hands out is at most the report that it cannot be read. -/
theorem handed_decoration {line : Text} (h : Line.isDecoration line) (pos : Position)
    (attributes : List Attribute) :
    ∀ item ∈ (handed pos attributes line).1, ∃ cause, item = .ready (.unreadable cause false pos) := by
  intro item hitem
  rw [handed] at hitem
  cases hcode : Line.code line with
  | nil =>
    rw [Line.items, hcode] at hitem
    cases hitem
  | cons b s =>
    have hb : b = 64 := by simpa [Line.isDecoration, hcode] using h
    subst hb
    rw [Line.items_of_attribute _ _ _ hcode] at hitem
    cases ha : Attribute.read s with
    | ok a =>
      rw [ha] at hitem
      cases hitem
    | error e =>
      rw [ha] at hitem
      exact ⟨_, List.mem_singleton.1 hitem⟩

/-- The items of a text that opens with a top-level label. -/
theorem itemsFrom_opening (file : Text) (n : Nat) (attributes : List Attribute)
    {decorations : List Text} (h : ∀ l ∈ decorations, Line.isDecoration l) {line name rest : Text}
    (hlabel : LabelHead.top? (Line.code line) = some (.top name, rest)) (body : List Text) :
    ∃ reports found pos items,
      itemsFrom file none n attributes (decorations ++ line :: body) =
        reports ++ .ready (.topLabel name found pos) :: items ∧
      ∀ item ∈ reports, ∃ cause pos, item = .ready (.unreadable cause false pos) := by
  induction decorations generalizing n attributes with
  | nil =>
    have hread : LabelHead.read? (Line.code line) = some (.top name, rest) := by
      rw [LabelHead.read?, hlabel]
      rfl
    have hitems : Line.items ⟨file, (n + 1 : Nat)⟩ attributes line =
        .ok (Line.labelled ⟨file, (n + 1 : Nat)⟩ attributes (Line.code line)) :=
      Line.items_of_labels _ _ _ (.inr (by rw [hread]; rfl))
    have hfirst : (handed ⟨file, (n + 1 : Nat)⟩ attributes line).1 =
        .ready (.topLabel name attributes ⟨file, (n + 1 : Nat)⟩) ::
          (Line.labelled ⟨file, (n + 1 : Nat)⟩ [] (Text.trim rest)).1 := by
      rw [handed, hitems, Line.labelled_of_some hread]
      rfl
    rw [List.nil_append, itemsFrom_cons, hfirst, List.cons_append]
    exact ⟨[], attributes, ⟨file, (n + 1 : Nat)⟩, _, (List.nil_append _).symm,
      fun _ h => absurd h List.not_mem_nil⟩
  | cons decoration decorations ih =>
    obtain ⟨reports, found, pos, items, hitems, hreports⟩ :=
      ih (n + 1) (handed ⟨file, (n + 1 : Nat)⟩ attributes decoration).2
        fun l hl => h l (List.mem_cons_of_mem _ hl)
    refine ⟨(handed ⟨file, (n + 1 : Nat)⟩ attributes decoration).1 ++ reports, found, pos, items,
      ?_, ?_⟩
    · rw [List.cons_append, itemsFrom_cons, hitems, List.append_assoc]
    · intro item hitem
      rcases List.mem_append.1 hitem with hitem | hitem
      · obtain ⟨cause, rfl⟩ := handed_decoration (h decoration List.mem_cons_self) _ _ item hitem
        exact ⟨cause, _, rfl⟩
      · exact hreports item hitem

end Reader

/-- The items of such a text: reports on attributes, the label, and what stands under it. -/
theorem Standalone.exists_items {file source name : Text} (h : Standalone file source name)
    (hread : (Lines.ofText none source).failure = none) :
    ∃ reports found pos items,
      (Reader.ofText file source none).items =
        reports ++ .ready (.topLabel name found pos) :: items ∧
      (∀ item ∈ reports, ∃ cause pos, item = .ready (.unreadable cause false pos)) ∧
      (∀ item ∈ items, item.top? = none) ∧
      refersBack (.ready (.topLabel name found pos) :: reports.reverse) items := by
  obtain ⟨decorations, line, body, rest, hsplit, hdecorations, hlabel⟩ := h.opens
  obtain ⟨reports, found, pos, items, hopening, hreports⟩ :=
    Reader.itemsFrom_opening file 0 [] hdecorations hlabel body
  have hitems : (Reader.ofText file source none).items =
      reports ++ .ready (.topLabel name found pos) :: items := by
    rw [Reader.items_of_read file hread, hsplit, hopening]
  have hinside := h.inside
  rw [hitems, ← List.singleton_append, ← List.append_assoc] at hinside
  refine ⟨reports, found, pos, items, hitems, hreports, ?_, ?_⟩
  · have hsingle := congrArg List.length h.single
    rw [hitems, List.filterMap_append, List.filterMap_cons] at hsingle
    simp only [Line.Item.top?, List.length_append, List.length_cons, List.length_nil] at hsingle
    exact List.filterMap_eq_nil_iff.1 (List.length_eq_zero_iff.1 (by omega))
  · simpa using refersBack_append hinside

/-- The sections that a text falls into: those that are closed, and the last one. -/
def sectionsOf (file source root : Text) : List Section × Section :=
  (Section.root {} root).cut (statements {} (Reader.ofText file source none).items)

/-- The last section of a text, where a top-level label opens it. -/
theorem sectionsOf_last {file source : Text} (root : Text) {before items : List Line.Item}
    {name : Text} {found : List Attribute} {pos : Position}
    (hitems : (Reader.ofText file source none).items =
      before ++ .ready (.topLabel name found pos) :: items)
    (hread : ∀ item ∈ (Reader.ofText file source none).items, ∀ l,
      (item.statement l).isFatal = false)
    (htop : ∀ item ∈ items, item.top? = none) :
    let labels := (Labels.through {} before).enterScope
    (sectionsOf file source root).2 =
      {labels, label := name, attributes := found, body := statements labels items} := by
  intro labels
  have hlawful := Reader.lawful_items_ofText file source none
  rw [hitems] at hread hlawful
  have hbefore : ∀ item ∈ before, ∀ l, (item.statement l).isFatal = false :=
    fun item hitem => hread item (List.mem_append_left _ hitem)
  have hplain : ∀ st ∈ statements labels items, st.isTop = false := by
    intro st hst
    obtain ⟨item, hitem, l, rfl⟩ := exists_item_of_mem_statements hst
    have hmem : item ∈ before ++ .ready (.topLabel name found pos) :: items :=
      List.mem_append_right _ (List.mem_cons_of_mem _ hitem)
    rw [Line.Item.isTop_statement (hlawful item hmem), htop item hitem]
    rfl
  have hexit : (statements {} before).foldl Labels.after (Section.root {} root).exit =
      Labels.through {} before := foldl_after_statements hbefore {}
  have hcut := (Section.root {} root).cut_last (statements {} before) name found pos hplain
  rw [hexit] at hcut
  rw [sectionsOf, hitems, statements_append hbefore, foldl_after_statements hbefore,
    statements_cons rfl]
  exact hcut

/-- The labels stay the same over what cannot be read. -/
theorem Labels.through_reports {items : List Line.Item} (l : Labels)
    (h : ∀ item ∈ items, ∃ cause pos, item = .ready (.unreadable cause false pos)) :
    l.through items = l := by
  induction items with
  | nil => rfl
  | cons item items ih =>
    obtain ⟨cause, pos, rfl⟩ := h item List.mem_cons_self
    exact ih fun it hit => h it (List.mem_cons_of_mem _ hit)

/-- What came before is forgotten but for the numbers. -/
theorem Labels.enterScope_eq_shift (d : Labels) :
    d.enterScope = ({} : Labels).enterScope.shift d := by
  simp only [enterScope, shift, Nat.zero_add, Nat.add_comm]

theorem Line.Item.top?_later (k : Nat) (item : Line.Item) : (item.later k).top? = item.top? := by
  cases item with
  | ready st => cases st <;> rfl
  | written s pos => rfl

/-- A text without read failure is assembled section by section. -/
theorem assemble_sectionsOf {file source : Text} (root : Text)
    (hread : ∀ item ∈ (Reader.ofText file source none).items, ∀ l,
      (item.statement l).isFatal = false) :
    assemble (.text (Reader.ofText file source none)) {} root =
      (sectionsOf file source root).1.flatMap Section.outputs ++
        (sectionsOf file source root).2.outputs := by
  have hfatal : ∀ st ∈ statements {} (Reader.ofText file source none).items,
      st.isFatal = false := forall_mem_statements hread
  have hlawful := Reader.lawful_items_ofText file source none
  rw [assemble, run_start hlawful, Reader.pulls_start hlawful]
  exact Section.total_of_read _ hfatal

theorem Standalone.sections_like (file root : Text) {p q name : Text}
    (hlines : p = [] ∨ p.getLast? = some 10)
    (hwaiting : Reader.waitingFrom file 0 [] (Lines.ofText none p).lines = [])
    (hread : (Lines.ofText none (p ++ q)).failure = none) (hq : Standalone file q name) :
    (sectionsOf file q root).2.label = name ∧
      Section.Like (Labels.through {} (Reader.ofText file p none).items)
        (Lines.ofText none p).lines.length (sectionsOf file q root).2
        (sectionsOf file (p ++ q) root).2 := by
  generalize hd : Labels.through {} (Reader.ofText file p none).items = d
  generalize hk : (Lines.ofText none p).lines.length = k
  have hreadq := (Lines.lines_append hlines hread).2.2
  have hfatal := Reader.isFatal_of_read file hreadq
  obtain ⟨reports, found, pos, items, hitems, hreports, htop, hback⟩ := hq.exists_items hreadq
  have hitems' : (Reader.ofText file (p ++ q) none).items =
      ((Reader.ofText file p none).items ++ reports.map (Line.Item.later k)) ++
        .ready (.topLabel name found (pos.later k)) :: items.map (Line.Item.later k) := by
    rw [Reader.items_append file hlines hwaiting hread, hitems, hk, List.map_append,
      List.append_assoc]
    rfl
  have htop' : ∀ item ∈ items.map (Line.Item.later k), item.top? = none := by
    intro item hitem
    obtain ⟨it, hit, rfl⟩ := List.mem_map.1 hitem
    rw [it.top?_later, htop it hit]
  have hthrough : Labels.through {}
      ((Reader.ofText file p none).items ++ reports.map (Line.Item.later k)) = d := by
    rw [Labels.through, List.foldl_append, ← Labels.through, ← Labels.through, hd]
    refine Labels.through_reports d fun item hitem => ?_
    obtain ⟨report, hreport, rfl⟩ := List.mem_map.1 hitem
    obtain ⟨cause, pos, rfl⟩ := hreports report hreport
    exact ⟨cause, pos.later k, rfl⟩
  have halone := sectionsOf_last root hitems hfatal htop
  have hafter := sectionsOf_last root hitems' (Reader.isFatal_of_read file hread) htop'
  rw [Labels.through_reports {} hreports] at halone
  rw [hthrough, d.enterScope_eq_shift] at hafter
  rw [halone, hafter]
  refine ⟨rfl, rfl, rfl, rfl, ?_⟩
  have hlawful := Reader.lawful_items_ofText file q none
  rw [hitems] at hlawful hfatal
  have hmem : ∀ item ∈ items, item ∈ reports ++ .ready (.topLabel name found pos) :: items :=
    fun item hitem => List.mem_append_right _ (List.mem_cons_of_mem _ hitem)
  -- No backward label stands before the top-level label.
  refine statements_like (fun item h => hlawful item (hmem item h))
    (fun item h => hfatal item (hmem item h)) hback (fun n hn => ?_) d k
  rcases List.mem_cons.1 hn with hn | hn
  · cases hn
  · obtain ⟨cause, pos, hreport⟩ := hreports _ (List.mem_reverse.1 hn)
    cases hreport

/-- A section assembles to the same whatever complete lines stand before it, but for the numbers in
the names of its local labels and in the places of its diagnostics. -/
theorem outputs_independent (file root : Text) {p q name : Text}
    (hlines : p = [] ∨ p.getLast? = some 10)
    (hwaiting : Reader.waitingFrom file 0 [] (Lines.ofText none p).lines = [])
    (hread : (Lines.ofText none (p ++ q)).failure = none) (hq : Standalone file q name) :
    let alone := sectionsOf file q root
    let after := sectionsOf file (p ++ q) root
    let d := Labels.through {} (Reader.ofText file p none).items
    let k := (Lines.ofText none p).lines.length
    assemble (.text (Reader.ofText file q none)) {} root =
        alone.1.flatMap Section.outputs ++ alone.2.outputs ∧
      assemble (.text (Reader.ofText file (p ++ q) none)) {} root =
        after.1.flatMap Section.outputs ++ after.2.outputs ∧
      alone.2.label = name ∧ after.2.label = name ∧
      List.Forall₂ (Output.Like (Ident.shift d) k) alone.2.outputs after.2.outputs := by
  intro alone after d k
  have hreadq := (Lines.lines_append hlines hread).2.2
  obtain ⟨hname, hlike⟩ := hq.sections_like file root hlines hwaiting hread
  exact ⟨assemble_sectionsOf root (Reader.isFatal_of_read file hreadq),
    assemble_sectionsOf root (Reader.isFatal_of_read file hread), hname,
    hlike.label.trans hname, hlike.outputs⟩

/-- A section after two others that leave a scope, a forward and a backward label behind. Its chunk
keeps two fixups for labels that it does not define, and only their numbers change. -/
theorem outputs_independent_of_two :
    let p := ascii "one:\n+ nop\n-\n@bank 1\ntwo: bra -\n"
    let q := ascii "@bank 2\nmain: - dex\n bne -\n jmp .gone\n .dw +\n"
    let d := Labels.through {} (Reader.ofText [] p none).items
    let c : Chunk :=
      { bytes := [0xCA, 0xD0, 0xFD, 0x4C, 0, 0, 0, 0]
        fixups := [⟨4, .sized (.ref (.named 1 (ascii "gone"))) .word, true⟩,
          ⟨6, .sized (.ref (.anonymous .forward 1 1)) .word, false⟩]
        attributes := [.bank 2]
        diverging := true
        bank := some 2 }
    Standalone [] q (ascii "main") ∧ d.scope = 2 ∧ d.backward 1 = 1 ∧ d.forward 1 = 1 ∧
      (sectionsOf [] q []).2.outputs = [.chunk (ascii "main") c] ∧
      List.Forall₂ (Output.Like (Ident.shift d) 5) [.chunk (ascii "main") c]
        (sectionsOf [] (p ++ q) []).2.outputs := by
  intro p q d c
  have hq : Standalone [] q (ascii "main") :=
    { opens := ⟨[ascii "@bank 2"], ascii "main: - dex",
        [ascii " bne -", ascii " jmp .gone", ascii " .dw +"], ascii " - dex", by decide +kernel,
        by decide +kernel, by decide +kernel⟩
      single := by decide +kernel
      inside := by decide +kernel }
  have hlines : (Lines.ofText none p).lines.length = 5 := by decide +kernel
  have halone : (sectionsOf [] q []).2.outputs = [.chunk (ascii "main") c] := by decide +kernel
  obtain ⟨-, -, -, -, houtputs⟩ := outputs_independent [] [] (p := p) (q := q)
    (.inr (by decide +kernel)) (by decide +kernel) (by decide +kernel) hq
  rw [hlines, halone] at houtputs
  exact ⟨hq, by decide +kernel, by decide +kernel, by decide +kernel, halone, houtputs⟩

end Assembler65816
