import Assembler65816.Proofs.Label.References

/-!
# Control flow

Whether control can run off the end of a chunk is one bit, kept up to date statement by statement:
data and instructions that never go on set it, and a label that may be jumped to from before it
clears it. A backward label does not. This module says what the bit is good for. The statements of a
section form a graph in which control goes on to the next statement or jumps to a label that is
referred to, and `Section.Reaches` are the places that control can get to. Data is never run, but an
address in it may be jumped to from anywhere, so it counts as a place to jump from whether or not
control gets to it. A jump to the top-level label leads to the entry.

The main statement is that the end of a chunk whose bit is set cannot be reached. The last statement
that set the bit is a barrier: no label after it but backward ones, which only statements after them
refer to, so there is no way past it.
-/
namespace Assembler65816

namespace Statement

/-- Whether control that has got to a statement goes on to the next one. -/
def fallsThrough : Statement → Bool
  | data .. => false
  | instruction i => !isDivergingText i.mnemonic
  | _ => true

def isInstruction : Statement → Bool
  | instruction _ => true
  | _ => false

def isData : Statement → Bool
  | data .. => true
  | _ => false

end Statement

namespace Place

def identity? (p : Place) : Option Ident := p.labels.identity? p.statement

/-- Whether a statement refers to the label at a place. -/
def RefersTo (p q : Place) : Prop := ∃ id ∈ p.statement.references, q.identity? = some id

end Place

/-- The places of a section that control can get to, numbered from its start; the place after the
last statement is its end. -/
inductive Section.Reaches (s : Section) : Nat → Prop
  | entry : s.Reaches 0
  | next {i : Nat} {p : Place} : s.places[i]? = some p → p.statement.fallsThrough →
      s.Reaches i → s.Reaches (i + 1)
  | jump {i j : Nat} {p q : Place} : s.places[i]? = some p → s.places[j]? = some q →
      p.statement.isInstruction → p.RefersTo q → s.Reaches i → s.Reaches j
  | address {i j : Nat} {p q : Place} : s.places[i]? = some p → s.places[j]? = some q →
      p.statement.isData → p.RefersTo q → s.Reaches j

theorem Labels.backward_le_after (l : Labels) (st : Statement) (n : Int) :
    l.backward n ≤ (l.after st).backward n := by
  have h := l.backward_foldl_after [st] n
  rw [List.foldl_cons, List.foldl_nil] at h
  omega

theorem backward_le_of_mem_places {labels : Labels} {base : Nat} {sts : List Statement} {p : Place}
    (h : p ∈ places labels base sts) (n : Int) : labels.backward n ≤ p.labels.backward n := by
  induction sts generalizing labels base with
  | nil => cases h
  | cons st sts ih =>
    rcases List.mem_cons.1 h with rfl | h
    · exact Nat.le_refl _
    · exact Nat.le_trans (labels.backward_le_after st n) (ih h)

/-- Later places know more backward labels. -/
theorem backward_le_of_places {labels : Labels} {base : Nat} {sts : List Statement} {i j : Nat}
    {p q : Place} (hp : (places labels base sts)[i]? = some p)
    (hq : (places labels base sts)[j]? = some q) (hij : i ≤ j) (n : Int) :
    p.labels.backward n ≤ q.labels.backward n := by
  induction sts generalizing labels base i j with
  | nil => cases hp
  | cons st sts ih =>
    cases i with
    | zero =>
      cases hp
      exact backward_le_of_mem_places (List.mem_of_getElem? hq) n
    | succ i =>
      cases j with
      | zero => omega
      | succ j => exact ih hp hq (Nat.le_of_succ_le_succ hij)

/-- A text refers to no backward label that is yet to come. -/
theorem Line.Item.turn_le_of_mem_references {item : Line.Item} (h : item.Lawful) {l : Labels}
    {n t : Int} (hid : .anonymous .backward n t ∈ (item.statement l).references) :
    t ≤ l.backward n := by
  rcases statement_cases h l with ⟨-, -, hun⟩ | ⟨-, -, -, hrefs⟩ | ⟨-, -, e, pos, hst⟩
  · cases hst : item.statement l with
    | unreadable cause fatal pos =>
      rw [hst] at hid
      cases hid
    | _ =>
      rw [hst] at hun
      cases hun
  · rw [hrefs] at hid
    obtain ⟨m, -, hm⟩ := List.mem_map.1 hid
    cases m with
    | backward count =>
      cases hm
      exact Int.le_refl _
    | _ => cases hm
  · rw [hst] at hid
    cases hid

theorem Instruction.diverging_of_assembled? {i : Instruction} {a : Segment.Assembled}
    (h : i.assembled? = some a) : a.encoded.diverging = isDivergingText i.mnemonic := by
  have hencoded : ∀ mode, ∀ e : Encoded, Encoded.of i.mnemonic mode i.arg.expr = .ok e →
      e.diverging = isDivergingText i.mnemonic := by
    intro mode e he
    unfold Encoded.of at he
    split at he
    · cases he
    split at he
    · cases he
    · cases he
      rfl
  unfold assembled? Segment.assemble at h
  simp only at h
  split at h
  · cases h
  split at h
  · cases h
  split at h
  · cases h
  split at h
  · cases h
  split at h
  · cases h
  · rename_i e he
    cases h
    exact hencoded _ e he

namespace Statement

/-- Whether a statement gives no new way in: it is neither data nor a label that may be referred to
from before it. -/
def IsSealed (st : Statement) : Prop :=
  st.isData = false ∧ ∀ l id, Labels.identity? l st = some id → ∃ n, st = .backwardLabel n

/-- A statement that is not at fault sets the bit, clears it or leaves it. -/
theorem diverges_cases {label : Text} {st : Statement} (hfaults : st.faults label = []) :
    st.fallsThrough = false ∨ (∀ b, st.diverges b = false) ∨
      (st.IsSealed ∧ ∀ b, st.diverges b = b) := by
  cases st with
  | data bytes refs pos => exact .inl rfl
  | forwardLabel count => exact .inr (.inl fun _ => rfl)
  | localLabel depth name => exact .inr (.inl fun _ => rfl)
  | backwardLabel count => exact .inr (.inr ⟨⟨rfl, fun _ _ _ => ⟨count, rfl⟩⟩, fun _ => rfl⟩)
  | instruction i =>
    obtain ⟨a, ha⟩ := Instruction.exists_assembled? hfaults
    cases hd : isDivergingText i.mnemonic with
    | true =>
      left
      simp only [fallsThrough, hd, Bool.not_true]
    | false =>
      refine .inr (.inr ⟨⟨rfl, fun l id hid => ?_⟩, fun b => ?_⟩)
      · cases hid
      · simp only [diverges, ha, Option.map_some, Option.getD_some,
          Instruction.diverging_of_assembled? ha, hd, Bool.or_false]
  | _ =>
    refine .inr (.inr ⟨⟨rfl, fun l id hid => ?_⟩, fun _ => rfl⟩)
    cases hid

end Statement

/-- Where the bit is set, either it was so from the start and was left, or the last statement that
set it has only sealed ones after it. -/
theorem exists_barrier {label : Text} {sts : List Statement}
    (hfaults : ∀ st ∈ sts, st.faults label = []) {b : Bool}
    (h : sts.foldl Statement.diverges b = true) :
    (b = true ∧ ∀ st ∈ sts, st.IsSealed) ∨
      ∃ before st after, sts = before ++ st :: after ∧ st.fallsThrough = false ∧
        ∀ st' ∈ after, st'.IsSealed := by
  induction sts generalizing b with
  | nil => exact .inl ⟨h, fun _ hmem => absurd hmem List.not_mem_nil⟩
  | cons st sts ih =>
    have hrest : ∀ st' ∈ sts, st'.faults label = [] :=
      fun st' hst' => hfaults st' (List.mem_cons_of_mem st hst')
    rcases ih hrest h with ⟨hbit, hsealed⟩ | ⟨before, barrier, after, rfl, hbarrier⟩
    · rcases Statement.diverges_cases (hfaults st List.mem_cons_self) with
        hfalls | hclears | ⟨hst, hleaves⟩
      · exact .inr ⟨[], st, sts, rfl, hfalls, hsealed⟩
      · rw [hclears] at hbit
        cases hbit
      · refine .inl ⟨hleaves b ▸ hbit, fun st' hst' => ?_⟩
        rcases List.mem_cons.1 hst' with rfl | hst'
        · exact hst
        · exact hsealed st' hst'
    · exact .inr ⟨st :: before, barrier, after, rfl, hbarrier⟩

namespace Section
variable {s : Section}

theorem statement_of_places {i : Nat} {p : Place} (h : s.places[i]? = some p) :
    s.body[i]? = some p.statement := by
  rw [← statement_places s.labels 0 s.body, List.getElem?_map]
  exact congrArg (Option.map Place.statement) h

/-- Whether every statement of a section is an item of a text, read under the labels known at its
place. -/
def IsRead (s : Section) : Prop :=
  ∀ p ∈ s.places, ∃ item : Line.Item, item.Lawful ∧ p.statement = item.statement p.labels

/-- Only statements after a backward label refer to it. -/
theorem IsRead.lt_of_refersTo (hread : s.IsRead) {i j : Nat} {p q : Place}
    (hp : s.places[i]? = some p) (hq : s.places[j]? = some q) (hrefers : p.RefersTo q) {n : Int}
    (hlabel : q.statement = .backwardLabel n) : j < i := by
  obtain ⟨id, hid, hqid⟩ := hrefers
  obtain ⟨item, hitem, hst⟩ := hread p (List.mem_of_getElem? hp)
  have hturn : id = .anonymous .backward n (q.labels.backward n + 1 : Nat) := by
    have hdefined : Pull.identity? ⟨q.labels, q.statement⟩ =
        some (.anonymous .backward n (q.labels.backward n + 1 : Nat)) :=
      Pull.identity?_eq_backward.2 ⟨hlabel, rfl⟩
    exact Option.some.inj (hqid.symm.trans hdefined)
  rw [hst, hturn] at hid
  have hle := Line.Item.turn_le_of_mem_references hitem hid
  rcases Nat.lt_or_ge j i with hlt | hge
  · exact hlt
  · have hmono := backward_le_of_places hp hq hge n
    omega

/-- There is no way past a barrier. -/
theorem IsRead.le_of_reaches (hread : s.IsRead) {before after : List Statement} {st : Statement}
    (hbody : s.body = before ++ st :: after) (hfalls : st.fallsThrough = false)
    (hafter : ∀ st' ∈ after, st'.IsSealed) {k : Nat} (h : s.Reaches k) : k ≤ before.length := by
  have hbeyond : ∀ j q, s.places[j]? = some q → before.length < j → q.statement ∈ after := by
    intro j q hq hj
    have hat := statement_of_places hq
    rw [hbody, List.getElem?_append_right (Nat.le_of_lt hj),
      List.getElem?_cons, if_neg (by omega)] at hat
    exact List.mem_of_getElem? hat
  have htarget : ∀ i j p q, s.places[i]? = some p → s.places[j]? = some q → p.RefersTo q →
      i ≤ before.length → j ≤ before.length := by
    intro i j p q hp hq hrefers hi
    rcases Nat.lt_or_ge before.length j with hlt | hge
    · obtain ⟨id, hid, hqid⟩ := hrefers
      obtain ⟨n, hn⟩ := (hafter q.statement (hbeyond j q hq hlt)).2 q.labels id hqid
      have := hread.lt_of_refersTo hp hq ⟨id, hid, hqid⟩ hn
      omega
    · exact hge
  induction h with
  | entry => exact Nat.zero_le _
  | @next i p hp hfall _ ih =>
    rcases Nat.lt_or_eq_of_le ih with hlt | rfl
    · exact hlt
    · have hat := statement_of_places hp
      rw [hbody, List.getElem?_append_right (Nat.le_refl _), Nat.sub_self] at hat
      cases hat
      rw [hfalls] at hfall
      cases hfall
  | jump hp hq _ hrefers _ ih => exact htarget _ _ _ _ hp hq hrefers ih
  | @address i j p q hp hq hdata hrefers =>
    apply htarget _ _ _ _ hp hq hrefers
    rcases Nat.lt_or_ge before.length i with hlt | hge
    · rw [(hafter p.statement (hbeyond i p hp hlt)).1] at hdata
      cases hdata
    · exact hge

theorem IsRead.not_reaches_end (hread : s.IsRead) (hfaults : s.faults = [])
    (hdiverging : s.segment.diverging) : ¬s.Reaches s.body.length := by
  intro hend
  rcases exists_barrier (List.flatMap_eq_nil_iff.1 hfaults) hdiverging with
    ⟨hstart, -⟩ | ⟨before, st, after, hbody, hfalls, hafter⟩
  · cases hstart
  have hle := hread.le_of_reaches hbody hfalls hafter hend
  rw [hbody, List.length_append, List.length_cons] at hle
  omega

end Section

theorem Section.isRead_of_reads (root : Text) {items : List Line.Item}
    (hitems : ∀ item ∈ items, item.Lawful) {s : Section}
    (hs : s ∈ (Section.root {} root).sections
      (((reads {} items).map Pull.statement).takeWhile (!·.isFatal))) : s.IsRead := by
  intro p hp
  obtain ⟨k, hk⟩ := List.getElem?_of_mem hs
  rcases Section.exists_of_mem_places hk hp with ⟨-, hnone⟩ | ⟨j, hj, hlabels, -⟩
  · cases hnone
  -- The statements before the fatal one start the whole list.
  obtain ⟨rest, hrest⟩ :=
    List.takeWhile_prefix (l := (reads {} items).map Pull.statement) (!·.isFatal)
  have hlt := (List.getElem?_eq_some_iff.1 hj).1
  have hat : ((reads {} items).map Pull.statement)[j]? = some p.statement := by
    rw [← hrest, List.getElem?_append_left hlt, hj]
  have htake : ((reads {} items).map Pull.statement).take j =
      (((reads {} items).map Pull.statement).takeWhile (!·.isFatal)).take j := by
    conv => lhs; rw [← hrest]
    exact List.take_append_of_le_length (Nat.le_of_lt hlt)
  rw [List.getElem?_map] at hat
  obtain ⟨pull, hpull, hst⟩ := Option.map_eq_some_iff.1 hat
  obtain ⟨item, hitem, hstatement, hpullLabels⟩ := exists_item_of_reads hpull
  have hsame : pull.labels = p.labels := by
    rw [hpullLabels, htake, hlabels]
    rfl
  exact ⟨item, hitems item (List.mem_of_getElem? hitem), by rw [← hst, hstatement, hsame]⟩

theorem Section.exists_of_chunk_mem_total {s : Section} {sts : List Statement} {label : Text}
    {c : Chunk} (h : .chunk label c ∈ s.total sts) :
    ∃ t ∈ s.sections (sts.takeWhile (!·.isFatal)), .chunk label c ∈ t.outputs := by
  rcases List.mem_append.1 h with h | h
  · obtain ⟨t, ht, hmem⟩ := List.mem_flatMap.1 h
    exact ⟨t, List.mem_append_left _ ht, hmem⟩
  · split at h
    · exact absurd h (Section.chunk_notMem_abandoned _ _ _ _ _)
    · exact ⟨_, List.mem_append_right _ (List.mem_singleton_self _), h⟩

/-- A chunk that says so is never left at its end. It is what some section of the text assembles to,
and in every section that it can be, control that starts at the first statement and goes on or jumps
to labels of the section does not get to the end. -/
theorem end_unreachable_of_diverging {file source root label : Text} {failure : Option Text}
    {c : Chunk} (hc : .chunk label c ∈ assemble (.text (Reader.ofText file source failure)) {} root)
    (hdiverging : c.diverging) :
    let sts := (Assembly.start (.text (Reader.ofText file source failure)) {} root).pulls.map
      Pull.statement
    let sections := (Section.root {} root).sections (sts.takeWhile (!·.isFatal))
    (∃ s ∈ sections, .chunk label c ∈ s.outputs) ∧
      ∀ s ∈ sections, .chunk label c ∈ s.outputs → ¬s.Reaches s.body.length := by
  intro sts sections
  have hlawful := Reader.lawful_items_ofText file source failure
  rw [assemble, run_start hlawful] at hc
  refine ⟨Section.exists_of_chunk_mem_total hc, fun s hs hmem => ?_⟩
  obtain ⟨-, rfl, hfaults, -⟩ := Section.chunk_mem_outputs hmem
  have hread : s.IsRead := by
    apply Section.isRead_of_reads root hlawful
    rw [← Reader.pulls_start hlawful {} root]
    exact hs
  exact hread.not_reaches_end hfaults hdiverging

/-- Behind a return stands a loop that nothing enters, with a branch that may go on. -/
theorem end_unreachable_of_dead_loop :
    let source := ascii "a: bra +\n+ rts\n- nop\n bne -\n"
    let reader := Reader.ofText [] source none
    let c : Chunk := {bytes := [0x80, 0, 0x60, 0xEA, 0xD0, 0xFD], diverging := true}
    let sts := (Assembly.start (.text reader) {} []).pulls.map Pull.statement
    let sections := (Section.root {} []).sections (sts.takeWhile (!·.isFatal))
    .chunk (ascii "a") c ∈ assemble (.text reader) {} [] ∧ c.diverging ∧
      (∃ s ∈ sections, .chunk (ascii "a") c ∈ s.outputs) ∧
      ∀ s ∈ sections, .chunk (ascii "a") c ∈ s.outputs → ¬s.Reaches s.body.length := by
  intro source reader c sts sections
  have hc : .chunk (ascii "a") c ∈ assemble (.text reader) {} [] := by decide +kernel
  exact ⟨hc, rfl, end_unreachable_of_diverging hc rfl⟩

end Assembler65816
