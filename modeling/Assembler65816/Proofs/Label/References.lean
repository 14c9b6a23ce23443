import Assembler65816.Proofs.Assembly.Bounds
import Assembler65816.Proofs.Label.Definitions
import Assembler65816.Proofs.Statement.Mentions

/-!
# References of a text

The reader turns mentions into identities when a statement is pulled, and the assembly gives
identities to labels when it takes them in. The two share one set of labels and take turns. The main
statement is that they agree over a whole text: what a mention was turned into is the identity of
exactly the definition that it means. A text in which a mention of a backward label means none
cannot be read.

Since the definitions that share an identity all stand under one top-level label, a reference gets
an offset in a chunk only from a definition in that chunk.
-/
namespace Assembler65816

theorem LabelHead.nested_of_read? {s r : Text} {depth : Nat} {name : Text}
    (h : LabelHead.read? s = some (.nested depth name, r)) : 0 < depth ∧ 46 ∉ name := by
  simp only [LabelHead.read?, Option.or_eq_some_iff] at h
  rcases h with h | ⟨-, h | ⟨-, h | ⟨-, h⟩⟩⟩
  · unfold LabelHead.top? at h
    split at h
    · split at h <;> cases h
    · cases h
  · unfold LabelHead.nested? at h
    simp only at h
    split at h
    · rename_i hdots
      have hname := ExprReader.dot_notMem_name (s.dropWhile (· == 46))
      have hpos : 0 < (s.takeWhile (· == 46)).length := by
        rw [List.length_pos_iff]
        intro he
        simp [he] at hdots
      split at h
      · cases h
        exact ⟨hpos, hname⟩
      · split at h
        · cases h
          exact ⟨hpos, hname⟩
        · cases h
    · cases h
  all_goals
    unfold LabelHead.anonymous? at h
    simp only at h
    split at h
    · cases h
    split at h
    · cases h
    · split at h <;> cases h

theorem Line.Item.nested_of_statement {item : Line.Item} (h : item.Lawful) {l : Labels}
    {depth : Int} {name : Text} (hst : item.statement l = .localLabel depth name) :
    0 < depth ∧ 46 ∉ name := by
  cases h with
  | label attributes pos head hread =>
    cases head with
    | top name => cases hst
    | anonymous direction count => cases direction <;> cases hst
    | nested depth name =>
      cases hst
      obtain ⟨hdepth, hname⟩ := LabelHead.nested_of_read? hread
      exact ⟨Int.natCast_pos.2 hdepth, hname⟩
  | unreadable cause fatal pos => cases hst
  | written s pos =>
    have hnone := identity?_written l l s pos
    rw [hst] at hnone
    cases hnone

theorem exists_item_of_reads {labels : Labels} {items : List Line.Item} {i : Nat} {p : Pull}
    (h : (reads labels items)[i]? = some p) :
    ∃ item, items[i]? = some item ∧ p.statement = item.statement p.labels ∧
      p.labels = (((reads labels items).map Pull.statement).take i).foldl Labels.after labels := by
  induction items generalizing labels i with
  | nil => cases h
  | cons item items ih =>
    rw [reads] at h ⊢
    cases i with
    | zero =>
      cases h
      exact ⟨item, rfl, rfl, rfl⟩
    | succ i =>
      rw [List.getElem?_cons_succ] at h
      by_cases hfatal : (item.statement labels).isFatal
      · rw [if_pos hfatal] at h
        cases h
      · rw [if_neg hfatal] at h ⊢
        exact ih h

theorem consecutive_reads {items : List Line.Item} (hitems : ∀ item ∈ items, item.Lawful) :
    Consecutive (reads {} items) := by
  refine ⟨fun i p hp => ?_, fun depth name hmem => ?_⟩
  · obtain ⟨item, -, -, hlabels⟩ := exists_item_of_reads hp
    exact hlabels
  · obtain ⟨p, hp, hst⟩ := List.mem_map.1 hmem
    obtain ⟨i, hi⟩ := List.getElem?_of_mem hp
    obtain ⟨item, hitem, hstatement, -⟩ := exists_item_of_reads hi
    rw [hst] at hstatement
    exact Line.Item.nested_of_statement (hitems item (List.mem_of_getElem? hitem)) hstatement.symm

/-- What an item at place `i` comes to: it is read unless it cannot be read as written or mentions a
backward label that is not there, its references are its mentions in order, and the identity of each
is that of the definitions it means. -/
structure ReadsAt (ps : List Pull) (i : Nat) (p : Pull) (item : Line.Item) : Prop where
  unreadable_iff : p.statement.isUnreadable ↔ (item.statement .asWritten).isUnreadable ∨
    ∃ n, .backward n ∈ item.mentions ∧ ∀ j, ¬Means (ps.map Pull.statement) i (.backward n) j
  malformed : ∀ n, .backward n ∈ item.mentions →
    (∀ j, ¬Means (ps.map Pull.statement) i (.backward n) j) →
    ∃ e pos, p.statement = .unreadable (.malformed (.expression e)) false pos
  references_eq : p.statement.isUnreadable = false →
    p.statement.references = item.mentions.map p.labels.resolve
  identity_iff : ∀ m ∈ item.mentions, ∀ j q, ps[j]? = some q →
    (q.identity? = some (p.labels.resolve m) ↔ Means (ps.map Pull.statement) i m j)

/-- Only a mention of a backward label can lack something to refer to. -/
theorem Labels.exists_of_knows_eq_false {l : Labels} {m : Mention} (h : l.knows m = false) :
    ∃ n, m = .backward n := by
  cases m with
  | backward n => exact ⟨n, rfl⟩
  | _ => cases h

theorem Consecutive.knows_backward_eq_false_iff {ps : List Pull} (hps : Consecutive ps) {i : Nat}
    {p : Pull} (hp : ps[i]? = some p) (n : Int) :
    p.labels.knows (.backward n) = false ↔
      ∀ j, ¬Means (ps.map Pull.statement) i (.backward n) j := by
  rw [← Bool.not_eq_true, ← not_exists]
  exact not_congr (hps.hasBackward_iff hp n)

/-- A statement that mentions something is no label. -/
theorem Line.Item.isAnonymous_of_mem_mentions {item : Line.Item} (hitem : item.Lawful) {m : Mention}
    (hm : m ∈ item.mentions) (l : Labels) : (item.statement l).isAnonymous = false := by
  obtain ⟨s, pos, rfl⟩ := exists_of_mem_mentions hitem hm
  have hnone := identity?_written l l s pos
  cases hs : (written s pos).statement l with
  | backwardLabel n =>
    rw [hs] at hnone
    cases hnone
  | forwardLabel n =>
    rw [hs] at hnone
    cases hnone
  | _ => rfl

theorem readsAt {items : List Line.Item} (hitems : ∀ item ∈ items, item.Lawful) {i : Nat} {p : Pull}
    (hp : (reads {} items)[i]? = some p) :
    ∃ item, items[i]? = some item ∧ ReadsAt (reads {} items) i p item := by
  obtain ⟨item, hitem, hst, -⟩ := exists_item_of_reads hp
  have hlawful := hitems item (List.mem_of_getElem? hitem)
  have hps := consecutive_reads hitems
  have hmissing := hps.knows_backward_eq_false_iff hp
  refine ⟨item, hitem, ?_, ?_, ?_, ?_⟩
  · rw [hst]
    rcases Line.Item.statement_cases hlawful p.labels with
      ⟨hw, hnone, hl⟩ | ⟨hw, hknows, hl, -⟩ | ⟨hw, ⟨m, hm, hknows⟩, e, pos, hl⟩
    · simp [hw, hl]
    · rw [hw, hl]
      simp only [Bool.false_eq_true, false_or, false_iff]
      rintro ⟨n, hn, hmeans⟩
      have hunknown := (hmissing n).2 hmeans
      rw [hknows _ hn] at hunknown
      cases hunknown
    · obtain ⟨n, rfl⟩ := Labels.exists_of_knows_eq_false hknows
      rw [hl]
      exact iff_of_true rfl (.inr ⟨n, hm, (hmissing n).1 hknows⟩)
  · intro n hn hmeans
    have hknows := (hmissing n).2 hmeans
    rw [hst]
    rcases Line.Item.statement_cases hlawful p.labels with
      ⟨-, hnone, -⟩ | ⟨-, hall, -⟩ | ⟨-, -, hl⟩
    · rw [hnone] at hn
      cases hn
    · rw [hall _ hn] at hknows
      cases hknows
    · exact hl
  · intro hread
    rw [hst] at hread ⊢
    rcases Line.Item.statement_cases hlawful p.labels with
      ⟨-, -, hl⟩ | ⟨-, -, -, hrefs⟩ | ⟨-, -, e, pos, hl⟩
    · rw [hl] at hread
      cases hread
    · exact hrefs
    · rw [hl] at hread
      cases hread
  · intro m hm j q hq
    have hanonymous := Line.Item.isAnonymous_of_mem_mentions hlawful hm p.labels
    rw [← hst] at hanonymous
    have hproper := Line.Item.proper_of_mem_mentions hlawful hm
    exact hps.identity?_eq_resolve_iff hp hq hproper hanonymous

/-- What stands in the section with number `k` comes after as many top-level labels. -/
theorem Section.exists_of_mem_places {s t : Section} {sts : List Statement} {k : Nat}
    (ht : (s.sections sts)[k]? = some t) {p : Place} (hp : p ∈ t.places) :
    k = 0 ∧ p ∈ s.places ∨
      ∃ j, sts[j]? = some p.statement ∧ p.labels = (sts.take j).foldl Labels.after s.exit ∧
        topsBefore sts j = k := by
  induction sts generalizing s k with
  | nil =>
    cases k with
    | zero =>
      cases ht
      exact .inl ⟨rfl, hp⟩
    | succ k => cases ht
  | cons st sts ih =>
    by_cases htop : st.isTop
    · obtain ⟨name, attributes, pos, rfl⟩ := Statement.exists_of_isTop htop
      cases k with
      | zero =>
        cases ht
        exact .inl ⟨rfl, hp⟩
      | succ k =>
        rcases ih (s := {labels := s.exit.enterScope, label := name, attributes}) ht with
          ⟨-, hnone⟩ | ⟨j, hj, hlabels, htops⟩
        · cases hnone
        · refine .inr ⟨j + 1, hj, hlabels, ?_⟩
          rw [← htops]
          exact List.countP_cons_of_pos htop
    · rw [Bool.not_eq_true] at htop
      have hcut : s.sections (st :: sts) = (s.add st).sections sts := by
        rw [sections, s.cut_add htop, sections]
      rw [hcut] at ht
      rcases ih ht with ⟨rfl, hmem⟩ | ⟨j, hj, hlabels, htops⟩
      · rw [s.places_add] at hmem
        rcases List.mem_append.1 hmem with hmem | hmem
        · exact .inl ⟨rfl, hmem⟩
        · cases List.mem_singleton.1 hmem
          exact .inr ⟨0, rfl, rfl, rfl⟩
      · refine .inr ⟨j + 1, hj, ?_, ?_⟩
        · rw [hlabels, s.exit_add]
          rfl
        · rw [← htops]
          exact List.countP_cons_of_neg (by simp [htop])

/-- An offset that a section knows is that of one of its own labels. -/
theorem Section.exists_mark_of_lookup {s : Section} {id : Ident} {n : Nat}
    (h : s.offsets.lookup id = some n) : ∃ p ∈ s.places, p.mark? = some (id, n) := by
  have hmem : (id, n) ∈ s.offsets := by
    obtain ⟨before, after, heq, -⟩ := List.lookup_eq_some_iff.1 h
    rw [heq]
    simp
  exact List.mem_filterMap.1 (List.mem_reverse.1 hmem)

/-- Every definition of a label that a section knows stands in that section. -/
theorem Consecutive.topsBefore_of_lookup {ps : List Pull} (hps : Consecutive ps) {root : Text}
    {s : Section} {k : Nat}
    (hs : ((Section.root {} root).sections
      ((ps.map Pull.statement).takeWhile (!·.isFatal)))[k]? = some s) {id : Ident} {n : Nat}
    (hid : s.offsets.lookup id = some n) {j : Nat} {q : Pull} (hq : ps[j]? = some q)
    (hqid : q.identity? = some id) : topsBefore (ps.map Pull.statement) j = k := by
  obtain ⟨p, hp, hmark⟩ := Section.exists_mark_of_lookup hid
  obtain ⟨id', hpid, he⟩ := Option.map_eq_some_iff.1 hmark
  cases he
  rcases Section.exists_of_mem_places hs hp with ⟨-, hnone⟩ | ⟨i, hi, hlabels, htops⟩
  · cases hnone
  -- The section is cut from the statements before the fatal one, which start the whole list.
  obtain ⟨rest, hrest⟩ := List.takeWhile_prefix (l := ps.map Pull.statement) (!·.isFatal)
  have hlt : i < ((ps.map Pull.statement).takeWhile (!·.isFatal)).length :=
    (List.getElem?_eq_some_iff.1 hi).1
  have htake : (ps.map Pull.statement).take i =
      ((ps.map Pull.statement).takeWhile (!·.isFatal)).take i := by
    rw [← hrest, List.take_append_of_le_length (Nat.le_of_lt hlt)]
    rw [hrest]
  have hat : (ps.map Pull.statement)[i]? = some p.statement := by
    rw [← hrest, List.getElem?_append_left hlt, hi]
  rw [List.getElem?_map] at hat
  obtain ⟨pull, hpull, hst⟩ := Option.map_eq_some_iff.1 hat
  have hpullid : pull.identity? = some id := by
    rw [Pull.identity?, hps.labels i pull hpull, htake, hst, ← hpid, hlabels]
    rfl
  rw [hps.topsBefore_eq_of_identity?_eq hq hpull hqid hpullid, ← htops]
  unfold topsBefore
  rw [htake]

/-- References name the right definitions over a whole text. Each statement comes from an item of
the text, and its references are the identities of what the item mentions: the last backward label
with as many signs before it, the first such forward label after it, the local labels with the same
path under the same top-level label. No two anonymous labels share an identity, and a section knows
the offsets of no labels but its own. -/
theorem references_mean_definitions (file source root : Text) (failure : Option Text) :
    let reader := Reader.ofText file source failure
    let ps := (Assembly.start (.text reader) {} root).pulls
    let sts := ps.map Pull.statement
    let sections := (Section.root {} root).sections (sts.takeWhile (!·.isFatal))
    (∀ m : Mention, m.Writable →
      ∃ id, Term.read .asWritten m.spelling = .ok (.ref id) ∧ id.mention = m) ∧
    (∀ (i : Nat) (p : Pull), ps[i]? = some p →
      ∃ item, reader.items[i]? = some item ∧ ReadsAt ps i p item) ∧
    (∀ (i j : Nat) (p q : Pull), ps[i]? = some p → ps[j]? = some q →
      p.statement.isAnonymous → p.identity? = q.identity? → i = j) ∧
    ∀ (k : Nat) (s : Section), sections[k]? = some s → ∀ id n, s.offsets.lookup id = some n →
      (∃ p ∈ s.places, p.mark? = some (id, n)) ∧
      ∀ (j : Nat) (q : Pull), ps[j]? = some q → q.identity? = some id → topsBefore sts j = k := by
  intro reader ps sts sections
  have hitems := Reader.lawful_items_ofText file source failure
  have hreads : ps = reads {} reader.items := Reader.pulls_start hitems {} root
  have hps : Consecutive ps := hreads ▸ consecutive_reads hitems
  refine ⟨fun m hm => Mention.read_spelling hm, ?_, ?_, ?_⟩
  · intro i p hp
    rw [hreads] at hp ⊢
    exact readsAt hitems hp
  · intro i j p q hp hq hanonymous hid
    exact hps.eq_of_identity?_eq hp hq hanonymous hid
  · intro k s hs id n hid
    refine ⟨Section.exists_mark_of_lookup hid, ?_⟩
    intro j q hq hqid
    exact hps.topsBefore_of_lookup hs hid hq hqid

end Assembler65816
