import Assembler65816.Proofs.Expression.Mentions
import Assembler65816.Proofs.Statement.Parts

/-!
# The mentions of a statement

Reading a statement under any labels is reading it as written and looking its mentions up, as it is
for a term. If a mention has nothing to refer to, the text is a malformed expression. Everything
else about a statement, its constants and the sizes of its fields included, is the same under all
labels.
-/
namespace Assembler65816

/-- Whether `y` is what `x`, read as written, comes to once its mentions are looked up. -/
inductive LookedUp {α : Type} (under : α → Option α) : Except Cause α → Except Cause α → Prop
  | failed (cause cause' : Cause) : LookedUp under (.error cause) (.error cause')
  | found {a b : α} : under a = some b → LookedUp under (.ok a) (.ok b)
  | missing {a : α} (e : ExprError) :
      under a = none → LookedUp under (.ok a) (.error (.malformed (.expression e)))

/-- Readings in a row. What follows a missing label may still fail in the reading as written. -/
theorem LookedUp.bind {α β : Type} {u : α → Option α} {v : β → Option β} {x y : Except Cause α}
    {f g : α → Except Cause β} (h : LookedUp u x y)
    (hfound : ∀ a b, u a = some b → LookedUp v (f a) (g b))
    (hmissing : ∀ a c, u a = none → f a = .ok c → v c = none) :
    LookedUp v (x >>= f) (y >>= g) := by
  cases h with
  | failed cause cause' => exact .failed cause cause'
  | found hu => exact hfound _ _ hu
  | @missing a e hu =>
    show LookedUp v (f a) (.error (.malformed (.expression e)))
    cases hf : f a with
    | error cause => exact .failed _ _
    | ok c => exact .missing e (hmissing a c hu hf)

/-- What does not depend on labels. -/
theorem LookedUp.refl {α : Type} {u : α → Option α} {x : Except Cause α}
    (h : ∀ a, x = .ok a → u a = some a) : LookedUp u x x := by
  cases x with
  | error cause => exact .failed cause cause
  | ok a => exact .found (h a rfl)

def Expression.under? (l : Labels) (e : Expression) : Option Expression :=
  (e.term.under? l).map fun t => e.map fun _ => t

def DataRef.under? (l : Labels) (r : DataRef) : Option DataRef :=
  (r.expr.under? l).map fun e => {r with expr := e}

namespace Statement

/-- A statement read as written, with its mentions looked up. -/
def under? (l : Labels) : Statement → Option Statement
  | define name value pos => (value.under? l).map fun e => define name e pos
  | data bytes refs pos => (refs.mapM (DataRef.under? l)).map fun refs => data bytes refs pos
  | instruction i =>
    (i.arg.expr.under? l).map fun e => instruction {i with arg := {i.arg with expr := e}}
  | st => some st

def references : Statement → List Ident
  | define _ value _ => value.term.references
  | data _ refs _ => refs.flatMap fun r => r.expr.term.references
  | instruction i => i.arg.expr.term.references
  | _ => []

end Statement

section References
variable {l : Labels}

theorem Expression.under?_eq_some {e e' : Expression} (h : e.under? l = some e') :
    (∀ id ∈ e.term.references, l.knows id.mention) ∧
      e'.term.references = e.term.references.map fun id => l.resolve id.mention := by
  obtain ⟨t, ht, rfl⟩ := Option.map_eq_some_iff.1 h
  exact Term.under?_eq_some ht

theorem Expression.under?_eq_none {e : Expression} (h : e.under? l = none) :
    ∃ id ∈ e.term.references, l.knows id.mention = false :=
  Term.under?_eq_none (Option.map_eq_none_iff.1 h)

theorem DataRef.mapM_under?_eq_some {refs refs' : List DataRef}
    (h : refs.mapM (DataRef.under? l) = some refs') :
    (∀ id ∈ refs.flatMap fun r => r.expr.term.references, l.knows id.mention) ∧
      (refs'.flatMap fun r => r.expr.term.references) =
        (refs.flatMap fun r => r.expr.term.references).map fun id => l.resolve id.mention := by
  induction refs generalizing refs' with
  | nil =>
    cases h
    exact ⟨fun id hid => (List.not_mem_nil hid).elim, rfl⟩
  | cons r refs ih =>
    rw [List.mapM_cons] at h
    obtain ⟨r', hr, h⟩ := Option.bind_eq_some_iff.1 h
    obtain ⟨rest, hrest, h⟩ := Option.bind_eq_some_iff.1 h
    cases h
    obtain ⟨e, he, rfl⟩ := Option.map_eq_some_iff.1 hr
    obtain ⟨hknows, hrefs⟩ := Expression.under?_eq_some he
    obtain ⟨hknows', hrefs'⟩ := ih hrest
    refine ⟨fun id hid => ?_, ?_⟩
    · rw [List.flatMap_cons] at hid
      rcases List.mem_append.1 hid with hid | hid
      · exact hknows id hid
      · exact hknows' id hid
    · rw [List.flatMap_cons, List.flatMap_cons, List.map_append, hrefs']
      exact congrArg (· ++ _) hrefs

theorem DataRef.mapM_under?_eq_none {refs : List DataRef}
    (h : refs.mapM (DataRef.under? l) = none) :
    ∃ id ∈ refs.flatMap fun r => r.expr.term.references, l.knows id.mention = false := by
  induction refs with
  | nil => cases h
  | cons r refs ih =>
    rw [List.flatMap_cons]
    rw [List.mapM_cons] at h
    cases hr : r.under? l with
    | none =>
      obtain ⟨id, hid, hknows⟩ := Expression.under?_eq_none (Option.map_eq_none_iff.1 hr)
      exact ⟨id, List.mem_append_left _ hid, hknows⟩
    | some r' =>
      cases hrest : refs.mapM (DataRef.under? l) with
      | none =>
        obtain ⟨id, hid, hknows⟩ := ih hrest
        exact ⟨id, List.mem_append_right _ hid, hknows⟩
      | some refs' =>
        rw [hr, hrest] at h
        cases h

theorem Statement.under?_eq_some {st st' : Statement} (h : st.under? l = some st') :
    (∀ id ∈ st.references, l.knows id.mention) ∧
      st'.references = st.references.map fun id => l.resolve id.mention := by
  cases st with
  | define name value pos =>
    obtain ⟨e, he, rfl⟩ := Option.map_eq_some_iff.1 h
    exact Expression.under?_eq_some he
  | data bytes refs pos =>
    obtain ⟨refs', hrefs, rfl⟩ := Option.map_eq_some_iff.1 h
    exact DataRef.mapM_under?_eq_some hrefs
  | instruction i =>
    obtain ⟨e, he, rfl⟩ := Option.map_eq_some_iff.1 h
    exact Expression.under?_eq_some he
  | _ =>
    cases h
    exact ⟨fun id hid => (List.not_mem_nil hid).elim, rfl⟩

theorem Statement.under?_eq_none {st : Statement} (h : st.under? l = none) :
    ∃ id ∈ st.references, l.knows id.mention = false := by
  cases st with
  | define name value pos => exact Expression.under?_eq_none (Option.map_eq_none_iff.1 h)
  | data bytes refs pos => exact DataRef.mapM_under?_eq_none (Option.map_eq_none_iff.1 h)
  | instruction i => exact Expression.under?_eq_none (Option.map_eq_none_iff.1 h)
  | _ => cases h

end References

section Reading
variable (l : Labels)

namespace Directive

theorem readTerm_lookedUp (s : Text) :
    LookedUp (Term.under? l) (readTerm .asWritten s) (readTerm l s) := by
  have hread := Term.read_under l s
  unfold readTerm
  cases ht : Term.read .asWritten s with
  | error e =>
    rw [ht] at hread
    cases ht' : Term.read l s with
    | error e' => exact .failed _ _
    | ok t' =>
      rw [ht'] at hread
      cases hread
  | ok t =>
    rw [ht] at hread
    cases ht' : Term.read l s with
    | error e' =>
      rw [ht'] at hread
      exact .missing e' hread.symm
    | ok t' =>
      rw [ht'] at hread
      exact .found hread.symm

theorem constant?_under (s : Text) : constant? l s = constant? .asWritten s := by
  have hread := Term.read_under l s
  unfold constant?
  cases ht : Term.read .asWritten s with
  | error e =>
    rw [ht] at hread
    cases ht' : Term.read l s with
    | error e' => rfl
    | ok t' =>
      rw [ht'] at hread
      cases hread
  | ok t =>
    rw [ht] at hread
    cases ht' : Term.read l s with
    | ok t' =>
      rw [ht'] at hread
      exact Term.value?_of_under? hread.symm
    | error e' =>
      rw [ht'] at hread
      exact (Term.value?_of_under?_none hread.symm).symm

theorem space_under (args : Text) : space l args = space .asWritten args := by
  have hfill : ∀ items, fillByte l items = fillByte .asWritten items := by
    intro items
    cases items with
    | nil => rfl
    | cons item items => simp only [fillByte, constant?_under l]
  simp only [space, constant?_under l, hfill]

/-- The bytes of data stay, the references are looked up. -/
def imageUnder? (p : List UInt8 × List DataRef) : Option (List UInt8 × List DataRef) :=
  (p.2.mapM (DataRef.under? l)).map fun refs => (p.1, refs)

theorem image_lookedUp (size : Size) (base : Nat) (item : DataItem) :
    LookedUp (imageUnder? l) (image .asWritten size base item) (image l size base item) := by
  unfold image
  split
  · exact .found rfl
  refine (readTerm_lookedUp l item.value).bind (fun t t' ht => ?_) (fun t c ht hc => ?_)
  · simp only [Term.value?_of_under? ht]
    split
    · apply LookedUp.refl
      intro p hp
      cases hf : Field.plain size _ with
      | error e =>
        rw [hf] at hp
        cases hp
      | ok field =>
        rw [hf] at hp
        cases hp
        rfl
    · apply LookedUp.found
      simp [imageUnder?, DataRef.under?, Expression.under?, Expression.term, Expression.sized,
        Expression.map, ht]
  · simp only [Term.value?_of_under?_none ht] at hc
    cases hc
    simp [imageUnder?, DataRef.under?, Expression.under?, Expression.term, Expression.sized, ht]

theorem images_lookedUp (size : Size) (base : Nat) (items : List DataItem) :
    LookedUp (imageUnder? l) (images .asWritten size base items) (images l size base items) := by
  induction items generalizing base with
  | nil => exact .found rfl
  | cons item items ih =>
    unfold images
    refine (image_lookedUp l size base item).bind (fun p p' hp => ?_) (fun p c hp hc => ?_)
    · obtain ⟨refs, hrefs, rfl⟩ := Option.map_eq_some_iff.1 hp
      refine (ih (base + p.1.length)).bind (fun q q' hq => ?_) (fun q c hq hc => ?_)
      · obtain ⟨refs', hrefs', rfl⟩ := Option.map_eq_some_iff.1 hq
        apply LookedUp.found
        simp [imageUnder?, hrefs, hrefs']
      · cases hc
        have hq' : q.2.mapM (DataRef.under? l) = none := Option.map_eq_none_iff.1 hq
        simp [imageUnder?, hrefs, hq']
    · have hp' : p.2.mapM (DataRef.under? l) = none := Option.map_eq_none_iff.1 hp
      cases hi : images .asWritten size (base + p.1.length) items with
      | error e =>
        simp only [hi] at hc
        cases hc
      | ok q =>
        simp only [hi] at hc
        cases hc
        simp [imageUnder?, hp']

theorem values_lookedUp (size : Size) (args : Text) (pos : Position) :
    LookedUp (Statement.under? l) (values .asWritten size args pos) (values l size args pos) := by
  unfold values
  split
  · exact .failed _ _
  refine (images_lookedUp l size 0 _).bind (fun p p' hp => ?_) (fun p c hp hc => ?_)
  · obtain ⟨refs, hrefs, rfl⟩ := Option.map_eq_some_iff.1 hp
    apply LookedUp.found
    simp [Statement.under?, hrefs]
  · cases hc
    have hp' : p.2.mapM (DataRef.under? l) = none := Option.map_eq_none_iff.1 hp
    simp [Statement.under?, hp']

theorem read_lookedUp (name args : Text) (pos : Position) :
    LookedUp (Statement.under? l) (read .asWritten name args pos) (read l name args pos) := by
  unfold read
  split
  · exact values_lookedUp l _ args pos
  · rw [space_under l]
    apply LookedUp.refl
    intro st hst
    simp only at hst
    split at hst
    · cases hst
      rfl
    · cases hst

end Directive

theorem Operand.read_lookedUp (s : Text) (mnemonic : Text) (size : Size) (pos : Position) :
    let finish (o : Operand) : Except Cause Statement :=
      .ok (.instruction {mnemonic, size, arg := o, pos})
    let read (l : Labels) : Except Cause Operand :=
      (Operand.read l s).mapError fun e => .malformed (.expression e)
    LookedUp (Statement.under? l) (read .asWritten >>= finish) (read l >>= finish) := by
  intro finish read
  have hempty : ∀ form, LookedUp (Statement.under? l) (finish ⟨form, .ofTerm .empty⟩)
      (finish ⟨form, .ofTerm .empty⟩) := fun form => .found rfl
  by_cases hblank : s.trim.isEmpty
  · have hread : ∀ labels, read labels = .ok ⟨.none, .ofTerm .empty⟩ := by
      intro labels
      simp only [read, Operand.read, hblank, if_true]
      rfl
    rw [hread, hread]
    exact hempty _
  by_cases ha : s.trim = [97] ∨ s.trim = [65]
  · have hread : ∀ labels, read labels = .ok ⟨.accumulator, .ofTerm .empty⟩ := by
      intro labels
      simp only [read, Operand.read, if_neg hblank, if_pos ha]
      rfl
    rw [hread, hread]
    exact hempty _
  · have hread : ∀ labels, read labels >>= finish =
        Directive.readTerm labels (Shape.of s.trim).2 >>= fun t =>
          finish ⟨(Shape.of s.trim).1, .ofTerm t⟩ := by
      intro labels
      simp only [read, Operand.read, if_neg hblank, if_neg ha, Directive.readTerm]
      cases Term.read labels (Shape.of s.trim).2 <;> rfl
    rw [hread, hread]
    refine (Directive.readTerm_lookedUp l _).bind (fun t t' ht => ?_) (fun t c ht hc => ?_)
    · apply LookedUp.found
      simp [Statement.under?, Expression.under?, Expression.ofTerm, Expression.term, Expression.map,
        ht]
    · cases hc
      simp [Statement.under?, Expression.under?, Expression.ofTerm, Expression.term, ht]

namespace Statement

theorem readInstruction_lookedUp (head args : Text) (pos : Position) :
    LookedUp (under? l) (readInstruction .asWritten head args pos)
      (readInstruction l head args pos) := by
  unfold readInstruction
  simp only
  cases (readMnemonic head).2 with
  | error e => exact .failed _ _
  | ok size => exact Operand.read_lookedUp l args _ size pos

/-- Reading a statement is reading it as written and looking its mentions up. -/
theorem read_lookedUp (s : Text) (pos : Position) :
    LookedUp (under? l) (Statement.read .asWritten s pos) (Statement.read l s pos) := by
  unfold Statement.read
  split
  · refine (Directive.readTerm_lookedUp l _).bind (fun t t' ht => ?_) (fun t c ht hc => ?_)
    · apply LookedUp.found
      simp [under?, Expression.under?, Expression.ofTerm, Expression.term, Expression.map, ht]
    · cases hc
      simp [under?, Expression.under?, Expression.ofTerm, Expression.term, ht]
  · simp only
    split
    · exact Directive.read_lookedUp l _ _ pos
    · exact readInstruction_lookedUp l _ _ pos

end Statement
end Reading

section Read
variable {labels : Labels}

theorem Directive.exists_read_of_image {size : Size} {base : Nat} {item : DataItem}
    {bytes : List UInt8} {refs : List DataRef}
    (h : image labels size base item = .ok (bytes, refs)) :
    ∀ r ∈ refs, ∃ s, Term.read labels s = .ok r.expr.term := by
  intro r hr
  by_cases hquoted : item.quoted
  · obtain ⟨-, rfl⟩ := image_of_quoted hquoted h
    cases hr
  · obtain ⟨t, ht, ⟨v, -, -, rfl⟩ | ⟨-, -, rfl⟩⟩ := image_of_term hquoted h
    · cases hr
    · cases List.mem_singleton.1 hr
      exact ⟨_, ht⟩

theorem Directive.exists_read_of_images {size : Size} {base : Nat} {items : List DataItem}
    {bytes : List UInt8} {refs : List DataRef}
    (h : images labels size base items = .ok (bytes, refs)) :
    ∀ r ∈ refs, ∃ s, Term.read labels s = .ok r.expr.term := by
  induction items generalizing base bytes refs with
  | nil =>
    cases h
    intro r hr
    cases hr
  | cons item items ih =>
    obtain ⟨bytes₁, refs₁, bytes₂, refs₂, hfirst, hrest, -, rfl⟩ := images_cons_eq_ok h
    intro r hr
    rcases List.mem_append.1 hr with hr | hr
    · exact exists_read_of_image hfirst r hr
    · exact ih hrest r hr

theorem Statement.exists_read_of_mem_references {s : Text} {pos : Position} {st : Statement}
    (h : Statement.read labels s pos = .ok st) {id : Ident} (hid : id ∈ st.references) :
    ∃ s' t, Term.read labels s' = .ok t ∧ id ∈ t.references := by
  rcases Statement.read_eq_ok h with ⟨name, s', t, ht, rfl⟩ |
    ⟨size, items, bytes, refs, -, himages, rfl⟩ | ⟨bytes, -, rfl⟩ | ⟨i, rfl, hi⟩
  · exact ⟨s', t, ht, hid⟩
  · obtain ⟨r, hr, hid⟩ := List.mem_flatMap.1 hid
    obtain ⟨s', hs'⟩ := Directive.exists_read_of_images himages r hr
    exact ⟨s', _, hs', hid⟩
  · cases hid
  · cases hbare : i.arg.form.isBare with
    | true =>
      simp only [references, hi.bare hbare] at hid
      cases hid
    | false =>
      obtain ⟨s', hs'⟩ := hi.term hbare
      exact ⟨s', _, hs', hid⟩

end Read

/-- Whether the statement stands for a place that could not be read. -/
def Statement.isUnreadable : Statement → Bool
  | unreadable .. => true
  | _ => false

namespace Line.Item

def mentions (item : Item) : List Mention :=
  (item.statement .asWritten).references.map Ident.mention

/-- A text is not a label. -/
theorem identity?_written (labels l : Labels) (s : Text) (pos : Position) :
    l.identity? ((written s pos).statement labels) = none := by
  cases hread : Statement.read labels s pos with
  | error cause =>
    simp only [statement, hread]
    rfl
  | ok st =>
    simp only [statement, hread]
    rcases Statement.read_eq_ok hread with ⟨name, s', t, -, rfl⟩ |
      ⟨size, items, bytes, refs, -, -, rfl⟩ | ⟨bytes, -, rfl⟩ | ⟨i, rfl, -⟩ <;> rfl

theorem isUnreadable_of_read {labels : Labels} {s : Text} {pos : Position} {st : Statement}
    (h : Statement.read labels s pos = .ok st) : st.isUnreadable = false := by
  rcases Statement.read_eq_ok h with ⟨name, s', t, -, rfl⟩ |
    ⟨size, items, bytes, refs, -, -, rfl⟩ | ⟨bytes, -, rfl⟩ | ⟨i, rfl, -⟩ <;> rfl

/-- Only a text mentions anything. -/
theorem exists_of_mem_mentions {item : Item} (h : item.Lawful) {m : Mention}
    (hm : m ∈ item.mentions) : ∃ s pos, item = .written s pos := by
  cases h with
  | label attributes pos head =>
    cases head with
    | anonymous direction count => cases direction <;> cases hm
    | _ => cases hm
  | unreadable cause fatal pos => cases hm
  | written s pos => exact ⟨s, pos, rfl⟩

theorem proper_of_mem_mentions {item : Item} (h : item.Lawful) {m : Mention}
    (hm : m ∈ item.mentions) : m.Proper := by
  obtain ⟨s, pos, rfl⟩ := exists_of_mem_mentions h hm
  obtain ⟨id, hid, rfl⟩ := List.mem_map.1 hm
  cases hread : Statement.read .asWritten s pos with
  | error cause =>
    simp only [statement, hread] at hid
    cases hid
  | ok st =>
    simp only [statement, hread] at hid
    obtain ⟨s', t, ht, hmem⟩ := Statement.exists_read_of_mem_references hread hid
    exact Term.proper_of_read ht id hmem

/-- What becomes of an item under some labels. -/
theorem statement_cases {item : Item} (h : item.Lawful) (l : Labels) :
    ((item.statement .asWritten).isUnreadable ∧ item.mentions = [] ∧
      (item.statement l).isUnreadable) ∨
    ((item.statement .asWritten).isUnreadable = false ∧ (∀ m ∈ item.mentions, l.knows m) ∧
      (item.statement l).isUnreadable = false ∧
      (item.statement l).references = item.mentions.map l.resolve) ∨
    ((item.statement .asWritten).isUnreadable = false ∧
      (∃ m ∈ item.mentions, l.knows m = false) ∧
      ∃ e pos, item.statement l = .unreadable (.malformed (.expression e)) false pos) := by
  cases h with
  | label attributes pos head =>
    have hnone : ∀ m ∈ (ready (head.statement attributes pos)).mentions, l.knows m := by
      intro m hm
      cases head with
      | anonymous direction count => cases direction <;> cases hm
      | _ => cases hm
    refine .inr (.inl ⟨?_, hnone, ?_, ?_⟩)
    all_goals
      cases head with
      | anonymous direction count => cases direction <;> rfl
      | _ => rfl
  | unreadable cause fatal pos => exact .inl ⟨rfl, rfl, rfl⟩
  | written s pos =>
    have hlook := Statement.read_lookedUp l s pos
    unfold mentions
    simp only [statement]
    cases hw : Statement.read .asWritten s pos with
    | error cause =>
      rw [hw] at hlook
      generalize hread : Statement.read l s pos = y at hlook
      cases hlook with
      | failed _ cause' => exact .inl ⟨rfl, rfl, rfl⟩
    | ok st =>
      have hst := isUnreadable_of_read hw
      rw [hw] at hlook
      generalize hread : Statement.read l s pos = y at hlook
      cases hlook with
      | found hunder =>
        obtain ⟨hknows, hrefs⟩ := Statement.under?_eq_some hunder
        refine .inr (.inl ⟨hst, ?_, isUnreadable_of_read hread, ?_⟩)
        · intro m hm
          obtain ⟨id, hid, rfl⟩ := List.mem_map.1 hm
          exact hknows id hid
        · simp only [hrefs, List.map_map]
          rfl
      | missing e hunder =>
        obtain ⟨id, hid, hknows⟩ := Statement.under?_eq_none hunder
        exact .inr (.inr ⟨hst, ⟨_, List.mem_map_of_mem hid, hknows⟩, e, pos, rfl⟩)

end Line.Item
end Assembler65816
