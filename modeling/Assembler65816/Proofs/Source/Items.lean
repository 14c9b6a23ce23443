import Assembler65816.Proofs.Assembly.Run

/-!
# The items of a text

How a text falls into lines, labels and statement texts does not depend on any label, so it can be
said once and for all: `Reader.items` lists what a reader will hand out, in order. Only the meaning
of a statement text depends on the labels known when its turn comes. The pulls of an assembly over a
text are therefore the items, each read under the labels that the statements before it leave behind.
-/
namespace Assembler65816

namespace Reader

/-- The items of the lines to come. A place that cannot be read counts as an item. -/
def itemsFrom (file : Text) (failure : Option Text) :
    (line : Nat) → List Attribute → List Text → List Line.Item
  | line, _, [] =>
    (failure.map fun reason =>
      .ready (.unreadable (.reading file reason) true ⟨file, line⟩)).toList
  | line, attributes, text :: lines =>
    let pos : Position := ⟨file, (line + 1 : Nat)⟩
    match Line.items pos attributes text with
    | .error e =>
      .ready (.unreadable (.malformed e) false pos) ::
        itemsFrom file failure (line + 1) attributes lines
    | .ok (items, attributes) => items ++ itemsFrom file failure (line + 1) attributes lines

/-- What a line hands out, and the attributes that wait after it. -/
def handed (pos : Position) (attributes : List Attribute) (line : Text) :
    List Line.Item × List Attribute :=
  match Line.items pos attributes line with
  | .error e => ([.ready (.unreadable (.malformed e) false pos)], attributes)
  | .ok p => p

theorem itemsFrom_cons (file : Text) (failure : Option Text) (line : Nat)
    (attributes : List Attribute) (text : Text) (lines : List Text) :
    itemsFrom file failure line attributes (text :: lines) =
      (handed ⟨file, (line + 1 : Nat)⟩ attributes text).1 ++
        itemsFrom file failure (line + 1) (handed ⟨file, (line + 1 : Nat)⟩ attributes text).2
          lines := by
  unfold handed
  rw [itemsFrom]
  split <;> simp_all

/-- The attributes that wait for a top-level label after the lines to come. -/
def waitingFrom (file : Text) : (line : Nat) → List Attribute → List Text → List Attribute
  | _, attributes, [] => attributes
  | line, attributes, text :: lines =>
    waitingFrom file (line + 1) (handed ⟨file, (line + 1 : Nat)⟩ attributes text).2 lines

theorem itemsFrom_append (file : Text) (failure : Option Text) (line : Nat)
    (attributes : List Attribute) (lines more : List Text) :
    itemsFrom file failure line attributes (lines ++ more) =
      itemsFrom file none line attributes lines ++
        itemsFrom file failure (line + lines.length) (waitingFrom file line attributes lines)
          more := by
  induction lines generalizing line attributes with
  | nil => rfl
  | cons text lines ih =>
    simp only [List.cons_append, itemsFrom_cons, ih, waitingFrom, List.append_assoc,
      List.length_cons, Nat.add_right_comm line 1, Nat.add_assoc]

def items (r : Reader) : List Line.Item :=
  r.pending ++ itemsFrom r.file r.failure r.line r.attributes r.lines

theorem itemsFrom_of_advance_none {labels : Labels} {file : Text} {failure : Option Text}
    {line : Nat} {attributes : List Attribute} {lines : List Text}
    (h : advance labels file failure line attributes lines = none) :
    itemsFrom file failure line attributes lines = [] := by
  induction lines generalizing line attributes with
  | nil =>
    cases failure with
    | none => rfl
    | some reason => cases h
  | cons text lines ih =>
    unfold advance at h
    unfold itemsFrom
    cases he : Line.items ⟨file, (line + 1 : Nat)⟩ attributes text with
    | error e =>
      simp only [he] at h
      cases h
    | ok p =>
      obtain ⟨_ | ⟨item, pending⟩, attributes'⟩ := p <;> simp only [he] at h ⊢
      · exact ih h
      · cases h

theorem itemsFrom_of_advance_some {labels : Labels} {file : Text} {failure : Option Text}
    {line : Nat} {attributes : List Attribute} {lines : List Text} {st : Statement} {r : Reader}
    (h : advance labels file failure line attributes lines = some (st, r)) :
    ∃ item, itemsFrom file failure line attributes lines = item :: r.items ∧
      st = item.statement labels := by
  induction lines generalizing line attributes with
  | nil =>
    cases failure with
    | none => cases h
    | some reason =>
      cases h
      exact ⟨_, rfl, rfl⟩
  | cons text lines ih =>
    unfold advance at h
    unfold itemsFrom
    cases he : Line.items ⟨file, (line + 1 : Nat)⟩ attributes text with
    | error e =>
      simp only [he] at h ⊢
      cases h
      exact ⟨_, rfl, rfl⟩
    | ok p =>
      obtain ⟨_ | ⟨item, pending⟩, attributes'⟩ := p <;> simp only [he] at h ⊢
      · exact ih h
      · cases h
        exact ⟨item, rfl, rfl⟩

theorem items_of_next_none {labels : Labels} {r : Reader} (h : r.next labels = none) :
    r.items = [] := by
  unfold next at h
  split at h
  · cases h
  · rename_i hp
    rw [items, hp]
    exact itemsFrom_of_advance_none h

/-- A reader hands out its first item. -/
theorem items_of_next_some {labels : Labels} {r r' : Reader} {st : Statement}
    (h : r.next labels = some (st, r')) :
    ∃ item, r.items = item :: r'.items ∧ st = item.statement labels := by
  unfold next at h
  split at h
  · rename_i item pending hp
    cases h
    exact ⟨item, by rw [items, hp]; rfl, rfl⟩
  · rename_i hp
    rw [items, hp]
    exact itemsFrom_of_advance_some h

end Reader

/-- An item as the reader makes them: a label as it can be written, a place that could not be read,
or a text. -/
inductive Line.Item.Lawful : Line.Item → Prop
  | label (attributes : List Attribute) (pos : Position) {s r : Text} (head : LabelHead)
      (h : LabelHead.read? s = some (head, r)) : Lawful (.ready (head.statement attributes pos))
  | unreadable (cause : Cause) (fatal : Bool) (pos : Position) :
      Lawful (.ready (.unreadable cause fatal pos))
  | written (s : Text) (pos : Position) : Lawful (.written s pos)

theorem Line.lawful_labelled (pos : Position) (attributes : List Attribute) (s : Text) :
    ∀ item ∈ (labelled pos attributes s).1, item.Lawful := by
  fun_induction labelled pos attributes s with
  | case1 attributes s head r h ih =>
    intro item hitem
    rcases List.mem_cons.1 hitem with rfl | hitem
    · exact .label attributes pos head h
    · exact ih item hitem
  | case2 attributes s h =>
    intro item hitem
    split at hitem
    · cases hitem
    · cases List.mem_singleton.1 hitem
      exact .written s pos

theorem Line.lawful_items {pos : Position} {attributes attributes' : List Attribute} {line : Text}
    {is : List Item} (h : items pos attributes line = .ok (is, attributes')) :
    ∀ item ∈ is, item.Lawful := by
  intro item hitem
  unfold items at h
  split at h
  · cases h
    cases hitem
  · split at h
    · cases h
      cases hitem
    · cases h
  · split at h
    · cases h
      cases List.mem_singleton.1 hitem
      exact .written _ pos
    · have hl := lawful_labelled pos attributes (code line)
      rw [Except.ok.inj h] at hl
      exact hl item hitem

theorem Reader.lawful_itemsFrom (file : Text) (failure : Option Text) (line : Nat)
    (attributes : List Attribute) (lines : List Text) :
    ∀ item ∈ itemsFrom file failure line attributes lines, item.Lawful := by
  induction lines generalizing line attributes with
  | nil =>
    intro item hitem
    cases failure with
    | none => cases hitem
    | some reason =>
      cases List.mem_singleton.1 hitem
      exact .unreadable ..
  | cons text lines ih =>
    intro item hitem
    unfold itemsFrom at hitem
    cases he : Line.items ⟨file, (line + 1 : Nat)⟩ attributes text with
    | error e =>
      simp only [he] at hitem
      rcases List.mem_cons.1 hitem with rfl | hitem
      · exact .unreadable ..
      · exact ih _ _ item hitem
    | ok p =>
      simp only [he] at hitem
      rcases List.mem_append.1 hitem with hitem | hitem
      · exact Line.lawful_items he item hitem
      · exact ih _ _ item hitem

theorem Reader.lawful_items_ofText (file source : Text) (failure : Option Text) :
    ∀ item ∈ (Reader.ofText file source failure).items, item.Lawful :=
  Reader.lawful_itemsFrom _ _ _ _ _

/-- The statements of a list of items, each read under the labels that those before it leave. -/
def reads (labels : Labels) : List Line.Item → List Pull
  | [] => []
  | item :: items =>
    let st := item.statement labels
    ⟨labels, st⟩ :: if st.isFatal then [] else reads (labels.after st) items

def statements (labels : Labels) (items : List Line.Item) : List Statement :=
  (reads labels items).map Pull.statement

theorem statements_cons {labels : Labels} {item : Line.Item}
    (h : (item.statement labels).isFatal = false) (items : List Line.Item) :
    statements labels (item :: items) =
      item.statement labels :: statements (labels.after (item.statement labels)) items := by
  simp only [statements, reads, h, Bool.false_eq_true, if_false, List.map_cons]

/-- What follows some items is read under the labels that they leave. -/
theorem statements_append {labels : Labels} {items : List Line.Item}
    (h : ∀ item ∈ items, ∀ l, (item.statement l).isFatal = false) (more : List Line.Item) :
    statements labels (items ++ more) = statements labels items ++
      statements ((statements labels items).foldl Labels.after labels) more := by
  induction items generalizing labels with
  | nil => rfl
  | cons item items ih =>
    have hitem := h item List.mem_cons_self labels
    have hitems := @ih (labels.after (item.statement labels))
      fun it hit => h it (List.mem_cons_of_mem _ hit)
    simp only [List.cons_append, statements_cons hitem, hitems, List.foldl_cons]

/-- Everything that is read is some item. -/
theorem exists_item_of_mem_statements {labels : Labels} {items : List Line.Item} {st : Statement}
    (h : st ∈ statements labels items) : ∃ item ∈ items, ∃ l, st = item.statement l := by
  induction items generalizing labels with
  | nil => cases h
  | cons item items ih =>
    rw [statements, reads] at h
    rcases List.mem_cons.1 h with rfl | h
    · exact ⟨item, List.mem_cons_self, labels, rfl⟩
    · split at h
      · cases h
      · obtain ⟨it, hit, l, hst⟩ := ih h
        exact ⟨it, List.mem_cons_of_mem _ hit, l, hst⟩

/-- What holds of all items, however they are read, holds of their statements. -/
theorem forall_mem_statements {P : Statement → Prop} {labels : Labels} {items : List Line.Item}
    (h : ∀ item ∈ items, ∀ l, P (item.statement l)) : ∀ st ∈ statements labels items, P st := by
  intro st hst
  obtain ⟨item, hitem, l, rfl⟩ := exists_item_of_mem_statements hst
  exact h item hitem l

end Assembler65816
