import Assembler65816.Source.Line

/-!
# Sources

A source yields statements one at a time. A reader takes them from text, line by line, and reads the
text of a statement only when it is asked for, so that every label before it has been recorded. A
list of statements is a source as well.

`Source.budget` bounds the number of statements still to come; every statement costs at least one.
-/
namespace Assembler65816

structure Reader where
  file : Text
  /-- The lines to come. -/
  lines : List Text
  /-- What stops the reading after them. -/
  failure : Option Text
  /-- The number of lines read so far. -/
  line : Nat := 0
  /-- Statements of the current line that were not handed out yet. -/
  pending : List Line.Item := []
  /-- Attributes that wait for a top-level label. -/
  attributes : List Attribute := []
  deriving DecidableEq, Repr

namespace Reader

/-- A reader at the start of a text that can be read up to its end, where `failure` may strike. -/
def ofText (file source : Text) (failure : Option Text) : Reader :=
  let input := Lines.ofText failure source
  {file, lines := input.lines, failure := input.failure}

/-- What waiting lines and a failure can still yield. -/
def cost (lines : List Text) (failure : Option Text) : Nat :=
  lines.length + lines.flatten.length + failure.isSome.toNat

def budget (r : Reader) : Nat := r.pending.length + cost r.lines r.failure

/-- Goes on to the next line that holds a statement. -/
def advance (labels : Labels) (file : Text) (failure : Option Text) :
    (line : Nat) → List Attribute → List Text → Option (Statement × Reader)
  | line, attributes, [] =>
    failure.map fun reason =>
      (.unreadable (.reading file reason) true ⟨file, line⟩,
        {file, lines := [], failure := none, line, attributes})
  | line, attributes, text :: lines =>
    let pos : Position := ⟨file, (line + 1 : Nat)⟩
    let after : Reader := {file, lines, failure, line := line + 1, attributes}
    match Line.items pos attributes text with
    | .error e => some (.unreadable (.malformed e) false pos, after)
    | .ok ([], attributes) => advance labels file failure (line + 1) attributes lines
    | .ok (item :: pending, attributes) =>
      some (item.statement labels, {after with pending, attributes})

def next (labels : Labels) (r : Reader) : Option (Statement × Reader) :=
  match r.pending with
  | item :: pending => some (item.statement labels, {r with pending})
  | [] => advance labels r.file r.failure r.line r.attributes r.lines

theorem advance_budget {labels : Labels} {file : Text} {failure : Option Text} {line : Nat}
    {attributes : List Attribute} {lines : List Text} {st : Statement} {r : Reader}
    (h : advance labels file failure line attributes lines = some (st, r)) :
    r.budget < cost lines failure := by
  induction lines generalizing line attributes with
  | nil =>
    cases failure with
    | none => simp [advance] at h
    | some reason =>
      cases h
      simp [budget, cost]
  | cons text lines ih =>
    unfold advance at h
    simp only at h
    have hcost : cost (text :: lines) failure = text.length + 1 + cost lines failure := by
      simp only [cost, List.length_cons, List.flatten_cons, List.length_append]
      omega
    rw [hcost]
    split at h
    · cases h
      simp only [budget, List.length_nil]
      omega
    · exact Nat.lt_of_lt_of_le (ih h) (by omega)
    · rename_i item pending attributes' hitems
      cases h
      have := Line.length_items hitems
      simp only [budget, List.length_cons] at *
      omega

theorem next_budget {labels : Labels} {r r' : Reader} {st : Statement}
    (h : r.next labels = some (st, r')) : r'.budget < r.budget := by
  unfold next at h
  split at h
  · rename_i hp
    cases h
    simp only [budget, hp, List.length_cons]
    omega
  · rename_i hp
    have := advance_budget h
    simp only [budget, hp, List.length_nil] at *
    omega

end Reader

inductive Source
  | text (r : Reader)
  | statements (sts : List Statement)
  deriving DecidableEq, Repr

namespace Source

def next (labels : Labels) : Source → Option (Statement × Source)
  | text r => (r.next labels).map fun (st, r) => (st, text r)
  | statements [] => none
  | statements (st :: sts) => some (st, statements sts)

def budget : Source → Nat
  | text r => r.budget
  | statements sts => sts.length

theorem next_budget {labels : Labels} {s s' : Source} {st : Statement}
    (h : s.next labels = some (st, s')) : s'.budget < s.budget := by
  unfold next at h
  split at h
  · obtain ⟨⟨st', r'⟩, hr, he⟩ := Option.map_eq_some_iff.1 h
    cases he
    exact Reader.next_budget hr
  · cases h
  · cases h
    simp [budget]

end Source
end Assembler65816
