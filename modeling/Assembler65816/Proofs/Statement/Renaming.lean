import Assembler65816.Proofs.Assembly.Sections
import Assembler65816.Proofs.Chunk.Renaming
import Assembler65816.Proofs.Statement.Mentions

/-!
# Statements read further down

A text that is read further down, after more labels, gives the same statement with its references
renamed and its line moved, if every backward label it mentions is known in both places. Such a
statement contributes what the original one contributes: the same bytes, the same open fields up to
the names, faults of the same kinds.
-/
namespace Assembler65816

def Operand.renamed (ρ : Ident → Ident) (o : Operand) : Operand := {o with expr := o.expr.renamed ρ}

def DataRef.renamed (ρ : Ident → Ident) (r : DataRef) : DataRef := {r with expr := r.expr.renamed ρ}

namespace Statement

def renamed (ρ : Ident → Ident) : Statement → Statement
  | define name value pos => define name (value.renamed ρ) pos
  | data bytes refs pos => data bytes (refs.map (DataRef.renamed ρ)) pos
  | instruction i => instruction {i with arg := i.arg.renamed ρ}
  | st => st

def later (k : Nat) : Statement → Statement
  | define name value pos => define name value (pos.later k)
  | topLabel name attributes pos => topLabel name attributes (pos.later k)
  | data bytes refs pos => data bytes refs (pos.later k)
  | instruction i => instruction {i with pos := i.pos.later k}
  | unreadable cause fatal pos => unreadable cause fatal (pos.later k)
  | st => st

/-- Whether a statement is the other one with its references renamed and its line moved. Why a text
could not be read may differ. -/
inductive Like (ρ : Ident → Ident) (k : Nat) : Statement → Statement → Prop
  | moved (st : Statement) : Like ρ k st ((st.renamed ρ).later k)
  | unreadable (cause cause' : Cause) (pos : Position) :
      Like ρ k (.unreadable cause false pos) (.unreadable cause' false (pos.later k))

end Statement

section Reading
variable {l : Labels} (d : Labels)

theorem Expression.under?_shift {e u : Expression} (h : e.under? l = some u) :
    e.under? (l.shift d) = some (u.renamed (Ident.shift d)) := by
  obtain ⟨t, ht, rfl⟩ := Option.map_eq_some_iff.1 h
  rw [under?, Term.under?_shift d ht]
  rfl

theorem DataRef.mapM_under?_shift {refs us : List DataRef}
    (h : refs.mapM (DataRef.under? l) = some us) :
    refs.mapM (DataRef.under? (l.shift d)) = some (us.map (DataRef.renamed (Ident.shift d))) := by
  induction refs generalizing us with
  | nil =>
    cases h
    rfl
  | cons r refs ih =>
    rw [List.mapM_cons] at h
    obtain ⟨u, hu, h⟩ := Option.bind_eq_some_iff.1 h
    obtain ⟨us', hus, h⟩ := Option.bind_eq_some_iff.1 h
    cases h
    obtain ⟨e, he, rfl⟩ := Option.map_eq_some_iff.1 hu
    have hr : r.under? (l.shift d) = some ({r with expr := e}.renamed (Ident.shift d)) := by
      rw [under?, Expression.under?_shift d he]
      rfl
    rw [List.mapM_cons, hr, ih hus]
    rfl

namespace Statement

theorem under?_shift {st u : Statement} (h : st.under? l = some u) :
    st.under? (l.shift d) = some (u.renamed (Ident.shift d)) := by
  cases st with
  | define name value pos =>
    obtain ⟨e, he, rfl⟩ := Option.map_eq_some_iff.1 h
    rw [under?, Expression.under?_shift d he]
    rfl
  | data bytes refs pos =>
    obtain ⟨us, hus, rfl⟩ := Option.map_eq_some_iff.1 h
    rw [under?, DataRef.mapM_under?_shift d hus]
    rfl
  | instruction i =>
    obtain ⟨e, he, rfl⟩ := Option.map_eq_some_iff.1 h
    rw [under?, Expression.under?_shift d he]
    rfl
  | _ =>
    cases h
    rfl

/-- Where a text stands matters for the line that its statement names and for nothing else. -/
theorem read_later (l : Labels) (s : Text) (pos : Position) (k : Nat) :
    Statement.read l s (pos.later k) = (Statement.read l s pos).map (later k) := by
  unfold Statement.read
  split
  · cases Directive.readTerm l _ <;> rfl
  · simp only
    split
    · unfold Directive.read
      split
      · unfold Directive.values
        split
        · rfl
        · cases Directive.images l _ 0 _ <;> rfl
      · simp only
        split <;> rfl
    · unfold readInstruction
      simp only
      cases (readMnemonic _).2 with
      | error e => rfl
      | ok size => cases Operand.read l _ <;> rfl

end Statement
end Reading

namespace Line.Item

def later (k : Nat) : Item → Item
  | ready st => ready (st.later k)
  | written s pos => written s (pos.later k)

/-- An item that is read further down, after more labels. -/
theorem statement_like {item : Item} (hitem : item.Lawful) {l : Labels}
    (hknows : ∀ m ∈ item.mentions, l.knows m) (d : Labels) (k : Nat) :
    (item.statement l).Like (Ident.shift d) k ((item.later k).statement (l.shift d)) := by
  cases hitem with
  | label attributes pos head h =>
    cases head with
    | anonymous direction count => cases direction <;> exact .moved _
    | _ => exact .moved _
  | unreadable cause fatal pos => exact .moved (.unreadable cause fatal pos)
  | written s pos =>
    have hhere := Statement.read_lookedUp l s pos
    have hthere := Statement.read_lookedUp (l.shift d) s pos
    simp only [later, statement, Statement.read_later]
    simp only [mentions, statement] at hknows
    generalize hx : Statement.read l s pos = x at hhere ⊢
    generalize hy : Statement.read (l.shift d) s pos = y at hthere ⊢
    cases hw : Statement.read .asWritten s pos with
    | error cause =>
      rw [hw] at hhere hthere
      cases hhere
      cases hthere
      exact .unreadable _ _ pos
    | ok st =>
      rw [hw] at hhere hthere hknows
      cases hhere with
      | found hunder =>
        have hshift := Statement.under?_shift d hunder
        cases hthere with
        | found hunder' =>
          cases hshift.symm.trans hunder'
          exact .moved _
        | missing e hunder' => cases hshift.symm.trans hunder'
      | missing e hunder =>
        obtain ⟨id, hid, hunknown⟩ := Statement.under?_eq_none hunder
        have := hknows id.mention (List.mem_map_of_mem hid)
        rw [hunknown] at this
        cases this

end Line.Item

namespace Operand
variable (ρ : Ident → Ident) (o : Operand)

theorem candidates_renamed : (o.renamed ρ).candidates = o.candidates := by
  have hvalue : (o.renamed ρ).expr.value? = o.expr.value? := Term.value?_renamed ρ o.expr.term
  have hselector : (o.renamed ρ).expr.term.isSelector = o.expr.term.isSelector :=
    Term.isSelector_renamed ρ o.expr.term
  simp only [candidates, hvalue, hselector]

/-- The texts of the failures may differ. -/
theorem mode_renamed (size : Size) :
    (∃ mode, o.mode size = .ok mode ∧ (o.renamed ρ).mode size = .ok mode) ∨
      ∃ e e', o.mode size = .error e ∧ (o.renamed ρ).mode size = .error e' := by
  have hempty : (o.renamed ρ).expr.isEmpty = o.expr.isEmpty := Term.isEmpty_renamed ρ o.expr.term
  have hform : (o.renamed ρ).form = o.form := rfl
  unfold mode
  rw [hform, hempty]
  generalize size.meet? o.form.size = meet
  generalize o.form = form
  cases meet with
  | none => exact .inr ⟨_, _, rfl, rfl⟩
  | some s =>
    cases form with
    | none | accumulator =>
      by_cases hs : s = .any ∨ s = .implicit
      · exact .inl ⟨_, if_pos hs, if_pos hs⟩
      · exact .inr ⟨_, _, if_neg hs, if_neg hs⟩
    | _ =>
      by_cases hs : !o.expr.isEmpty ∧ s = .implicit
      · exact .inr ⟨_, _, if_pos hs, if_pos hs⟩
      · simp only [if_neg hs]
        cases Form.mode? _ s with
        | none => exact .inr ⟨_, _, rfl, rfl⟩
        | some mode => exact .inl ⟨mode, rfl, rfl⟩

theorem inferSize_renamed (mnemonic : Text) :
    (o.renamed ρ).inferSize mnemonic = o.inferSize mnemonic := by
  have hencodable : (o.renamed ρ).isEncodable mnemonic = o.isEncodable mnemonic := by
    funext size
    rcases o.mode_renamed ρ size with ⟨mode, h, h'⟩ | ⟨e, e', h, h'⟩ <;>
      simp only [isEncodable, h, h']
  rw [inferSize, candidates_renamed, hencodable, inferSize]

end Operand

namespace Segment
variable (ρ : Ident → Ident) (k : Nat)

def Assembled.renamed (a : Assembled) : Assembled :=
  {a with operand := a.operand.map (Expression.renamed ρ)}

theorem settleSize_renamed (i : Instruction) (pos : Position) :
    settleSize {i with arg := i.arg.renamed ρ, pos} = settleSize i := by
  have hsize : (i.arg.renamed ρ).expr.size = i.arg.expr.size := rfl
  have hform : (i.arg.renamed ρ).form = i.arg.form := rfl
  simp only [settleSize, hsize, hform, Operand.inferSize_renamed]

theorem assemble_renamed (label : Text) (i : Instruction) :
    let i' : Instruction := {i with arg := i.arg.renamed ρ, pos := i.pos.later k}
    (∃ a, assemble label i = .ok a ∧ assemble label i' = .ok (a.renamed ρ)) ∨
      ∃ d d', assemble label i = .error d ∧ assemble label i' = .error d' ∧ d.Like k d' := by
  intro i'
  have hempty : (i.arg.renamed ρ).expr.isEmpty = i.arg.expr.isEmpty :=
    Term.isEmpty_renamed ρ i.arg.expr.term
  have hconstant : (i.arg.renamed ρ).expr.isConstant = i.arg.expr.isConstant :=
    Term.isConstant_renamed ρ i.arg.expr.term
  have hvalue : (i.arg.renamed ρ).expr.value? = i.arg.expr.value? :=
    Term.value?_renamed ρ i.arg.expr.term
  have hencoded : ∀ mode, Encoded.of i.mnemonic mode (i.arg.renamed ρ).expr =
      Encoded.of i.mnemonic mode i.arg.expr := by
    intro mode
    simp only [Encoded.of, Mode.operandField, hvalue]
  simp only [i', assemble, hempty, hconstant, hvalue, settleSize_renamed, hencoded]
  split
  · exact .inr ⟨_, _, rfl, rfl, rfl, rfl, rfl, rfl, fun _ => rfl⟩
  split
  · exact .inr ⟨_, _, rfl, rfl, rfl, rfl, rfl, rfl, fun _ => rfl⟩
  cases settleSize i with
  | none => exact .inr ⟨_, _, rfl, rfl, rfl, rfl, rfl, rfl, fun _ => rfl⟩
  | some size =>
    rcases i.arg.mode_renamed ρ size with ⟨mode, h, h'⟩ | ⟨e, e', h, h'⟩
    · simp only [h, h']
      cases Encoded.of i.mnemonic mode i.arg.expr with
      | error e => exact .inr ⟨_, _, rfl, rfl, rfl, rfl, rfl, rfl, fun _ => rfl⟩
      | ok encoded =>
        refine .inl ⟨_, rfl, ?_⟩
        simp only [Assembled.renamed]
        split <;> rfl
    · simp only [h, h']
      exact .inr ⟨_, _, rfl, rfl, rfl, rfl, rfl, rfl, fun _ => rfl⟩

end Segment

theorem Instruction.assembled?_renamed (ρ : Ident → Ident) (k : Nat) (i : Instruction) :
    ({i with arg := i.arg.renamed ρ, pos := i.pos.later k} : Instruction).assembled? =
      i.assembled?.map (Segment.Assembled.renamed ρ) := by
  unfold assembled?
  rcases Segment.assemble_renamed ρ k [] i with ⟨a, h, h'⟩ | ⟨d, d', h, h', -⟩ <;> rw [h, h'] <;> rfl

theorem Segment.reference_renamed (ρ : Ident → Ident) (k : Nat) (label : Text) (pos : Position)
    (base length : Nat) (r : DataRef) :
    (∃ f, reference label pos base length r = .ok f ∧
      reference label (pos.later k) base length (r.renamed ρ) = .ok (f.renamed ρ)) ∨
    ∃ d d', reference label pos base length r = .error d ∧
      reference label (pos.later k) base length (r.renamed ρ) = .error d' ∧ d.Like k d' := by
  have hoffset : (r.renamed ρ).offset = r.offset := rfl
  have hsize : (r.renamed ρ).expr.size = r.expr.size := rfl
  simp only [reference, hoffset, hsize]
  split
  · exact .inl ⟨_, rfl, rfl⟩
  · exact .inr ⟨_, _, rfl, rfl, rfl, rfl, rfl, rfl, fun _ => rfl⟩

namespace Statement.Like

variable {ρ : Ident → Ident} {k : Nat} {st st' : Statement}

theorem isFatal (h : st.Like ρ k st') : st'.isFatal = st.isFatal := by
  cases h with
  | unreadable => rfl
  | moved => cases st <;> rfl

theorem image (h : st.Like ρ k st') : st'.image = st.image := by
  cases h with
  | unreadable => rfl
  | moved =>
    cases st with
    | instruction i =>
      simp only [renamed, later, Statement.image, i.assembled?_renamed ρ k, Option.map_map]
      rfl
    | _ => rfl

theorem diverges (h : st.Like ρ k st') (before : Bool) :
    st'.diverges before = st.diverges before := by
  cases h with
  | unreadable => rfl
  | moved =>
    cases st with
    | instruction i =>
      simp only [renamed, later, Statement.diverges, i.assembled?_renamed ρ k, Option.map_map]
      rfl
    | _ => rfl

theorem openFields (h : st.Like ρ k st') (base : Nat) :
    st'.openFields base = (st.openFields base).map (Fixup.renamed ρ) := by
  cases h with
  | unreadable => rfl
  | moved =>
    cases st with
    | instruction i =>
      simp only [renamed, later, Statement.openFields, i.assembled?_renamed ρ k]
      cases i.assembled? with
      | none => rfl
      | some a => cases ha : a.operand <;> simp [Segment.Assembled.renamed, ha, Fixup.renamed]
    | data bytes refs pos =>
      simp only [renamed, later, Statement.openFields, List.filter_map, List.map_map]
      rfl
    | _ => rfl

theorem faults (h : st.Like ρ k st') (label : Text) :
    List.Forall₂ (Diagnostic.Like k) (st.faults label) (st'.faults label) := by
  cases h with
  | unreadable => exact .nil
  | moved =>
    cases st with
    | instruction i =>
      simp only [renamed, later, Statement.faults]
      rcases Segment.assemble_renamed ρ k label i with ⟨a, h, h'⟩ | ⟨d, d', h, h', hlike⟩
      · simp only [h, h']
        exact .nil
      · simp only [h, h']
        exact .cons hlike .nil
    | data bytes refs pos =>
      simp only [renamed, later, Statement.faults]
      induction refs with
      | nil => exact .nil
      | cons r refs ih =>
        rw [List.map_cons, List.filterMap_cons, List.filterMap_cons]
        rcases Segment.reference_renamed ρ k label pos 0 bytes.length r with
          ⟨f, h, h'⟩ | ⟨d, d', h, h', hlike⟩
        · simp only [h, h']
          exact ih
        · simp only [h, h']
          exact .cons hlike ih
    | unknown => exact .cons ⟨rfl, rfl, rfl, rfl, fun _ => rfl⟩ .nil
    | _ => exact .nil

theorem early? (h : st.Like ρ k st') (label : Text) :
    Option.Rel (Output.Like ρ k) (st.early? label) (st'.early? label) := by
  cases h with
  | unreadable cause cause' pos => exact .some (.error ⟨rfl, rfl, rfl, rfl, fun h => absurd rfl h⟩)
  | moved =>
    cases st with
    | define name value pos => exact .some (.define name value)
    | unreadable cause fatal pos =>
      cases fatal with
      | true => exact .none
      | false => exact .some (.error ⟨rfl, rfl, rfl, rfl, fun _ => rfl⟩)
    | _ => exact .none

theorem after (h : st.Like ρ k st') (l d : Labels) : (l.shift d).after st' = (l.after st).shift d := by
  cases h with
  | unreadable => rfl
  | moved =>
    cases st with
    | topLabel name attributes pos => exact l.enterScope_shift d
    | backwardLabel count => exact congrArg Prod.snd (l.defineBackward_shift d count)
    | forwardLabel count => exact congrArg Prod.snd (l.defineForward_shift d count)
    | localLabel depth name => exact congrArg Prod.snd (l.defineLocal_shift d depth name)
    | _ => rfl

theorem identity? (h : st.Like ρ k st') (l d : Labels) :
    (l.shift d).identity? st' = (l.identity? st).map (Ident.shift d) := by
  cases h with
  | unreadable => rfl
  | moved =>
    cases st with
    | backwardLabel count =>
      exact congrArg (fun p => some p.1) (l.defineBackward_shift d count)
    | forwardLabel count => exact congrArg (fun p => some p.1) (l.defineForward_shift d count)
    | localLabel depth name =>
      exact congrArg (fun p => some p.1) (l.defineLocal_shift d depth name)
    | _ => rfl

end Statement.Like

end Assembler65816
