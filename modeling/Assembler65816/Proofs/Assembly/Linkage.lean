import Assembler65816.Proofs.Assembly.TwoPass
import Assembler65816.Proofs.Statement.OpenFields

/-!
# What is left to the linker

A fixup is symbolic if something in it is for the linker to say: the value of a symbol, or where the
chunk lies. A field is stuck if nothing of that kind is left in it and it has no value either,
because it divides by zero or shifts too far. An instruction with an operand that is stuck as it is
written is at fault. In data, and where a distance between labels is what makes it stuck, a field
passes for one that is still open. The main statement is that these are all the fixups that are not
symbolic: there is one for each stuck field of a chunk, in order.
-/
namespace Assembler65816

namespace Term

/-- Whether a leaf is for the linker to know. -/
def isSymbol : Term → Bool
  | ref _ | offset _ => true
  | _ => false

def isSymbolic (t : Term) : Bool := t.leaves.any isSymbol

/-- Whether a folded term is made of constants and is none. -/
def isStuck : Term → Bool
  | constant _ => false
  | t => !t.isSymbolic

theorem isStuck_of_ne {t : Term} (h : ∀ v, t ≠ constant v) : t.isStuck = !t.isSymbolic := by
  cases t with
  | constant v => exact absurd rfl (h v)
  | _ => rfl

end Term

/-- The expression of a field that is stuck once the labels have their offsets. -/
def Part.stuck? (off : Ident → Option Nat) : Part → Option Expression
  | literal _ => none
  | field size t _ =>
    if (t.placed off).isStuck then some (.sized (t.placed off) size) else none

/-- The expression of an open field that is left over without a symbol in it. -/
def Fixup.leftover? (label : Text) (offsets : Offsets) (length : Nat) (f : Fixup) :
    Option Expression :=
  ((f.resolve label offsets length).outgoing?.filter (!·.expr.term.isSymbolic)).map Fixup.expr

/-- Of the open fields that are not at fault those are left over that are stuck. -/
theorem Fixup.leftover?_eq_stuck? {label : Text} {offsets : Offsets} {length : Nat} {f : Fixup}
    (hw : f.expr.term.isWritten) (hfailed : (f.resolve label offsets length).failed? = none) :
    f.leftover? label offsets length =
      Part.stuck? (fun id => offsets.lookup id) (.field f.size f.expr.term f.sameBank) := by
  obtain ⟨placed, hplaced⟩ : ∃ t, f.expr.term.placed (fun id => offsets.lookup id) = t := ⟨_, rfl⟩
  have hterm : (f.settle offsets).expr.term = placed := hplaced
  have hexpr : (f.settle offsets).expr = .sized placed f.size := by
    rw [← hplaced]
    rfl
  rw [leftover?, Part.stuck?, hplaced]
  rcases Fixup.resolve_cases label offsets length f with ⟨d, hr⟩ | ⟨hempty, -⟩ |
    ⟨v, hv, -, -, hr⟩ | ⟨k, hk, -, -, hr⟩ | ⟨hconstant, -, hr⟩ | ⟨-, -, hwrites, hr⟩
  · rw [hr] at hfailed
    cases hfailed
  · exact absurd (hplaced.trans (hterm.symm.trans hempty)) (Term.placed_ne_empty _ hw)
  · rw [hr, hterm.symm.trans hv]
    rfl
  · rw [hr, hterm.symm.trans hk]
    rfl
  · rw [hterm] at hconstant
    rw [hr, Term.isStuck_of_ne hconstant]
    simp only [Resolution.outgoing?, Option.filter_some, hterm]
    split
    · rw [Option.map_some, hexpr]
    · rfl
  · rw [hr]
    rcases hwrites with ⟨v, hv, -⟩ | ⟨k, hk, -⟩
    · rw [hterm.symm.trans hv]
      rfl
    · rw [hterm.symm.trans hk]
      rfl

/-- The fields of a row that are left over are its stuck fields. -/
theorem Part.leftovers_eq_stuck {label : Text} {offsets : Offsets} {length : Nat}
    {parts : List Part} (hvalid : ∀ part ∈ parts, part.Valid) {u : Nat}
    (hfailed : ∀ f ∈ openFrom u parts, (f.resolve label offsets length).failed? = none) :
    (openFrom u parts).filterMap (Fixup.leftover? label offsets length) =
      parts.filterMap (stuck? fun id => offsets.lookup id) := by
  induction parts generalizing u with
  | nil => rfl
  | cons part parts ih =>
    have hrest := fun p hp => hvalid p (List.mem_cons_of_mem part hp)
    cases part with
    | literal bytes => exact ih hrest hfailed
    | field size t sameBank =>
      cases hv : t.value? with
      | some v =>
        -- It was written at once, and placing the labels does not change it.
        have hstuck : stuck? (fun id => offsets.lookup id) (.field size t sameBank) = none := by
          rw [stuck?, Term.placed_of_value? _ hv]
          rfl
        rw [List.filterMap_cons_none hstuck]
        simp only [openFrom, hv] at hfailed ⊢
        exact ih hrest hfailed
      | none =>
        simp only [openFrom, hv] at hfailed ⊢
        have hfirst :
            Fixup.leftover? label offsets length ⟨Int64.ofNat u, .sized t size, sameBank⟩ =
              stuck? (fun id => offsets.lookup id) (.field size t sameBank) :=
          Fixup.leftover?_eq_stuck? (hvalid _ List.mem_cons_self).1 (hfailed _ List.mem_cons_self)
        have htail := ih hrest fun f hf => hfailed f (List.mem_cons_of_mem _ hf)
        rw [List.filterMap_cons, List.filterMap_cons, hfirst, htail]

section Chunk
variable {s : Section} {items : List Line.Item} (hitems : ∀ item ∈ items, item.Lawful)
  (hbody : s.body = (spots s.labels 0 items).map Spot.statement) (hfaults : s.faults = [])

include hitems hbody hfaults

theorem Section.leftovers_eq_stuck (hfixups : s.fixupFaults = []) :
    (s.segment.chunk.fixups.filter (!·.expr.term.isSymbolic)).map Fixup.expr =
      ((spots s.labels 0 items).flatMap Spot.parts).filterMap
        (Part.stuck? (offset? (spots s.labels 0 items))) := by
  obtain ⟨-, hopen, hoffsets, hvalid⟩ := Section.row_spots hitems hbody hfaults
  have hleftovers : (s.segment.chunk.fixups.filter (!·.expr.term.isSymbolic)).map Fixup.expr =
      s.fixups.filterMap (Fixup.leftover? s.label s.offsets s.bytes.length) := by
    have hfixups : s.segment.chunk.fixups =
        (s.fixups.map (Fixup.resolve s.label s.offsets s.bytes.length)).filterMap
          Resolution.outgoing? := rfl
    rw [hfixups, List.filterMap_map, List.filter_filterMap, List.map_filterMap]
    rfl
  rw [hleftovers, hopen, ← hoffsets]
  refine Part.leftovers_eq_stuck hvalid fun f hf => ?_
  rw [Section.fixupFaults, hopen] at hfixups
  exact List.filterMap_eq_nil_iff.1 hfixups _ (List.mem_map_of_mem hf)

/-- In a section without faults a constant operand has a value. -/
theorem Section.value?_of_isConstant {size : Size} {t : Term}
    (hfield : .field size t true ∈ (spots s.labels 0 items).flatMap Spot.parts)
    (hconstant : t.isConstant) : t.value?.isSome := by
  obtain ⟨p, hp, hfield⟩ := List.mem_flatMap.1 hfield
  have hmem : p.statement ∈ s.body := by
    rw [hbody]
    exact List.mem_map_of_mem hp
  obtain ⟨hwidth, ⟨i, mode, b, hst, hencoding, rfl, rfl, -⟩ | ⟨-, hdata⟩⟩ :=
    Line.Item.field_of_mem_parts hfield
  · have hnone : (Statement.instruction i).faults s.label = [] := by
      rw [← hst]
      exact List.flatMap_eq_nil_iff.1 hfaults _ hmem
    obtain ⟨a, ha⟩ := Instruction.exists_assembled? hnone
    obtain ⟨m, mode', b', bs, hi⟩ := Instruction.exists_image ha
    cases hencoding.symm.trans hi.encoding
    have hbare : i.arg.form.isBare = false := by
      refine Bool.eq_false_iff.2 fun hbare => ?_
      rw [hi.bare hbare] at hwidth
      cases hwidth
    have hwritten : i.arg.expr.term.isWritten := by
      have hrows := row_of_mem_spots s.label hitems (hbody ▸ hfaults) p hp
      exact (hrows.valid _ hfield).1
    exact hi.folds hbare (Term.isEmpty_of_isWritten hwritten) hconstant
  · cases hdata

end Chunk

/-- The fixups of a chunk that depend on nothing but constants are its stuck fields, one for each in
order. So all of them are symbolic if and only if no field of the chunk is stuck, and none is stuck
because of an operand that is constant as it is written. -/
theorem fixups_symbolic_iff_not_stuck {file source root label : Text} {failure : Option Text}
    {c : Chunk}
    (hc : .chunk label c ∈ assemble (.text (Reader.ofText file source failure)) {} root) :
    ∃ before body after,
      Stretch (if root.isEmpty then Assembly.rootLabel else root)
        (Reader.ofText file source failure).items label before body after ∧
      let ps := spots (Labels.through {} before) 0 body
      let stuck := (ps.flatMap Spot.parts).filterMap (Part.stuck? (offset? ps))
      (c.fixups.filter (!·.expr.term.isSymbolic)).map Fixup.expr = stuck ∧
        ((∀ f ∈ c.fixups, f.expr.term.isSymbolic) ↔ stuck = []) ∧
        ∀ size t, .field size t true ∈ ps.flatMap Spot.parts → t.isConstant → t.value?.isSome := by
  have hlawful := Reader.lawful_items_ofText file source failure
  rw [assemble, run_start hlawful, Reader.pulls_start hlawful] at hc
  obtain ⟨before, body, after, hstretch, s, hlabels, hbody, hfaults, hfixups, rfl⟩ :=
    fromStretch_of_mem_total (Section.root {} root) [] hlawful rfl
      (fun item hitem => by cases hitem) hc
  have hitems : ∀ item ∈ body, item.Lawful := by
    intro item hitem
    apply hlawful
    rw [show (Reader.ofText file source failure).items = before ++ body ++ after from
      hstretch.items_eq]
    simp [hitem]
  have hstuck := Section.leftovers_eq_stuck hitems hbody hfaults hfixups
  refine ⟨before, body, after, hstretch, ?_⟩
  rw [show Labels.through {} before = s.labels from hlabels.symm]
  refine ⟨hstuck, ?_, fun size t hfield => Section.value?_of_isConstant hitems hbody hfaults hfield⟩
  rw [← hstuck, List.map_eq_nil_iff, List.filter_eq_nil_iff]
  simp

/-- A division by the distance of a label to itself and one by zero are stuck, in an operand and in
data; a symbol over zero is not. -/
theorem fixups_symbolic_iff_not_stuck_of_divisions :
    let source := ascii "a: lda 1/(.x-.x)\n.x: .db 1/0, b/0\n"
    let zero : Term := .binary .div (.constant 1) (.constant 0)
    let symbol : Term := .binary .div (.ref (.global (ascii "b"))) (.constant 0)
    let c : Chunk :=
      { bytes := [0xAD, 0, 0, 0, 0]
        fixups := [⟨1, .sized zero .word, true⟩, ⟨3, .sized zero .byte, false⟩,
          ⟨4, .sized symbol .byte, false⟩]
        diverging := true }
    .chunk (ascii "a") c ∈ assemble (.text (Reader.ofText [] source none)) {} [] ∧
      ∃ before body after,
        Stretch Assembly.rootLabel (Reader.ofText [] source none).items (ascii "a") before body
          after ∧
        let ps := spots (Labels.through {} before) 0 body
        (ps.flatMap Spot.parts).filterMap (Part.stuck? (offset? ps)) =
          [.sized zero .word, .sized zero .byte] := by
  intro source zero symbol c
  have hmem : .chunk (ascii "a") c ∈ assemble (.text (Reader.ofText [] source none)) {} [] := by
    decide +kernel
  obtain ⟨before, body, after, hstretch, hstuck, -⟩ := fixups_symbolic_iff_not_stuck hmem
  exact ⟨hmem, before, body, after, hstretch, hstuck.symm⟩

/-- Not every fixup is symbolic. -/
theorem exists_fixup_not_symbolic :
    ¬∀ (file source root : Text) (failure : Option Text) (label : Text) (c : Chunk),
      .chunk label c ∈ assemble (.text (Reader.ofText file source failure)) {} root →
        ∀ f ∈ c.fixups, f.expr.term.isSymbolic := by
  intro h
  let zero : Fixup := ⟨0, .sized (.binary .div (.constant 1) (.constant 0)) .byte, false⟩
  have hmem : .chunk Assembly.rootLabel {bytes := [0], fixups := [zero], diverging := true} ∈
      assemble (.text (Reader.ofText [] (ascii ".db 1/0") none)) {} [] := by
    decide +kernel
  have hsymbolic := h _ _ _ _ _ _ hmem zero List.mem_cons_self
  revert hsymbolic
  decide

end Assembler65816
