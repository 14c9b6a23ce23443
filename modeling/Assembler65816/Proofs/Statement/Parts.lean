import Assembler65816.Proofs.Chunk.Layout
import Assembler65816.Proofs.Operand.Encoding
import Assembler65816.Proofs.Source.Items

/-!
# The parts of a statement

What a written statement puts into a chunk, as a row of parts: the opcode byte and the operand field
of an instruction, the strings and fields of a data directive. The main statement is that the image
of a statement without faults is what its parts start out as, and that the fields it leaves open are
those of its parts.
-/
namespace Assembler65816

namespace Part

theorem openFrom_append (u : Nat) (ps qs : List Part) :
    openFrom u (ps ++ qs) = openFrom u ps ++ openFrom (u + (ps.flatMap initial).length) qs := by
  induction ps generalizing u with
  | nil => rfl
  | cons p ps ih =>
    rw [List.flatMap_cons, List.length_append, ← Nat.add_assoc]
    cases p with
    | literal bytes => exact ih _
    | field size t sameBank =>
      rw [length_initial, width]
      cases h : t.value? with
      | some v => simp only [List.cons_append, openFrom, h, ih]
      | none => simp only [List.cons_append, openFrom, h, ih]

end Part

/-- Whether a statement that starts at `base` is a row of parts. -/
structure Statement.Row (st : Statement) (base : Nat) (parts : List Part) : Prop where
  image : st.image = parts.flatMap Part.initial
  openFields : st.openFields base = Part.openFrom base parts
  valid : ∀ p ∈ parts, p.Valid

/-- The opcode byte and the operand field, if the mode has one. -/
def Instruction.parts (i : Instruction) : List Part :=
  match i.encoding? with
  | some (mode, b) =>
    .literal [b] :: if mode.width = 0 then [] else [.field mode.size i.arg.expr.term true]
  | none => []

/-- An operand as it is read: with an expression exactly if the form takes one. -/
structure Operand.IsRead (labels : Labels) (o : Operand) : Prop where
  bare : o.form.isBare → o.expr.term = .empty
  term : o.form.isBare = false → ∃ s, Term.read labels s = .ok o.expr.term

theorem Shape.isBare_of_first? {shapes : List (Form × (Text → Option Text))} {s : Text}
    {p : Form × Text} (hshapes : ∀ q ∈ shapes, q.1.isBare = false)
    (h : Shape.first? shapes s = some p) : p.1.isBare = false := by
  obtain ⟨q, hq, hp⟩ := List.exists_of_findSome?_eq_some h
  obtain ⟨body, -, rfl⟩ := Option.map_eq_some_iff.1 hp
  exact hshapes q hq

theorem Shape.isBare_of (s : Text) : (Shape.of s).1.isBare = false := by
  have hwrapped : ∀ q ∈ wrapped, q.1.isBare = false := by decide
  have hbare : ∀ q ∈ bare, q.1.isBare = false := by decide
  unfold Shape.of
  simp only
  generalize hshaped : Option.or _ _ = shaped
  cases shaped with
  | none => rfl
  | some p =>
    rw [Option.or_eq_some_iff, Option.or_eq_some_iff] at hshaped
    rcases hshaped with (h | ⟨-, h⟩) | ⟨-, h⟩
    · obtain ⟨body, -, rfl⟩ := Option.map_eq_some_iff.1 h
      rfl
    · split at h
      · exact isBare_of_first? hwrapped h
      · cases h
    · exact isBare_of_first? hbare h

theorem Operand.isRead_of_read {labels : Labels} {s : Text} {o : Operand}
    (h : Operand.read labels s = .ok o) : o.IsRead labels := by
  unfold Operand.read at h
  simp only at h
  split at h
  · cases h
    exact ⟨fun _ => rfl, fun hb => by cases hb⟩
  split at h
  · cases h
    exact ⟨fun _ => rfl, fun hb => by cases hb⟩
  · cases ht : Term.read labels (Shape.of s.trim).2 with
    | error e =>
      rw [ht] at h
      cases h
    | ok t =>
      rw [ht] at h
      cases h
      have hbare := Shape.isBare_of s.trim
      refine ⟨fun hb => ?_, fun _ => ⟨_, ht⟩⟩
      rw [hbare] at hb
      cases hb

namespace Instruction.Image

variable {i : Instruction} {m : Mnemonic} {mode : Mode} {b : UInt8} {bs : List UInt8}

theorem row_bare (hi : i.Image m mode b bs) (hbare : i.arg.form.isBare)
    (hempty : i.arg.expr.term = .empty) (base : Nat) :
    (Statement.instruction i).Row base i.parts := by
  have hzero : mode.width = 0 := by rw [Mode.width, hi.bare hbare]; rfl
  have hparts : i.parts = [.literal [b]] := by
    simp only [parts, hi.encoding, hzero, if_true]
  have hnone : bs = [] := by
    rw [← List.length_eq_zero_iff, Mode.length_operandField hi.field, hzero]
  have hsettled : i.isSettled := by
    simp [isSettled, Expression.isEmpty, hempty, Term.isEmpty]
  rw [hparts]
  refine ⟨by rw [hi.image, hnone]; rfl, ?_, ?_⟩
  · rw [hi.openFields, if_pos hsettled]
    rfl
  · intro p hp
    cases List.mem_singleton.1 hp
    trivial

theorem row_field (hi : i.Image m mode b bs) (hbare : i.arg.form.isBare = false)
    (hterm : i.arg.expr.term.isWritten) (base : Nat) :
    (Statement.instruction i).Row base i.parts := by
  have hempty : i.arg.expr.isEmpty = false := Term.isEmpty_of_isWritten hterm
  have hpos := hi.width_pos hbare
  have hparts : i.parts = [.literal [b], .field mode.size i.arg.expr.term true] := by
    simp only [parts, hi.encoding, if_neg (Nat.pos_iff_ne_zero.1 hpos)]
  have hvalid : (∀ v, i.arg.expr.term.value? = some v → mode.size.Holds i.arg.expr.term v) →
      ∀ p ∈ [Part.literal [b], .field mode.size i.arg.expr.term true], p.Valid := by
    intro hholds p hp
    rcases List.mem_cons.1 hp with rfl | hp
    · trivial
    · cases List.mem_singleton.1 hp
      exact ⟨hterm, hholds⟩
  rw [hparts]
  cases hv : i.arg.expr.term.value? with
  | some v =>
    have hconstant : i.arg.expr.isConstant :=
      Term.isConstant_of_isWritten hterm (Term.references_of_value? hv)
    obtain ⟨rfl, hholds⟩ := Mode.operandField_of_some hi.field hv
    refine ⟨?_, ?_, hvalid fun w hw => ?_⟩
    · rw [hi.image]
      simp [Part.initial, hv, Mode.width]
    · rw [hi.openFields, hi.settled hbare hempty, if_pos hconstant]
      simp [Part.openFrom, hv]
    · cases hv.symm.trans hw
      exact hholds hpos _ hconstant
  | none =>
    have hconstant : ¬i.arg.expr.isConstant := by
      intro hc
      have hsome := hi.folds hbare hempty hc
      rw [Expression.value?, hv] at hsome
      cases hsome
    have hzeros := Mode.operandField_of_none hi.field hv
    refine ⟨?_, ?_, hvalid fun w hw => ?_⟩
    · rw [hi.image, hzeros]
      simp [Part.initial, hv, Mode.width]
    · rw [hi.openFields, hi.settled hbare hempty, if_neg hconstant]
      simp [Part.openFrom, hv, Expression.map, Expression.sized]
    · cases hv.symm.trans hw

end Instruction.Image

theorem Instruction.row {i : Instruction} {labels : Labels} (hread : i.arg.IsRead labels)
    {a : Segment.Assembled} (ha : i.assembled? = some a) (base : Nat) :
    (Statement.instruction i).Row base i.parts := by
  obtain ⟨m, mode, b, bs, hi⟩ := exists_image ha
  cases hbare : i.arg.form.isBare with
  | true => exact hi.row_bare hbare (hread.bare hbare) base
  | false =>
    obtain ⟨s, hs⟩ := hread.term hbare
    exact hi.row_field hbare (Term.isWritten_of_read hs) base

/-- The string or the field that an argument of a directive stands for. -/
def DataItem.parts (labels : Labels) (size : Size) (item : DataItem) : List Part :=
  if item.quoted then [.literal item.value]
  else ((Term.read labels item.value).toOption.map fun t => Part.field size t false).toList

def DataRef.fixup (base : Nat) (r : DataRef) : Fixup :=
  ⟨Int64.ofNat base + r.offset, r.expr.map id, false⟩

namespace Directive

theorem readTerm_of_ok {labels : Labels} {s : Text} {t : Term} (h : Term.read labels s = .ok t) :
    readTerm labels s = .ok t := by
  rw [readTerm, h]
  rfl

theorem readTerm_of_error {labels : Labels} {s : Text} {e : ExprError}
    (h : Term.read labels s = .error e) :
    readTerm labels s = .error (.malformed (.expression e)) := by
  rw [readTerm, h]
  rfl

section Image
variable {labels : Labels} {size : Size} {base : Nat} {item : DataItem} {bytes : List UInt8}
  {refs : List DataRef}

theorem image_of_quoted (hquoted : item.quoted)
    (h : image labels size base item = .ok (bytes, refs)) : bytes = item.value ∧ refs = [] := by
  rw [image, if_pos hquoted] at h
  cases h
  exact ⟨rfl, rfl⟩

/-- An argument that is not quoted is a term, which is written at once if its value is known. -/
theorem image_of_term (hquoted : ¬item.quoted)
    (h : image labels size base item = .ok (bytes, refs)) :
    ∃ t, Term.read labels item.value = .ok t ∧
      ((∃ v, t.value? = some v ∧ Field.plain size v = .ok bytes ∧ refs = []) ∨
        t.value? = none ∧ bytes = List.replicate size.width 0 ∧
          refs = [⟨Int64.ofNat base, .sized t size⟩]) := by
  rw [image, if_neg hquoted] at h
  cases ht : Term.read labels item.value with
  | error e =>
    rw [readTerm_of_error ht] at h
    cases h
  | ok t =>
    rw [readTerm_of_ok ht] at h
    simp only [bind, Except.bind] at h
    refine ⟨t, rfl, ?_⟩
    split at h
    · rename_i v hv
      cases hf : Field.plain size v with
      | error e =>
        rw [hf] at h
        cases h
      | ok field =>
        rw [hf] at h
        cases h
        exact .inl ⟨v, hv, hf, rfl⟩
    · rename_i hv
      cases h
      exact .inr ⟨hv, rfl, rfl⟩

theorem image_eq_ok (h : image labels size base item = .ok (bytes, refs)) :
    bytes = (item.parts labels size).flatMap Part.initial ∧
      (∀ u, refs.map (DataRef.fixup u) = Part.openFrom (u + base) (item.parts labels size)) ∧
      ∀ p ∈ item.parts labels size, p.Valid := by
  by_cases hquoted : item.quoted
  · obtain ⟨rfl, rfl⟩ := image_of_quoted hquoted h
    rw [DataItem.parts, if_pos hquoted]
    refine ⟨(List.append_nil _).symm, fun u => rfl, fun p hp => ?_⟩
    cases List.mem_singleton.1 hp
    trivial
  · obtain ⟨t, ht, hcases⟩ := image_of_term hquoted h
    have hparts : item.parts labels size = [.field size t false] := by
      rw [DataItem.parts, if_neg hquoted, ht]
      rfl
    have hvalid : (∀ v, t.value? = some v → size.Holds t v) →
        ∀ p ∈ [Part.field size t false], p.Valid := by
      intro hholds p hp
      cases List.mem_singleton.1 hp
      exact ⟨Term.isWritten_of_read ht, hholds⟩
    rw [hparts]
    rcases hcases with ⟨v, hv, hf, rfl⟩ | ⟨hv, rfl, rfl⟩
    · obtain ⟨hrel, hfits, rfl⟩ := Field.plain_eq_ok hf
      refine ⟨by simp [Part.initial, hv], fun u => by simp [Part.openFrom, hv], hvalid ?_⟩
      intro w hw
      cases hv.symm.trans hw
      rw [Size.Holds, hrel]
      exact hfits
    · refine ⟨by simp [Part.initial, hv], fun u => ?_, hvalid fun w hw => ?_⟩
      · simp [Part.openFrom, hv, DataRef.fixup, Expression.map, Expression.sized, Expression.term,
          Int64.ofNat_add]
      · cases hv.symm.trans hw

end Image

theorem images_cons_eq_ok {labels : Labels} {size : Size} {base : Nat} {item : DataItem}
    {items : List DataItem} {bytes : List UInt8} {refs : List DataRef}
    (h : images labels size base (item :: items) = .ok (bytes, refs)) :
    ∃ bytes₁ refs₁ bytes₂ refs₂, image labels size base item = .ok (bytes₁, refs₁) ∧
      images labels size (base + bytes₁.length) items = .ok (bytes₂, refs₂) ∧
      bytes = bytes₁ ++ bytes₂ ∧ refs = refs₁ ++ refs₂ := by
  unfold images at h
  cases hi : image labels size base item with
  | error e =>
    rw [hi] at h
    cases h
  | ok first =>
    rw [hi] at h
    simp only [bind, Except.bind] at h
    cases hr : images labels size (base + first.1.length) items with
    | error e =>
      rw [hr] at h
      cases h
    | ok rest =>
      rw [hr] at h
      cases h
      exact ⟨_, _, _, _, rfl, hr, rfl, rfl⟩

/-- The arguments of a directive one after the other. -/
theorem images_eq_ok {labels : Labels} {size : Size} {base : Nat} {items : List DataItem}
    {bytes : List UInt8} {refs : List DataRef}
    (h : images labels size base items = .ok (bytes, refs)) :
    bytes = (items.flatMap (DataItem.parts labels size)).flatMap Part.initial ∧
      (∀ u, refs.map (DataRef.fixup u) =
        Part.openFrom (u + base) (items.flatMap (DataItem.parts labels size))) ∧
      ∀ p ∈ items.flatMap (DataItem.parts labels size), p.Valid := by
  induction items generalizing base bytes refs with
  | nil =>
    cases h
    refine ⟨rfl, fun u => rfl, fun p hp => ?_⟩
    cases hp
  | cons item items ih =>
    obtain ⟨bytes₁, refs₁, bytes₂, refs₂, hfirst, hrest, rfl, rfl⟩ := images_cons_eq_ok h
    obtain ⟨hbytes₁, hrefs₁, hvalid₁⟩ := image_eq_ok hfirst
    obtain ⟨hbytes₂, hrefs₂, hvalid₂⟩ := ih hrest
    rw [List.flatMap_cons]
    refine ⟨by rw [List.flatMap_append, hbytes₁, hbytes₂], fun u => ?_, fun p hp => ?_⟩
    · rw [List.map_append, hrefs₁, hrefs₂, Part.openFrom_append, ← hbytes₁, Nat.add_assoc]
    · rcases List.mem_append.1 hp with hp | hp
      · exact hvalid₁ p hp
      · exact hvalid₂ p hp

end Directive

theorem Statement.inRange_of_faults {label : Text} {bytes : List UInt8} {refs : List DataRef}
    {pos : Position} (h : (Statement.data bytes refs pos).faults label = []) :
    ∀ r ∈ refs, Fixup.inRange bytes.length r.offset r.expr.size := by
  intro r hr
  have hnone := List.filterMap_eq_nil_iff.1 h r hr
  unfold Segment.reference at hnone
  by_cases hin : Fixup.inRange bytes.length r.offset r.expr.size
  · exact hin
  · rw [if_neg hin] at hnone
    cases hnone

/-- Data in which no reference is at fault leaves a field open for each of them. -/
theorem Statement.openFields_data {label : Text} {bytes : List UInt8} {refs : List DataRef}
    {pos : Position} (h : (Statement.data bytes refs pos).faults label = []) (base : Nat) :
    (Statement.data bytes refs pos).openFields base = refs.map (DataRef.fixup base) := by
  simp only [Statement.openFields]
  rw [List.filter_eq_self.2 (Statement.inRange_of_faults h)]
  rfl

namespace Line.Item

/-- The size and the arguments of a directive for values. -/
def values? : Item → Option (Size × List DataItem)
  | ready _ => none
  | written s _ =>
    let (head, args) := Statement.splitHead s
    if (Define.parts? s).isNone ∧ head.head? = some 46 then
      (Directive.valueSize? head.lower).map (·, DataItem.split args)
    else none

/-- The parts of what an item contributes, read under the given labels. -/
def parts (labels : Labels) (item : Item) : List Part :=
  match item.statement labels with
  | .instruction i => i.parts
  | .data bytes _ _ =>
    match item.values? with
    | some (size, items) => items.flatMap (DataItem.parts labels size)
    | none => [.literal bytes]
  | _ => []

end Line.Item

theorem Directive.values_eq_ok {labels : Labels} {size : Size} {args : Text} {pos : Position}
    {st : Statement} (h : Directive.values labels size args pos = .ok st) :
    ∃ bytes refs, Directive.images labels size 0 (DataItem.split args) = .ok (bytes, refs) ∧
      st = .data bytes refs pos := by
  unfold Directive.values at h
  split at h
  · cases h
  cases himages : Directive.images labels size 0 (DataItem.split args) with
  | error e =>
    rw [himages] at h
    cases h
  | ok p =>
    rw [himages] at h
    cases h
    exact ⟨_, _, rfl, rfl⟩

theorem Statement.readInstruction_eq_ok {labels : Labels} {head args : Text} {pos : Position}
    {st : Statement} (h : readInstruction labels head args pos = .ok st) :
    ∃ i, st = .instruction i ∧ Operand.read labels args = .ok i.arg := by
  unfold readInstruction at h
  simp only [bind, Except.bind] at h
  split at h
  · cases h
  cases ho : Operand.read labels args with
  | error e =>
    rw [ho] at h
    cases h
  | ok o =>
    rw [ho] at h
    cases h
    exact ⟨_, rfl, rfl⟩

/-- What a written text can turn out to be. -/
theorem Statement.read_eq_ok {labels : Labels} {s : Text} {pos : Position} {st : Statement}
    (h : Statement.read labels s pos = .ok st) :
    (∃ name s' t, Term.read labels s' = .ok t ∧ st = .define name (.ofTerm t) pos) ∨
    (∃ size items bytes refs, (Line.Item.written s pos).values? = some (size, items) ∧
      Directive.images labels size 0 items = .ok (bytes, refs) ∧ st = .data bytes refs pos) ∨
    (∃ bytes, (Line.Item.written s pos).values? = none ∧ st = .data bytes [] pos) ∨
    ∃ i, st = .instruction i ∧ i.arg.IsRead labels := by
  unfold Statement.read at h
  cases hdefine : Define.parts? s with
  | some p =>
    simp only [hdefine] at h
    cases ht : Term.read labels p.2 with
    | error e =>
      rw [Directive.readTerm_of_error ht] at h
      cases h
    | ok t =>
      rw [Directive.readTerm_of_ok ht] at h
      cases h
      exact .inl ⟨_, _, t, ht, rfl⟩
  | none =>
    simp only [hdefine] at h
    split at h
    · rename_i hdot
      have hvalues : (Line.Item.written s pos).values? =
          (Directive.valueSize? (splitHead s).1.lower).map (·, DataItem.split (splitHead s).2) := by
        simp [Line.Item.values?, hdefine, hdot]
      unfold Directive.read at h
      split at h
      · rename_i size hsize
        rw [hsize] at hvalues
        obtain ⟨bytes, refs, himages, rfl⟩ := Directive.values_eq_ok h
        exact .inr (.inl ⟨size, _, bytes, refs, hvalues, himages, rfl⟩)
      · rename_i hsize
        rw [hsize] at hvalues
        simp only at h
        split at h
        · cases h
          exact .inr (.inr (.inl ⟨_, hvalues, rfl⟩))
        · cases h
    · obtain ⟨i, rfl, harg⟩ := readInstruction_eq_ok h
      exact .inr (.inr (.inr ⟨i, rfl, Operand.isRead_of_read harg⟩))

namespace Line.Item

/-- The statement of an item is a row of its parts, unless it is at fault. -/
theorem row {item : Item} (hitem : item.Lawful) (labels : Labels) {label : Text}
    (hfaults : (item.statement labels).faults label = []) (base : Nat) :
    (item.statement labels).Row base (item.parts labels) := by
  have hinert : ∀ st : Statement, st.image = [] → st.openFields base = [] → st.Row base [] :=
    fun st himage hopen => ⟨himage, hopen, fun p hp => by cases hp⟩
  cases hitem with
  | label attributes pos head =>
    cases head with
    | anonymous direction count => cases direction <;> exact hinert _ rfl rfl
    | _ => exact hinert _ rfl rfl
  | unreadable cause fatal pos => exact hinert _ rfl rfl
  | written s pos =>
    cases hread : Statement.read labels s pos with
    | error cause =>
      have hst : (written s pos).statement labels = .unreadable cause false pos := by
        simp only [statement, hread]
      simp only [parts, hst]
      exact hinert _ rfl rfl
    | ok st =>
      have hst : (written s pos).statement labels = st := by simp only [statement, hread]
      rw [hst] at hfaults
      simp only [parts, hst]
      rcases Statement.read_eq_ok hread with ⟨name, s', t, -, rfl⟩ |
        ⟨size, items, bytes, refs, hvalues, himages, rfl⟩ | ⟨bytes, hvalues, rfl⟩ | ⟨i, rfl, hi⟩
      · exact hinert _ rfl rfl
      · obtain ⟨hbytes, hrefs, hvalid⟩ := Directive.images_eq_ok himages
        simp only [hvalues]
        exact ⟨hbytes, (Statement.openFields_data hfaults base).trans (hrefs base), hvalid⟩
      · simp only [hvalues]
        exact ⟨(List.append_nil _).symm, rfl, fun p hp => by cases List.mem_singleton.1 hp; trivial⟩
      · obtain ⟨a, ha⟩ := Instruction.exists_assembled? hfaults
        exact i.row hi ha base

end Line.Item
end Assembler65816
