import Assembler65816.Proofs.Statement.Parts

/-!
# Fields that are left open

The fields that a written statement leaves open are fields of its parts, and they lie within what it
contributes: an instruction leaves its operand open, a directive for values those of its arguments
that have no value yet. So a reference in data is never out of range, and every statement of a text
is a row of parts, whether or not it can be assembled.

Offsets are 64-bit numbers, so all this is about less than 2 ^ 63 bytes.
-/
namespace Assembler65816

/-- A field that ends within so many bytes is in range. -/
theorem Fixup.inRange_of_le {u length : Nat} {size : Size} (h : u + size.width ≤ length)
    (hlength : length < 2 ^ 63) : Fixup.inRange length (Int64.ofNat u) size := by
  have hsum : Int64.ofNat u + Int64.ofNat size.width = Int64.ofNat (u + size.width) :=
    (Int64.ofNat_add ..).symm
  have hstart : (0 : Int64) ≤ Int64.ofNat u := by
    rw [Int64.le_iff_toInt_le, Int64.toInt_ofNat_of_lt (by omega)]
    exact Int.natCast_nonneg u
  have hend : Int64.ofNat (u + size.width) ≤ Int64.ofNat length := by
    rw [Int64.le_iff_toInt_le, Int64.toInt_ofNat_of_lt (by omega), Int64.toInt_ofNat_of_lt hlength]
    exact Int.ofNat_le.2 h
  simp only [inRange, hsum, hstart, hend, decide_true, Bool.and_self]

/-- An open field of a row is one of its fields and lies within it. -/
theorem Part.exists_of_mem_openFrom {u : Nat} {parts : List Part} {f : Fixup}
    (h : f ∈ openFrom u parts) :
    ∃ w size t sameBank, f = ⟨Int64.ofNat w, .sized t size, sameBank⟩ ∧
      .field size t sameBank ∈ parts ∧ w + size.width ≤ u + (parts.flatMap initial).length := by
  induction parts generalizing u with
  | nil => cases h
  | cons part parts ih =>
    -- Whatever the first part is, the fields after it lie behind its width.
    have hrest : f ∈ openFrom (u + part.width) parts →
        ∃ w size t sameBank, f = ⟨Int64.ofNat w, .sized t size, sameBank⟩ ∧
          .field size t sameBank ∈ part :: parts ∧
          w + size.width ≤ u + ((part :: parts).flatMap initial).length := by
      intro hmem
      obtain ⟨w, size, t, sameBank, hf, hfield, hle⟩ := ih hmem
      refine ⟨w, size, t, sameBank, hf, List.mem_cons_of_mem part hfield, ?_⟩
      rw [List.flatMap_cons, List.length_append, length_initial]
      omega
    cases part with
    | literal bytes => exact hrest h
    | field size t sameBank =>
      cases hv : t.value? with
      | some v =>
        simp only [openFrom, hv] at h
        exact hrest h
      | none =>
        simp only [openFrom, hv] at h
        rcases List.mem_cons.1 h with rfl | h
        · refine ⟨u, size, t, sameBank, rfl, List.mem_cons_self, ?_⟩
          rw [List.flatMap_cons, List.length_append, length_initial, width]
          omega
        · exact hrest h

/-- A directive for values has fields of one to three bytes. -/
theorem Directive.valueSize?_eq_some {name : Text} {size : Size}
    (h : Directive.valueSize? name = some size) : 0 < size.width ∧ size.isRelative = false := by
  unfold Directive.valueSize? at h
  split at h
  · cases h
    decide
  split at h
  · cases h
    decide
  split at h
  · cases h
    decide
  · cases h

namespace Line.Item
variable {item : Item} {labels : Labels}

theorem valueSize_of_values? {size : Size} {items : List DataItem}
    (h : item.values? = some (size, items)) : 0 < size.width ∧ size.isRelative = false := by
  unfold values? at h
  split at h
  · cases h
  · simp only at h
    split at h
    · obtain ⟨size', hsize, he⟩ := Option.map_eq_some_iff.1 h
      cases he
      exact Directive.valueSize?_eq_some hsize
    · cases h

/-- A field of an item is the operand of an instruction, or an argument of a directive. -/
theorem field_of_mem_parts {size : Size} {t : Term} {sameBank : Bool}
    (h : .field size t sameBank ∈ item.parts labels) :
    0 < size.width ∧
      ((∃ i mode b, item.statement labels = .instruction i ∧ i.encoding? = some (mode, b) ∧
          size = mode.size ∧ t = i.arg.expr.term ∧ sameBank = true) ∨
        size.isRelative = false ∧ sameBank = false) := by
  unfold parts at h
  split at h
  · rename_i i hst
    unfold Instruction.parts at h
    split at h
    · rename_i mode b hencoding
      rcases List.mem_cons.1 h with h | h
      · cases h
      split at h
      · cases h
      · rename_i hwidth
        cases List.mem_singleton.1 h
        exact ⟨Nat.pos_of_ne_zero hwidth, .inl ⟨i, mode, b, hst, hencoding, rfl, rfl, rfl⟩⟩
    · cases h
  · split at h
    · rename_i hvalues
      obtain ⟨arg, -, h⟩ := List.mem_flatMap.1 h
      unfold DataItem.parts at h
      split at h
      · cases List.mem_singleton.1 h
      · obtain ⟨t', -, he⟩ := Option.map_eq_some_iff.1 (Option.mem_toList.1 h)
        cases he
        obtain ⟨hwidth, hplain⟩ := valueSize_of_values? hvalues
        exact ⟨hwidth, .inr ⟨hplain, rfl⟩⟩
    · cases List.mem_singleton.1 h
  · cases h

end Line.Item

/-- Whether a statement puts nothing into a chunk and is never at fault. -/
def Statement.isInert : Statement → Bool
  | data .. | instruction _ | unknown => false
  | _ => true

theorem Statement.faults_of_isInert (label : Text) {st : Statement} (h : st.isInert) :
    st.faults label = [] := by
  cases st with
  | data | instruction | unknown => cases h
  | _ => rfl

/-- References in the data of a directive are in range. -/
theorem Directive.inRange_of_images {labels : Labels} {size : Size} {items : List DataItem}
    {bytes : List UInt8} {refs : List DataRef}
    (h : Directive.images labels size 0 items = .ok (bytes, refs)) (hlength : bytes.length < 2 ^ 63)
    {r : DataRef} (hr : r ∈ refs) : Fixup.inRange bytes.length r.offset r.expr.size := by
  obtain ⟨hbytes, hrefs, -⟩ := Directive.images_eq_ok h
  have hmem : r.fixup 0 ∈ Part.openFrom 0 (items.flatMap (DataItem.parts labels size)) := by
    rw [← hrefs 0]
    exact List.mem_map_of_mem hr
  obtain ⟨w, size', t, sameBank, hf, -, hle⟩ := Part.exists_of_mem_openFrom hmem
  rw [← hbytes, Nat.zero_add] at hle
  have hoffset : r.offset = Int64.ofNat w := by
    have h0 : Int64.ofNat 0 + r.offset = r.offset := Int64.zero_add _
    exact h0.symm.trans (congrArg Fixup.offset hf)
  have hsize : r.expr.size = size' := congrArg Fixup.size hf
  rw [hoffset, hsize]
  exact Fixup.inRange_of_le hle hlength

namespace Line.Item
variable {item : Item}

/-- What the statement of an item can be. -/
theorem statement_forms (hitem : item.Lawful) (labels : Labels) :
    (item.statement labels).isInert ∨
    (∃ size items bytes refs pos, Directive.images labels size 0 items = .ok (bytes, refs) ∧
      item.statement labels = .data bytes refs pos) ∨
    (∃ bytes pos, item.statement labels = .data bytes [] pos) ∨
    ∃ i, item.statement labels = .instruction i ∧ i.arg.IsRead labels := by
  cases hitem with
  | label attributes pos head =>
    cases head with
    | anonymous direction count => cases direction <;> exact .inl rfl
    | _ => exact .inl rfl
  | unreadable cause fatal pos => exact .inl rfl
  | written s pos =>
    cases hread : Statement.read labels s pos with
    | error cause =>
      simp only [statement, hread]
      exact .inl rfl
    | ok st =>
      simp only [statement, hread]
      rcases Statement.read_eq_ok hread with ⟨name, s', t, -, rfl⟩ |
        ⟨size, items, bytes, refs, -, himages, rfl⟩ | ⟨bytes, -, rfl⟩ | ⟨i, rfl, hi⟩
      · exact .inl rfl
      · exact .inr (.inl ⟨size, items, bytes, refs, pos, himages, rfl⟩)
      · exact .inr (.inr (.inl ⟨bytes, pos, rfl⟩))
      · exact .inr (.inr (.inr ⟨i, rfl, hi⟩))

theorem isRead_of_instruction (hitem : item.Lawful) {labels : Labels} {i : Instruction}
    (h : item.statement labels = .instruction i) : i.arg.IsRead labels := by
  rcases statement_forms hitem labels with hinert | ⟨size, items, bytes, refs, pos, -, hst⟩ |
    ⟨bytes, pos, hst⟩ | ⟨i', hst, hread⟩
  · rw [h] at hinert
    cases hinert
  · cases h.symm.trans hst
  · cases h.symm.trans hst
  · cases h.symm.trans hst
    exact hread

/-- Nothing is wrong with a statement of a text, unless it is an instruction that cannot be
assembled. -/
theorem faults_cases (hitem : item.Lawful) (labels : Labels)
    (hlength : (item.statement labels).image.length < 2 ^ 63) :
    (∀ label, (item.statement labels).faults label = []) ∨
      ∃ i, item.statement labels = .instruction i ∧ i.assembled? = none := by
  rcases statement_forms hitem labels with hinert | ⟨size, items, bytes, refs, pos, himages, hst⟩ |
    ⟨bytes, pos, hst⟩ | ⟨i, hst, -⟩
  · exact .inl fun label => Statement.faults_of_isInert label hinert
  · rw [hst] at hlength ⊢
    refine .inl fun label => List.filterMap_eq_nil_iff.2 fun r hr => ?_
    rw [Segment.reference, if_pos (Directive.inRange_of_images himages hlength hr)]
  · rw [hst]
    exact .inl fun label => rfl
  · cases ha : i.assembled? with
    | none => exact .inr ⟨i, hst, ha⟩
    | some a =>
      refine .inl fun label => ?_
      rw [← Segment.toOption_assemble label] at ha
      cases hassemble : Segment.assemble label i with
      | error d =>
        rw [hassemble] at ha
        cases ha
      | ok a' => simp only [hst, Statement.faults, hassemble]

/-- Every statement of a text is a row of parts. An instruction that cannot be assembled contributes
nothing. -/
theorem exists_row (hitem : item.Lawful) (labels : Labels)
    (hlength : (item.statement labels).image.length < 2 ^ 63) (base : Nat) :
    ∃ parts, (item.statement labels).Row base parts ∧ ∀ part ∈ parts, part ∈ item.parts labels := by
  rcases faults_cases hitem labels hlength with hfaults | ⟨i, hst, hnone⟩
  · exact ⟨_, row hitem labels (hfaults []) base, fun part hpart => hpart⟩
  · refine ⟨[], ⟨?_, ?_, fun part hpart => by cases hpart⟩, fun part hpart => by cases hpart⟩
    · simp only [hst, Statement.image, hnone]
      rfl
    · simp only [hst, Statement.openFields, hnone]
      rfl

end Line.Item
end Assembler65816
