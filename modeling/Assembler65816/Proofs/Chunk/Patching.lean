import Mathlib.Algebra.Ring.Int.Defs
import Mathlib.Algebra.Ring.Nat
import Mathlib.Data.List.Forall2
import Assembler65816.Assembly.Segment
import Assembler65816.Proofs.Chunk.Layout

/-!
# Patching a queue of fields

When a segment is closed, its open fields are seen to one after the other, and they share one row of
bytes. `Fixup.Outcome` says what may become of one field, from its place, its size and the term that
is left of it, with no regard to the others. The main statement puts the queue together from these:
every field has one outcome, what is left for the linker and what is reported keep the order of the
queue, and each byte is what the last field that was written over it put there.

Offsets and lengths are 64-bit numbers, so all this is about less than 2 ^ 63 bytes.
-/
namespace Assembler65816

namespace Field
variable {size : Size} {v : Int64}

theorem plain_of_fits (hplain : size.isRelative = false) (hwidth : 0 < size.width)
    (hfits : fits size.width v) : plain size v = .ok (bytes size.width v) := by
  have hne : size.width ≠ 0 := by omega
  simp [plain, hplain, hne, hfits]

theorem plain_of_not_fits (hplain : size.isRelative = false) (hwidth : 0 < size.width)
    (hfits : ¬fits size.width v) : plain size v = .error (.overflow size v) := by
  have hne : size.width ≠ 0 := by omega
  simp [plain, hplain, hne, hfits]

theorem relative_of_fits (hrel : size.isRelative) (hfits : relFits size v) :
    relative size v = .ok (bytes size.width v) := by
  simp [relative, hrel, hfits]

theorem relative_of_not_fits (hrel : size.isRelative) (hfits : ¬relFits size v) :
    relative size v = .error (.displacement size v) := by
  simp [relative, hrel, hfits]

end Field

namespace Fixup

/-- The term that is left once every label of the segment stands at its offset. -/
def root (offsets : Offsets) (f : Fixup) : Term :=
  (f.expr.term.substitute offsets.position?).reduce

def Within (length : Nat) (f : Fixup) : Prop :=
  0 ≤ f.offset.toInt ∧ f.offset.toInt + f.size.width ≤ length

/-- What is reported about a field, under the name of its segment and with its expression as
written. -/
def report (label : Text) (f : Fixup) (kind : Category) (want got : Text)
    (cause : Option Cause) : Diagnostic :=
  {kind, label, subject := f.expr.text, want, got, cause}

/-- The field as it is left for the linker: at the same place, with the term that is left. -/
def leftover (offsets : Offsets) (f : Fixup) : Fixup :=
  ⟨f.offset, .sized (f.root offsets) f.size, f.sameBank⟩

/-- How far the position `k` is from the second byte of the field. -/
def displacement (f : Fixup) (k : Int64) : Int64 := k - f.offset - 1

/-- What may become of a field in a segment of `length` bytes. -/
inductive Outcome (label : Text) (offsets : Offsets) (length : Nat) (f : Fixup) :
    Resolution → Prop
  | outside :
      ¬f.Within length →
      Outcome label offsets length f (.failed (f.report label .internal
        (ascii "offset within " ++ decimal length ++ ascii " bytes")
        (ascii "offset " ++ decimal f.offset.toInt ++ ascii " width " ++ decimal f.size.width)
        none))
  | dropped :
      f.Within length → f.root offsets = .empty →
      Outcome label offsets length f .dropped
  | value {v : Int64} :
      f.Within length → f.root offsets = .constant v →
      f.size.isRelative = false → 0 < f.size.width → Field.fits f.size.width v →
      Outcome label offsets length f
        (.patched f.offset.toInt.toNat (Field.bytes f.size.width v))
  | overflow {v : Int64} :
      f.Within length → f.root offsets = .constant v →
      f.size.isRelative = false → 0 < f.size.width → ¬Field.fits f.size.width v →
      Outcome label offsets length f (.failed (f.report label .fieldOverflow
        (decimal f.size.width ++ ascii "-byte value") (decimal v.toInt)
        (some (.field (.overflow f.size v)))))
  | misplaced {v : Int64} :
      f.Within length → f.root offsets = .constant v →
      f.size.isRelative ∨ f.size.width = 0 →
      Outcome label offsets length f (.failed (f.report label .internal
        (ascii "byte, word or long field") (f.size.name ++ ascii " field for a constant") none))
  | near {k : Int64} :
      f.Within length → f.root offsets = .offset k →
      f.size.isRelative → Field.relFits f.size (f.displacement k) →
      Outcome label offsets length f
        (.patched f.offset.toInt.toNat (Field.bytes f.size.width (f.displacement k)))
  | far {k : Int64} :
      f.Within length → f.root offsets = .offset k →
      f.size.isRelative → ¬Field.relFits f.size (f.displacement k) →
      Outcome label offsets length f (.failed (f.report label .fieldOverflow
        (ascii "signed " ++ decimal f.size.width ++ ascii "-byte displacement")
        (decimal (f.displacement k).toInt)
        (some (.field (.displacement f.size (f.displacement k))))))
  | position {k : Int64} :
      f.Within length → f.root offsets = .offset k → f.size.isRelative = false →
      Outcome label offsets length f (.outgoing (f.leftover offsets))
  | symbolic :
      f.Within length → f.root offsets ≠ .empty → (f.root offsets).isFolded = false →
      Outcome label offsets length f (.outgoing (f.leftover offsets))

variable {label : Text} {offsets : Offsets} {length : Nat} {f : Fixup}

/-- Whatever a field is, something becomes of it. -/
theorem exists_outcome (label : Text) (offsets : Offsets) (length : Nat) (f : Fixup) :
    ∃ r, f.Outcome label offsets length r := by
  by_cases hin : f.Within length
  · cases hroot : f.root offsets with
    | empty => exact ⟨_, .dropped hin hroot⟩
    | constant v =>
      by_cases hplain : f.size.isRelative ∨ f.size.width = 0
      · exact ⟨_, .misplaced hin hroot hplain⟩
      · rw [not_or, Bool.not_eq_true] at hplain
        have hwidth : 0 < f.size.width := Nat.pos_of_ne_zero hplain.2
        by_cases hfits : Field.fits f.size.width v
        · exact ⟨_, .value hin hroot hplain.1 hwidth hfits⟩
        · exact ⟨_, .overflow hin hroot hplain.1 hwidth hfits⟩
    | offset k =>
      by_cases hrel : f.size.isRelative
      · by_cases hfits : Field.relFits f.size (f.displacement k)
        · exact ⟨_, .near hin hroot hrel hfits⟩
        · exact ⟨_, .far hin hroot hrel hfits⟩
      · exact ⟨_, .position hin hroot (Bool.not_eq_true _ ▸ hrel)⟩
    | ref | unary | binary =>
      refine ⟨_, .symbolic hin ?_ ?_⟩
      · rw [hroot]
        exact Term.noConfusion
      · rw [hroot]
        rfl
  · exact ⟨_, .outside hin⟩

/-- The check in 64-bit numbers says what it should, as long as the end of the field is one. -/
theorem inRange_iff (hlength : length < 2 ^ 63) (hend : f.offset.toInt + f.size.width < 2 ^ 63) :
    inRange length f.offset f.size ↔ f.Within length := by
  have hwidth : (Int64.ofNat f.size.width).toInt = f.size.width :=
    Int64.toInt_ofNat_of_lt (Nat.lt_of_le_of_lt f.size.width_le (by decide))
  have hsum : 0 ≤ f.offset.toInt →
      (f.offset + Int64.ofNat f.size.width).toInt = f.offset.toInt + f.size.width := by
    intro hstart
    rw [Int64.toInt_add, hwidth]
    apply Int.bmod_eq_of_le <;> omega
  have hzero : (0 : Int64).toInt = 0 := rfl
  rw [inRange, Bool.and_eq_true, decide_eq_true_eq, decide_eq_true_eq, Int64.le_iff_toInt_le, hzero,
    Int64.le_iff_toInt_le, Int64.toInt_ofNat_of_lt hlength, Within]
  constructor
  · rintro ⟨hstart, hle⟩
    exact ⟨hstart, hsum hstart ▸ hle⟩
  · rintro ⟨hstart, hle⟩
    exact ⟨hstart, (hsum hstart).symm ▸ hle⟩

/-- The check of a range in 64-bit numbers, whose sums wrap: a field whose end is no such number
passes it. -/
theorem inRange_iff_or {offset : Int64} {size : Size} (hlength : length < 2 ^ 63) :
    inRange length offset size ↔
      (0 ≤ offset.toInt ∧ offset.toInt + size.width ≤ length) ∨
        2 ^ 63 ≤ offset.toInt + size.width := by
  by_cases hend : offset.toInt + size.width < 2 ^ 63
  · have hrange := inRange_iff (f := ⟨offset, .sized .empty size, false⟩) hlength hend
    simp only [Within, Fixup.size, Expression.sized] at hrange
    rw [hrange]
    omega
  · have hlt := offset.toInt_lt
    have hle := size.width_le
    have hwidth : (Int64.ofNat size.width).toInt = size.width :=
      Int64.toInt_ofNat_of_lt (Nat.lt_of_le_of_lt hle (by decide))
    have hsum : (offset + Int64.ofNat size.width).toInt = offset.toInt + size.width - 2 ^ 64 := by
      rw [Int64.toInt_add, hwidth, Int.bmod_def]
      omega
    have hzero : (0 : Int64).toInt = 0 := rfl
    rw [inRange, Bool.and_eq_true, decide_eq_true_eq, decide_eq_true_eq, Int64.le_iff_toInt_le,
      hzero, Int64.le_iff_toInt_le, Int64.toInt_ofNat_of_lt hlength, hsum]
    omega

theorem Within.isWithin (h : f.Within length) : f.isWithin length := by
  obtain ⟨hstart, hend⟩ := h
  rw [Fixup.isWithin, decide_eq_true_eq]
  omega

/-- The rules leave no choice, and the assembler follows them. -/
theorem Outcome.eq_resolve (hlength : length < 2 ^ 63)
    (hend : f.offset.toInt + f.size.width < 2 ^ 63) {r : Resolution}
    (h : f.Outcome label offsets length r) : r = f.resolve label offsets length := by
  have hrange := inRange_iff hlength hend
  have hsettle : f.settle offsets = f.leftover offsets := rfl
  have hterm : (f.leftover offsets).expr.term = f.root offsets := rfl
  cases h with
  | outside hout =>
    rw [← hrange] at hout
    simp [resolve, hout, report]
  | dropped hin hroot => simp [resolve, hrange.2 hin, hsettle, hterm, hroot]
  | value hin hroot hplain hwidth hfits =>
    have hne : f.size.width ≠ 0 := by omega
    have hfield := Field.plain_of_fits hplain hwidth hfits
    simp [resolve, hrange.2 hin, hin.isWithin, hsettle, hterm, hroot, hplain, hne, hfield]
  | overflow hin hroot hplain hwidth hfits =>
    have hne : f.size.width ≠ 0 := by omega
    have hfield := Field.plain_of_not_fits hplain hwidth hfits
    simp [resolve, hrange.2 hin, hin.isWithin, hsettle, hterm, hroot, hplain, hne, hfield, report]
  | misplaced hin hroot hsize =>
    simp [resolve, hrange.2 hin, hsettle, hterm, hroot, hsize, report]
  | near hin hroot hrel hfits =>
    have hfield := Field.relative_of_fits hrel hfits
    rw [displacement] at hfield ⊢
    simp [resolve, hrange.2 hin, hin.isWithin, hsettle, hterm, hroot, hrel, hfield]
  | far hin hroot hrel hfits =>
    have hfield := Field.relative_of_not_fits hrel hfits
    rw [displacement] at hfield ⊢
    simp [resolve, hrange.2 hin, hin.isWithin, hsettle, hterm, hroot, hrel, hfield, report]
  | position hin hroot hplain => simp [resolve, hrange.2 hin, hsettle, hterm, hroot, hplain]
  | symbolic hin hempty hfolded =>
    cases hroot : f.root offsets with
    | empty => exact absurd hroot hempty
    | constant v =>
      rw [hroot] at hfolded
      cases hfolded
    | offset k =>
      rw [hroot] at hfolded
      cases hfolded
    | _ => simp [resolve, hrange.2 hin, hsettle, hterm, hroot]

theorem outcome_iff (hlength : length < 2 ^ 63) (hend : f.offset.toInt + f.size.width < 2 ^ 63)
    (r : Resolution) :
    f.Outcome label offsets length r ↔ r = f.resolve label offsets length := by
  constructor
  · exact Outcome.eq_resolve hlength hend
  · rintro rfl
    obtain ⟨r, hr⟩ := exists_outcome label offsets length f
    rwa [← hr.eq_resolve hlength hend]

end Fixup

namespace Resolution

def Covers (i : Nat) : Resolution → Prop
  | patched offset field => offset ≤ i ∧ i < offset + field.length
  | _ => False

def Inside (length : Nat) : Resolution → Prop
  | patched offset field => offset + field.length ≤ length
  | _ => True

end Resolution

theorem Fixup.Outcome.inside {label : Text} {offsets : Offsets} {length : Nat} {f : Fixup}
    {r : Resolution} (h : f.Outcome label offsets length r) : r.Inside length := by
  have hfield : f.Within length → ∀ v : Int64,
      f.offset.toInt.toNat + (Field.bytes f.size.width v).length ≤ length := by
    rintro ⟨hstart, hend⟩ v
    rw [Field.length_bytes]
    omega
  cases h with
  | value hin => exact hfield hin _
  | near hin => exact hfield hin _
  | _ => trivial

section Patch
variable {bytes field : List UInt8} {offset i : Nat}

theorem length_patch (h : offset + field.length ≤ bytes.length) :
    (patch bytes offset field).length = bytes.length := by
  simp only [patch, List.length_append, List.length_take, List.length_drop]
  omega

theorem getElem?_patch_of_covers (h : offset + field.length ≤ bytes.length) (hstart : offset ≤ i)
    (hend : i < offset + field.length) : (patch bytes offset field)[i]? = field[i - offset]? := by
  have hbefore : (bytes.take offset).length = offset := by
    rw [List.length_take]
    omega
  rw [patch, List.append_assoc, List.getElem?_append_right (by omega), hbefore,
    List.getElem?_append_left (by omega)]

theorem getElem?_patch_of_not_covers (h : offset + field.length ≤ bytes.length)
    (hi : ¬(offset ≤ i ∧ i < offset + field.length)) :
    (patch bytes offset field)[i]? = bytes[i]? := by
  have hbefore : (bytes.take offset).length = offset := by
    rw [List.length_take]
    omega
  rw [patch, List.append_assoc]
  by_cases hlt : i < offset
  · rw [List.getElem?_append_left (by omega), List.getElem?_take_of_lt hlt]
  · rw [List.getElem?_append_right (by omega), hbefore, List.getElem?_append_right (by omega),
      List.getElem?_drop]
    congr 1
    omega

end Patch

namespace Resolution
variable {bytes : List UInt8} {r : Resolution} {rs : List Resolution} {i : Nat}

theorem length_apply (h : r.Inside bytes.length) : (r.apply bytes).length = bytes.length := by
  cases r with
  | patched offset field => exact length_patch h
  | _ => rfl

theorem getElem?_apply (h : r.Inside bytes.length) (hi : ¬r.Covers i) :
    (r.apply bytes)[i]? = bytes[i]? := by
  cases r with
  | patched offset field => exact getElem?_patch_of_not_covers h hi
  | _ => rfl

theorem length_foldl_apply (h : ∀ r ∈ rs, r.Inside bytes.length) :
    (rs.foldl apply bytes).length = bytes.length := by
  induction rs generalizing bytes with
  | nil => rfl
  | cons r rs ih =>
    have hstep := length_apply (h r List.mem_cons_self)
    rw [List.foldl_cons, ih, hstep]
    intro r' hr'
    rw [hstep]
    exact h r' (List.mem_cons_of_mem r hr')

theorem getElem?_foldl_apply (h : ∀ r ∈ rs, r.Inside bytes.length) (hi : ∀ r ∈ rs, ¬r.Covers i) :
    (rs.foldl apply bytes)[i]? = bytes[i]? := by
  induction rs generalizing bytes with
  | nil => rfl
  | cons r rs ih =>
    have hfirst := h r List.mem_cons_self
    rw [List.foldl_cons, ih, getElem?_apply hfirst (hi r List.mem_cons_self)]
    · intro r' hr'
      rw [length_apply hfirst]
      exact h r' (List.mem_cons_of_mem r hr')
    · intro r' hr'
      exact hi r' (List.mem_cons_of_mem r hr')

/-- The last outcome that writes a byte decides it. -/
theorem getElem?_foldl_apply_of_last {earlier later : List Resolution} {offset : Nat}
    {field : List UInt8}
    (h : ∀ r ∈ earlier ++ .patched offset field :: later, r.Inside bytes.length)
    (hi : Covers i (.patched offset field)) (hlater : ∀ r ∈ later, ¬r.Covers i) :
    ((earlier ++ .patched offset field :: later).foldl apply bytes)[i]? = field[i - offset]? := by
  have hbefore : (earlier.foldl apply bytes).length = bytes.length :=
    length_foldl_apply fun r hr => h r (List.mem_append_left _ hr)
  have hfield : offset + field.length ≤ (earlier.foldl apply bytes).length := by
    rw [hbefore]
    exact h _ (List.mem_append_right _ List.mem_cons_self)
  rw [List.foldl_append, List.foldl_cons, apply, getElem?_foldl_apply _ hlater,
    getElem?_patch_of_covers hfield hi.1 hi.2]
  intro r hr
  rw [length_patch hfield, hbefore]
  exact h r (List.mem_append_right _ (List.mem_cons_of_mem _ hr))

end Resolution

namespace Segment

/-- What closing a segment makes of its open fields, given the outcome of each. -/
structure Patched (s : Segment) (outcomes : List Resolution) : Prop where
  /-- Every field has its outcome, and no other. -/
  outcome : List.Forall₂
    (fun f r => ∀ r', f.Outcome s.label s.offsets s.bytes.length r' ↔ r' = r) s.fixups outcomes
  /-- The chunk keeps what is left for the linker, in order. -/
  outgoing : s.chunk.fixups = outcomes.filterMap Resolution.outgoing?
  /-- What fails is reported in order, after the faults of the statements. -/
  reported : s.diagnostics = s.faults ++ outcomes.filterMap Resolution.failed?
  length_eq : s.chunk.bytes.length = s.bytes.length
  /-- A byte that no field was written over stays. -/
  untouched : ∀ i, (∀ r ∈ outcomes, ¬r.Covers i) → s.chunk.bytes[i]? = s.bytes[i]?
  /-- Any other byte is what the last field over it put there. -/
  written : ∀ earlier offset field later i,
    outcomes = earlier ++ .patched offset field :: later →
    Resolution.Covers i (.patched offset field) → (∀ r ∈ later, ¬r.Covers i) →
    s.chunk.bytes[i]? = field[i - offset]?
  /-- A field that fails leaves no trace in the chunk. -/
  traceless : ∀ earlier f later d, s.fixups = earlier ++ f :: later →
    f.Outcome s.label s.offsets s.bytes.length (.failed d) →
    {s with fixups := earlier ++ later}.chunk = s.chunk

variable {s : Segment}

/-- Without a field that fails, the chunk is the same. -/
theorem chunk_of_failed {earlier later : List Fixup} {f : Fixup} {d : Diagnostic}
    (hs : s.fixups = earlier ++ f :: later)
    (hf : f.resolve s.label s.offsets s.bytes.length = .failed d) :
    {s with fixups := earlier ++ later}.chunk = s.chunk := by
  have hrest : {s with fixups := earlier ++ later}.resolutions =
      earlier.map (Fixup.resolve s.label s.offsets s.bytes.length) ++
        later.map (Fixup.resolve s.label s.offsets s.bytes.length) := List.map_append
  have hall : s.resolutions =
      earlier.map (Fixup.resolve s.label s.offsets s.bytes.length) ++ .failed d ::
        later.map (Fixup.resolve s.label s.offsets s.bytes.length) := by
    rw [resolutions, hs, List.map_append, List.map_cons, hf]
  simp only [chunk, hrest, hall, List.foldl_append, List.foldl_cons, Resolution.apply,
    List.filterMap_append, List.filterMap_cons, Resolution.outgoing?]

/-- Closing a segment loses, duplicates and misplaces no field. Each open field has exactly one
outcome, and the fixups, the reports and the bytes of the chunk are put together from these. -/
theorem queue_patched (s : Segment) (hlength : s.bytes.length < 2 ^ 63)
    (hqueue : ∀ f ∈ s.fixups, f.offset.toInt + f.size.width < 2 ^ 63) :
    ∃ outcomes, s.Patched outcomes := by
  have houtcome : ∀ f ∈ s.fixups, ∀ r, f.Outcome s.label s.offsets s.bytes.length r ↔
      r = f.resolve s.label s.offsets s.bytes.length :=
    fun f hf => Fixup.outcome_iff hlength (hqueue f hf)
  have hinside : ∀ r ∈ s.resolutions, r.Inside s.bytes.length := by
    intro r hr
    obtain ⟨f, hf, rfl⟩ := List.mem_map.1 hr
    exact ((houtcome f hf _).2 rfl).inside
  refine ⟨s.resolutions, ?_, rfl, rfl, Resolution.length_foldl_apply hinside, ?_, ?_, ?_⟩
  · rw [resolutions, List.forall₂_map_right_iff, List.forall₂_same]
    exact houtcome
  · intro i hi
    exact Resolution.getElem?_foldl_apply hinside hi
  · intro earlier offset field later i hsplit hcovers hlater
    rw [hsplit] at hinside
    rw [chunk, hsplit]
    exact Resolution.getElem?_foldl_apply_of_last hinside hcovers hlater
  · intro earlier f later d hs hf
    have hmem : f ∈ s.fixups := by
      rw [hs]
      exact List.mem_append_right _ List.mem_cons_self
    exact chunk_of_failed hs ((houtcome f hmem _).1 hf).symm

/-- Two fields overlap and the later one wins; of those that fail, one lies between the two and one
runs over the end; a branch goes back to the start and a symbol is left for the linker. -/
theorem queue_patched_of_overlap :
    let start : Ident := .named 0 (ascii "start")
    let symbol : Fixup := ⟨1, .sized (.ref (.global (ascii "b"))) .byte, true⟩
    let s : Segment :=
      { label := ascii "a", bytes := [0, 0, 0, 0], offsets := [(start, 0)]
        fixups := [⟨0, .sized (.constant 0x1234) .word, false⟩,
          ⟨1, .sized (.constant 300) .byte, false⟩, ⟨1, .sized (.constant 0xAB) .byte, false⟩,
          symbol, ⟨3, .sized (.ref start) .relByte, true⟩,
          ⟨3, .sized (.ref start) .word, true⟩] }
    s.bytes.length < 2 ^ 63 ∧ (∀ f ∈ s.fixups, f.offset.toInt + f.size.width < 2 ^ 63) ∧
      s.chunk.bytes = [0x34, 0xAB, 0, 0xFC] ∧ s.chunk.fixups = [symbol] ∧
      s.diagnostics.map Diagnostic.kind = [.fieldOverflow, .internal] ∧
      ∃ outcomes, s.Patched outcomes := by
  intro start symbol s
  have hlength : s.bytes.length < 2 ^ 63 := by decide
  have hqueue : ∀ f ∈ s.fixups, f.offset.toInt + f.size.width < 2 ^ 63 := by decide
  exact ⟨hlength, hqueue, by decide, by decide, by decide, queue_patched s hlength hqueue⟩

end Segment
end Assembler65816
