import Mathlib.Algebra.Ring.Nat
import Assembler65816.Chunk.Resolution
import Assembler65816.Proofs.Expression.Folding

/-!
# The layout of a chunk

A chunk is a row of parts: bytes that are given literally and fields that hold expressions. `Laid`
says what such a row amounts to once the offsets of the labels are known, part after part and with
no regard to how it came about: a field holds its value, or the distance to a position, or it holds
zeros and is left to the linker.

The assembler gets there differently. It writes the fields whose value is known at once, queues the
others, and patches the queue into the finished bytes. The main statement is that this comes to the
same. Each queued field has one outcome, a patch changes the bytes of its own field and no others,
and so the patches can be made one part at a time.

Offsets are 64-bit numbers, so all this is about chunks of less than 2 ^ 63 bytes.
-/
namespace Assembler65816

namespace Field

theorem plain_eq_ok {size : Size} {v : Int64} {bs : List UInt8} (h : plain size v = .ok bs) :
    size.isRelative = false ∧ fits size.width v ∧ bs = bytes size.width v := by
  unfold plain at h
  split at h
  · cases h
  · rename_i hplain
    rw [not_or, Bool.not_eq_true] at hplain
    split at h
    · rename_i hfits
      cases h
      exact ⟨hplain.2, hfits, rfl⟩
    · cases h

theorem relative_eq_ok {size : Size} {v : Int64} {bs : List UInt8} (h : relative size v = .ok bs) :
    size.isRelative ∧ relFits size v ∧ bs = bytes size.width v := by
  unfold relative at h
  split at h
  · cases h
  · rename_i hrel
    split at h
    · rename_i hfits
      cases h
      exact ⟨by simpa using hrel, hfits, rfl⟩
    · cases h

end Field

/-- The term once every label that `off` knows stands at its offset. -/
def Term.placed (off : Ident → Option Nat) (t : Term) : Term :=
  (t.substitute fun id => (off id).map fun n => .offset (Int64.ofNat n)).reduce

theorem Term.placed_of_value? {t : Term} {v : Int64} (off : Ident → Option Nat)
    (h : t.value? = some v) : t.placed off = .constant v := by
  rw [placed, substitute_of_references _ (references_of_value? h), value?_eq_some.1 h]

theorem Term.placed_ne_empty {t : Term} (off : Ident → Option Nat) (hw : t.isWritten) :
    t.placed off ≠ .empty := by
  intro h
  refine substitute_ne_empty hw (fun id => ?_) (reduce_eq_empty h)
  cases off id <;> exact fun h => nomatch h

inductive Part
  | literal (bytes : List UInt8)
  /-- A field for the value of a term. -/
  | field (size : Size) (t : Term) (sameBank : Bool)

/-- Whether the field of a term can hold `v`. In a relative field a value is a displacement, and
only one that is constant as written counts as such. -/
def Size.Holds (size : Size) (t : Term) (v : Int64) : Prop :=
  if size.isRelative then t.isConstant ∧ Field.relFits size v else Field.fits size.width v

/-- The bytes of a row of parts that starts at an offset, and the fixups left to the linker. -/
inductive Laid (off : Ident → Option Nat) : Nat → List Part → List UInt8 → List Fixup → Prop
  | nil {u : Nat} : Laid off u [] [] []
  | literal {u : Nat} {bs bytes : List UInt8} {parts : List Part} {fixups : List Fixup} :
      Laid off (u + bs.length) parts bytes fixups →
      Laid off u (.literal bs :: parts) (bs ++ bytes) fixups
  | value {u : Nat} {size : Size} {t : Term} {sameBank : Bool} {v : Int64} {bytes : List UInt8}
      {parts : List Part} {fixups : List Fixup} :
      t.placed off = .constant v → size.Holds t v →
      Laid off (u + size.width) parts bytes fixups →
      Laid off u (.field size t sameBank :: parts) (Field.bytes size.width v ++ bytes) fixups
  | displacement {u : Nat} {size : Size} {t : Term} {sameBank : Bool} {k : Int64}
      {bytes : List UInt8} {parts : List Part} {fixups : List Fixup} :
      t.placed off = .offset k → size.isRelative → Field.relFits size (k - Int64.ofNat u - 1) →
      Laid off (u + size.width) parts bytes fixups →
      Laid off u (.field size t sameBank :: parts)
        (Field.bytes size.width (k - Int64.ofNat u - 1) ++ bytes) fixups
  | deferred {u : Nat} {size : Size} {t : Term} {sameBank : Bool} {bytes : List UInt8}
      {parts : List Part} {fixups : List Fixup} :
      (∀ v, t.placed off ≠ .constant v) → (size.isRelative → ∀ k, t.placed off ≠ .offset k) →
      Laid off (u + size.width) parts bytes fixups →
      Laid off u (.field size t sameBank :: parts) (List.replicate size.width 0 ++ bytes)
        (⟨Int64.ofNat u, .sized (t.placed off) size, sameBank⟩ :: fixups)

namespace Part

def width : Part → Nat
  | literal bytes => bytes.length
  | field size _ _ => size.width

def initial : Part → List UInt8
  | literal bytes => bytes
  | field size t _ =>
    match t.value? with
    | some v => Field.bytes size.width v
    | none => List.replicate size.width 0

/-- The fields of a row that are still open, the row starting at `u`. -/
def openFrom (u : Nat) : List Part → List Fixup
  | [] => []
  | literal bytes :: parts => openFrom (u + bytes.length) parts
  | field size t sameBank :: parts =>
    match t.value? with
    | some _ => openFrom (u + size.width) parts
    | none => ⟨Int64.ofNat u, .sized t size, sameBank⟩ :: openFrom (u + size.width) parts

/-- A part as it can be written: what is known at once fits its field. -/
def Valid : Part → Prop
  | literal _ => True
  | field size t _ => t.isWritten ∧ ∀ v, t.value? = some v → size.Holds t v

theorem length_initial (p : Part) : p.initial.length = p.width := by
  cases p with
  | literal bytes => rfl
  | field size t sameBank => cases h : t.value? <;> simp [initial, width, h]

end Part

/-- Whether there is something to write: a number for a plain field, or a position for a relative
one. -/
def Fixup.Writes (offsets : Offsets) (f : Fixup) : Prop :=
  (∃ v, (f.settle offsets).expr.term = .constant v ∧ f.size.isRelative = false ∧
    0 < f.size.width) ∨
  ∃ k, (f.settle offsets).expr.term = .offset k ∧ f.size.isRelative

/-- The outcomes of a fixup, and what each of them says of the settled expression. -/
theorem Fixup.resolve_cases (label : Text) (offsets : Offsets) (L : Nat) (f : Fixup) :
    let t := (f.settle offsets).expr.term
    let r := Fixup.resolve label offsets L f
    (∃ d, r = .failed d) ∨
    (t = .empty ∧ r = .dropped) ∨
    (∃ v, t = .constant v ∧ f.size.isRelative = false ∧ Field.fits f.size.width v ∧
      r = .patched f.offset.toInt.toNat (Field.bytes f.size.width v)) ∨
    (∃ k, t = .offset k ∧ f.size.isRelative ∧ Field.relFits f.size (k - f.offset - 1) ∧
      r = .patched f.offset.toInt.toNat (Field.bytes f.size.width (k - f.offset - 1))) ∨
    ((∀ v, t ≠ .constant v) ∧ (f.size.isRelative → ∀ k, t ≠ .offset k) ∧
      r = .outgoing (f.settle offsets)) ∨
    (inRange L f.offset f.size ∧ ¬f.isWithin L ∧ f.Writes offsets ∧ r = .outOfBounds) := by
  intro t r
  have hr : r = Fixup.resolve label offsets L f := rfl
  unfold Fixup.resolve at hr
  simp only at hr
  split at hr
  · exact .inl ⟨_, hr⟩
  rename_i hrange
  have hrange : inRange L f.offset f.size := by simpa using hrange
  split at hr
  · rename_i hterm
    exact .inr (.inl ⟨hterm, hr⟩)
  · rename_i v hterm
    split at hr
    · exact .inl ⟨_, hr⟩
    rename_i hsize
    split at hr
    · rename_i hwithin
      have hplain : f.size.isRelative = false ∧ 0 < f.size.width := by
        simpa [Nat.pos_iff_ne_zero] using hsize
      exact .inr (.inr (.inr (.inr (.inr
        ⟨hrange, by simpa using hwithin, .inl ⟨v, hterm, hplain⟩, hr⟩))))
    split at hr
    · rename_i field hfield
      obtain ⟨hrel, hfits, rfl⟩ := Field.plain_eq_ok hfield
      exact .inr (.inr (.inl ⟨v, hterm, hrel, hfits, hr⟩))
    · exact .inl ⟨_, hr⟩
  · rename_i k hterm
    split at hr
    · rename_i hrel
      split at hr
      · rename_i hwithin
        exact .inr (.inr (.inr (.inr (.inr
          ⟨hrange, by simpa using hwithin, .inr ⟨k, hterm, hrel⟩, hr⟩))))
      split at hr
      · rename_i field hfield
        obtain ⟨-, hfits, rfl⟩ := Field.relative_eq_ok hfield
        exact .inr (.inr (.inr (.inl ⟨k, hterm, hrel, hfits, hr⟩)))
      · exact .inl ⟨_, hr⟩
    · rename_i hrel
      refine .inr (.inr (.inr (.inr (.inl ⟨fun v hv => ?_, fun h => absurd h hrel, hr⟩))))
      cases hterm.symm.trans hv
  · rename_i hconstant hoffset
    exact .inr (.inr (.inr (.inr (.inl ⟨hconstant, fun _ => hoffset, hr⟩))))

theorem Resolution.isOutOfBounds_iff {r : Resolution} : r.isOutOfBounds ↔ r = .outOfBounds := by
  cases r <;> simp [isOutOfBounds]

/-- The outcome of a field that passes the check in 64-bit numbers and lies elsewhere. -/
theorem Fixup.resolve_eq_outOfBounds_iff {label : Text} {offsets : Offsets} {length : Nat}
    {f : Fixup} :
    f.resolve label offsets length = .outOfBounds ↔
      inRange length f.offset f.size ∧ ¬f.isWithin length ∧ f.Writes offsets := by
  constructor
  · intro h
    rcases resolve_cases label offsets length f with ⟨d, hr⟩ | ⟨-, hr⟩ | ⟨v, -, -, -, hr⟩ |
      ⟨k, -, -, -, hr⟩ | ⟨-, -, hr⟩ | ⟨hrange, hout, hwrites, -⟩
    · cases hr.symm.trans h
    · cases hr.symm.trans h
    · cases hr.symm.trans h
    · cases hr.symm.trans h
    · cases hr.symm.trans h
    · exact ⟨hrange, hout, hwrites⟩
  · rintro ⟨hrange, hout, ⟨v, hv, hplain, hwidth⟩ | ⟨k, hk, hrel⟩⟩
    · simp [resolve, hrange, hout, hv, hplain, Nat.ne_of_gt hwidth]
    · simp [resolve, hrange, hout, hk, hrel]

/-- A field that ends within the bytes as a natural number is not out of bounds, whether or not its
offset wraps. -/
theorem Fixup.isWithin_of_le {L u : Nat} {f : Fixup} (hoffset : f.offset = Int64.ofNat u)
    (h : u + f.size.width ≤ L) : f.isWithin L := by
  have hle : (Int64.ofNat u).toInt ≤ u := by
    rw [Int64.toInt_ofNat', Int.bmod_def]
    simp only [Int64.size]
    omega
  rw [isWithin, decide_eq_true_eq, hoffset]
  omega

section Resolve
variable {L u : Nat} {size : Size} {t : Term} (sameBank : Bool)

theorem toNat_offset (h : u < 2 ^ 63) : (Int64.ofNat u).toInt.toNat = u := by
  rw [Int64.toInt_ofNat_of_lt h, Int.toNat_natCast]

/-- What becomes of an open field for a term as it is written. -/
theorem resolve_field (label : Text) (offsets : Offsets) (hu : u < 2 ^ 63)
    (hL : u + size.width ≤ L) (hw : t.isWritten) :
    let placed := t.placed fun id => offsets.lookup id
    let r := Fixup.resolve label offsets L ⟨Int64.ofNat u, .sized t size, sameBank⟩
    (∃ d, r = .failed d) ∨
    (∃ v, placed = .constant v ∧ size.isRelative = false ∧ Field.fits size.width v ∧
      r = .patched u (Field.bytes size.width v)) ∨
    (∃ k, placed = .offset k ∧ size.isRelative ∧ Field.relFits size (k - Int64.ofNat u - 1) ∧
      r = .patched u (Field.bytes size.width (k - Int64.ofNat u - 1))) ∨
    ((∀ v, placed ≠ .constant v) ∧ (size.isRelative → ∀ k, placed ≠ .offset k) ∧
      r = .outgoing ⟨Int64.ofNat u, .sized placed size, sameBank⟩) := by
  intro placed r
  have hempty : placed ≠ .empty := Term.placed_ne_empty _ hw
  have hcases := Fixup.resolve_cases label offsets L ⟨Int64.ofNat u, .sized t size, sameBank⟩
  simp only [toNat_offset hu] at hcases
  rcases hcases with hfailed | ⟨h, -⟩ | hvalue | hdisplacement | hdeferred | ⟨-, hout, -⟩
  · exact .inl hfailed
  · exact absurd h hempty
  · exact .inr (.inl hvalue)
  · exact .inr (.inr (.inl hdisplacement))
  · exact .inr (.inr (.inr hdeferred))
  · exact absurd (Fixup.isWithin_of_le rfl hL) hout

end Resolve

theorem length_patch_le (bytes : List UInt8) (offset : Nat) (field : List UInt8) :
    bytes.length ≤ (patch bytes offset field).length := by
  unfold patch
  simp only [List.length_append, List.length_take, List.length_drop]
  omega

/-- Patching takes no byte away. -/
theorem length_le_foldl_apply (rs : List Resolution) (bytes : List UInt8) :
    bytes.length ≤ (rs.foldl Resolution.apply bytes).length := by
  induction rs generalizing bytes with
  | nil => exact Nat.le_refl _
  | cons r rs ih =>
    have hrest := ih (r.apply bytes)
    have hfirst : bytes.length ≤ (r.apply bytes).length := by
      cases r with
      | patched offset field => exact length_patch_le bytes offset field
      | _ => exact Nat.le_refl _
    exact Nat.le_trans hfirst hrest

/-- A patch changes its own field and nothing else. -/
theorem patch_append {before old field rest : List UInt8} (h : field.length = old.length) :
    patch (before ++ (old ++ rest)) before.length field = before ++ (field ++ rest) := by
  unfold patch
  rw [List.take_left, h, List.drop_append, List.drop_of_length_le (by omega), List.append_assoc]
  simp

section Row
variable (label : Text) (offsets : Offsets) (L : Nat)

/-- What becomes of the open fields of a row that starts at `u`. -/
def Part.outcomes (u : Nat) (parts : List Part) : List Resolution :=
  (openFrom u parts).map (Fixup.resolve label offsets L)

/-- Whether patching a row of parts lays it out. The row follows bytes that are laid out already. -/
def PatchedAfter (before : List UInt8) (parts : List Part) : Prop :=
  let outcomes := Part.outcomes label offsets L before.length parts
  ∃ bytes,
    outcomes.foldl Resolution.apply (before ++ parts.flatMap Part.initial) = before ++ bytes ∧
    Laid (fun id => offsets.lookup id) before.length parts bytes
      (outcomes.filterMap Resolution.outgoing?)

variable {label offsets L} {before : List UInt8} {parts : List Part}

/-- The rest of a row, once the part in front of it is laid out. -/
theorem PatchedAfter.rest {image : List UInt8} {width : Nat} (himage : image.length = width)
    (h : PatchedAfter label offsets L (before ++ image) parts) :
    let outcomes := Part.outcomes label offsets L (before.length + width) parts
    ∃ bytes,
      outcomes.foldl Resolution.apply (before ++ (image ++ parts.flatMap Part.initial)) =
        before ++ (image ++ bytes) ∧
      Laid (fun id => offsets.lookup id) (before.length + width) parts bytes
        (outcomes.filterMap Resolution.outgoing?) := by
  have hlength : (before ++ image).length = before.length + width := by
    rw [List.length_append, himage]
  simpa only [PatchedAfter, hlength, List.append_assoc] using h

theorem PatchedAfter.field {size : Size} {t : Term} {sameBank : Bool}
    (hbefore : before.length < 2 ^ 63) (hL : before.length + size.width ≤ L)
    (hvalid : (Part.field size t sameBank).Valid)
    (hok : (Part.outcomes label offsets L before.length
      (.field size t sameBank :: parts)).filterMap Resolution.failed? = [])
    (hrest : ∀ image : List UInt8, image.length = size.width →
      (Part.outcomes label offsets L (before.length + size.width) parts).filterMap
        Resolution.failed? = [] →
      PatchedAfter label offsets L (before ++ image) parts) :
    PatchedAfter label offsets L before (.field size t sameBank :: parts) := by
  obtain ⟨hwritten, hholds⟩ := hvalid
  have hnext := fun image (himage : image.length = size.width) hok' =>
    (hrest image himage hok').rest himage
  unfold PatchedAfter
  cases hv : t.value? with
  | some v =>
    have himage : (Part.field size t sameBank).initial = Field.bytes size.width v := by
      simp only [Part.initial, hv]
    simp only [Part.outcomes, Part.openFrom, hv] at hok ⊢
    obtain ⟨bytes, hfold, hlaid⟩ := hnext _ (Field.length_bytes _ v) hok
    rw [List.flatMap_cons, himage]
    exact ⟨_, hfold, .value (Term.placed_of_value? _ hv) (hholds v hv) hlaid⟩
  | none =>
    have himage : (Part.field size t sameBank).initial = List.replicate size.width 0 := by
      simp only [Part.initial, hv]
    simp only [Part.outcomes, Part.openFrom, hv, List.map_cons, List.foldl_cons] at hok ⊢
    rw [List.flatMap_cons, himage]
    rcases resolve_field sameBank label offsets hbefore hL hwritten with
      ⟨d, hr⟩ | ⟨v, hp, hrel, hfits, hr⟩ | ⟨k, hp, hrel, hfits, hr⟩ | ⟨hconst, hoff, hr⟩
    · rw [hr] at hok
      cases hok
    · rw [hr] at hok ⊢
      obtain ⟨bytes, hfold, hlaid⟩ := hnext _ (Field.length_bytes _ v) hok
      refine ⟨_, ?_, .value hp (by rwa [Size.Holds, hrel, if_neg Bool.false_ne_true]) hlaid⟩
      rw [Resolution.apply, patch_append (by simp)]
      exact hfold
    · rw [hr] at hok ⊢
      obtain ⟨bytes, hfold, hlaid⟩ := hnext _ (Field.length_bytes _ _) hok
      refine ⟨_, ?_, .displacement hp hrel hfits hlaid⟩
      rw [Resolution.apply, patch_append (by simp)]
      exact hfold
    · rw [hr] at hok ⊢
      obtain ⟨bytes, hfold, hlaid⟩ := hnext _ List.length_replicate hok
      exact ⟨_, hfold, .deferred hconst hoff hlaid⟩

/-- A row in which nothing fails is laid out. -/
theorem patchedAfter_of_outcomes (hvalid : ∀ p ∈ parts, p.Valid)
    (hlength : before.length + (parts.flatMap Part.initial).length < 2 ^ 63)
    (hL : before.length + (parts.flatMap Part.initial).length ≤ L)
    (hok : (Part.outcomes label offsets L before.length parts).filterMap Resolution.failed? = []) :
    PatchedAfter label offsets L before parts := by
  induction parts generalizing before with
  | nil => exact ⟨[], rfl, .nil⟩
  | cons part parts ih =>
    have hvalid' : ∀ p ∈ parts, p.Valid := fun p hp => hvalid p (List.mem_cons_of_mem part hp)
    rw [List.flatMap_cons, List.length_append, Part.length_initial] at hlength hL
    cases part with
    | literal bs =>
      simp only [Part.width] at hlength hL
      have hrest : PatchedAfter label offsets L (before ++ bs) parts := by
        apply ih hvalid'
        · rw [List.length_append]
          omega
        · rw [List.length_append]
          omega
        · rw [List.length_append]
          exact hok
      obtain ⟨bytes, hfold, hlaid⟩ := hrest.rest rfl
      exact ⟨bs ++ bytes, hfold, .literal hlaid⟩
    | field size t sameBank =>
      simp only [Part.width] at hlength hL
      refine PatchedAfter.field (by omega) (by omega) (hvalid _ List.mem_cons_self) hok ?_
      intro image himage hok'
      apply ih hvalid'
      · rw [List.length_append, himage]
        omega
      · rw [List.length_append, himage]
        omega
      · rw [List.length_append, himage]
        exact hok'

end Row
end Assembler65816
