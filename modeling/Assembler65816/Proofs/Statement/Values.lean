import Mathlib.Algebra.Ring.Int.Defs
import Assembler65816.Proofs.Chunk.Patching
import Assembler65816.Proofs.Disassembly.RoundTrip
import Assembler65816.Proofs.Statement.Parts
import Assembler65816.Proofs.Statement.Splitting

/-!
# What a data directive lays out

A data directive for bytes, words or long words takes strings and expressions, in any number and in
any order. The main statement says what becomes of them, however they are spaced: the images of the
items one after the other, and one reference for each expression whose value is not known yet, at
the place that the images before it lead to. An item whose value is known and does not fit its field
is the only thing that can go wrong.
-/
namespace Assembler65816

namespace Field

variable {size : Size} (hsize : size ∈ [Size.byte, .word, .long])
include hsize

theorem fits_iff {v : Int64} :
    fits size.width v ↔
      -2 ^ (8 * size.width - 1) ≤ v.toInt ∧ v.toInt < 2 ^ (8 * size.width) := by
  simp only [List.mem_cons, List.not_mem_nil, or_false] at hsize
  rcases hsize with rfl | rfl | rfl <;>
    simp only [fits, Bool.and_eq_true, decide_eq_true_eq] <;>
    simp [Size.width]

/-- The field of a known value is written exactly if the value fits. -/
theorem plain_eq (v : Int64) :
    plain size v =
      if -2 ^ (8 * size.width - 1) ≤ v.toInt ∧ v.toInt < 2 ^ (8 * size.width) then
        .ok (bytes size.width v) else .error (.overflow size v) := by
  have hplain : size.isRelative = false ∧ 0 < size.width := by
    simp only [List.mem_cons, List.not_mem_nil, or_false] at hsize
    rcases hsize with rfl | rfl | rfl <;> decide
  split
  · next hfits => exact plain_of_fits hplain.1 hplain.2 ((fits_iff hsize).2 hfits)
  · next hfits =>
    exact plain_of_not_fits hplain.1 hplain.2 fun h => hfits ((fits_iff hsize).1 h)

end Field

/-- An item of a data directive, as its writer means it. -/
inductive Datum
  | expression (written : Text)
  | string (body : Text)
  deriving DecidableEq, Repr

namespace Datum

def text : Datum → Text
  | expression e => e
  | string body => 34 :: (body ++ [34])

def Spaced (x : Datum) (s : Text) : Prop :=
  ∃ lead trail, Text.Blank lead ∧ Text.Blank trail ∧ s = lead ++ (x.text ++ trail)

/-- An expression that can be read and has no quotes, or a string that needs no escapes. A double
quote in an expression could only stand in a character constant. -/
def Proper (labels : Labels) : Datum → Prop
  | expression e => 39 ∉ e ∧ ∃ t, Term.read labels e = .ok t
  | string body => 34 ∉ body ∧ 92 ∉ body

def term? (labels : Labels) : Datum → Option Term
  | expression e => (Term.read labels e).toOption
  | string _ => none

def value? (labels : Labels) (x : Datum) : Option Int64 := (x.term? labels).bind Term.value?

/-- The bytes of the item: those of the string, or a field with the value, or an empty one. -/
def image (labels : Labels) (size : Size) : Datum → List UInt8
  | string body => body
  | expression e =>
    match (expression e).value? labels with
    | some v => Field.bytes size.width v
    | none => List.replicate size.width 0

/-- The reference that an expression without a value leaves at `base`. -/
def ref? (labels : Labels) (size : Size) (base : Nat) (x : Datum) : Option DataRef :=
  match x.term? labels, x.value? labels with
  | some t, none => some ⟨Int64.ofNat base, .sized t size⟩
  | _, _ => none

/-- The references of a list of items, each at the place that the images before it lead to. -/
def refs (labels : Labels) (size : Size) (xs : List Datum) : List DataRef :=
  xs.zipIdx.filterMap fun p =>
    p.1.ref? labels size ((xs.take p.2).flatMap (image labels size)).length

/-- A value that has neither a signed nor an unsigned reading in the field. -/
def Misfit (labels : Labels) (size : Size) (x : Datum) : Prop :=
  ∃ v, x.value? labels = some v ∧
    ¬(-2 ^ (8 * size.width - 1) ≤ v.toInt ∧ v.toInt < 2 ^ (8 * size.width))

instance (labels : Labels) (size : Size) (x : Datum) : Decidable (x.Misfit labels size) :=
  decidable_of_iff ((x.value? labels).any fun v =>
    ¬(-2 ^ (8 * size.width - 1) ≤ v.toInt ∧ v.toInt < 2 ^ (8 * size.width))) (by
      simp only [Misfit, Option.any_eq_true, decide_eq_true_eq])

def item : Datum → DataItem
  | expression e => {value := e.trim}
  | string body => {value := body, quoted := true}

/-- An item with blanks around it is split off, all but perhaps what is kept for the comma. -/
theorem outside_spaced {labels : Labels} {x : Datum} (hx : x.Proper labels) {s : Text}
    (hs : x.Spaced s) :
    ∃ first kept, first ++ DataItem.flush kept = [x.item] ∧
      ∀ rest, DataItem.outside 0 [] (s ++ rest) = first ++ DataItem.outside 0 kept rest := by
  obtain ⟨lead, trail, hlead, htrail, rfl⟩ := hs
  have hkept : ∀ {g : Text}, g.Calm → ∀ rest,
      DataItem.outside 0 [] (g ++ rest) = DataItem.outside 0 g.reverse rest := by
    intro g hg rest
    rw [DataItem.outside_append (DataItem.whole_of_calm hg 0), hg.depth, Int.zero_add,
      List.append_nil]
  cases x with
  | expression e =>
    obtain ⟨hquote, t, ht⟩ := hx
    have hcalm : e.Calm := by
      refine Term.calm_of_read ht fun b _ hinfix => hquote ?_
      exact hinfix.subset List.mem_cons_self
    have htrim : Text.trim (lead ++ (e ++ trail)) = e.trim := by
      rw [Text.trim_blank_append hlead, Text.trim_append_blank htrail]
    refine ⟨[], (lead ++ (e ++ trail)).reverse, ?_, ?_⟩
    · rw [List.nil_append, DataItem.flush_of_ink, htrim]
      · rfl
      · rw [htrim]
        exact Term.trim_ne_nil ht
    · exact hkept ((Text.calm_of_blank hlead).append (hcalm.append (Text.calm_of_blank htrail)))
  | string body =>
    have hblank : ∀ {g : Text}, Text.Blank g → DataItem.flush g.reverse = [] := by
      intro g hg
      refine DataItem.flush_of_blank ?_
      rw [← List.nil_append g, Text.trim_append_blank hg, Text.trim_nil]
    refine ⟨[(string body).item], trail.reverse, ?_, fun rest => ?_⟩
    · rw [hblank htrail, List.append_nil]
    · have hbody : body ++ 34 :: (trail ++ rest) =
          DataItem.escaped body ++ 34 :: (trail ++ rest) := by
        rw [DataItem.escaped_of_notMem hx.1 hx.2]
      have hs : lead ++ ((string body).text ++ trail) ++ rest =
          lead ++ 34 :: (body ++ 34 :: (trail ++ rest)) := by
        simp [text]
      rw [hs, hkept (Text.calm_of_blank hlead), DataItem.outside_quote, hblank hlead, hbody,
        DataItem.inside_escaped, DataItem.inside_close, hkept (Text.calm_of_blank htrail)]
      simp [item]

theorem split_spaced {labels : Labels} {xs : List Datum} (hne : xs ≠ [])
    (hxs : ∀ x ∈ xs, x.Proper labels) {pieces : List Text} (h : List.Forall₂ Spaced xs pieces) :
    DataItem.split ([44].intercalate pieces) = xs.map item := by
  induction h with
  | nil => exact absurd rfl hne
  | @cons x s xs pieces hs hrest ih =>
    obtain ⟨first, kept, hitem, hscan⟩ := outside_spaced (hxs x List.mem_cons_self) hs
    cases hrest with
    | nil =>
      have hend := hscan []
      rw [List.append_nil] at hend
      rw [List.intercalate_singleton, DataItem.split, hend, DataItem.outside, hitem]
      rfl
    | @cons x' s' xs pieces hs' hrest =>
      have htail := ih (List.cons_ne_nil x' xs) fun y hy => hxs y (List.mem_cons_of_mem x hy)
      rw [DataItem.split] at htail
      rw [List.intercalate_cons_cons, List.append_assoc, List.singleton_append, DataItem.split,
        hscan, DataItem.outside_comma, htail, ← List.append_assoc, hitem]
      rfl

/-- The field of a known value holds the value, modulo what the width can hold. -/
theorem read_image {labels : Labels} {size : Size} {x : Datum} {v : Int64}
    (hv : x.value? labels = some v) :
    (x.image labels size).length = size.width ∧
      (Field.read (x.image labels size) : Int) = v.toInt % (256 ^ size.width : Nat) := by
  cases x with
  | string body => cases hv
  | expression e =>
    rw [image, hv]
    exact ⟨Field.length_bytes _ v,
      Field.read_bytes (Nat.le_trans size.width_le (by decide)) v⟩

section Image
variable {labels : Labels} {size : Size} (hsize : size ∈ [Size.byte, .word, .long])
include hsize

/-- An item is laid out as its image unless its value is known and does not fit. -/
theorem image_item {x : Datum} (hx : x.Proper labels) (base : Nat) :
    (¬x.Misfit labels size → Directive.image labels size base x.item =
      .ok (x.image labels size, (x.ref? labels size base).toList)) ∧
    (x.Misfit labels size → ∃ cause, Directive.image labels size base x.item = .error cause) := by
  cases x with
  | string body =>
    refine ⟨fun _ => rfl, fun hmisfit => ?_⟩
    obtain ⟨v, hv, -⟩ := hmisfit
    cases hv
  | expression e =>
    obtain ⟨-, t, ht⟩ := hx
    obtain ⟨-, -, -, -, -, -, -, htrim⟩ := Term.exists_trimmed ht
    have hterm : (expression e).term? labels = some t := by
      rw [term?, ht]
      rfl
    have hvalue : (expression e).value? labels = t.value? := by
      rw [value?, hterm]
      rfl
    rw [Misfit, Directive.image, item, if_neg Bool.false_ne_true, Directive.readTerm_of_ok htrim,
      image, ref?, hterm, hvalue]
    cases hv : t.value? with
    | none =>
      refine ⟨fun _ => ?_, fun hmisfit => ?_⟩
      · simp only [bind, Except.bind, hv]
        rfl
      · obtain ⟨v, hv, -⟩ := hmisfit
        cases hv
    | some v =>
      simp only [bind, Except.bind, hv, Field.plain_eq hsize]
      refine ⟨fun hfits => ?_, fun hmisfit => ?_⟩
      · have hin := not_exists.1 hfits v
        rw [not_and_not_right] at hin
        rw [if_pos (hin rfl)]
        rfl
      · obtain ⟨v', hv', hout⟩ := hmisfit
        cases hv'
        rw [if_neg hout]
        exact ⟨_, rfl⟩

/-- The images of a list of items that stands behind the images of `before`. -/
theorem images_items {xs : List Datum} (hxs : ∀ x ∈ xs, x.Proper labels)
    (hfits : ∀ x ∈ xs, ¬x.Misfit labels size) (before : List Datum) :
    Directive.images labels size (before.flatMap (image labels size)).length (xs.map item) =
      .ok (xs.flatMap (image labels size), (xs.zipIdx before.length).filterMap fun p =>
        p.1.ref? labels size (((before ++ xs).take p.2).flatMap (image labels size)).length) := by
  induction xs generalizing before with
  | nil => rfl
  | cons x xs ih =>
    rw [List.forall_mem_cons] at hxs hfits
    have hrest := ih hxs.2 hfits.2 (before ++ [x])
    rw [List.flatMap_append, List.length_append, List.flatMap_singleton, List.length_append,
      List.length_singleton, List.append_assoc, List.singleton_append] at hrest
    rw [List.map_cons, Directive.images, (image_item hsize hxs.1 _).1 hfits.1]
    simp only [bind, Except.bind, hrest]
    rw [List.flatMap_cons, List.zipIdx_cons, List.filterMap_cons]
    simp only [List.take_left']
    cases x.ref? labels size (before.flatMap (image labels size)).length <;> rfl

theorem exists_images_error {xs : List Datum} (hxs : ∀ x ∈ xs, x.Proper labels)
    (hmisfit : ∃ x ∈ xs, x.Misfit labels size) (base : Nat) :
    ∃ cause, Directive.images labels size base (xs.map item) = .error cause := by
  induction xs generalizing base with
  | nil =>
    obtain ⟨x, hx, -⟩ := hmisfit
    cases hx
  | cons x xs ih =>
    rw [List.forall_mem_cons] at hxs
    rw [List.map_cons, Directive.images]
    by_cases hx : x.Misfit labels size
    · obtain ⟨cause, hcause⟩ := (image_item hsize hxs.1 base).2 hx
      rw [hcause]
      exact ⟨cause, rfl⟩
    · obtain ⟨y, hy, hymisfit⟩ := hmisfit
      have hyrest : y ∈ xs := by
        rcases List.mem_cons.1 hy with rfl | hy
        · exact absurd hymisfit hx
        · exact hy
      obtain ⟨cause, hcause⟩ :=
        ih hxs.2 ⟨y, hyrest, hymisfit⟩ (base + (x.image labels size).length)
      rw [(image_item hsize hxs.1 base).1 hx]
      simp only [bind, Except.bind, hcause]
      exact ⟨cause, rfl⟩

end Image

end Datum

namespace Directive

/-- A directive with at least one item comes down to the images of its items. -/
theorem values_of_split {labels : Labels} {size : Size} {args : Text} {items : List DataItem}
    (hargs : DataItem.split args = items) (hne : items ≠ []) (pos : Position) :
    values labels size args pos =
      (images labels size 0 items).map fun p => .data p.1 p.2 pos := by
  unfold values
  rw [hargs]
  cases items with
  | nil => exact absurd rfl hne
  | cons item items =>
    change (images labels size 0 (item :: items) >>= fun p => pure (Statement.data p.1 p.2 pos)) = _
    cases images labels size 0 (item :: items) <;> rfl

/-- The items of a data directive are laid out one after the other: the bytes of a string, the value
of an expression in a field, and zeros with a reference where the value is not known yet. The
directive is refused exactly if a known value does not fit its field. -/
theorem values_laid_out {labels : Labels} {size : Size} (hsize : size ∈ [Size.byte, .word, .long])
    {xs : List Datum} (hne : xs ≠ []) (hxs : ∀ x ∈ xs, x.Proper labels) {pieces : List Text}
    (hpieces : List.Forall₂ Datum.Spaced xs pieces) (pos : Position) :
    ((∀ x ∈ xs, ¬x.Misfit labels size) →
      values labels size ([44].intercalate pieces) pos =
        .ok (.data (xs.flatMap (Datum.image labels size)) (Datum.refs labels size xs) pos)) ∧
    ((∃ cause, values labels size ([44].intercalate pieces) pos = .error cause) ↔
      ∃ x ∈ xs, x.Misfit labels size) ∧
    ∀ x ∈ xs, ∀ v, x.value? labels = some v →
      (x.image labels size).length = size.width ∧
        (Field.read (x.image labels size) : Int) = v.toInt % (256 ^ size.width : Nat) := by
  have hvalues : values labels size ([44].intercalate pieces) pos =
      (images labels size 0 (xs.map Datum.item)).map fun p => .data p.1 p.2 pos :=
    values_of_split (Datum.split_spaced hne hxs hpieces)
      (fun h => hne (List.map_eq_nil_iff.1 h)) pos
  have hlaid : (∀ x ∈ xs, ¬x.Misfit labels size) →
      values labels size ([44].intercalate pieces) pos =
        .ok (.data (xs.flatMap (Datum.image labels size)) (Datum.refs labels size xs) pos) := by
    intro hfits
    have himages := Datum.images_items hsize hxs hfits []
    rw [List.flatMap_nil, List.length_nil] at himages
    rw [hvalues, himages]
    rfl
  refine ⟨hlaid, ⟨fun ⟨cause, hcause⟩ => ?_, fun hmisfit => ?_⟩, fun x _ v hv => ?_⟩
  · by_contra hnone
    rw [hlaid fun x hx hmisfit => hnone ⟨x, hx, hmisfit⟩] at hcause
    cases hcause
  · obtain ⟨cause, hcause⟩ := Datum.exists_images_error hsize hxs hmisfit 0
    rw [hvalues, hcause]
    exact ⟨cause, rfl⟩
  · exact Datum.read_image hv

/-- A string with a comma in it, a negative number and an expression that waits for a label; and a
number that needs more than a byte. -/
theorem values_laid_out_of_mixed :
    values {} .word (ascii " \"a,b\" ,-2,later+1") ⟨[], 1⟩ =
        .ok (.data [97, 44, 98, 254, 255, 0, 0]
          [⟨5, .sized (.binary .add (.ref (.global (ascii "later"))) (.constant 1)) .word⟩]
          ⟨[], 1⟩) ∧
      ∃ cause, values {} .byte (ascii "256, \"a\" ") ⟨[], 1⟩ = .error cause := by
  have hword : Size.word ∈ [Size.byte, .word, .long] := by decide
  have hbyte : Size.byte ∈ [Size.byte, .word, .long] := by decide
  have hspace : Text.Blank [32] := Text.blank_of_isGap rfl
  have hbare : ∀ x : Datum, x.Spaced x.text := fun x => ⟨[], [], .nil, .nil, by simp⟩
  have hwide : ∀ x : Datum, x.Spaced (32 :: (x.text ++ [32])) := fun x =>
    ⟨[32], [32], hspace, hspace, rfl⟩
  constructor
  · have hproper : ∀ x ∈ [Datum.string (ascii "a,b"), .expression (ascii "-2"),
        .expression (ascii "later+1")], x.Proper {} := by
      simp only [List.forall_mem_cons]
      refine ⟨⟨by decide, by decide⟩, ⟨by decide, .unary .neg (.constant 2), by decide +kernel⟩,
        ⟨by decide, .binary .add (.ref (.global (ascii "later"))) (.constant 1),
          by decide +kernel⟩, List.forall_mem_nil _⟩
    have hlaid := (values_laid_out hword (by decide) hproper
      (.cons (hwide _) (.cons (hbare _) (.cons (hbare _) .nil))) ⟨[], 1⟩).1 (by decide +kernel)
    refine hlaid.trans ?_
    decide +kernel
  · have hproper : ∀ x ∈ [Datum.expression (ascii "256"), .string (ascii "a")],
        x.Proper {} := by
      simp only [List.forall_mem_cons]
      exact ⟨⟨by decide, .constant 256, by decide +kernel⟩, ⟨by decide, by decide⟩,
        List.forall_mem_nil _⟩
    exact (values_laid_out hbyte (by decide) hproper
      (.cons (hbare _) (.cons (hwide _) .nil)) ⟨[], 1⟩).2.1.2 (by decide +kernel)

end Directive
end Assembler65816
