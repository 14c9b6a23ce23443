import Assembler65816.Proofs.Expression.Renaming
import Assembler65816.Chunk.Resolution
import Mathlib.Data.List.Forall2

/-!
# Fixups under other names

If the labels of a segment and the references to them are renamed alike, so that no two become one,
every fixup has the same outcome as before: the same field at the same place, the same expression up
to the names, or a fault of the same kind. `Output.Like` says when two outputs differ in nothing but
the names of local labels and the lines that diagnostics point at.
-/
namespace Assembler65816

/-- The place `k` lines further down. Where there is no line there is no place. -/
def Position.later (k : Nat) (p : Position) : Position :=
  if p.line = 0 then p else {p with line := p.line + k}

/-- Whether two diagnostics report the same, the second one `k` lines further down. The texts in
them may quote a local label, and what keeps a text from being read may be another fault of it. -/
structure Diagnostic.Like (k : Nat) (d d' : Diagnostic) : Prop where
  kind : d'.kind = d.kind
  label : d'.label = d.label
  pos : d'.pos = d.pos.later k
  mnemonic : d'.mnemonic = d.mnemonic
  categories : d.kind ≠ .parse → d'.categories = d.categories

def Fixup.renamed (ρ : Ident → Ident) (f : Fixup) : Fixup := {f with expr := f.expr.renamed ρ}

def Chunk.renamed (ρ : Ident → Ident) (c : Chunk) : Chunk :=
  {c with fixups := c.fixups.map (Fixup.renamed ρ)}

/-- Whether two outputs are the same but for the names of labels and the lines. -/
inductive Output.Like (ρ : Ident → Ident) (k : Nat) : Output → Output → Prop
  | chunk (label : Text) (c : Chunk) : Like ρ k (.chunk label c) (.chunk label (c.renamed ρ))
  | define (name : Text) (value : Expression) :
      Like ρ k (.define name value) (.define name (value.renamed ρ))
  | error {d d' : Diagnostic} (h : d.Like k d') : Like ρ k (.error d) (.error d')

section Renaming
variable {ρ : Ident → Ident}

/-- A label is found under its new name where it was found before. -/
theorem Offsets.position?_renamed (hρ : Function.Injective ρ) (offsets : Offsets) (i : Ident) :
    Offsets.position? (offsets.map (Prod.map ρ id)) (ρ i) = offsets.position? i := by
  have hlookup : (offsets.map (Prod.map ρ id)).lookup (ρ i) = offsets.lookup i := by
    induction offsets with
    | nil => rfl
    | cons p offsets ih =>
      have hsame : (ρ i == ρ p.1) = (i == p.1) := by
        rw [Bool.eq_iff_iff, beq_iff_eq, beq_iff_eq]
        exact ⟨fun h => hρ h, congrArg ρ⟩
      rw [List.map_cons, Prod.map_apply, List.lookup_cons, hsame, ih, List.lookup_cons]
      rfl
  rw [position?, hlookup, position?]

theorem Fixup.settle_renamed (hρ : Function.Injective ρ) (offsets : Offsets) (f : Fixup) :
    (f.renamed ρ).settle (offsets.map (Prod.map ρ id)) = (f.settle offsets).renamed ρ := by
  have hposition : ∀ i, Offsets.position? (offsets.map (Prod.map ρ id)) (ρ i) =
      (offsets.position? i).map (Term.renamed ρ) := by
    intro i
    rw [Offsets.position?_renamed hρ, Offsets.position?, Option.map_map]
    rfl
  have hterm := Term.substitute_renamed ρ hposition f.expr.term
  simp only [settle, renamed, Expression.renamed, Expression.map, Expression.term,
    Option.getD_some] at hterm ⊢
  rw [hterm, Term.reduce_renamed]

/-- Whether two outcomes are the same but for the names of labels. -/
inductive Resolution.Like (ρ : Ident → Ident) (k : Nat) : Resolution → Resolution → Prop
  | dropped : Like ρ k .dropped .dropped
  | patched (offset : Nat) (field : List UInt8) :
      Like ρ k (.patched offset field) (.patched offset field)
  | outgoing (f : Fixup) : Like ρ k (.outgoing f) (.outgoing (f.renamed ρ))
  | failed {d d' : Diagnostic} (h : d.Like k d') : Like ρ k (.failed d) (.failed d')
  | outOfBounds : Like ρ k .outOfBounds .outOfBounds

theorem Fixup.resolve_renamed (hρ : Function.Injective ρ) (k : Nat) (label : Text)
    (offsets : Offsets) (length : Nat) (f : Fixup) :
    (f.resolve label offsets length).Like ρ k
      ((f.renamed ρ).resolve label (offsets.map (Prod.map ρ id)) length) := by
  -- No fault of a fixup has a place, and the texts in it do not matter.
  have hfailed : ∀ (kind : Category) (subject subject' want got : Text) (cause : Option Cause),
      Resolution.Like ρ k (.failed {kind, label, subject, want, got, cause})
        (.failed {kind, label, subject := subject', want, got, cause}) :=
    fun _ _ _ _ _ _ => .failed ⟨rfl, rfl, rfl, rfl, fun _ => rfl⟩
  have hsize : (f.renamed ρ).size = f.size := rfl
  have hoffset : (f.renamed ρ).offset = f.offset := rfl
  have hwithin : (f.renamed ρ).isWithin length = f.isWithin length := rfl
  have hterm : ((f.settle offsets).renamed ρ).expr.term = (f.settle offsets).expr.term.renamed ρ :=
    rfl
  simp only [resolve, settle_renamed hρ, hterm, hsize, hoffset, hwithin]
  split
  · exact hfailed ..
  generalize (f.settle offsets).expr.term = t
  cases t with
  | empty => exact .dropped
  | constant v =>
    have hrenamed : (Term.constant v).renamed ρ = .constant v := rfl
    simp only [hrenamed]
    split
    · exact hfailed ..
    split
    · exact .outOfBounds
    split
    · exact .patched ..
    · exact hfailed ..
  | offset v =>
    have hrenamed : (Term.offset v).renamed ρ = .offset v := rfl
    simp only [hrenamed]
    split
    · split
      · exact .outOfBounds
      split
      · exact .patched ..
      · exact hfailed ..
    · exact .outgoing _
  | ref | unary | binary => exact .outgoing _

namespace Resolution
variable {k : Nat} {rs rs' : List Resolution} (h : List.Forall₂ (Like ρ k) rs rs')
include h

theorem foldl_apply_like (bytes : List UInt8) : rs'.foldl apply bytes = rs.foldl apply bytes := by
  induction h generalizing bytes with
  | nil => rfl
  | cons hr _ ih =>
    rw [List.foldl_cons, List.foldl_cons, ih]
    cases hr <;> rfl

theorem outgoing_like :
    rs'.filterMap outgoing? = (rs.filterMap outgoing?).map (Fixup.renamed ρ) := by
  induction h with
  | nil => rfl
  | cons hr _ ih =>
    cases hr with
    | outgoing f => exact congrArg (f.renamed ρ :: ·) ih
    | _ => exact ih

theorem failed_like :
    List.Forall₂ (Diagnostic.Like k) (rs.filterMap failed?) (rs'.filterMap failed?) := by
  induction h with
  | nil => exact .nil
  | cons hr _ ih =>
    cases hr with
    | failed hd => exact .cons hd ih
    | _ => exact ih

end Resolution
end Renaming
end Assembler65816
