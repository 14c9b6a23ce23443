import Assembler65816.Proofs.Expression.Grammar
import Assembler65816.Expression.Reduce

/-!
# What folds

A term folds to a constant or to a position only if every leaf of it does, so a term with a
reference in it never has a value, and one that has a value keeps it whatever the references of
other terms turn out to be. A term that was read from a text has a value only if it is constant as
written.
-/
namespace Assembler65816.Term

def references : Term → List Ident
  | ref id => [id]
  | unary _ x => x.references
  | binary _ l r => l.references ++ r.references
  | _ => []

/-- Whether the term is a number, absolute or counted from the start of the chunk. -/
def isFolded : Term → Bool
  | constant _ | offset _ => true
  | _ => false

theorem value?_eq_some {t : Term} {v : Int64} : t.value? = some v ↔ t.reduce = .constant v := by
  unfold value?
  split
  · rename_i w hw
    rw [hw, Option.some.injEq, constant.injEq]
  · rename_i hne
    constructor
    · intro h
      cases h
    · intro h
      exact absurd h (hne v)

theorem isFolded_of_fold? {op : BinaryOp} {l r t : Term} (h : fold? op l r = some t) :
    l.isFolded ∧ r.isFolded ∧ t.isFolded := by
  unfold fold? at h
  split at h
  · obtain ⟨v, -, rfl⟩ := Option.map_eq_some_iff.1 h
    exact ⟨rfl, rfl, rfl⟩
  · cases h
    exact ⟨rfl, rfl, rfl⟩
  · cases h
    exact ⟨rfl, rfl, rfl⟩
  · cases h
    exact ⟨rfl, rfl, rfl⟩
  · cases h
    exact ⟨rfl, rfl, rfl⟩
  · cases h

theorem isFolded_applyUnary {op : UnaryOp} {x : Term} (h : (applyUnary op x).isFolded) :
    x.isFolded := by
  cases x with
  | constant v => rfl
  | _ => cases h

theorem isFolded_applyBinary {op : BinaryOp} {l r : Term} (h : (applyBinary op l r).isFolded) :
    l.isFolded ∧ r.isFolded := by
  unfold applyBinary at h
  cases hf : fold? op l r with
  | none =>
    rw [hf] at h
    cases h
  | some t => exact ⟨(isFolded_of_fold? hf).1, (isFolded_of_fold? hf).2.1⟩

theorem references_of_isFolded {t : Term} (h : t.reduce.isFolded) : t.references = [] := by
  induction t with
  | unary op x ih => exact ih (isFolded_applyUnary h)
  | binary op l r ihl ihr =>
    obtain ⟨hl, hr⟩ := isFolded_applyBinary h
    rw [references, ihl hl, ihr hr]
    rfl
  | ref id => cases h
  | _ => rfl

theorem references_of_value? {t : Term} {v : Int64} (h : t.value? = some v) :
    t.references = [] := by
  apply references_of_isFolded
  rw [value?_eq_some.1 h]
  rfl

theorem substitute_of_references {t : Term} (σ : Ident → Option Term) (h : t.references = []) :
    t.substitute σ = t := by
  induction t with
  | unary op x ih => rw [substitute, ih h]
  | binary op l r ihl ihr =>
    rw [references, List.append_eq_nil_iff] at h
    rw [substitute, ihl h.1, ihr h.2]
  | ref id => cases h
  | _ => rfl

/-- Only the empty term folds to it. -/
theorem reduce_eq_empty {t : Term} (h : t.reduce = .empty) : t = .empty := by
  cases t with
  | unary op x =>
    have : ∀ y : Term, applyUnary op y ≠ .empty := by
      intro y
      cases y <;> exact Term.noConfusion
    exact absurd h (this _)
  | binary op l r =>
    have hne : applyBinary op l.reduce r.reduce ≠ .empty := by
      unfold applyBinary
      cases hf : fold? op l.reduce r.reduce with
      | none => exact Term.noConfusion
      | some t =>
        have := (isFolded_of_fold? hf).2.2
        intro he
        rw [Option.getD_some] at he
        rw [he] at this
        cases this
    exact absurd h hne
  | _ => exact h

theorem isConstant_of_isWritten {t : Term} (hw : t.isWritten) (h : t.references = []) :
    t.isConstant := by
  induction t with
  | unary op x ih => exact ih hw h
  | binary op l r ihl ihr =>
    rw [references, List.append_eq_nil_iff] at h
    rw [isWritten, Bool.and_eq_true] at hw
    rw [isConstant, ihl hw.1 h.1, ihr hw.2 h.2]
    rfl
  | constant v => rfl
  | ref id => cases h
  | _ => cases hw

theorem isEmpty_of_isWritten {t : Term} (hw : t.isWritten) : t.isEmpty = false := by
  cases t with
  | empty => cases hw
  | _ => rfl

theorem substitute_ne_empty {t : Term} (hw : t.isWritten) {σ : Ident → Option Term}
    (hσ : ∀ id, σ id ≠ some .empty) : t.substitute σ ≠ .empty := by
  cases t with
  | empty => cases hw
  | ref id =>
    intro h
    cases hid : σ id with
    | none =>
      rw [substitute, hid] at h
      cases h
    | some u =>
      rw [substitute, hid, Option.getD_some] at h
      exact hσ id (h ▸ hid)
  | _ => exact Term.noConfusion

end Assembler65816.Term
