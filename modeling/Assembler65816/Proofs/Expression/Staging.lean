import Assembler65816.Chunk.Resolution
import Assembler65816.Proofs.Expression.Folding

/-!
# Folding in stages

The symbols of a term become known at different times: some while its statement is read, the labels
of a segment when it is closed, the rest to the linker. The term may be folded at each of these
stages, or once at the end. The main statement is that this makes no difference. Folding takes away
only operators whose operands are numbers already, and what is put in later does not reach those.
-/
namespace Assembler65816.Term

/-- Replaces what `σ` knows, and then what `τ` knows of the references that are left. -/
def andThen (σ τ : Ident → Option Term) (id : Ident) : Option Term :=
  match σ id with
  | some t => some (t.substitute τ)
  | none => τ id

theorem substitute_andThen (σ τ : Ident → Option Term) (t : Term) :
    t.substitute (andThen σ τ) = (t.substitute σ).substitute τ := by
  induction t with
  | ref id =>
    rw [substitute, andThen, substitute]
    cases σ id with
    | none => rw [Option.getD_none, substitute]
    | some u => rw [Option.getD_some, Option.getD_some]
  | unary op x ih => rw [substitute, ih, substitute, substitute]
  | binary op l r ihl ihr => rw [substitute, ihl, ihr, substitute, substitute]
  | _ => rfl

theorem substitute_of_unknown (t : Term) : t.substitute (fun _ => none) = t := by
  induction t with
  | unary op x ih => rw [substitute, ih]
  | binary op l r ihl ihr => rw [substitute, ihl, ihr]
  | _ => rfl

section Stage
variable (τ : Ident → Option Term)

/-- A number is the same at every later stage. -/
theorem reduce_substitute_of_isFolded {t : Term} (h : t.isFolded) :
    (t.substitute τ).reduce = t := by
  cases t with
  | constant v => rfl
  | offset v => rfl
  | _ => cases h

/-- An operator that was tried early is tried again later, with the same result. -/
theorem reduce_substitute_applyUnary (op : UnaryOp) (x : Term) :
    ((applyUnary op x).substitute τ).reduce = applyUnary op (x.substitute τ).reduce := by
  cases x <;> rfl

theorem reduce_substitute_applyBinary (op : BinaryOp) (l r : Term) :
    ((applyBinary op l r).substitute τ).reduce =
      applyBinary op (l.substitute τ).reduce (r.substitute τ).reduce := by
  cases hfold : fold? op l r with
  | none => rw [applyBinary, hfold, Option.getD_none, substitute, reduce]
  | some t =>
    obtain ⟨hl, hr, ht⟩ := isFolded_of_fold? hfold
    rw [reduce_substitute_of_isFolded τ hl, reduce_substitute_of_isFolded τ hr, applyBinary, hfold,
      Option.getD_some, reduce_substitute_of_isFolded τ ht]

theorem reduce_substitute_reduce (t : Term) :
    (t.reduce.substitute τ).reduce = (t.substitute τ).reduce := by
  induction t with
  | unary op x ih => rw [reduce, reduce_substitute_applyUnary, ih, substitute, reduce]
  | binary op l r ihl ihr =>
    rw [reduce, reduce_substitute_applyBinary, ihl, ihr, substitute, reduce]
  | _ => rfl

theorem reduce_reduce (t : Term) : t.reduce.reduce = t.reduce := by
  have h := reduce_substitute_reduce (fun _ => none) t
  rwa [substitute_of_unknown, substitute_of_unknown] at h

end Stage

/-- Resolving a term in two stages, folding after each, comes to the same as replacing everything
and folding once. So folding twice is folding once, and a field whose term is folded before the
offsets of the labels are known settles as it would have without. -/
theorem reduce_in_stages (σ τ : Ident → Option Term) (t : Term) :
    t.substitute (andThen σ τ) = (t.substitute σ).substitute τ ∧
      ((t.substitute σ).reduce.substitute τ).reduce = (t.substitute (andThen σ τ)).reduce ∧
      t.reduce.reduce = t.reduce ∧
      ∀ (offsets : Offsets) (offset : Int64) (size : Size) (sameBank : Bool),
        Fixup.settle offsets ⟨offset, .sized t.reduce size, sameBank⟩ =
          Fixup.settle offsets ⟨offset, .sized t size, sameBank⟩ := by
  refine ⟨substitute_andThen σ τ t, ?_, reduce_reduce t, fun offsets offset size sameBank => ?_⟩
  · rw [reduce_substitute_reduce, substitute_andThen]
  · have hterm := reduce_substitute_reduce offsets.position? t
    simp only [Fixup.settle, Expression.map, Expression.sized, Expression.term, Option.getD_some,
      hterm]

end Assembler65816.Term
