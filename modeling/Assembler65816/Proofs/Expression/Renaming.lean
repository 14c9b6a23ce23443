import Assembler65816.Proofs.Expression.Mentions

/-!
# Counting labels from further on

The identity of a local label holds a number: its turn among the anonymous labels with as many
signs, or the scope of a named one. If other labels came before, all these numbers are larger, by
the same amount for each kind of label. `Labels.shift` and `Ident.shift` count from further on, the
amounts being the numbers of labels that `d` has met.

Counting from further on renames the references of a term, no two of which become one, and changes
nothing else: the term folds as it did.
-/
namespace Assembler65816

/-- How many anonymous labels there were, for each number of signs. -/
def Labels.met (l : Labels) : Direction → Tally
  | .backward => l.backward
  | .forward => l.forward

/-- The identity that a label has if the labels of `d` came before. -/
def Ident.shift (d : Labels) : Ident → Ident
  | global name => .global name
  | anonymous direction count turn => .anonymous direction count (turn + d.met direction count)
  | named scope path => .named (scope + d.scope) path

theorem Ident.shift_injective (d : Labels) : Function.Injective (Ident.shift d) := by
  intro a b h
  cases a with
  | global name => cases b <;> cases h; rfl
  | anonymous direction count turn =>
    cases b with
    | anonymous direction' count' turn' =>
      obtain ⟨rfl, rfl, hturn⟩ := Ident.anonymous.inj h
      rw [Int.add_left_inj] at hturn
      rw [hturn]
    | _ => cases h
  | named scope path =>
    cases b with
    | named scope' path' =>
      obtain ⟨hscope, rfl⟩ := Ident.named.inj h
      rw [Int.add_left_inj] at hscope
      rw [hscope]
    | _ => cases h

namespace Labels

/-- The labels that are known if those of `d` came before, none of which encloses this place. -/
def shift (l d : Labels) : Labels :=
  { scope := l.scope + d.scope
    backward := fun n => l.backward n + d.backward n
    forward := fun n => l.forward n + d.forward n
    path := l.path }

variable (l d : Labels)

theorem latest_shift (n : Int) : (l.shift d).latest n = (l.latest n).shift d := by
  simp only [latest, shift, Ident.shift, met, Int.natCast_add]

theorem next_shift (n : Int) : (l.shift d).next n = (l.next n).shift d := by
  simp only [next, shift, Ident.shift, met, Int.natCast_add]
  congr 1
  omega

theorem reference_shift (depth : Int) (name : Text) :
    (l.shift d).reference depth name = (l.reference depth name).shift d := by
  simp only [reference, named, pathTo, shift, Ident.shift, Int.natCast_add]

theorem enterScope_shift : (l.shift d).enterScope = l.enterScope.shift d := by
  simp only [enterScope, shift, Nat.add_right_comm]

theorem bump_shift (t u : Tally) (n : Int) :
    Tally.bump (fun k => t k + u k) n = fun k => t.bump n k + u k := by
  funext k
  simp only [Tally.bump]
  split
  · rename_i hk
    rw [hk, Nat.add_right_comm]
  · rfl

theorem defineBackward_shift (n : Int) :
    (l.shift d).defineBackward n =
      ((l.defineBackward n).1.shift d, (l.defineBackward n).2.shift d) := by
  have hlabels : ((l.shift d).defineBackward n).2 = (l.defineBackward n).2.shift d := by
    simp only [defineBackward, shift, bump_shift]
  refine Prod.ext ?_ hlabels
  have hlatest : ((l.shift d).defineBackward n).1 = ((l.shift d).defineBackward n).2.latest n := rfl
  rw [hlatest, hlabels, latest_shift]
  rfl

theorem defineForward_shift (n : Int) :
    (l.shift d).defineForward n =
      ((l.defineForward n).1.shift d, (l.defineForward n).2.shift d) := by
  refine Prod.ext (l.next_shift d n) ?_
  simp only [defineForward, shift, bump_shift]

theorem defineLocal_shift (depth : Int) (name : Text) :
    (l.shift d).defineLocal depth name =
      ((l.defineLocal depth name).1.shift d, (l.defineLocal depth name).2.shift d) :=
  Prod.ext (l.reference_shift d depth name) rfl

theorem resolve_shift (m : Mention) : (l.shift d).resolve m = (l.resolve m).shift d := by
  cases m with
  | global name => rfl
  | backward n => exact l.latest_shift d n
  | forward n => exact l.next_shift d n
  | nested depth name => exact l.reference_shift d depth name

theorem knows_shift {m : Mention} (h : l.knows m) : (l.shift d).knows m := by
  cases m with
  | backward n =>
    have hn : 0 < l.backward n := of_decide_eq_true h
    exact decide_eq_true (Nat.add_pos_left hn (d.backward n))
  | _ => rfl

end Labels

namespace Term

def renamed (ρ : Ident → Ident) (t : Term) : Term := t.substitute fun id => some (.ref (ρ id))

variable (ρ : Ident → Ident)

theorem renamed_binary (op : BinaryOp) (x y : Term) :
    (binary op x y).renamed ρ = binary op (x.renamed ρ) (y.renamed ρ) := rfl

theorem isConstant_renamed (t : Term) : (t.renamed ρ).isConstant = t.isConstant := by
  induction t with
  | unary op x ih => exact ih
  | binary op x y ihx ihy => rw [renamed_binary, isConstant, ihx, ihy, isConstant]
  | _ => rfl

theorem isEmpty_renamed (t : Term) : (t.renamed ρ).isEmpty = t.isEmpty := by
  cases t <;> rfl

theorem isSelector_renamed (t : Term) : (t.renamed ρ).isSelector = t.isSelector := by
  cases t <;> rfl

theorem fold?_renamed (op : BinaryOp) (x y : Term) :
    fold? op (x.renamed ρ) (y.renamed ρ) = (fold? op x y).map (renamed ρ) := by
  cases x <;> cases y
  case constant.constant v w =>
    have hfold : fold? op (constant v) (constant w) = (op.eval? v w).map constant := by
      rw [fold?]
    rw [hfold, Option.map_map]
    exact hfold
  all_goals cases op <;> rfl

theorem reduce_renamed (t : Term) : (t.renamed ρ).reduce = t.reduce.renamed ρ := by
  induction t with
  | unary op x ih =>
    have happly : ∀ y : Term, applyUnary op (y.renamed ρ) = (applyUnary op y).renamed ρ := by
      intro y
      cases y <;> rfl
    exact (congrArg (applyUnary op) ih).trans (happly _)
  | binary op x y ihx ihy =>
    have happly : ∀ x y : Term,
        applyBinary op (x.renamed ρ) (y.renamed ρ) = (applyBinary op x y).renamed ρ := by
      intro x y
      rw [applyBinary, fold?_renamed, applyBinary]
      cases fold? op x y <;> rfl
    rw [renamed_binary, reduce, ihx, ihy, happly, reduce]
  | _ => rfl

theorem value?_renamed (t : Term) : (t.renamed ρ).value? = t.value? := by
  rw [value?, reduce_renamed, value?]
  cases t.reduce <;> rfl

/-- Replacing the references of a renamed term is renaming what replaces them. -/
theorem substitute_renamed {σ σ' : Ident → Option Term}
    (h : ∀ id, σ' (ρ id) = (σ id).map (renamed ρ)) (t : Term) :
    (t.renamed ρ).substitute σ' = (t.substitute σ).renamed ρ := by
  induction t with
  | ref id =>
    have hid : (renamed ρ (ref id)).substitute σ' = (σ' (ρ id)).getD (ref (ρ id)) := rfl
    rw [hid, h, substitute]
    cases σ id <;> rfl
  | unary op x ih => exact congrArg (unary op) ih
  | binary op x y ihx ihy => rw [renamed_binary, substitute, ihx, ihy, substitute, renamed_binary]
  | _ => rfl

theorem under?_shift {l : Labels} (d : Labels) {t u : Term} (h : t.under? l = some u) :
    t.under? (l.shift d) = some (u.renamed (Ident.shift d)) := by
  induction t generalizing u with
  | ref id =>
    rw [under?] at h ⊢
    split at h
    · rename_i hknows
      cases h
      rw [if_pos (l.knows_shift d hknows), l.resolve_shift]
      rfl
    · cases h
  | unary op x ih =>
    obtain ⟨x', hx, rfl⟩ := Option.map_eq_some_iff.1 h
    rw [under?, ih hx]
    rfl
  | binary op x y ihx ihy =>
    obtain ⟨x', hx, h⟩ := Option.bind_eq_some_iff.1 h
    obtain ⟨y', hy, rfl⟩ := Option.map_eq_some_iff.1 h
    rw [under?, ihx hx, ihy hy]
    rfl
  | empty | constant | offset =>
    cases h
    rfl

end Term

def Expression.renamed (ρ : Ident → Ident) (e : Expression) : Expression := e.map (Term.renamed ρ)

end Assembler65816
