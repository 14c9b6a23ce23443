import Assembler65816.Proofs.Expression.Folding
import Mathlib.Data.Int.Bitwise

/-!
# What a term is worth

A term has a value once its symbols have theirs and its chunk has a place. `Term.eval?` computes it
with the operators of the integers, without bound, and wraps each result to 64 bits. What has no
value in it has none as a whole: an absent operand, an unknown symbol, a division by zero, a shift
by other than 0 to 63 places.

Folding works on 64-bit words and knows neither symbols nor places. The main statement is that a
term has the same value before and after, or none before and after, and that a term made of
constants folds to a constant if and only if it has a value.
-/
namespace Assembler65816

namespace Word

theorem getLsbD_ofInt (z : Int) {i : Nat} (hi : i < 64) :
    (BitVec.ofInt 64 z).getLsbD i = z.testBit i := by
  cases z with
  | ofNat n =>
    rw [Int.ofNat_eq_natCast, BitVec.ofInt_natCast, BitVec.getLsbD_ofNat, decide_eq_true hi]
    rfl
  | negSucc n =>
    rw [BitVec.ofInt_negSucc_eq_not_ofNat, BitVec.getLsbD_not, BitVec.getLsbD_ofNat,
      decide_eq_true hi]
    rfl

theorem getLsbD_toBitVec (a : Int64) {i : Nat} (hi : i < 64) :
    a.toBitVec.getLsbD i = a.toInt.testBit i := by
  rw [← getLsbD_ofInt _ hi, ← Int64.toInt_toBitVec, BitVec.ofInt_toInt]

/-- A word is known by its bits. -/
theorem eq_ofInt_of_testBit {a : Int64} {z : Int}
    (h : ∀ i < 64, a.toBitVec.getLsbD i = z.testBit i) : a = Int64.ofInt z := by
  rw [← Int64.toBitVec_inj, Int64.toBitVec_ofInt]
  apply BitVec.eq_of_getLsbD_eq
  intro i hi
  rw [h i hi, getLsbD_ofInt z hi]

variable (a b : Int64)

theorem and_eq : a &&& b = Int64.ofInt (a.toInt.land b.toInt) := by
  apply eq_ofInt_of_testBit
  intro i hi
  rw [Int64.toBitVec_and, BitVec.getLsbD_and, getLsbD_toBitVec a hi, getLsbD_toBitVec b hi,
    Int.testBit_land]

theorem or_eq : a ||| b = Int64.ofInt (a.toInt.lor b.toInt) := by
  apply eq_ofInt_of_testBit
  intro i hi
  rw [Int64.toBitVec_or, BitVec.getLsbD_or, getLsbD_toBitVec a hi, getLsbD_toBitVec b hi,
    Int.testBit_lor]

theorem xor_eq : a ^^^ b = Int64.ofInt (a.toInt.xor b.toInt) := by
  apply eq_ofInt_of_testBit
  intro i hi
  rw [Int64.toBitVec_xor, BitVec.getLsbD_xor, getLsbD_toBitVec a hi, getLsbD_toBitVec b hi,
    Int.testBit_lxor]

theorem and_255_eq : a &&& 255 = Int64.ofInt (a.toInt % 256) := by
  rw [← Int64.toBitVec_inj, Int64.toBitVec_and, Int64.toBitVec_ofInt]
  apply BitVec.eq_of_toNat_eq
  have hmask : (a.toBitVec &&& (255 : Int64).toBitVec).toNat = a.toBitVec.toNat % 2 ^ 8 := by
    rw [BitVec.toNat_and]
    exact Nat.and_two_pow_sub_one_eq_mod _ 8
  rw [hmask, BitVec.toNat_ofInt, ← Int64.toInt_toBitVec]
  have hsigned := BitVec.toInt_eq_toNat_cond a.toBitVec
  split at hsigned <;> omega

variable {b}

theorem isShiftCount_iff : isShiftCount b ↔ 0 ≤ b.toInt ∧ b.toInt ≤ 63 := by
  rw [isShiftCount, Bool.and_eq_true, decide_eq_true_eq, decide_eq_true_eq, Int64.le_iff_toInt_le,
    Int64.le_iff_toInt_le]
  rfl

/-- Words shift by a count modulo 64, which is the count itself here. -/
theorem toNat_shiftCount (h : isShiftCount b) :
    (b.toBitVec.smod 64).toNat = b.toInt.toNat := by
  obtain ⟨hlow, hhigh⟩ := isShiftCount_iff.1 h
  have hmod : (b.toBitVec.smod 64).toInt = b.toInt := by
    rw [BitVec.toInt_smod, Int64.toInt_toBitVec]
    change b.toInt.fmod 64 = b.toInt
    rw [Int.fmod_eq_emod_of_nonneg _ (by decide)]
    omega
  have hsigned := BitVec.toInt_eq_toNat_cond (b.toBitVec.smod 64)
  have hlt := (b.toBitVec.smod 64).isLt
  split at hsigned <;> omega

theorem shiftLeft_eq (h : isShiftCount b) :
    a <<< b = Int64.ofInt (a.toInt * 2 ^ b.toInt.toNat) := by
  apply Int64.toInt_inj.1
  rw [← Int64.toInt_toBitVec, Int64.toBitVec_shiftLeft, BitVec.shiftLeft_eq', toNat_shiftCount h,
    BitVec.toInt_shiftLeft, Nat.shiftLeft_eq, Int64.toInt_ofInt, ← Int64.toInt_toBitVec a,
    BitVec.toInt_eq_toNat_bmod a.toBitVec, Int.bmod_mul_bmod]
  push_cast
  rfl

theorem toInt_shiftRight (h : isShiftCount b) :
    (a >>> b).toInt = a.toInt / 2 ^ b.toInt.toNat := by
  rw [← Int64.toInt_toBitVec, Int64.toBitVec_shiftRight, BitVec.toInt_sshiftRight',
    toNat_shiftCount h, Int.shiftRight_eq_div_pow, Int64.toInt_toBitVec]
  push_cast
  rfl

end Word

def UnaryOp.onInt : UnaryOp → Int → Int
  | neg, x => -x
  | not, x => -x - 1
  | low, x => x % 256
  | high, x => x / 256 % 256
  | bank, x => x / 65536 % 256

/-- What an infix operator makes of two integers. Division goes toward zero, shifting to the right
toward minus infinity. -/
def BinaryOp.onInt? : BinaryOp → Int → Int → Option Int
  | add, l, r => some (l + r)
  | sub, l, r => some (l - r)
  | mul, l, r => some (l * r)
  | div, l, r => if r = 0 then none else some (l.tdiv r)
  | mod, l, r => if r = 0 then none else some (l.tmod r)
  | and, l, r => some (l.land r)
  | or, l, r => some (l.lor r)
  | xor, l, r => some (l.xor r)
  | shl, l, r => if 0 ≤ r ∧ r ≤ 63 then some (l * 2 ^ r.toNat) else none
  | shr, l, r => if 0 ≤ r ∧ r ≤ 63 then some (l / 2 ^ r.toNat) else none

theorem UnaryOp.eval_eq (op : UnaryOp) (x : Int64) :
    op.eval x = Int64.ofInt (op.onInt x.toInt) := by
  cases op with
  | neg => rw [onInt, Int64.ofInt_neg, Int64.ofInt_toInt, eval]
  | not =>
    apply Int64.toInt_inj.1
    simp [eval, onInt]
  | low => exact Word.and_255_eq x
  | high =>
    have hshift := Word.toInt_shiftRight x (b := 8) rfl
    rw [eval, Word.and_255_eq, hshift]
    rfl
  | bank =>
    have hshift := Word.toInt_shiftRight x (b := 16) rfl
    rw [eval, Word.and_255_eq, hshift]
    rfl

theorem BinaryOp.eval?_eq (op : BinaryOp) (l r : Int64) :
    op.eval? l r = (op.onInt? l.toInt r.toInt).map Int64.ofInt := by
  have hzero : r.toInt = 0 ↔ r = 0 := Int64.toInt_inj (y := 0)
  cases op with
  | add => simp [eval?, onInt?]
  | sub => simp [eval?, onInt?]
  | mul => simp [eval?, onInt?]
  | div =>
    -- The least word divided by -1 is the one quotient that has to be wrapped.
    have hdiv : l / r = Int64.ofInt (l.toInt.tdiv r.toInt) := by
      apply Int64.toInt_inj.1
      rw [Int64.toInt_div, Int64.toInt_ofInt]
    simp only [eval?, onInt?, hzero, hdiv]
    split <;> rfl
  | mod =>
    have hmod : l % r = Int64.ofInt (l.toInt.tmod r.toInt) := by
      rw [← Int64.toInt_mod, Int64.ofInt_toInt]
    simp only [eval?, onInt?, hzero, hmod]
    split <;> rfl
  | and => rw [eval?, Word.and_eq, onInt?, Option.map_some]
  | or => rw [eval?, Word.or_eq, onInt?, Option.map_some]
  | xor => rw [eval?, Word.xor_eq, onInt?, Option.map_some]
  | shl =>
    simp only [eval?, onInt?, ← Word.isShiftCount_iff]
    split
    next hcount => rw [Word.shiftLeft_eq l hcount, Option.map_some]
    next => rfl
  | shr =>
    simp only [eval?, onInt?, ← Word.isShiftCount_iff]
    split
    next hcount => rw [← Word.toInt_shiftRight l hcount, Option.map_some, Int64.ofInt_toInt]
    next => rfl

namespace Term

/-- The value of a term in a chunk that is placed at `base`, where `env` gives the symbols their
values. -/
def eval? (env : Ident → Option Int64) (base : Int64) : Term → Option Int64
  | empty => none
  | constant v => some v
  | offset v => some (base + v)
  | ref id => env id
  | unary op x => (x.eval? env base).map fun a => Int64.ofInt (op.onInt a.toInt)
  | binary op l r =>
    (l.eval? env base).bind fun a => (r.eval? env base).bind fun b =>
      (op.onInt? a.toInt b.toInt).map Int64.ofInt

variable (env : Ident → Option Int64) (base : Int64)

theorem eval?_applyUnary (op : UnaryOp) (x : Term) :
    (applyUnary op x).eval? env base = (unary op x).eval? env base := by
  cases x with
  | constant v => rw [applyUnary, eval?, UnaryOp.eval_eq, eval?, eval?, Option.map_some]
  | _ => rfl

/-- Each rule of folding keeps the value, wherever the chunk is placed. -/
theorem eval?_fold? {op : BinaryOp} {l r t : Term} (h : fold? op l r = some t) :
    t.eval? env base = (binary op l r).eval? env base := by
  unfold fold? at h
  split at h
  next l r =>
    obtain ⟨v, hv, rfl⟩ := Option.map_eq_some_iff.1 h
    rw [BinaryOp.eval?_eq] at hv
    exact hv.symm
  next l r =>
    cases h
    have hmoved : base + (l + r) = l + (base + r) := by grind
    simp [eval?, BinaryOp.onInt?, hmoved]
  next l r =>
    cases h
    have hmoved : base + (l + r) = base + l + r := by grind
    simp [eval?, BinaryOp.onInt?, hmoved]
  next l r =>
    cases h
    have hmoved : base + (l - r) = base + l - r := by grind
    simp [eval?, BinaryOp.onInt?, hmoved]
  next l r =>
    cases h
    have hdistance : l - r = base + l - (base + r) := by grind
    simp [eval?, BinaryOp.onInt?, hdistance]
  next => cases h

theorem eval?_applyBinary (op : BinaryOp) (l r : Term) :
    (applyBinary op l r).eval? env base = (binary op l r).eval? env base := by
  unfold applyBinary
  cases h : fold? op l r with
  | none => rfl
  | some t => exact eval?_fold? env base h

theorem eval?_reduce (t : Term) : t.reduce.eval? env base = t.eval? env base := by
  induction t with
  | unary op x ih => rw [reduce, eval?_applyUnary, eval?, ih, eval?]
  | binary op l r ihl ihr => rw [reduce, eval?_applyBinary, eval?, ihl, ihr, eval?]
  | _ => rfl

def IsClosed (t : Term) : Prop := ∀ leaf ∈ t.leaves, ∃ v, leaf = .constant v

theorem IsClosed.left {op : BinaryOp} {l r : Term} (h : (binary op l r).IsClosed) : l.IsClosed := by
  intro leaf hleaf
  apply h
  rw [leaves_binary]
  exact List.mem_append_left _ hleaf

theorem IsClosed.right {op : BinaryOp} {l r : Term} (h : (binary op l r).IsClosed) :
    r.IsClosed := by
  intro leaf hleaf
  apply h
  rw [leaves_binary]
  exact List.mem_append_right _ hleaf

variable {env base}

/-- A term made of constants folds as soon as it has a value. -/
theorem IsClosed.reduce_of_eval? {t : Term} (hclosed : t.IsClosed) {v : Int64}
    (h : t.eval? env base = some v) : t.reduce = .constant v := by
  induction t generalizing v with
  | empty => cases h
  | constant w =>
    cases h
    rfl
  | offset w =>
    obtain ⟨v, hv⟩ := hclosed (.offset w) (List.mem_singleton.2 rfl)
    cases hv
  | ref id =>
    obtain ⟨v, hv⟩ := hclosed (.ref id) (List.mem_singleton.2 rfl)
    cases hv
  | unary op x ih =>
    obtain ⟨a, ha, rfl⟩ := Option.map_eq_some_iff.1 h
    rw [reduce, ih hclosed ha, applyUnary, UnaryOp.eval_eq]
  | binary op l r ihl ihr =>
    obtain ⟨a, ha, h⟩ := Option.bind_eq_some_iff.1 h
    obtain ⟨b, hb, h⟩ := Option.bind_eq_some_iff.1 h
    have hfold : fold? op (.constant a) (.constant b) = some (.constant v) := by
      rw [fold?, BinaryOp.eval?_eq, h, Option.map_some]
    rw [reduce, ihl hclosed.left ha, ihr hclosed.right hb, applyBinary, hfold, Option.getD_some]

/-- Folding keeps the value of every term, and keeps it undefined if it is, whatever the symbols are
worth and wherever the chunk is placed. A term made of constants folds to a constant if and only if
it has a value, and to that value. -/
theorem reduce_keeps_value (t : Term) (env : Ident → Option Int64) (base : Int64) :
    t.reduce.eval? env base = t.eval? env base ∧
      (t.IsClosed → ∀ v, t.reduce = .constant v ↔ t.eval? env base = some v) := by
  refine ⟨eval?_reduce env base t, fun hclosed v => ⟨fun h => ?_, fun h => ?_⟩⟩
  · rw [← eval?_reduce, h, eval?]
  · exact hclosed.reduce_of_eval? h

/-- The least word divided by -1 is itself, and one less is the greatest. -/
theorem reduce_keeps_value_of_least :
    let t : Term := .unary .high (.binary .sub
      (.binary .div (.constant Int64.minValue) (.constant (-1))) (.constant 1))
    t.IsClosed ∧ t.reduce = .constant 255 ∧ t.eval? (fun _ => none) 0x8000 = some 255 := by
  intro t
  have hclosed : t.IsClosed := by
    intro leaf hleaf
    simp only [t, leaves, leavesBefore, List.mem_cons, List.not_mem_nil, or_false] at hleaf
    rcases hleaf with rfl | rfl | rfl <;> exact ⟨_, rfl⟩
  have hreduce : t.reduce = .constant 255 := by decide
  exact ⟨hclosed, hreduce, ((reduce_keeps_value t _ 0x8000).2 hclosed 255).1 hreduce⟩

end Term
end Assembler65816
