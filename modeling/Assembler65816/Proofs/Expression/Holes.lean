import Assembler65816.Proofs.Expression.Extent

/-!
# Reading around a character constant

A reader of expressions takes a character constant as a whole: whichever byte stands between the
apostrophes, it goes on at the same place. So a text with a constant in it can be thought of as a
text with a hole. For all bytes but the apostrophe, a reader does one of three things. It fails, or
it stops before the constant with a term that has nothing to do with it, or it goes past the
constant and reads a term in which the constant is one leaf.

The constant has to be one: an apostrophe before it can belong to a constant that was opened
earlier. `Text.opensConstant` says of the text before it that this is not so.
-/
namespace Assembler65816

namespace Term

/-- A term with one leaf left out. -/
inductive Hole
  | here
  | unary (op : UnaryOp) (x : Hole)
  | left (op : BinaryOp) (l : Hole) (r : Term)
  | right (op : BinaryOp) (l : Term) (r : Hole)
  deriving DecidableEq, Repr

namespace Hole

def fill (t : Term) : Hole → Term
  | here => t
  | unary op x => .unary op (x.fill t)
  | left op l r => .binary op (l.fill t) r
  | right op l r => .binary op l (r.fill t)

/-- The second term with a hole, put into the hole of the first. -/
def comp : Hole → Hole → Hole
  | here, inner => inner
  | unary op x, inner => unary op (x.comp inner)
  | left op l r, inner => left op (l.comp inner) r
  | right op l r, inner => right op l (r.comp inner)

theorem fill_comp (outer inner : Hole) (t : Term) :
    (outer.comp inner).fill t = outer.fill (inner.fill t) := by
  induction outer with
  | here => rfl
  | unary op x ih => rw [comp, fill, ih, fill]
  | left op l r ih => rw [comp, fill, ih, fill]
  | right op l r ih => rw [comp, fill, ih, fill]

end Hole

def character (b : UInt8) : Term := .constant (Int64.ofNat b.toNat)

end Term

namespace Text

/-- The character constant of `b` between two texts. -/
def around (u v : Text) (b : UInt8) : Text := u ++ 39 :: b :: 39 :: v

theorem length_around (u v : Text) (b : UInt8) : (around u v b).length = u.length + v.length + 3 := by
  simp only [around, List.length_append, List.length_cons]
  omega

/-- Whether an apostrophe behind the text opens a constant, instead of closing one. -/
def opensConstant : Text → Bool
  | [] => true
  | [39, _] => false
  | 39 :: _ :: 39 :: s => opensConstant s
  | _ :: s => opensConstant s

theorem around_cons (c : UInt8) (u v : Text) (b : UInt8) :
    around (c :: u) v b = c :: around u v b := rfl

theorem opensConstant_cons {c : UInt8} (hc : c ≠ 39) (s : Text) :
    opensConstant (c :: s) = opensConstant s := by
  rw [opensConstant.eq_4]
  · intro d hd
    exact absurd hd hc
  · intro d r hd
    exact absurd hd hc

theorem opensConstant_append {p : Text} (hp : 39 ∉ p) (s : Text) :
    opensConstant (p ++ s) = opensConstant s := by
  induction p with
  | nil => rfl
  | cons c p ih =>
    rw [List.mem_cons, not_or] at hp
    rw [List.cons_append, opensConstant_cons (Ne.symm hp.1), ih hp.2]

theorem opensConstant_dropWhile {p : UInt8 → Bool} (hp : p 39 = false) (s : Text) :
    opensConstant (s.dropWhile p) = opensConstant s := by
  have hrun : 39 ∉ s.takeWhile p := by
    intro hmem
    have h39 : p 39 := List.all_eq_true.1 List.all_takeWhile 39 hmem
    rw [hp] at h39
    cases h39
  rw [← opensConstant_append hrun, List.takeWhile_append_dropWhile]

/-- A run of bytes that are not apostrophes does not reach into the constant. -/
theorem span_around {p : UInt8 → Bool} (hp : p 39 = false) (u v : Text) (b : UInt8) :
    (around u v b).takeWhile p = u.takeWhile p ∧
      (around u v b).dropWhile p = around (u.dropWhile p) v b := by
  induction u with
  | nil => simp [around, hp]
  | cons c u ih =>
    rw [around_cons]
    by_cases hc : p c
    · simp [hc, ih.1, ih.2]
    · simp [hc, around_cons]

end Text

namespace ExprReader

/-- What is read at the constants in front of `v`, the same for all of them: nothing, a term that
ends before the constant, or a term that the constant is a leaf of. -/
inductive Uniform (v : Text) (read : UInt8 → Option (Term × Text)) : Prop
  | fails : (∀ b, b ≠ 39 → read b = none) → Uniform v read
  | before (t : Term) (u : Text) : u.opensConstant →
    (∀ b, b ≠ 39 → read b = some (t, u.around v b)) → Uniform v read
  | past (K : Term.Hole) (r : Text) :
    (∀ b, b ≠ 39 → read b = some (K.fill (.character b), r)) → Uniform v read

namespace Uniform
variable {v : Text} {read read' : UInt8 → Option (Term × Text)}

theorem congr (h : Uniform v read) (he : ∀ b, b ≠ 39 → read' b = read b) : Uniform v read' := by
  cases h with
  | fails h => exact .fails fun b hb => (he b hb).trans (h b hb)
  | before t u hu h => exact .before t u hu fun b hb => (he b hb).trans (h b hb)
  | past K r h => exact .past K r fun b hb => (he b hb).trans (h b hb)

/-- A reader that does not look at the constant stops before it. -/
theorem of_eq_map {x : Option (Term × Text)} (he : ∀ b, read b = x.map fun p => (p.1, p.2.around v b))
    (hx : ∀ p, x = some p → p.2.opensConstant) : Uniform v read := by
  cases x with
  | none => exact .fails fun b _ => he b
  | some p => exact .before p.1 p.2 (hx p rfl) fun b _ => he b

theorem unary (h : Uniform v read) (op : UnaryOp) :
    Uniform v fun b => (read b).map fun p => (.unary op p.1, p.2) := by
  cases h with
  | fails h => exact .fails fun b hb => by rw [h b hb, Option.map_none]
  | before t u hu h =>
    exact .before (.unary op t) u hu fun b hb => by rw [h b hb, Option.map_some]
  | past K r h =>
    exact .past (.unary op K) r fun b hb => by rw [h b hb, Option.map_some, Term.Hole.fill]

/-- One reader after the other. -/
theorem bind {next : Term × Text → Option (Term × Text)} (h : Uniform v read)
    (hbefore : ∀ (t : Term) (u : Text), u.opensConstant →
      (∀ b, b ≠ 39 → read b = some (t, u.around v b)) → Uniform v fun b => next (t, u.around v b))
    (hpast : ∀ (K : Term.Hole) (r : Text),
      Uniform v fun b => next (K.fill (.character b), r)) :
    Uniform v fun b => (read b).bind next := by
  cases h with
  | fails h => exact .fails fun b hb => by rw [h b hb, Option.bind_none]
  | before t u hu h =>
    exact (hbefore t u hu h).congr fun b hb => by rw [h b hb, Option.bind_some]
  | past K r h => exact (hpast K r).congr fun b hb => by rw [h b hb, Option.bind_some]

end Uniform

theorem skip_around (u v : Text) (b : UInt8) : skip (u.around v b) = (skip u).around v b :=
  (Text.span_around rfl u v b).2

theorem opensConstant_skip (u : Text) : (skip u).opensConstant = u.opensConstant :=
  Text.opensConstant_dropWhile rfl u

theorem isNumberPart_quote (radix : Radix) : isNumberPart radix 39 = false := by
  cases radix <;> rfl

theorem number_uniform (radix : Radix) {u : Text} (hu : u.opensConstant) (v : Text)
    (start : UInt8 → Text) :
    Uniform v fun b => (number radix (start b) (u.around v b)).toOption := by
  have hquote := isNumberPart_quote radix
  refine .of_eq_map (x := (number radix u u).toOption) (fun b => ?_) fun p hp => ?_
  · simp only [number, (Text.span_around hquote u v b).1, (Text.span_around hquote u v b).2]
    split
    · rfl
    split <;> rfl
  · unfold number at hp
    simp only at hp
    split at hp
    · cases hp
    split at hp
    · cases hp
      rwa [Text.opensConstant_dropWhile hquote]
    · cases hp

theorem name_uniform (labels : Labels) {u : Text} (hu : u.opensConstant) (v : Text) :
    Uniform v fun b => (name labels (u.around v b)).toOption := by
  have hdot : ((39 : UInt8) == 46) = false := rfl
  have hbyte : isNameByte 39 = false := rfl
  refine .of_eq_map (x := (name labels u).toOption) (fun b => ?_) fun p hp => ?_
  · have hdots := Text.span_around (p := (· == 46)) hdot u v b
    have hword := Text.span_around hbyte (u.dropWhile (· == 46)) v b
    simp only [name]
    rw [hdots.1, hdots.2, hword.1, hword.2]
    split <;> rfl
  · unfold name at hp
    simp only at hp
    split at hp
    · cases hp
    · cases hp
      rwa [Text.opensConstant_dropWhile hbyte, Text.opensConstant_dropWhile (p := (· == 46)) hdot]

theorem primary_quote_of_ne (labels : Labels) (c : UInt8) {d : UInt8} (hd : d ≠ 39) (s : Text) :
    (primary labels (39 :: c :: d :: s)).toOption = none := by
  have hhex : ((39 : UInt8) == 36) = false := rfl
  have hbinary : ((39 : UInt8) == 37) = false := rfl
  have hdigit : isDigit 39 = false := rfl
  simp only [primary, hhex, hbinary, hdigit, beq_self_eq_true, Bool.false_eq_true, if_false,
    if_true]
  split
  · rename_i he
    cases he
    exact absurd rfl hd
  · rfl

/-- A constant before the hole is read, unless it is not closed. -/
theorem constant_uniform (labels : Labels) {u : Text} (hu : Text.opensConstant (39 :: u))
    (v : Text) : Uniform v fun b => (primary labels (39 :: u.around v b)).toOption := by
  cases u with
  | nil => exact .fails fun b hb => primary_quote_of_ne labels 39 hb (39 :: v)
  | cons c u =>
    cases u with
    | nil => cases hu
    | cons d u =>
      by_cases hd : d = 39
      · subst hd
        exact .before (.character c) u hu fun b _ => rfl
      · exact .fails fun b _ => primary_quote_of_ne labels c hd _

theorem primary_uniform (labels : Labels) {u : Text} (hu : u.opensConstant) (v : Text) :
    Uniform v fun b => (primary labels (u.around v b)).toOption := by
  cases u with
  | nil => exact .past .here v fun b _ => rfl
  | cons c u =>
    by_cases hquote : c = 39
    · subst hquote
      exact constant_uniform labels hu v
    have htail : Text.opensConstant u := by rwa [Text.opensConstant_cons hquote] at hu
    simp only [Text.around_cons, primary, beq_eq_false_iff_ne.2 hquote, Bool.false_eq_true,
      if_false]
    by_cases hhex : c == 36
    · simp only [if_pos hhex]
      exact number_uniform .hex htail v _
    by_cases hbinary : c == 37
    · simp only [if_neg hhex, if_pos hbinary]
      exact number_uniform .binary htail v _
    by_cases hdigit : isDigit c
    · simp only [if_neg hhex, if_neg hbinary, if_pos hdigit]
      exact number_uniform .decimal hu v _
    by_cases hname : c == 46 || isNameStart c
    · simp only [if_neg hhex, if_neg hbinary, if_neg hdigit, if_pos hname]
      exact name_uniform labels hu v
    · simp only [if_neg hhex, if_neg hbinary, if_neg hdigit, if_neg hname]
      exact .fails fun b _ => rfl

theorem standsAlone_around (u v : Text) (b b' : UInt8) :
    standsAlone (u.around v b) = standsAlone (u.around v b') := by
  unfold standsAlone
  rw [skip_around, skip_around]
  cases skip u with
  | nil => rfl
  | cons c u => rfl

/-- Signs stand alone before all constants or before none. -/
theorem anonymous?_uniform (labels : Labels) (c : UInt8) {u : Text}
    (hu : Text.opensConstant (c :: u)) (v : Text) :
    (∀ b, anonymous? labels (c :: u.around v b) = none) ∨
      ∃ x : UInt8 → Except Stop (Term × Text),
        (∀ b, anonymous? labels (c :: u.around v b) = some (x b)) ∧
          Uniform v fun b => (x b).toOption := by
  by_cases hsign : c != 45 && c != 43
  · exact .inl fun b => by rw [anonymous?, if_pos hsign]
  have hquote : ((39 : UInt8) == c) = false := by
    by_contra h
    rw [Bool.not_eq_false] at h
    exact absurd (isToken_of_beq (isToken_of_sign hsign) h) (by decide)
  have hrest : Text.opensConstant ((c :: u).dropWhile (· == c)) := by
    rwa [Text.opensConstant_dropWhile (p := (· == c)) hquote]
  have heq : ∀ b, anonymous? labels (c :: u.around v b) =
      if !standsAlone (Text.around ((c :: u).dropWhile (· == c)) v 0) then none
      else some (if c == 43 then
          .ok (.ref (labels.next ((c :: u).takeWhile (· == c)).length),
            Text.around ((c :: u).dropWhile (· == c)) v b)
        else if labels.hasBackward ((c :: u).takeWhile (· == c)).length then
          .ok (.ref (labels.latest ((c :: u).takeWhile (· == c)).length),
            Text.around ((c :: u).dropWhile (· == c)) v b)
        else .error ⟨.noEarlier ((c :: u).takeWhile (· == c)), (c :: u.around v b).length⟩) := by
    intro b
    have hspan := Text.span_around (p := (· == c)) hquote (c :: u) v b
    rw [Text.around_cons] at hspan
    rw [anonymous?, if_neg hsign]
    simp only [hspan.1, hspan.2, standsAlone_around _ v b 0]
    split
    · rfl
    split
    · rfl
    split <;> rfl
  simp only [heq]
  by_cases halone : standsAlone (Text.around ((c :: u).dropWhile (· == c)) v 0)
  · simp only [halone, Bool.not_true, Bool.false_eq_true, if_false]
    refine .inr ⟨_, fun b => rfl, ?_⟩
    by_cases hnext : c == 43
    · simp only [if_pos hnext]
      exact .before _ _ hrest fun b _ => rfl
    by_cases hlatest : labels.hasBackward ((c :: u).takeWhile (· == c)).length
    · simp only [if_neg hnext, if_pos hlatest]
      exact .before _ _ hrest fun b _ => rfl
    · simp only [if_neg hnext, if_neg hlatest]
      exact .fails fun b _ => rfl
  · refine .inl fun b => ?_
    rw [if_pos (by simpa using halone)]

theorem operator?_around (u v : Text) (b : UInt8) :
    operator? (u.around v b) = (operator? u).map fun p => (p.1, p.2.around v b) := by
  have hafter : ∀ op : BinaryOp, Text.after? (ascii op.sign) (u.around v b) =
      (Text.after? (ascii op.sign) u).map (Text.around · v b) := by
    intro op
    refine Text.after?_append_of_notMem (fun c hc hmem => ?_) u
    cases hc
    exact absurd (isToken_of_mem_sign hmem) (by decide)
  unfold operator?
  rw [List.map_findSome?]
  simp only [hafter, Option.map_map, Function.comp_def]

theorem opensConstant_operator? {u r : Text} {op : BinaryOp} (h : operator? u = some (op, r)) :
    r.opensConstant = u.opensConstant := by
  have hsign : 39 ∉ ascii op.sign := fun hmem => absurd (isToken_of_mem_sign hmem) (by decide)
  rw [operator?_eq_some h, Text.opensConstant_append hsign]

/-- What is joined to a left operand does not depend on it. -/
theorem climb?_hole (labels : Labels) (least : Nat) (s : Text) :
    (∀ left, climb? labels least left s = none) ∨
      ∃ (K : Term.Hole) (r : Text), ∀ left, climb? labels least left s = some (K.fill left, r) := by
  induction s using length_induction with
  | h s ih =>
    have hstop : ∃ (K : Term.Hole) (r : Text), ∀ left, some (left, s) = some (K.fill left, r) :=
      ⟨.here, s, fun _ => rfl⟩
    simp only [climb?_eq labels least _ s]
    cases ho : operator? (skip s) with
    | none => exact .inr hstop
    | some p =>
      obtain ⟨op, s'⟩ := p
      by_cases hl : level op < least
      · simp only [if_pos hl]
        exact .inr hstop
      simp only [if_neg hl]
      cases hi : infixed? labels (level op + 1) s' with
      | none => exact .inl fun left => rfl
      | some p =>
        obtain ⟨right, r'⟩ := p
        have hlt := Nat.lt_trans (infixed?_length hi) (operator?_skip_length ho)
        rcases ih r' hlt with hnone | ⟨K, r, hsome⟩
        · exact .inl fun left => hnone _
        · refine .inr ⟨K.comp (.left op .here right), r, fun left => ?_⟩
          rw [Option.bind_some, hsome, Term.Hole.fill_comp]
          rfl

/-- So a term with the constant in it is continued in one way. -/
theorem climb?_past (labels : Labels) (least : Nat) (K : Term.Hole) (r v : Text) :
    Uniform v fun b => climb? labels least (K.fill (.character b)) r := by
  rcases climb?_hole labels least r with hnone | ⟨C, r', hsome⟩
  · exact .fails fun b _ => hnone _
  · exact .past (C.comp K) r' fun b _ => by rw [hsome, Term.Hole.fill_comp]

theorem length_of_around {u r v : Text} {b : UInt8}
    (h : (r.around v b).length < (u.around v b).length) : r.length < u.length := by
  rw [Text.length_around, Text.length_around] at h
  omega

/-- The group that the parenthesis before `u` opens. -/
theorem group_uniform {labels : Labels} {u v : Text}
    (h : Uniform v fun b => infixed? labels 0 (u.around v b)) :
    Uniform v fun b => (infixed? labels 0 (u.around v b)).bind fun p =>
      match skip p.2 with
      | 41 :: r => some (p.1, r)
      | _ => none := by
  refine h.bind (fun t r hr _ => ?_) fun K r => ?_
  · simp only [skip_around]
    cases hs : skip r with
    | nil => exact .fails fun b _ => rfl
    | cons c r' =>
      have hopen : Text.opensConstant (c :: r') := by rwa [← hs, opensConstant_skip]
      by_cases hc : c = 41
      · subst hc
        rw [Text.opensConstant_cons (by decide)] at hopen
        exact .before t r' hopen fun b _ => rfl
      · refine .fails fun b _ => ?_
        simp only [Text.around_cons]
        split
        · rename_i he
          cases he
          exact absurd rfl hc
        · rfl
  · simp only
    split
    · exact .past K _ fun b _ => rfl
    · exact .fails fun b _ => rfl

/-- Whether each reader treats all constants between `u` and `v` in one way. -/
structure Blind (labels : Labels) (v u : Text) : Prop where
  unary : u.opensConstant → Uniform v fun b => unary? labels (u.around v b)
  infixed : u.opensConstant → ∀ least, Uniform v fun b => infixed? labels least (u.around v b)
  climb : u.opensConstant → ∀ least left,
    Uniform v fun b => climb? labels least left (u.around v b)

section
variable {labels : Labels} {u v : Text} (ih : ∀ r, r.length < u.length → Blind labels v r)
include ih

theorem unary?_uniform (hu : u.opensConstant) :
    Uniform v fun b => unary? labels (u.around v b) := by
  simp only [unary?_eq labels (u.around v _), skip_around]
  cases hs : skip u with
  | nil => exact .past .here v fun b _ => rfl
  | cons c r =>
    have hopen : Text.opensConstant (c :: r) := by rwa [← hs, opensConstant_skip]
    have hshorter := ih r (skip_cons_length hs)
    simp only [Text.around_cons]
    rcases anonymous?_uniform labels c hopen v with hnone | ⟨x, hx, huniform⟩
    · simp only [hnone]
      by_cases hplus : c == 43
      · simp only [if_pos hplus]
        exact .fails fun b _ => rfl
      simp only [if_neg hplus]
      cases hsign : unarySign? c with
      | some op =>
        have hquote : c ≠ 39 := by
          rintro rfl
          cases hsign
        have hr : Text.opensConstant r := by rwa [Text.opensConstant_cons hquote] at hopen
        simp only
        by_cases hop : op.isSelector
        · simp only [if_pos hop]
          exact (hshorter.infixed hr 0).unary op
        · simp only [if_neg hop]
          exact (hshorter.unary hr).unary op
      | none =>
        simp only
        by_cases hgroup : c == 40
        · simp only [if_pos hgroup]
          rw [beq_iff_eq.1 hgroup, Text.opensConstant_cons (by decide)] at hopen
          exact group_uniform (hshorter.infixed hopen 0)
        · simp only [if_neg hgroup]
          exact primary_uniform labels hopen v
    · simp only [hx]
      exact huniform

theorem climb?_uniform (hu : u.opensConstant) (least : Nat) (left : Term) :
    Uniform v fun b => climb? labels least left (u.around v b) := by
  have hstop : Uniform v fun b => some (left, u.around v b) := .before left u hu fun b _ => rfl
  simp only [climb?_eq labels least left (u.around v _), skip_around, operator?_around]
  cases ho : operator? (skip u) with
  | none => exact hstop
  | some p =>
    obtain ⟨op, r⟩ := p
    simp only [Option.map_some]
    by_cases hl : level op < least
    · simp only [if_pos hl]
      exact hstop
    simp only [if_neg hl]
    have hr : r.opensConstant := by rwa [opensConstant_operator? ho, opensConstant_skip]
    refine ((ih r (operator?_skip_length ho)).infixed hr _).bind (fun right u' hu' hi => ?_) ?_
    · have hlt : u'.length < r.length := length_of_around (infixed?_length (hi 0 (by decide)))
      exact (ih u' (Nat.lt_trans hlt (operator?_skip_length ho))).climb hu' least (.binary op left right)
    · intro K r'
      exact climb?_past labels least (.right op left K) r' v

end

theorem readers_blind (labels : Labels) (v u : Text) : Blind labels v u := by
  induction u using length_induction with
  | h u ih =>
    refine ⟨unary?_uniform ih, fun hu least => ?_, climb?_uniform ih⟩
    simp only [infixed?_eq]
    refine (unary?_uniform ih hu).bind (fun t u' hu' h => ?_)
      fun K r => climb?_past labels least K r v
    exact (ih u' (length_of_around (unary?_length (h 0 (by decide))))).climb hu' least t

end ExprReader

/-- For all bytes but the apostrophe, a text with the constant of this byte in it is no expression,
or it is one expression with this constant as a leaf. -/
theorem Term.read_around (labels : Labels) {u : Text} (hu : u.opensConstant) (v : Text) :
    (∀ b, b ≠ 39 → (Term.read labels (u.around v b)).toOption = none) ∨
      ∃ K : Hole, ∀ b, b ≠ 39 →
        Term.read labels (u.around v b) = .ok (K.fill (.character b)) := by
  have hend : ∀ r : Text, ∀ b, ExprReader.skip (r.around v b) ≠ [] := by
    intro r b hnil
    have hlength := congrArg List.length hnil
    rw [ExprReader.skip_around, Text.length_around, List.length_nil] at hlength
    omega
  cases (ExprReader.readers_blind labels v u).infixed hu 0 with
  | fails h => exact .inl fun b hb => by rw [toOption_read, h b hb, Option.bind_none]
  | before t r _ h =>
    refine .inl fun b hb => ?_
    rw [toOption_read, h b hb, Option.bind_some, if_neg (hend r b)]
  | past K r h =>
    by_cases hr : ExprReader.skip r = []
    · exact .inr ⟨K, fun b hb => ExprReader.read_of_infixed? (h b hb) hr⟩
    · exact .inl fun b hb => by rw [toOption_read, h b hb, Option.bind_some, if_neg hr]

end Assembler65816
