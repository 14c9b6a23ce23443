import Assembler65816.Expression.Reader
import Assembler65816.Proofs.Except

/-!
# The grammar of expressions

The readers of expressions carry the proof that the rest they leave is shorter, and say where and
why they fail. For a statement about what they read the proof does not matter, so this module states
the grammar once more without it: for `bareUnary`, `bareInfixed` and `bareClimb` three equations say
how they call each other. Where the failures do not matter either, `unary?`, `infixed?` and `climb?`
have only term and rest in the result. Proofs about the grammar go by induction on the length of the
text.
-/
namespace Assembler65816

namespace ExprReader

/-- What a reader returns, without the proof about the rest. -/
def bare {P : Text → Prop} (x : Except Stop (Term × {r : Text // P r})) :
    Except Stop (Term × Text) :=
  x.map fun p => (p.1, p.2.1)

def bareUnary (labels : Labels) (s : Text) : Except Stop (Term × Text) := bare (unary labels s)

def bareInfixed (labels : Labels) (least : Nat) (s : Text) : Except Stop (Term × Text) :=
  bare (infixed labels least s)

def bareClimb (labels : Labels) (least : Nat) (left : Term) (s : Text) :
    Except Stop (Term × Text) :=
  bare (climb labels least left s)

theorem bareInfixed_eq (labels : Labels) (least : Nat) (s : Text) :
    bareInfixed labels least s = (bareUnary labels s).bind fun p =>
      bareClimb labels least p.1 p.2 := by
  unfold bareInfixed infixed bareUnary
  cases unary labels s with
  | error e => rfl
  | ok p =>
    obtain ⟨t, r, hr⟩ := p
    simp only [bind, Except.bind, bare, Except.map, bareClimb]
    cases climb labels least t r with
    | error e => rfl
    | ok p => rfl

theorem bareClimb_eq (labels : Labels) (least : Nat) (left : Term) (s : Text) :
    bareClimb labels least left s =
      match operator? (skip s) with
      | none => .ok (left, s)
      | some (op, r) =>
        if level op < least then .ok (left, s)
        else (bareInfixed labels (level op + 1) r).bind fun p =>
          bareClimb labels least (.binary op left p.1) p.2 := by
  unfold bareClimb
  conv => lhs; rw [climb]
  split
  · rename_i h
    simp only [h]
    rfl
  · rename_i op r h
    simp only [h]
    split
    · rfl
    · unfold bareInfixed
      cases infixed labels (level op + 1) r with
      | error e => rfl
      | ok p =>
        obtain ⟨t, r', hr'⟩ := p
        simp only [bind, Except.bind, bare, Except.map]
        cases climb labels least (.binary op left t) r' with
        | error e => rfl
        | ok p => rfl

def closeGroup (p : Term × Text) : Except Stop (Term × Text) :=
  match skip p.2 with
  | 41 :: r => .ok (p.1, r)
  | rest => .error ⟨.missingParenthesis, rest.length⟩

theorem bareUnary_eq (labels : Labels) (s : Text) :
    bareUnary labels s =
      match skip s with
      | [] => .error ⟨.missingOperand, 0⟩
      | c :: r =>
        match anonymous? labels (c :: r) with
        | some x => x
        | none =>
          if c == 43 then .error ⟨.unexpectedPlus, (c :: r).length⟩
          else match unarySign? c with
            | some op =>
              (if op.isSelector then bareInfixed labels 0 r else bareUnary labels r).map fun p =>
                (.unary op p.1, p.2)
            | none =>
              if c == 40 then (bareInfixed labels 0 r).bind closeGroup
              else primary labels (c :: r) := by
  conv => lhs; unfold bareUnary; rw [unary]
  split
  · rename_i h
    simp only [h]
    rfl
  · rename_i c r h
    simp only [h]
    split
    · rename_i e ha
      simp only [ha]
      rfl
    · rename_i t r' ha
      simp only [ha]
      rfl
    · rename_i ha
      simp only [ha]
      split
      · rfl
      · cases hu : unarySign? c with
        | some op =>
          simp only [bareUnary, bareInfixed]
          cases hs : op.isSelector with
          | true =>
            simp only [if_true]
            cases infixed labels 0 r with
            | error e => rfl
            | ok p => rfl
          | false =>
            simp only [Bool.false_eq_true, if_false]
            cases unary labels r with
            | error e => rfl
            | ok p => rfl
        | none =>
          simp only
          split
          · simp only [bareInfixed]
            cases hi : infixed labels 0 r with
            | error e => rfl
            | ok p =>
              obtain ⟨t, r', hr'⟩ := p
              simp only [bind, Except.bind, bare, closeGroup]
              split
              · rename_i r'' hc
                simp only [Except.map, hc]
                rfl
              · rename_i hc
                simp only [Except.map]
          · split
            · rename_i e hp
              simp only [hp]
              rfl
            · rename_i t r' hp
              simp only [hp]
              rfl

def view {P : Text → Prop} (x : Except Stop (Term × {r : Text // P r})) : Option (Term × Text) :=
  x.toOption.map fun p => (p.1, p.2.1)

def unary? (labels : Labels) (s : Text) : Option (Term × Text) := view (unary labels s)

def infixed? (labels : Labels) (least : Nat) (s : Text) : Option (Term × Text) :=
  view (infixed labels least s)

def climb? (labels : Labels) (least : Nat) (left : Term) (s : Text) : Option (Term × Text) :=
  view (climb labels least left s)

theorem toOption_bare {P : Text → Prop} (x : Except Stop (Term × {r : Text // P r})) :
    (bare x).toOption = view x := by
  cases x <;> rfl

theorem infixed?_eq (labels : Labels) (least : Nat) (s : Text) :
    infixed? labels least s = (unary? labels s).bind fun p => climb? labels least p.1 p.2 := by
  unfold infixed? unary? climb?
  simp only [← toOption_bare]
  rw [← bareInfixed, bareInfixed_eq, Except.toOption_bind]
  rfl

theorem climb?_eq (labels : Labels) (least : Nat) (left : Term) (s : Text) :
    climb? labels least left s =
      match operator? (skip s) with
      | none => some (left, s)
      | some (op, r) =>
        if level op < least then some (left, s)
        else (infixed? labels (level op + 1) r).bind fun p =>
          climb? labels least (.binary op left p.1) p.2 := by
  unfold infixed? climb?
  simp only [← toOption_bare]
  rw [← bareClimb, bareClimb_eq]
  split
  · rfl
  · split
    · rfl
    · exact Except.toOption_bind _ _

theorem unary?_eq (labels : Labels) (s : Text) :
    unary? labels s =
      match skip s with
      | [] => none
      | c :: r =>
        match anonymous? labels (c :: r) with
        | some x => x.toOption
        | none =>
          if c == 43 then none
          else match unarySign? c with
            | some op =>
              (if op.isSelector then infixed? labels 0 r else unary? labels r).map fun p =>
                (.unary op p.1, p.2)
            | none =>
              if c == 40 then
                (infixed? labels 0 r).bind fun p =>
                  match skip p.2 with
                  | 41 :: r' => some (p.1, r')
                  | _ => none
              else (primary labels (c :: r)).toOption := by
  unfold infixed? unary?
  simp only [← toOption_bare]
  rw [← bareUnary, bareUnary_eq]
  split
  · rfl
  · split
    · rfl
    · split
      · rfl
      · split
        · split
          · exact Except.toOption_map _ _
          · exact Except.toOption_map _ _
        · split
          · rw [Except.toOption_bind]
            refine congrArg _ (funext fun p => ?_)
            unfold closeGroup
            split <;> rfl
          · rfl

theorem bare_eq_ok {P : Text → Prop} {x : Except Stop (Term × {r : Text // P r})} {t : Term}
    {r : Text} (h : bare x = .ok (t, r)) : P r := by
  cases x with
  | error e => cases h
  | ok p =>
    cases h
    exact p.2.2

theorem bareUnary_length {labels : Labels} {s r : Text} {t : Term}
    (h : bareUnary labels s = .ok (t, r)) : r.length < s.length :=
  bare_eq_ok h

theorem bareInfixed_length {labels : Labels} {least : Nat} {s r : Text} {t : Term}
    (h : bareInfixed labels least s = .ok (t, r)) : r.length < s.length :=
  bare_eq_ok h

theorem of_view_eq_some {P : Text → Prop} {x : Except Stop (Term × {r : Text // P r})} {t : Term}
    {r : Text} (h : view x = some (t, r)) : P r := by
  cases x with
  | error e => cases h
  | ok p =>
    cases h
    exact p.2.2

theorem unary?_length {labels : Labels} {s r : Text} {t : Term}
    (h : unary? labels s = some (t, r)) : r.length < s.length :=
  of_view_eq_some h

theorem infixed?_length {labels : Labels} {least : Nat} {s r : Text} {t : Term}
    (h : infixed? labels least s = some (t, r)) : r.length < s.length :=
  of_view_eq_some h

theorem operator?_skip_length {s r : Text} {op : BinaryOp}
    (h : operator? (skip s) = some (op, r)) : r.length < s.length :=
  Nat.lt_of_lt_of_le (operator?_length h) (length_skip s)

theorem skip_cons_length {s r : Text} {c : UInt8} (h : skip s = c :: r) : r.length < s.length :=
  length_of_skip h

/-- What holds of a text if it holds of all shorter ones holds of every text. -/
theorem length_induction {Q : Text → Prop} (h : ∀ s, (∀ r, r.length < s.length → Q r) → Q s)
    (s : Text) : Q s :=
  (measure List.length).wf.induction s h

end ExprReader

/-- A whole expression is an infix expression and nothing after it. -/
theorem Term.toOption_read (labels : Labels) (s : Text) :
    (Term.read labels s).toOption =
      (ExprReader.infixed? labels 0 s).bind fun p =>
        if ExprReader.skip p.2 = [] then some p.1 else none := by
  unfold Term.read ExprReader.infixed?
  cases ExprReader.infixed labels 0 s with
  | error e => rfl
  | ok p =>
    simp only [ExprReader.view, Except.toOption, Option.map, Option.bind]
    cases ExprReader.skip p.2.1 <;> rfl

namespace ExprReader

section Kept
variable {labels : Labels} {P : Term → Prop}

structure Keeps (labels : Labels) (P : Term → Prop) (s : Text) : Prop where
  unary : ∀ t r, unary? labels s = some (t, r) → P t
  infixed : ∀ least t r, infixed? labels least s = some (t, r) → P t
  climb : ∀ least left t r, P left → climb? labels least left s = some (t, r) → P t

variable (hprimary : ∀ s t r, primary labels s = .ok (t, r) → P t)
  (hanonymous : ∀ s t r, anonymous? labels s = some (.ok (t, r)) → P t)
  (hunaryOp : ∀ op x, P x → P (.unary op x))
  (hbinaryOp : ∀ op x y, P x → P y → P (.binary op x y))

include hprimary hanonymous hunaryOp in
theorem unary?_keeps {s : Text} (ih : ∀ r, r.length < s.length → Keeps labels P r) {t : Term}
    {r : Text} (h : unary? labels s = some (t, r)) : P t := by
  rw [unary?_eq] at h
  split at h
  · cases h
  rename_i c s' hs
  have hshorter := ih s' (skip_cons_length hs)
  split at h
  · rename_i x hx
    cases x with
    | error e => cases h
    | ok p =>
      cases h
      exact hanonymous _ _ _ hx
  split at h
  · cases h
  split at h
  · obtain ⟨⟨x, r'⟩, hx, he⟩ := Option.map_eq_some_iff.1 h
    cases he
    split at hx
    · exact hunaryOp _ x (hshorter.infixed 0 x r' hx)
    · exact hunaryOp _ x (hshorter.unary x r' hx)
  split at h
  · obtain ⟨⟨x, r'⟩, hx, he⟩ := Option.bind_eq_some_iff.1 h
    split at he
    · cases he
      exact hshorter.infixed 0 x r' hx
    · cases he
  · cases hp : primary labels (c :: s') with
    | error e =>
      rw [hp] at h
      cases h
    | ok p =>
      rw [hp] at h
      cases h
      exact hprimary _ _ _ hp

include hbinaryOp in
theorem climb?_keeps {s : Text} (ih : ∀ r, r.length < s.length → Keeps labels P r) {least : Nat}
    {left t : Term} {r : Text} (hleft : P left) (h : climb? labels least left s = some (t, r)) :
    P t := by
  rw [climb?_eq] at h
  split at h
  · cases h
    exact hleft
  rename_i op s' ho
  split at h
  · cases h
    exact hleft
  obtain ⟨⟨right, r'⟩, hi, hc⟩ := Option.bind_eq_some_iff.1 h
  have hlt := operator?_skip_length ho
  have hright := (ih s' hlt).infixed _ right r' hi
  have hboth := hbinaryOp op left right hleft hright
  exact (ih r' (Nat.lt_trans (infixed?_length hi) hlt)).climb least _ t r hboth hc

include hprimary hanonymous hunaryOp hbinaryOp

/-- What holds of the operands that are read and is kept by the operators holds of every term. -/
theorem readers_keep (s : Text) : Keeps labels P s := by
  induction s using length_induction with
  | h s ih =>
    refine ⟨fun t r => unary?_keeps hprimary hanonymous hunaryOp ih, fun least t r h => ?_,
      fun least left t r => climb?_keeps hbinaryOp ih⟩
    rw [infixed?_eq] at h
    obtain ⟨⟨left, r'⟩, hu, hc⟩ := Option.bind_eq_some_iff.1 h
    have hleft : P left := unary?_keeps hprimary hanonymous hunaryOp ih hu
    exact (ih r' (unary?_length hu)).climb least left t r hleft hc

theorem read_keeps {s : Text} {t : Term} (h : Term.read labels s = .ok t) : P t := by
  have hread := Term.toOption_read labels s
  rw [h] at hread
  obtain ⟨⟨t', r⟩, hi, he⟩ := Option.bind_eq_some_iff.1 hread.symm
  split at he
  · cases he
    exact (readers_keep hprimary hanonymous hunaryOp hbinaryOp s).infixed 0 _ r hi
  · cases he

end Kept

theorem number_eq_ok {radix : Radix} {start digits r : Text} {t : Term}
    (h : number radix start digits = .ok (t, r)) : ∃ v, t = .constant v := by
  unfold number at h
  simp only at h
  split at h
  · cases h
  · split at h
    · cases h
      exact ⟨_, rfl⟩
    · cases h

/-- A name holds no dots. -/
theorem dot_notMem_name (s : Text) : 46 ∉ s.takeWhile isNameByte := by
  intro hmem
  have hbyte : isNameByte 46 := List.all_eq_true.1 List.all_takeWhile 46 hmem
  exact absurd hbyte (by decide)

/-- The operands: constants, global names, and local ones at some depth. -/
theorem primary_eq_ok {labels : Labels} {s r : Text} {t : Term}
    (h : primary labels s = .ok (t, r)) :
    (∃ v, t = .constant v) ∨ (∃ word, t = .ref (.global word)) ∨
      ∃ (depth : Nat) (word : Text), 0 < depth ∧ 46 ∉ word ∧
        t = .ref (labels.reference depth word) := by
  unfold primary at h
  split at h
  · cases h
  split at h
  · exact .inl (number_eq_ok h)
  split at h
  · exact .inl (number_eq_ok h)
  split at h
  · exact .inl (number_eq_ok h)
  split at h
  · split at h
    · cases h
      exact .inl ⟨_, rfl⟩
    · cases h
  split at h
  · unfold name at h
    simp only at h
    split at h
    · cases h
    cases h
    split
    · exact .inr (.inl ⟨_, rfl⟩)
    · rename_i hdepth
      exact .inr (.inr ⟨_, _, Nat.pos_of_ne_zero hdepth, dot_notMem_name _, rfl⟩)
  · cases h

theorem anonymous?_eq_ok {labels : Labels} {s r : Text} {t : Term}
    (h : anonymous? labels s = some (.ok (t, r))) :
    ∃ n : Nat, t = .ref (labels.next n) ∨ t = .ref (labels.latest n) := by
  unfold anonymous? at h
  split at h
  · cases h
  split at h
  · cases h
  simp only at h
  split at h
  · cases h
  split at h
  · cases h
    exact ⟨_, .inl rfl⟩
  split at h
  · cases h
    exact ⟨_, .inr rfl⟩
  · cases h

end ExprReader

/-- Whether the term has no leaves but constants and references. -/
def Term.isWritten : Term → Bool
  | constant _ | ref _ => true
  | empty | offset _ => false
  | unary _ x => x.isWritten
  | binary _ l r => l.isWritten && r.isWritten

theorem Term.isWritten_of_read {labels : Labels} {s : Text} {t : Term}
    (h : Term.read labels s = .ok t) : t.isWritten := by
  refine ExprReader.read_keeps (P := fun t => t.isWritten) ?_ ?_ ?_ ?_ h
  · intro s t r h
    rcases ExprReader.primary_eq_ok h with ⟨v, rfl⟩ | ⟨word, rfl⟩ | ⟨depth, word, -, -, rfl⟩ <;> rfl
  · intro s t r h
    obtain ⟨n, rfl | rfl⟩ := ExprReader.anonymous?_eq_ok h <;> rfl
  · intro op x hx
    exact hx
  · intro op x y hx hy
    rw [isWritten, hx, hy]
    rfl

end Assembler65816
