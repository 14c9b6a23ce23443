import Assembler65816.Diagnostic
import Assembler65816.Proofs.Expression.Cursor
import Assembler65816.Proofs.Expression.Extent

/-!
# The descent through the levels

Infix operators can be read by climbing, where each operator found decides how far its operands go,
or by descending through the levels one by one, loosest first, with a loop on each for the operators
of that level alone. The first section shows that both read the same.

`Descent.run` is the descent with a cursor. It calls itself without having read anything, as the
levels have no tokens of their own, and it starts again from the loosest level after a parenthesis
or a byte selector. So what makes it end is not the position alone: a call has less left to do than
the one it is made from in bytes of the text, or in levels if the bytes are the same. Every call is
checked for that, and the calls on top of each other are counted.

The main statement is that no check ever fails, from whatever text: the descent ends after a number
of turns that is linear in the text, with what `Term.read` returns.
-/
namespace Assembler65816

namespace ExprReader

/-- Whether no operator comes next that is as tight as `least`. -/
def Ended (least : Nat) (s : Text) : Prop :=
  ∀ op r, operator? (skip s) = some (op, r) → level op < least

theorem ended_or (least : Nat) (s : Text) :
    Ended least s ∨ ∃ op r, operator? (skip s) = some (op, r) ∧ least ≤ level op := by
  by_cases h : Ended least s
  · exact .inl h
  · simp only [Ended, not_forall, Nat.not_lt, exists_prop] at h
    exact .inr h

section Climbing
variable {labels : Labels} {least : Nat} {s : Text}

theorem bareClimb_of_ended (h : Ended least s) (left : Term) :
    bareClimb labels least left s = .ok (left, s) := by
  rw [bareClimb_eq]
  split
  · rfl
  · rename_i op r ho
    rw [if_pos (h op r ho)]

theorem bareClimb_of_some {op : BinaryOp} {r : Text} (ho : operator? (skip s) = some (op, r))
    (hle : least ≤ level op) (left : Term) :
    bareClimb labels least left s = (bareInfixed labels (level op + 1) r).bind fun p =>
      bareClimb labels least (.binary op left p.1) p.2 := by
  rw [bareClimb_eq, ho]
  exact if_neg (Nat.not_lt.2 hle)

theorem ended_of_bareClimb {left t : Term} {r : Text}
    (h : bareClimb labels least left s = .ok (t, r)) : Ended least r := by
  induction s using length_induction generalizing left with
  | h s ih =>
    obtain hended | ⟨op, s', ho, hle⟩ := ended_or least s
    · rw [bareClimb_of_ended hended] at h
      cases h
      exact hended
    · rw [bareClimb_of_some ho hle] at h
      cases hi : bareInfixed labels (level op + 1) s' with
      | error e =>
        rw [hi] at h
        cases h
      | ok p =>
        rw [hi] at h
        exact ih p.2 (Nat.lt_trans (bareInfixed_length hi) (operator?_skip_length ho)) h

/-- After an infix expression no operator comes that would have gone on with it. -/
theorem ended_of_bareInfixed {t : Term} {r : Text}
    (h : bareInfixed labels least s = .ok (t, r)) : Ended least r := by
  rw [bareInfixed_eq] at h
  cases hu : bareUnary labels s with
  | error e =>
    rw [hu] at h
    cases h
  | ok p =>
    rw [hu] at h
    exact ended_of_bareClimb h

/-- To climb from a level is to climb from the next tighter one first. -/
theorem bareClimb_split (labels : Labels) (least : Nat) (left : Term) (s : Text) :
    bareClimb labels least left s = (bareClimb labels (least + 1) left s).bind fun p =>
      bareClimb labels least p.1 p.2 := by
  induction s using length_induction generalizing left with
  | h s ih =>
    obtain hended | ⟨op, s', ho, hle⟩ := ended_or (least + 1) s
    · rw [bareClimb_of_ended hended]
      rfl
    · rw [bareClimb_of_some ho hle, bareClimb_of_some ho (Nat.le_of_succ_le hle)]
      cases hi : bareInfixed labels (level op + 1) s' with
      | error e => rfl
      | ok p =>
        exact ih p.2 (Nat.lt_trans (bareInfixed_length hi) (operator?_skip_length ho)) _

/-- One step down: an expression of the next tighter level, and what goes on from there. -/
theorem bareInfixed_split (labels : Labels) (least : Nat) (s : Text) :
    bareInfixed labels least s = (bareInfixed labels (least + 1) s).bind fun p =>
      bareClimb labels least p.1 p.2 := by
  rw [bareInfixed_eq, bareInfixed_eq]
  cases bareUnary labels s with
  | error e => rfl
  | ok p => exact bareClimb_split labels least p.1 p.2

/-- Below the last level there are the operands. -/
theorem bareInfixed_six (labels : Labels) (s : Text) :
    bareInfixed labels 6 s = bareUnary labels s := by
  rw [bareInfixed_eq]
  cases bareUnary labels s with
  | error e => rfl
  | ok p =>
    exact bareClimb_of_ended (fun op r _ => Nat.lt_succ_of_le (level_le op)) p.1

theorem read_of_error {stop : Stop} (h : bareInfixed labels 0 s = .error stop) :
    Term.read labels s = .error ⟨stop.fault, s.length - stop.ahead + 1, s⟩ := by
  cases hi : infixed labels 0 s with
  | error e =>
    rw [bareInfixed, hi] at h
    cases h
    rw [Term.read, hi]
  | ok p =>
    rw [bareInfixed, hi] at h
    cases h

theorem read_of_ok {t : Term} {r : Text} (h : bareInfixed labels 0 s = .ok (t, r)) :
    Term.read labels s =
      if skip r = [] then .ok t
      else .error ⟨.unexpected (skip r), s.length - (skip r).length + 1, s⟩ := by
  cases hi : infixed labels 0 s with
  | error e =>
    rw [bareInfixed, hi] at h
    cases h
  | ok p =>
    rw [bareInfixed, hi] at h
    cases h
    simp only [Term.read, hi]
    cases skip p.2.1 <;> rfl

end Climbing

end ExprReader

namespace Descent
open ExprReader (level skip operator? operators unarySign? bareUnary bareInfixed bareClimb Ended)

/-- What a call has left at its cursor: bytes of the text, and levels to go down. -/
def Cursor.left (s : Text) (levels : Nat) (c : Cursor) : Nat × Nat := (s.length - c.pos, levels)

/-- How many calls lead from a level down to the operands. -/
def levelsFrom (level : Nat) : Nat := 7 - level

/-- Less in bytes, or in levels with the same bytes. -/
def Less (a b : Nat × Nat) : Prop := Prod.Lex (· < ·) (· < ·) a b

instance (a b : Nat × Nat) : Decidable (Less a b) :=
  decidable_of_iff (a.1 < b.1 ∨ a.1 = b.1 ∧ a.2 < b.2) Prod.lex_def.symm

/-- Goes on to a call, if it has less left than the one it is made from. -/
def goOn (caller callee : Nat × Nat) (call : Except Halt (Term × Cursor)) :
    Except Halt (Term × Cursor) :=
  if Less callee caller then call else .error (.breach .growing)

/-- The operator that comes next, if it is one of those given. -/
def nextOperator (s : Text) : List BinaryOp → Cursor → Except Halt (Option BinaryOp × Cursor)
  | [], c => .ok (none, c)
  | op :: ops, c => do
    let (found, c) ← c.peek s (ascii op.sign)
    if found then
      let c ← c.moveTo s (c.pos + (ascii op.sign).length)
      return (some op, c)
    else nextOperator s ops c

/-- The end of a group, with the closing parenthesis that has to come next. -/
def closeGroup (s : Text) (found : Term × Cursor) : Except Halt (Term × Cursor) := do
  let (closed, c) ← found.2.peek s [41]
  if closed then
    let c ← c.moveTo s (c.pos + 1)
    return (found.1, c)
  else c.fail .missingParenthesis

mutual

def unary (labels : Labels) (s : Text) : (turns : Nat) → Cursor → Except Halt (Term × Cursor)
  | 0, _ => .error (.breach .unfinished)
  | turns + 1, entry => do
    let c ← entry.skipSpaces s
    if s.length ≤ c.pos then c.fail .missingOperand
    else
      let b ← byteAt s c.pos
      match ← signs? labels s c b with
      | some found => return found
      | none =>
        if b == 43 then c.fail .unexpectedPlus
        else
          match unarySign? b with
          | some op =>
            let c ← c.moveTo s (c.pos + 1)
            let (x, c) ←
              if op.isSelector then
                goOn (entry.left s 0) (c.left s (levelsFrom 0)) (infixed labels s turns 0 c)
              else goOn (entry.left s 0) (c.left s 0) (unary labels s turns c)
            return (.unary op x, c)
          | none =>
            if b == 40 then
              let c ← c.moveTo s (c.pos + 1)
              let found ←
                goOn (entry.left s 0) (c.left s (levelsFrom 0)) (infixed labels s turns 0 c)
              closeGroup s found
            else primary labels s c

/-- An expression of a level: one of the next tighter level, and then the operators of this one.
Below the six levels of the operators there are the operands. -/
def infixed (labels : Labels) (s : Text) :
    (turns level : Nat) → Cursor → Except Halt (Term × Cursor)
  | 0, _, _ => .error (.breach .unfinished)
  | turns + 1, level, entry =>
    if level = 6 then
      goOn (entry.left s (levelsFrom level)) (entry.left s 0) (unary labels s turns entry)
    else do
      let (x, c) ← goOn (entry.left s (levelsFrom level)) (entry.left s (levelsFrom (level + 1)))
        (infixed labels s turns (level + 1) entry)
      goOn (entry.left s (levelsFrom level)) (c.left s (levelsFrom level))
        (rounds labels s turns level x c)

/-- The operators of one level, a round for each. -/
def rounds (labels : Labels) (s : Text) :
    (turns level : Nat) → Term → Cursor → Except Halt (Term × Cursor)
  | 0, _, _, _ => .error (.breach .unfinished)
  | turns + 1, level, x, entry => do
    let (found, c) ← nextOperator s (operators.filter (ExprReader.level · == level)) entry
    match found with
    | none => return (x, c)
    | some op =>
      let (y, c) ← goOn (entry.left s (levelsFrom level)) (c.left s (levelsFrom (level + 1)))
        (infixed labels s turns (level + 1) c)
      goOn (entry.left s (levelsFrom level)) (c.left s (levelsFrom level))
        (rounds labels s turns level (.binary op x y) c)

end

def run (labels : Labels) (s : Text) (turns : Nat) : Except Halt (Term × Cursor) := do
  let (t, c) ← infixed labels s turns 0 {}
  let c ← c.skipSpaces s
  if c.pos < s.length then
    let found ← slice s c.pos s.length
    c.fail (.unexpected found)
  else return (t, c)

section Left
variable {s : Text} {c c' : Cursor}

theorem less_of_bytes (h : c.pos < c'.pos) (hc' : c'.Within s) (levels levels' : Nat) :
    Less (c'.left s levels') (c.left s levels) := by
  have hle := hc'.pos_le
  exact Prod.Lex.left _ _ (show s.length - c'.pos < s.length - c.pos by omega)

theorem less_of_levels {levels levels' : Nat} (h : levels' < levels) :
    Less (c.left s levels') (c.left s levels) :=
  Prod.Lex.right _ h

/-- The turns that are enough for a call. -/
def enough (left : Nat × Nat) : Nat := 8 * left.1 + left.2 + 1

/-- A call that has less left takes fewer turns. -/
theorem enough_lt {callee caller : Nat × Nat} (h : Less callee caller)
    (hlevels : callee.2 ≤ 7) : enough callee < enough caller := by
  have hcases := Prod.lex_def.1 h
  simp only [enough]
  omega

theorem levelsFrom_le (level : Nat) : levelsFrom level ≤ 7 := Nat.sub_le ..

end Left

section Operators
variable {s r : Text} {c : Cursor}

theorem isPrefixOf_sign_iff {op : BinaryOp} {t : Text} :
    (ascii op.sign).isPrefixOf t ↔ ∃ r, operator? t = some (op, r) := by
  rw [List.isPrefixOf_iff_prefix]
  constructor
  · rintro ⟨r, rfl⟩
    exact ⟨r, ExprReader.operator?_sign op r⟩
  · rintro ⟨r, h⟩
    exact ⟨r, (ExprReader.operator?_eq_some h).symm⟩

variable (hc : c.Within s)
include hc

theorem nextOperator_cons (op : BinaryOp) (ops : List BinaryOp) :
    nextOperator s (op :: ops) c =
      if (ascii op.sign).isPrefixOf (skip (c.rest s)) then
        .ok (some op, (c.skipped s).ahead (ascii op.sign).length)
      else nextOperator s ops (c.skipped s) := by
  rw [nextOperator, hc.peek_eq]
  simp only [Except.ok_bind]
  split
  · rename_i hsign
    rw [← Cursor.rest_skipped, List.isPrefixOf_iff_prefix] at hsign
    obtain ⟨r, hr⟩ := hsign
    rw [hc.skipped.moveTo_ahead hr.symm]
    rfl
  · rfl

theorem nextOperator_of_none {ops : List BinaryOp} (hops : ops ≠ [])
    (h : ∀ op ∈ ops, ∀ r, operator? (skip (c.rest s)) ≠ some (op, r)) :
    nextOperator s ops c = .ok (none, c.skipped s) := by
  induction ops generalizing c with
  | nil => exact absurd rfl hops
  | cons op ops ih =>
    have hsign : ¬(ascii op.sign).isPrefixOf (skip (c.rest s)) := by
      rw [isPrefixOf_sign_iff]
      exact fun ⟨r, hr⟩ => h op List.mem_cons_self r hr
    rw [nextOperator_cons hc, if_neg hsign]
    cases ops with
    | nil => rfl
    | cons op' ops =>
      have hrest : ∀ o ∈ op' :: ops, ∀ r,
          operator? (skip ((c.skipped s).rest s)) ≠ some (o, r) := by
        rw [Cursor.skip_rest_skipped]
        exact fun o ho => h o (List.mem_cons_of_mem op ho)
      rw [ih hc.skipped (List.cons_ne_nil op' ops) hrest, Cursor.skipped_skipped]

theorem nextOperator_of_mem {ops : List BinaryOp} {op : BinaryOp} (hop : op ∈ ops)
    (h : operator? (skip (c.rest s)) = some (op, r)) :
    nextOperator s ops c = .ok (some op, (c.skipped s).ahead (ascii op.sign).length) := by
  induction ops generalizing c with
  | nil => cases hop
  | cons o ops ih =>
    rw [nextOperator_cons hc]
    split
    · rename_i hsign
      obtain ⟨r', hr'⟩ := isPrefixOf_sign_iff.1 hsign
      cases hr'.symm.trans h
      rfl
    · rename_i hsign
      have hne : op ≠ o := fun he => hsign (isPrefixOf_sign_iff.2 ⟨r, he ▸ h⟩)
      have hmem := (List.mem_cons.1 hop).resolve_left hne
      rw [ih hc.skipped hmem (by rw [Cursor.skip_rest_skipped, h]), Cursor.skipped_skipped]

/-- The cursor behind an operator. -/
theorem behind_operator {op : BinaryOp} (h : operator? (skip (c.rest s)) = some (op, r)) :
    ((c.skipped s).ahead (ascii op.sign).length).Within s ∧
      ((c.skipped s).ahead (ascii op.sign).length).rest s = r ∧
      c.pos < ((c.skipped s).ahead (ascii op.sign).length).pos := by
  have hrest : (c.skipped s).rest s = ascii op.sign ++ r :=
    (c.rest_skipped s).trans (ExprReader.operator?_eq_some h)
  have hsign : 0 < (ascii op.sign).length := by cases op <;> decide
  have hpos : (c.skipped s).pos < ((c.skipped s).ahead (ascii op.sign).length).pos :=
    Nat.lt_add_of_pos_right hsign
  exact ⟨hc.skipped.ahead hrest, Cursor.rest_ahead hrest,
    Nat.lt_of_le_of_lt (c.pos_le_skipped s) hpos⟩

end Operators

/-- With enough turns, every call agrees with the reader for the same rule. A loop of rounds starts
where no tighter operator is left. -/
structure Simulates (labels : Labels) (s : Text) (turns : Nat) : Prop where
  unary : ∀ c : Cursor, c.Within s → enough (c.left s 0) ≤ turns →
    Agrees s (unary labels s turns c) (bareUnary labels (c.rest s))
  infixed : ∀ level ≤ 6, ∀ c : Cursor, c.Within s → enough (c.left s (levelsFrom level)) ≤ turns →
    Agrees s (infixed labels s turns level c) (bareInfixed labels level (c.rest s))
  rounds : ∀ level ≤ 5, ∀ (x : Term) (c : Cursor) (r : Text), c.Reached s r → Ended (level + 1) r →
    enough (c.left s (levelsFrom level)) ≤ turns →
    Agrees s (rounds labels s turns level x c) (bareClimb labels level x r)

/-- Going on to a call that has less left, whose turns are then enough too. -/
theorem goOn_agrees {s : Text} {turns : Nat} {caller callee : Nat × Nat}
    {call : Except Halt (Term × Cursor)} {y : Except ExprReader.Stop (Term × Text)}
    (hless : Less callee caller) (hlevels : callee.2 ≤ 7)
    (hturns : enough caller ≤ turns + 1) (h : enough callee ≤ turns → Agrees s call y) :
    Agrees s (goOn caller callee call) y := by
  have hlt := enough_lt hless hlevels
  rw [goOn, if_pos hless]
  exact h (by omega)

theorem operators_level_ne_nil {l : Nat} (h : l ≤ 5) :
    operators.filter (level · == l) ≠ [] := by
  have hall : (List.range 6).all fun l => !(operators.filter (level · == l)).isEmpty := rfl
  have hl := List.all_eq_true.1 hall l (List.mem_range.2 (Nat.lt_succ_of_le h))
  simpa using hl

theorem closeGroup_agrees {s r : Text} {c : Cursor} (hc : c.Reached s r) (x : Term) :
    Agrees s (closeGroup s (x, c)) (ExprReader.closeGroup (x, r)) := by
  have hskipped := hc.toWithin.skipped
  have hfail := Agrees.fail hskipped .missingParenthesis
  simp only [closeGroup, hc.toWithin.peek_eq, Except.ok_bind, ExprReader.closeGroup, hc.skip_eq,
    ← Cursor.rest_skipped]
  cases hrest : (c.skipped s).rest s with
  | nil =>
    rw [hrest] at hfail
    exact hfail
  | cons b r' =>
    by_cases hb : b = 41
    · subst hb
      obtain ⟨hmove, hnext, hafter⟩ := hskipped.next hrest
      rw [if_pos (show [41].isPrefixOf (41 :: r') from rfl), hmove]
      exact .term (hafter ▸ hnext.reached)
    · rw [hrest] at hfail
      rw [if_neg (by simpa using Ne.symm hb)]
      split
      · rename_i h
        exact absurd (List.cons.inj h).1 hb
      · exact hfail

section Steps
variable {labels : Labels} {s : Text} {turns : Nat} (ih : Simulates labels s turns) {c : Cursor}
include ih

theorem infixed_agrees {l : Nat} (hl : l ≤ 6) (hc : c.Within s)
    (hturns : enough (c.left s (levelsFrom l)) ≤ turns + 1) :
    Agrees s (infixed labels s (turns + 1) l c) (bareInfixed labels l (c.rest s)) := by
  rw [infixed]
  split
  · rename_i hsix
    subst hsix
    rw [ExprReader.bareInfixed_six]
    exact goOn_agrees (less_of_levels (by decide)) (Nat.zero_le _) hturns (ih.unary c hc)
  · have hless : levelsFrom (l + 1) < levelsFrom l := by
      simp only [levelsFrom]
      omega
    have hnext := goOn_agrees (less_of_levels hless) (levelsFrom_le _) hturns
      (ih.infixed (l + 1) (by omega) c hc)
    rw [ExprReader.bareInfixed_split]
    refine hnext.bind fun t c' r hr hc' => ?_
    -- The call for the next level has taken bytes, so the first round has fewer left.
    have hpos := hc'.pos_lt (ExprReader.bareInfixed_length hr)
    exact goOn_agrees (less_of_bytes hpos hc'.toWithin _ _) (levelsFrom_le _) hturns
      (ih.rounds l (by omega) t c' r hc' (ExprReader.ended_of_bareInfixed hr))

theorem rounds_agrees {l : Nat} (hl : l ≤ 5) (x : Term) {r : Text} (hc : c.Reached s r)
    (hr : Ended (l + 1) r) (hturns : enough (c.left s (levelsFrom l)) ≤ turns + 1) :
    Agrees s (rounds labels s (turns + 1) l x c) (bareClimb labels l x r) := by
  rw [rounds]
  obtain hended | ⟨op, r', ho, hle⟩ := ExprReader.ended_or l r
  · have hnone : ∀ op ∈ operators.filter (level · == l), ∀ r',
        operator? (skip (c.rest s)) ≠ some (op, r') := by
      intro op hop r' ho
      have hlevel := (List.mem_filter.1 hop).2
      have hlt := hended op r' (hc.skip_eq ▸ ho)
      rw [beq_iff_eq] at hlevel
      omega
    rw [nextOperator_of_none hc.toWithin (operators_level_ne_nil hl) hnone,
      ExprReader.bareClimb_of_ended hended]
    exact .term hc.skipped
  · -- The tighter operators are used up and looser ones do not count, so it is of this level.
    have hlevel : level op = l := Nat.le_antisymm (Nat.le_of_lt_succ (hr op r' ho)) hle
    have hmem : op ∈ operators.filter (level · == l) := by
      refine List.mem_filter.2 ⟨?_, beq_iff_eq.2 hlevel⟩
      cases op <;> decide
    rw [ExprReader.bareClimb_of_some ho hle, hlevel]
    rw [hc.skip_eq] at ho
    rw [nextOperator_of_mem hc.toWithin hmem ho]
    obtain ⟨hwithin, hrest, hpos⟩ := behind_operator hc.toWithin ho
    have hright := goOn_agrees (less_of_bytes hpos hwithin (levelsFrom l) (levelsFrom (l + 1)))
      (levelsFrom_le _) hturns (ih.infixed (l + 1) (by omega) _ hwithin)
    rw [hrest] at hright
    refine hright.bind fun y c' r'' hr'' hc' => ?_
    have hpos' := hc'.pos_lt (hrest ▸ ExprReader.bareInfixed_length hr'')
    exact goOn_agrees (less_of_bytes (Nat.lt_trans hpos hpos') hc'.toWithin _ _) (levelsFrom_le _)
      hturns (ih.rounds l hl _ c' r'' hc' (ExprReader.ended_of_bareInfixed hr''))

theorem unary_agrees (hc : c.Within s) (hturns : enough (c.left s 0) ≤ turns + 1) :
    Agrees s (unary labels s (turns + 1) c) (bareUnary labels (c.rest s)) := by
  rw [unary, hc.skipSpaces_eq, ExprReader.bareUnary_eq, ← Cursor.rest_skipped]
  simp only [Except.ok_bind]
  have hskipped := hc.skipped
  cases hrest : (c.skipped s).rest s with
  | nil =>
    have hend := Cursor.rest_eq_nil_iff.1 hrest
    rw [if_pos hend]
    exact .fault hskipped.pos_le (by omega)
  | cons b r =>
    rw [if_neg (Nat.not_le.2 (Cursor.pos_lt_of_rest hrest)), byteAt_eq hrest]
    simp only [Except.ok_bind]
    obtain ⟨hnone, hsigns⟩ | ⟨x, y, hsome, hsigns, hxy⟩ := signs?_agrees hskipped labels hrest
    · obtain ⟨hmove, hnext, hrest'⟩ := hskipped.next hrest
      have hpos : c.pos < ((c.skipped s).ahead 1).pos := Nat.lt_succ_of_le (c.pos_le_skipped s)
      -- Behind a byte selector or a parenthesis the levels start again, with one byte less.
      have hwhole := goOn_agrees (less_of_bytes hpos hnext 0 (levelsFrom 0)) (levelsFrom_le 0)
        hturns (ih.infixed 0 (Nat.zero_le 6) _ hnext)
      rw [hrest'] at hwhole
      rw [hnone, hsigns, hmove]
      simp only [Except.ok_bind]
      split
      · rw [← hrest]
        exact .fail hskipped _
      cases unarySign? b with
      | some op =>
        simp only
        split
        · exact hwhole.map (.unary op)
        · have hsame := goOn_agrees (less_of_bytes hpos hnext 0 0) (Nat.zero_le _) hturns
            (ih.unary _ hnext)
          rw [hrest'] at hsame
          exact hsame.map (.unary op)
      | none =>
        simp only
        split
        · exact hwhole.bind fun t c' r' _ hc' => closeGroup_agrees hc' t
        · exact primary_agrees hskipped labels hrest
    · rw [hsome, hsigns]
      cases hxy with
      | term hc' => exact .term hc'
      | fault hpos hahead => exact .fault hpos hahead

end Steps

theorem simulates (labels : Labels) (s : Text) (turns : Nat) : Simulates labels s turns := by
  induction turns with
  | zero =>
    -- Every call takes a turn.
    exact ⟨fun c _ h => absurd h (Nat.not_succ_le_zero _),
      fun l _ c _ h => absurd h (Nat.not_succ_le_zero _),
      fun l _ x c r _ _ h => absurd h (Nat.not_succ_le_zero _)⟩
  | succ turns ih =>
    exact ⟨fun c => unary_agrees ih, fun l hl c => infixed_agrees ih hl,
      fun l hl x c r => rounds_agrees ih hl x⟩

/-- Whether the descent comes out as reading the whole text does: with the term once it has come to
the end, or with the fault at a place of the text. -/
inductive Settles (s : Text) : Except Halt (Term × Cursor) → Except ExprError Term → Prop
  | term {t : Term} {c : Cursor} : c.pos = s.length → Settles s (.ok (t, c)) (.ok t)
  | refusal {fault : ExprFault} {pos : Nat} : pos ≤ s.length →
    Settles s (.error (.fault fault pos)) (.error ⟨fault, pos + 1, s⟩)

theorem run_settles (labels : Labels) (s : Text) {turns : Nat} (h : 8 * (s.length + 1) ≤ turns) :
    Settles s (run labels s turns) (Term.read labels s) := by
  have hstart : ({} : Cursor).Within s := ⟨Nat.le_refl _, Nat.zero_le _⟩
  have hturns : enough (({} : Cursor).left s (levelsFrom 0)) ≤ turns := by
    simp only [enough, Cursor.left, levelsFrom]
    omega
  have hagrees : Agrees s (infixed labels s turns 0 {}) (bareInfixed labels 0 s) :=
    (simulates labels s turns).infixed 0 (Nat.zero_le 6) {} hstart hturns
  rw [run]
  generalize infixed labels s turns 0 {} = found at hagrees
  generalize hread : bareInfixed labels 0 s = expected at hagrees
  cases hagrees with
  | fault hpos hahead =>
    subst hahead
    rw [ExprReader.read_of_error hread, Nat.sub_sub_self hpos]
    exact .refusal hpos
  | term hc =>
    have hskipped := hc.toWithin.skipped
    simp only [Except.ok_bind, hc.toWithin.skipSpaces_eq, hskipped.slice_rest]
    rw [ExprReader.read_of_ok hread, hc.skip_eq, ← Cursor.rest_skipped, Cursor.length_rest,
      Nat.sub_sub_self hskipped.pos_le]
    split
    · rename_i hlt
      rw [if_neg (mt Cursor.rest_eq_nil_iff.1 (Nat.not_le.2 hlt))]
      exact .refusal hskipped.pos_le
    · rename_i hge
      rw [if_pos (Cursor.rest_eq_nil_iff.2 (Nat.not_lt.1 hge))]
      exact .term (Nat.le_antisymm hskipped.pos_le (Nat.not_lt.1 hge))

end Descent

/-- Reading an expression ends and stays in the text, whatever the text and the labels. Descending
through the levels with a cursor never looks outside the text, never moves the cursor behind the end
or back before the token at hand, never makes a call that has no less left, first in bytes and then
in levels, and needs no more turns than eight for each byte and for the end: a breach is not among
its outcomes. It comes out as `Term.read` does, with the term once the whole text is taken, or with
a syntax error at a place of the text. From every place in the text an operand is read as it is off
the rest, and takes at least one byte. -/
theorem Term.read_by_descent (labels : Labels) (s : Text) (turns : Nat)
    (h : 8 * (s.length + 1) ≤ turns) :
    ((∃ t c, Term.read labels s = .ok t ∧ Descent.run labels s turns = .ok (t, c) ∧
          c.pos = s.length) ∨
        ∃ e, Term.read labels s = .error e ∧
          Descent.run labels s turns = .error (.fault e.fault (e.column - 1)) ∧
          e.written = s ∧ 1 ≤ e.column ∧ e.column ≤ s.length + 1 ∧
          (Cause.malformed (.expression e)).categories = [.malformed] ∧
          (Cause.malformed (.expression e)).message =
            Category.malformed.text ++ ascii ": " ++ e.message) ∧
      ∀ c : Descent.Cursor, c.Within s →
        Descent.Agrees s (Descent.unary labels s turns c)
            (ExprReader.bareUnary labels (c.rest s)) ∧
          ∀ t c', Descent.unary labels s turns c = .ok (t, c') →
            c.pos < c'.pos ∧ c'.pos ≤ s.length := by
  constructor
  · have hsettles := Descent.run_settles labels s h
    generalize Descent.run labels s turns = found at hsettles ⊢
    generalize Term.read labels s = expected at hsettles ⊢
    cases hsettles with
    | term hend => exact .inl ⟨_, _, rfl, rfl, hend⟩
    | refusal hpos =>
      exact .inr ⟨_, rfl, rfl, rfl, Nat.le_add_left .., Nat.succ_le_succ hpos, rfl, rfl⟩
  · intro c hc
    have hturns : Descent.enough (c.left s 0) ≤ turns := by
      simp only [Descent.enough, Descent.Cursor.left]
      omega
    have hagrees := (Descent.simulates labels s turns).unary c hc hturns
    refine ⟨hagrees, fun t c' hfound => ?_⟩
    rw [hfound] at hagrees
    generalize hread : ExprReader.bareUnary labels (c.rest s) = expected at hagrees
    cases hagrees with
    | term hc' => exact ⟨hc'.pos_lt (ExprReader.bareUnary_length hread), hc'.pos_le⟩

/-- A group is taken, and the dollar sign behind it is refused where it starts. -/
theorem Term.read_by_descent_missing_digits :
    8 * ((ascii "(a)+$").length + 1) ≤ 48 ∧
      (∃ e, Term.read {} (ascii "(a)+$") = .error e ∧ e.fault = .missingDigits ∧ e.column = 5) ∧
      ∃ t c, ({} : Descent.Cursor).Within (ascii "(a)+$") ∧
        Descent.unary {} (ascii "(a)+$") 48 {} = .ok (t, c) ∧ 0 < c.pos ∧ c.pos ≤ 5 := by
  have hturns : 8 * ((ascii "(a)+$").length + 1) ≤ 48 := by decide
  have hstart : ({} : Descent.Cursor).Within (ascii "(a)+$") := ⟨Nat.le_refl _, Nat.zero_le _⟩
  have hrun : Descent.run {} (ascii "(a)+$") 48 = .error (.fault .missingDigits 4) := rfl
  obtain ⟨hread, hunary⟩ := Term.read_by_descent {} (ascii "(a)+$") 48 hturns
  refine ⟨hturns, ?_, _, _, hstart, rfl, (hunary {} hstart).2 _ _ rfl⟩
  rw [hrun] at hread
  obtain ⟨t, c, -, hok, -⟩ | ⟨e, he, hfault, -, hcolumn, -⟩ := hread
  · cases hok
  · have hplace := Descent.Halt.fault.inj (Except.error.inj hfault)
    exact ⟨e, he, hplace.1.symm, by omega⟩

end Assembler65816
