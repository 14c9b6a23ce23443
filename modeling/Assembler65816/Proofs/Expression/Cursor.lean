import Mathlib.Data.List.TakeWhile
import Assembler65816.Proofs.Expression.Rendering

/-!
# Reading at a position

The readers of expressions hand on what is left of a text, so there is nothing outside it that they
could look at. A reader that keeps the whole text and moves a position in it has no such guarantee:
it may look at a byte behind the end, or lose its place. Here is a cursor that such a reader can
work with. It checks whatever it is told to do, and a reader that breaks a rule comes to a halt of
its own kind, a breach, which is not a fault of the text.

The operands are read with the cursor here, and the main statements say that this breaks no rule and
comes out as reading them off the rest of the text does: with the same term and at the same place,
or with the same fault at the same place.
-/
namespace Assembler65816

namespace Descent
open ExprReader (Stop skip isNumberPart standsAlone)

/-- What a reader must not do. -/
inductive Breach
  /-- It looks at bytes that are not in the text. -/
  | outside (index : Nat)
  /-- It moves behind the end of the text, or back before the token at hand. -/
  | astray (target : Nat)
  /-- It goes on to a call that has no less left to do than the one it is made from. -/
  | growing
  /-- It takes more turns than it was allowed. -/
  | unfinished
  deriving DecidableEq, Repr

/-- Why reading came to a halt: the text is at fault at a position, or the reader itself. -/
inductive Halt
  | fault (fault : ExprFault) (pos : Nat)
  | breach (b : Breach)
  deriving DecidableEq, Repr

structure Cursor where
  /-- Where the token at hand starts. -/
  token : Nat := 0
  pos : Nat := 0
  deriving DecidableEq, Repr

def byteAt (s : Text) (i : Nat) : Except Halt UInt8 :=
  if h : i < s.length then .ok s[i] else .error (.breach (.outside i))

def slice (s : Text) (i j : Nat) : Except Halt Text :=
  if i ≤ j ∧ j ≤ s.length then .ok ((s.drop i).take (j - i)) else .error (.breach (.outside j))

/-- Where the run of bytes with `p` ends that starts at `i`. Each byte of it takes a turn. -/
def runEnd (s : Text) (p : UInt8 → Bool) : (turns i : Nat) → Except Halt Nat
  | 0, _ => .error (.breach .unfinished)
  | turns + 1, i =>
    if i < s.length then do
      let b ← byteAt s i
      if p b then runEnd s p turns (i + 1) else return i
    else return i

namespace Cursor

def rest (s : Text) (c : Cursor) : Text := s.drop c.pos

def moveTo (s : Text) (c : Cursor) (target : Nat) : Except Halt Cursor :=
  if c.token ≤ target ∧ target ≤ s.length then .ok {c with pos := target}
  else .error (.breach (.astray target))

def advance (s : Text) (p : UInt8 → Bool) (c : Cursor) : Except Halt Cursor := do
  let stop ← runEnd s p (s.length + 1) c.pos
  c.moveTo s stop

def skipSpaces (s : Text) (c : Cursor) : Except Halt Cursor := do
  let c ← c.advance s isSpaceOrTab
  return {c with token := c.pos}

def peek (s : Text) (c : Cursor) (start : Text) : Except Halt (Bool × Cursor) := do
  let c ← c.skipSpaces s
  let ahead ← slice s c.pos s.length
  return (start.isPrefixOf ahead, c)

def fail {α : Type} (c : Cursor) (fault : ExprFault) : Except Halt α :=
  .error (.fault fault c.pos)

end Cursor

/-- A number whose digits come next. Without digits it is refused at its start. -/
def number (s : Text) (radix : Radix) (start : Nat) (c : Cursor) :
    Except Halt (Term × Cursor) := do
  let after ← c.advance s (isNumberPart radix)
  let digits ← slice s c.pos after.pos
  let written := digits.filter (· != 95)
  if written.isEmpty then
    let back ← after.moveTo s start
    back.fail .missingDigits
  else if numeralValue radix written < Nat.pow 2 63 then
    return (.constant (Int64.ofNat (numeralValue radix written)), after)
  else
    let whole ← slice s start after.pos
    after.fail (.badNumber whole)

def name (labels : Labels) (s : Text) (c : Cursor) : Except Halt (Term × Cursor) := do
  let start ← c.advance s (· == 46)
  let after ← start.advance s isNameByte
  let word ← slice s start.pos after.pos
  let depth := start.pos - c.pos
  if word.isEmpty then after.fail .missingName
  else return (.ref (if depth = 0 then .global word else labels.reference depth word), after)

/-- A character constant, of which the second apostrophe is looked for first. -/
def character (s : Text) (c : Cursor) : Except Halt (Term × Cursor) :=
  if c.pos + 2 < s.length then do
    let quote ← byteAt s (c.pos + 2)
    if quote == 39 then
      let v ← byteAt s (c.pos + 1)
      let after ← c.moveTo s (c.pos + 3)
      return (.constant (Int64.ofNat v.toNat), after)
    else c.fail .badCharacter
  else c.fail .badCharacter

def primary (labels : Labels) (s : Text) (c : Cursor) : Except Halt (Term × Cursor) := do
  let b ← byteAt s c.pos
  if b == 36 then
    let digits ← c.moveTo s (c.pos + 1)
    number s .hex c.pos digits
  else if b == 37 then
    let digits ← c.moveTo s (c.pos + 1)
    number s .binary c.pos digits
  else if isDigit b then number s .decimal c.pos c
  else if b == 39 then character s c
  else if b == 46 || isNameStart b then name labels s c
  else c.fail (.unexpected (String.utf8EncodeChar (Char.ofNat b.toNat)))

/-- A run of signs as a reference to an anonymous label, if it is one and stands alone. -/
def signs? (labels : Labels) (s : Text) (c : Cursor) (sign : UInt8) :
    Except Halt (Option (Term × Cursor)) :=
  if sign != 45 && sign != 43 then .ok none
  else do
    let stop ← runEnd s (· == sign) (s.length + 1) c.pos
    let ahead ← slice s stop s.length
    let count := stop - c.pos
    if !standsAlone ahead then return none
    else if sign == 43 then
      let after ← c.moveTo s stop
      return some (.ref (labels.next count), after)
    else if labels.hasBackward count then
      let after ← c.moveTo s stop
      return some (.ref (labels.latest count), after)
    else
      let signs ← slice s c.pos stop
      c.fail (.noEarlier signs)

/-- The token at hand starts no later than the cursor stands, which is in the text or at its end. -/
structure Cursor.Within (s : Text) (c : Cursor) : Prop where
  token_le : c.token ≤ c.pos
  pos_le : c.pos ≤ s.length

theorem byteAt_eq {s r : Text} {i : Nat} {b : UInt8} (h : s.drop i = b :: r) :
    byteAt s i = .ok b := by
  have hi : i < s.length := by
    have hlength := congrArg List.length h
    rw [List.length_drop, List.length_cons] at hlength
    omega
  rw [List.drop_eq_getElem_cons hi] at h
  rw [byteAt, dif_pos hi, (List.cons.inj h).1]

theorem slice_eq {s : Text} {i j : Nat} (hij : i ≤ j) (hj : j ≤ s.length) :
    slice s i j = .ok ((s.drop i).take (j - i)) := if_pos ⟨hij, hj⟩

/-- A run that starts in the text ends in it, after as many turns as it has bytes and one more. -/
theorem runEnd_eq (s : Text) (p : UInt8 → Bool) {turns i : Nat} (hi : i ≤ s.length)
    (h : s.length - i < turns) :
    runEnd s p turns i = .ok (i + ((s.drop i).takeWhile p).length) := by
  induction turns generalizing i with
  | zero => omega
  | succ turns ih =>
    rw [runEnd]
    split
    · rename_i hlt
      have hdrop := List.drop_eq_getElem_cons hlt
      rw [byteAt_eq hdrop, hdrop]
      change (if p s[i] then runEnd s p turns (i + 1) else .ok i) = _
      split
      · rename_i hp
        rw [ih (by omega) (by omega), List.takeWhile_cons_of_pos hp, List.length_cons]
        congr 1
        omega
      · rename_i hp
        rw [List.takeWhile_cons_of_neg hp]
        rfl
    · rename_i hge
      rw [List.drop_eq_nil_of_le (by omega)]
      rfl

theorem take_length_takeWhile (p : UInt8 → Bool) (s : Text) :
    s.take (s.takeWhile p).length = s.takeWhile p :=
  (List.prefix_iff_eq_take.1 (List.takeWhile_prefix p)).symm

namespace Cursor
variable {s : Text} {c : Cursor}

theorem length_rest (s : Text) (c : Cursor) : (c.rest s).length = s.length - c.pos :=
  List.length_drop

theorem pos_lt_of_rest {b : UInt8} {r : Text} (h : c.rest s = b :: r) : c.pos < s.length := by
  have hlength := c.length_rest s
  rw [h, List.length_cons] at hlength
  omega

theorem rest_eq_nil_iff : c.rest s = [] ↔ s.length ≤ c.pos := List.drop_eq_nil_iff

theorem Within.slice_rest (hc : c.Within s) : slice s c.pos s.length = .ok (c.rest s) := by
  rw [slice_eq hc.pos_le (Nat.le_refl _), ← length_rest]
  exact congrArg Except.ok (List.take_length ..)

theorem moveTo_eq {target : Nat} (htoken : c.token ≤ target) (hend : target ≤ s.length) :
    c.moveTo s target = .ok {c with pos := target} := if_pos ⟨htoken, hend⟩

def ahead (n : Nat) (c : Cursor) : Cursor := {c with pos := c.pos + n}

theorem byteAt_ahead {n : Nat} {b : UInt8} {r : Text} (h : (c.rest s).drop n = b :: r) :
    byteAt s (c.pos + n) = .ok b :=
  byteAt_eq (List.drop_drop.symm.trans h)

section Piece
variable {p r : Text}

/-! A piece `p` of the text that comes next can be passed. -/

theorem rest_ahead (h : c.rest s = p ++ r) : (c.ahead p.length).rest s = r := by
  rw [rest, ahead, ← List.drop_drop, ← rest, h]
  exact List.drop_left

theorem Within.ahead (hc : c.Within s) (h : c.rest s = p ++ r) :
    (c.ahead p.length).Within s := by
  have hpos := hc.pos_le
  have hlength := congrArg List.length h
  rw [length_rest, List.length_append] at hlength
  exact ⟨Nat.le_add_right_of_le hc.token_le, show c.pos + p.length ≤ s.length by omega⟩

theorem Within.moveTo_ahead (hc : c.Within s) (h : c.rest s = p ++ r) :
    c.moveTo s (c.pos + p.length) = .ok (c.ahead p.length) :=
  moveTo_eq (hc.ahead h).token_le (hc.ahead h).pos_le

theorem Within.next (hc : c.Within s) {b : UInt8} (h : c.rest s = b :: r) :
    c.moveTo s (c.pos + 1) = .ok (c.ahead 1) ∧ (c.ahead 1).Within s ∧ (c.ahead 1).rest s = r :=
  ⟨hc.moveTo_ahead (p := [b]) h, hc.ahead (p := [b]) h, rest_ahead (p := [b]) h⟩

end Piece

def past (s : Text) (p : UInt8 → Bool) (c : Cursor) : Cursor :=
  c.ahead ((c.rest s).takeWhile p).length

theorem past_of_nil {p : UInt8 → Bool} (h : (c.rest s).takeWhile p = []) : c.past s p = c := by
  rw [past, h]
  rfl

theorem rest_past (s : Text) (p : UInt8 → Bool) (c : Cursor) :
    (c.past s p).rest s = (c.rest s).dropWhile p :=
  rest_ahead List.takeWhile_append_dropWhile.symm

theorem Within.past (hc : c.Within s) (p : UInt8 → Bool) : (c.past s p).Within s :=
  hc.ahead List.takeWhile_append_dropWhile.symm

theorem Within.runEnd_eq (hc : c.Within s) (p : UInt8 → Bool) :
    runEnd s p (s.length + 1) c.pos = .ok (c.past s p).pos :=
  Descent.runEnd_eq s p hc.pos_le (by omega)

theorem Within.moveTo_past (hc : c.Within s) (p : UInt8 → Bool) :
    c.moveTo s (c.past s p).pos = .ok (c.past s p) :=
  hc.moveTo_ahead List.takeWhile_append_dropWhile.symm

theorem Within.advance_eq (hc : c.Within s) (p : UInt8 → Bool) :
    c.advance s p = .ok (c.past s p) := by
  rw [advance, hc.runEnd_eq p]
  exact hc.moveTo_past p

/-- The bytes of a run that was passed. -/
theorem Within.slice_past (hc : c.Within s) (p : UInt8 → Bool) :
    slice s c.pos (c.past s p).pos = .ok ((c.rest s).takeWhile p) := by
  have hle : c.pos ≤ (c.past s p).pos := Nat.le_add_right ..
  have hcount : (c.past s p).pos - c.pos = ((c.rest s).takeWhile p).length :=
    Nat.add_sub_cancel_left ..
  rw [slice_eq hle (hc.past p).pos_le, hcount]
  exact congrArg Except.ok (take_length_takeWhile p (c.rest s))

def skipped (s : Text) (c : Cursor) : Cursor :=
  ⟨(c.past s isSpaceOrTab).pos, (c.past s isSpaceOrTab).pos⟩

theorem rest_skipped (s : Text) (c : Cursor) : (c.skipped s).rest s = skip (c.rest s) :=
  c.rest_past s isSpaceOrTab

theorem Within.skipped (hc : c.Within s) : (c.skipped s).Within s :=
  ⟨le_rfl, (hc.past isSpaceOrTab).pos_le⟩

theorem pos_le_skipped (s : Text) (c : Cursor) : c.pos ≤ (c.skipped s).pos := Nat.le_add_right ..

theorem Within.skipSpaces_eq (hc : c.Within s) : c.skipSpaces s = .ok (c.skipped s) := by
  rw [skipSpaces, hc.advance_eq]
  rfl

theorem Within.peek_eq (hc : c.Within s) (start : Text) :
    c.peek s start = .ok (start.isPrefixOf (skip (c.rest s)), c.skipped s) := by
  rw [peek, hc.skipSpaces_eq, ← rest_skipped]
  simp only [Except.ok_bind, hc.skipped.slice_rest]
  rfl

theorem skipped_skipped (s : Text) (c : Cursor) : (c.skipped s).skipped s = c.skipped s := by
  have hnone : ((c.skipped s).rest s).takeWhile isSpaceOrTab = [] := by
    rw [rest_skipped]
    exact List.takeWhile_eq_nil_iff.2 (List.dropWhile_get_zero_not _ (c.rest s))
  rw [Cursor.skipped, past_of_nil hnone]
  rfl

theorem skip_rest_skipped (s : Text) (c : Cursor) :
    skip ((c.skipped s).rest s) = skip (c.rest s) := by
  rw [← rest_skipped, skipped_skipped, rest_skipped]

end Cursor

/-- Whether the cursor stands at the rest `r`, or behind spaces that `r` starts with. -/
structure Cursor.Reached (s : Text) (c : Cursor) (r : Text) : Prop extends c.Within s where
  spaces : ∃ g, IsSpacing g ∧ r = g ++ c.rest s

namespace Cursor
variable {s r : Text} {c : Cursor}

theorem Within.reached (hc : c.Within s) : c.Reached s (c.rest s) :=
  ⟨hc, [], List.forall_mem_nil _, rfl⟩

theorem Reached.skip_eq (hc : c.Reached s r) : skip r = skip (c.rest s) := by
  obtain ⟨g, hg, rfl⟩ := hc.spaces
  exact ExprReader.skip_spacing hg _

/-- A cursor that goes on to the next token is not past more than spaces. -/
theorem Reached.skipped (hc : c.Reached s r) : (c.skipped s).Reached s r := by
  obtain ⟨g, hg, rfl⟩ := hc.spaces
  refine ⟨hc.toWithin.skipped, g ++ (c.rest s).takeWhile isSpaceOrTab, ?_, ?_⟩
  · intro b hb
    rcases List.mem_append.1 hb with hb | hb
    · exact hg b hb
    · exact List.all_eq_true.1 List.all_takeWhile b hb
  · rw [rest_skipped, List.append_assoc]
    exact congrArg (g ++ ·) List.takeWhile_append_dropWhile.symm

/-- A cursor at a shorter rest stands further on. -/
theorem Reached.pos_lt {c' : Cursor} (hc' : c'.Reached s r) (h : r.length < (c.rest s).length) :
    c.pos < c'.pos := by
  obtain ⟨g, -, hr⟩ := hc'.spaces
  have hlength := congrArg List.length hr
  rw [List.length_append, length_rest] at hlength
  rw [length_rest] at h
  omega

end Cursor

/-- Whether reading with the cursor comes out as reading off the rest does. A breach agrees with
nothing. -/
inductive Agrees (s : Text) : Except Halt (Term × Cursor) → Except Stop (Term × Text) → Prop
  | term {t : Term} {c : Cursor} {r : Text} :
    c.Reached s r → Agrees s (.ok (t, c)) (.ok (t, r))
  | fault {fault : ExprFault} {pos ahead : Nat} :
    pos ≤ s.length → ahead = s.length - pos →
    Agrees s (.error (.fault fault pos)) (.error ⟨fault, ahead⟩)

section Compose
variable {s : Text} {x : Except Halt (Term × Cursor)} {y : Except Stop (Term × Text)}

/-- Readers that agree go on from the same term at the same place. -/
theorem Agrees.bind (h : Agrees s x y) {f : Term × Cursor → Except Halt (Term × Cursor)}
    {g : Term × Text → Except Stop (Term × Text)}
    (hfg : ∀ t c r, y = .ok (t, r) → c.Reached s r → Agrees s (f (t, c)) (g (t, r))) :
    Agrees s (x >>= f) (y.bind g) := by
  cases h with
  | term hc => exact hfg _ _ _ rfl hc
  | fault hpos hahead => exact .fault hpos hahead

theorem Agrees.map (h : Agrees s x y) (f : Term → Term) :
    Agrees s (x >>= fun p => .ok (f p.1, p.2)) (y.map fun p => (f p.1, p.2)) := by
  cases h with
  | term hc => exact .term hc
  | fault hpos hahead => exact .fault hpos hahead

end Compose

section Operands
variable {s : Text} {c : Cursor} (hc : c.Within s)
include hc

theorem Agrees.fail (fault : ExprFault) :
    Agrees s (c.fail fault) (.error ⟨fault, (c.rest s).length⟩) :=
  .fault hc.pos_le (c.length_rest s)

theorem number_agrees (radix : Radix) {start : Nat} (htoken : c.token ≤ start)
    (hstart : start ≤ c.pos) :
    Agrees s (number s radix start c) (ExprReader.number radix (s.drop start) (c.rest s)) := by
  have hin : start ≤ s.length := Nat.le_trans hstart hc.pos_le
  have hpast := hc.past (isNumberPart radix)
  simp only [number, hc.advance_eq, hc.slice_past, Except.ok_bind, ExprReader.number,
    ← Cursor.rest_past]
  split
  · rw [Cursor.moveTo_eq (c := c.past s _) htoken hin]
    exact .fault hin List.length_drop
  split
  · exact .term hpast.reached
  · have hle : start ≤ (c.past s (isNumberPart radix)).pos :=
      Nat.le_trans hstart (Nat.le_add_right ..)
    have hcount : (s.drop start).length - ((c.past s (isNumberPart radix)).rest s).length =
        (c.past s (isNumberPart radix)).pos - start := by
      have hend := hpast.pos_le
      rw [List.length_drop, Cursor.length_rest]
      omega
    rw [slice_eq hle hpast.pos_le, hcount]
    exact .fail hpast _

theorem name_agrees (labels : Labels) :
    Agrees s (name labels s c) (ExprReader.name labels (c.rest s)) := by
  have hdots := hc.past (· == 46)
  have hpast := hdots.past isNameByte
  have hdepth : (c.past s (· == 46)).pos - c.pos = ((c.rest s).takeWhile (· == 46)).length :=
    Nat.add_sub_cancel_left ..
  simp only [name, hc.advance_eq, hdots.advance_eq, hdots.slice_past, Except.ok_bind,
    ExprReader.name, hdepth, ← Cursor.rest_past]
  split
  · rename_i hword
    rw [Cursor.past_of_nil (List.isEmpty_iff.1 hword)]
    exact .fail hdots _
  · exact .term hpast.reached

theorem character_of_closed {v : UInt8} {r : Text} (hrest : c.rest s = 39 :: v :: 39 :: r) :
    character s c = .ok (.constant (Int64.ofNat v.toNat), c.ahead 3) := by
  have hlength := c.length_rest s
  have hquote : byteAt s (c.pos + 2) = .ok 39 := Cursor.byteAt_ahead (congrArg (List.drop 2) hrest)
  have hbyte : byteAt s (c.pos + 1) = .ok v := Cursor.byteAt_ahead (congrArg (List.drop 1) hrest)
  have hmove : c.moveTo s (c.pos + 3) = .ok (c.ahead 3) :=
    hc.moveTo_ahead (p := [39, v, 39]) hrest
  simp only [hrest, List.length_cons] at hlength
  rw [character, if_pos (by omega), hquote, hbyte, hmove]
  rfl

omit hc in
theorem character_of_open {r : Text} (hrest : c.rest s = 39 :: r)
    (hopen : ∀ v r', r ≠ v :: 39 :: r') : character s c = c.fail .badCharacter := by
  have hlength := c.length_rest s
  rw [hrest, List.length_cons] at hlength
  rw [character]
  split
  · obtain _ | ⟨v, _ | ⟨q, r'⟩⟩ := r
    · rw [List.length_nil] at hlength
      omega
    · rw [List.length_singleton] at hlength
      omega
    · have hq : q ≠ 39 := fun h => hopen v r' (h ▸ rfl)
      rw [Cursor.byteAt_ahead (congrArg (List.drop 2) hrest), Except.ok_bind,
        if_neg (by simpa using hq)]
  · rfl

theorem primary_agrees (labels : Labels) {b : UInt8} {r : Text} (hrest : c.rest s = b :: r) :
    Agrees s (primary labels s c) (ExprReader.primary labels (b :: r)) := by
  obtain ⟨hmove, hnext, hdigits⟩ := hc.next hrest
  -- The dollar and the percent sign belong to the number, which may be refused at its start.
  have hmarked (radix : Radix) : Agrees s (number s radix c.pos (c.ahead 1))
      (ExprReader.number radix (b :: r) r) := by
    rw [← hrest, ← hdigits]
    exact number_agrees hnext radix hc.token_le (Nat.le_add_right ..)
  rw [primary, byteAt_eq hrest, Except.ok_bind, hmove]
  unfold ExprReader.primary
  simp only [Except.ok_bind]
  split
  · exact hmarked .hex
  split
  · exact hmarked .binary
  split
  · rw [← hrest]
    exact number_agrees hc .decimal hc.token_le (Nat.le_refl _)
  split
  · rename_i hb
    rw [beq_iff_eq] at hb
    subst hb
    split
    · rename_i v r'
      have hafter : (c.ahead 3).rest s = r' := Cursor.rest_ahead (p := [39, v, 39]) hrest
      have hwithin : (c.ahead 3).Within s := hc.ahead (p := [39, v, 39]) hrest
      rw [character_of_closed hc hrest]
      exact .term (hafter ▸ hwithin.reached)
    · rename_i hopen
      rw [character_of_open hrest (fun v r' h => hopen v r' h), ← hrest]
      exact .fail hc _
  split
  · rw [← hrest]
    exact name_agrees hc labels
  · rw [← hrest]
    exact .fail hc _

/-- A run of signs is a reference in both ways of reading or in none. -/
theorem signs?_agrees (labels : Labels) {b : UInt8} {r : Text} (hrest : c.rest s = b :: r) :
    (ExprReader.anonymous? labels (b :: r) = none ∧ signs? labels s c b = .ok none) ∨
      ∃ x y, ExprReader.anonymous? labels (b :: r) = some y ∧ signs? labels s c b = x.map some ∧
        Agrees s x y := by
  have hpast := hc.past (· == b)
  have hcount : (c.past s (· == b)).pos - c.pos = ((c.rest s).takeWhile (· == b)).length :=
    Nat.add_sub_cancel_left ..
  simp only [signs?, ExprReader.anonymous?, ← hrest, hc.runEnd_eq, hpast.slice_rest, Except.ok_bind,
    ← Cursor.rest_past, hcount, hc.moveTo_past, hc.slice_past]
  split
  · exact .inl ⟨rfl, rfl⟩
  split
  · exact .inl ⟨rfl, rfl⟩
  right
  split
  · exact ⟨_, _, rfl, rfl, .term hpast.reached⟩
  split
  · exact ⟨_, _, rfl, rfl, .term hpast.reached⟩
  · exact ⟨_, _, rfl, rfl, .fail hc _⟩

end Operands

end Descent

end Assembler65816
