import Assembler65816.Expression.Basic
import Assembler65816.Label.Labels
import Assembler65816.Text.Quoted

/-!
# Reading expressions

Infix operators bind by level, loosest first: `|`, `^`, `&`, shifts, sums, products; all group to
the left. Prefix `-` and `~` bind tighter than any of them, while the byte selectors `<`, `>` and
`^` take in everything to their right. A run of `-` or `+` that stands alone, before the end, a
closing parenthesis or a comma, is a reference to an anonymous label. Spaces and tabs may stand
between tokens.

Each reader returns what it read and the rest of the text. A rest is shorter than what it was read
from, so the recursion ends. A failure is placed by the number of bytes that were still to come.
-/
namespace Assembler65816

inductive ExprFault
  | missingOperand
  | unexpected (found : Text)
  | unexpectedPlus
  | missingParenthesis
  | noEarlier (signs : Text)
  | missingDigits
  | badNumber (written : Text)
  | badCharacter
  | missingName
  deriving DecidableEq, Repr

def ExprFault.message : ExprFault → Text
  | missingOperand => ascii "missing operand"
  | unexpected found => ascii "unexpected " ++ found.quote
  | unexpectedPlus => ascii "unexpected '+'"
  | missingParenthesis => ascii "missing ')'"
  | noEarlier signs => ascii "no earlier " ++ signs.quote ++ ascii " label"
  | missingDigits => ascii "missing digits"
  | badNumber written => ascii "bad number " ++ written.quote
  | badCharacter => ascii "bad character constant"
  | missingName => ascii "missing label name"

/-- Why an expression could not be read, and which one. Columns count bytes from 1. -/
structure ExprError where
  fault : ExprFault
  column : Nat
  written : Text
  deriving DecidableEq, Repr

def ExprError.message (e : ExprError) : Text :=
  e.fault.message ++ ascii " at column " ++ decimal e.column ++ ascii " in " ++ e.written.quote

namespace ExprReader

/-- A fault with the number of bytes still to come. -/
structure Stop where
  fault : ExprFault
  ahead : Nat
  deriving DecidableEq, Repr

/-- What is left of `s` once something was read from it. -/
abbrev Rest (s : Text) := {r : Text // r.length < s.length}

def skip (s : Text) : Text := s.dropWhile isSpaceOrTab

theorem length_skip (s : Text) : (skip s).length ≤ s.length := (List.dropWhile_suffix _).length_le

/-- The loosest level is 0. -/
def level : BinaryOp → Nat
  | .or => 0
  | .xor => 1
  | .and => 2
  | .shl | .shr => 3
  | .add | .sub => 4
  | .mul | .div | .mod => 5

/-- The infix operators in the order in which they are tried. -/
def operators : List BinaryOp := [.or, .xor, .and, .shl, .shr, .add, .sub, .mul, .div, .mod]

/-- The infix operator that starts `s`, and what follows it. -/
def operator? (s : Text) : Option (BinaryOp × Text) :=
  operators.findSome? fun op => (Text.after? (ascii op.sign) s).map (op, ·)

theorem operator?_length {s r : Text} {op : BinaryOp} (h : operator? s = some (op, r)) :
    r.length < s.length := by
  obtain ⟨o, ho, hr⟩ := List.exists_of_findSome?_eq_some h
  obtain ⟨t, ht, he⟩ := Option.map_eq_some_iff.1 hr
  rw [Text.after?_eq_some] at ht
  obtain ⟨_, rfl⟩ := Prod.mk.inj he
  have hpos : 0 < (ascii o.sign).length := by cases o <;> decide
  subst ht
  simp only [List.length_append]
  omega

/-- Whether what follows a run of signs leaves it standing alone. -/
def standsAlone (after : Text) : Bool :=
  match skip after with
  | [] => true
  | c :: _ => c == 41 || c == 44

/-- The rest after a non-empty run is shorter. -/
theorem length_dropWhile_of_run {p : UInt8 → Bool} {s : Text} (h : s.takeWhile p ≠ []) :
    (s.dropWhile p).length < s.length := by
  have hpos := List.length_pos_iff.2 h
  have hsum := congrArg List.length
    (List.takeWhile_append_dropWhile : s.takeWhile p ++ s.dropWhile p = s)
  rw [List.length_append] at hsum
  omega

/-! ### Leaves -/

/-- A byte that may stand in a number: a digit, or an underscore between digits. -/
def isNumberPart (radix : Radix) (b : UInt8) : Bool := radix.isDigitOf b || b == 95

/-- A number whose digits are at the start of `digits`; `start` is where it began. -/
def number (radix : Radix) (start digits : Text) : Except Stop (Term × Text) :=
  let written := (digits.takeWhile (isNumberPart radix)).filter (· != 95)
  let rest := digits.dropWhile (isNumberPart radix)
  if written.isEmpty then .error ⟨.missingDigits, start.length⟩
  else if numeralValue radix written < Nat.pow 2 63 then
    .ok (.constant (Int64.ofNat (numeralValue radix written)), rest)
  else .error ⟨.badNumber (start.take (start.length - rest.length)), rest.length⟩

/-- A global name, or after one or more dots a local one. -/
def name (labels : Labels) (s : Text) : Except Stop (Term × Text) :=
  let depth := (s.takeWhile (· == 46)).length
  let start := s.dropWhile (· == 46)
  let word := start.takeWhile isNameByte
  if word.isEmpty then .error ⟨.missingName, start.length⟩
  else
    .ok (.ref (if depth = 0 then .global word else labels.reference depth word),
      start.dropWhile isNameByte)

/-- A number, a character constant or a name. -/
def primary (labels : Labels) : Text → Except Stop (Term × Text)
  | [] => .error ⟨.missingOperand, 0⟩
  | c :: s =>
    if c == 36 then number .hex (c :: s) s
    else if c == 37 then number .binary (c :: s) s
    else if isDigit c then number .decimal (c :: s) (c :: s)
    else if c == 39 then
      match s with
      | v :: 39 :: r => .ok (.constant (Int64.ofNat v.toNat), r)
      | _ => .error ⟨.badCharacter, (c :: s).length⟩
    else if c == 46 || isNameStart c then name labels (c :: s)
    else
      .error ⟨.unexpected (String.utf8EncodeChar (Char.ofNat c.toNat)), (c :: s).length⟩

/-- A reference to an anonymous label: a run of signs that stands alone. -/
def anonymous? (labels : Labels) : Text → Option (Except Stop (Term × Text))
  | [] => none
  | c :: s =>
    if c != 45 && c != 43 then none
    else
      let rest := (c :: s).dropWhile (· == c)
      if !standsAlone rest then none
      else
        let signs := (c :: s).takeWhile (· == c)
        if c == 43 then some (.ok (.ref (labels.next signs.length), rest))
        else if labels.hasBackward signs.length then
          some (.ok (.ref (labels.latest signs.length), rest))
        else some (.error ⟨.noEarlier signs, (c :: s).length⟩)

theorem number_length {radix : Radix} {start digits r : Text} {t : Term}
    (h : number radix start digits = .ok (t, r)) : r.length < digits.length := by
  unfold number at h
  simp only at h
  split at h
  · cases h
  · rename_i hw
    split at h
    · cases h
      refine length_dropWhile_of_run fun he => hw ?_
      simp [he]
    · cases h

theorem name_length {labels : Labels} {s r : Text} {t : Term} (h : name labels s = .ok (t, r)) :
    r.length < s.length := by
  unfold name at h
  simp only at h
  split at h
  · cases h
  · rename_i hw
    cases h
    have := (List.dropWhile_suffix (l := s) (· == 46)).length_le
    have := length_dropWhile_of_run (p := isNameByte) (s := s.dropWhile (· == 46))
      fun he => hw (by simp [he])
    omega

theorem primary_length {labels : Labels} {s r : Text} {t : Term}
    (h : primary labels s = .ok (t, r)) : r.length < s.length := by
  unfold primary at h
  split at h
  · cases h
  · rename_i c s
    split at h
    · exact Nat.lt_succ_of_lt (number_length h)
    split at h
    · exact Nat.lt_succ_of_lt (number_length h)
    split at h
    · exact number_length h
    split at h
    · split at h
      · cases h
        simp only [List.length_cons]
        omega
      · cases h
    split at h
    · exact name_length h
    · cases h

theorem anonymous?_length {labels : Labels} {s r : Text} {t : Term}
    (h : anonymous? labels s = some (.ok (t, r))) : r.length < s.length := by
  unfold anonymous? at h
  split at h
  · cases h
  · rename_i c s
    have hrun : ((c :: s).dropWhile (· == c)).length < (c :: s).length :=
      length_dropWhile_of_run (by simp)
    split at h
    · cases h
    simp only at h
    split at h
    · cases h
    split at h
    · cases h
      exact hrun
    split at h
    · cases h
      exact hrun
    · cases h

/-! ### The grammar -/

def unarySign? (c : UInt8) : Option UnaryOp :=
  if c == 45 then some .neg
  else if c == 126 then some .not
  else if c == 60 then some .low
  else if c == 62 then some .high
  else if c == 94 then some .bank
  else none

theorem length_of_skip {s r : Text} {c : UInt8} (h : skip s = c :: r) :
    (c :: r).length ≤ s.length :=
  h ▸ length_skip s

mutual

/-- An operand with the prefix operators before it. -/
def unary (labels : Labels) (s : Text) : Except Stop (Term × Rest s) :=
  match hs : skip s with
  | [] => .error ⟨.missingOperand, 0⟩
  | c :: r =>
    have hr : (c :: r).length ≤ s.length := length_of_skip hs
    have hlt : r.length < s.length := hr
    match ha : anonymous? labels (c :: r) with
    | some (.error e) => .error e
    | some (.ok (t, r')) => .ok (t, ⟨r', Nat.lt_of_lt_of_le (anonymous?_length ha) hr⟩)
    | none =>
      if c == 43 then .error ⟨.unexpectedPlus, (c :: r).length⟩
      else
        match unarySign? c with
        | some op => do
          let (x, ⟨r', h⟩) ← if op.isSelector then infixed labels 0 r else unary labels r
          return (.unary op x, ⟨r', by omega⟩)
        | none =>
          if c == 40 then do
            let (x, ⟨r', h⟩) ← infixed labels 0 r
            match hc : skip r' with
            | 41 :: r'' => return (x, ⟨r'', by have := length_of_skip hc; simp at this; omega⟩)
            | rest => .error ⟨.missingParenthesis, rest.length⟩
          else
            match hp : primary labels (c :: r) with
            | .error e => .error e
            | .ok (t, r') => .ok (t, ⟨r', Nat.lt_of_lt_of_le (primary_length hp) hr⟩)
termination_by 2 * s.length

/-- Operands joined by infix operators that bind at least as tight as `least`. -/
def infixed (labels : Labels) (least : Nat) (s : Text) : Except Stop (Term × Rest s) := do
  let (left, ⟨r, h⟩) ← unary labels s
  let (t, ⟨r', h'⟩) ← climb labels least left r
  return (t, ⟨r', by omega⟩)
termination_by 2 * s.length + 1

/-- Continues after a left operand for as long as such an operator follows. -/
def climb (labels : Labels) (least : Nat) (left : Term) (s : Text) :
    Except Stop (Term × {r : Text // r.length ≤ s.length}) :=
  match ho : operator? (skip s) with
  | none => .ok (left, ⟨s, Nat.le_refl _⟩)
  | some (op, r) =>
    have hr : r.length < s.length := Nat.lt_of_lt_of_le (operator?_length ho) (length_skip s)
    if level op < least then .ok (left, ⟨s, Nat.le_refl _⟩)
    else do
      let (right, ⟨r', h⟩) ← infixed labels (level op + 1) r
      let (t, ⟨r'', h'⟩) ← climb labels least (.binary op left right) r'
      return (t, ⟨r'', by omega⟩)
termination_by 2 * s.length

end

end ExprReader

/-- Reads a text that is one expression and nothing else. -/
def Term.read (labels : Labels) (s : Text) : Except ExprError Term :=
  match ExprReader.infixed labels 0 s with
  | .error stop => .error ⟨stop.fault, s.length - stop.ahead + 1, s⟩
  | .ok (t, rest) =>
    match ExprReader.skip rest.1 with
    | [] => .ok t
    | r => .error ⟨.unexpected r, s.length - r.length + 1, s⟩

end Assembler65816
