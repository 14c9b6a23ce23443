import Assembler65816.Statement.Reader

/-!
# Lines

A source is cut into lines at line feeds, and a carriage return before one goes with it. Reading
stops at a line that is too long. A line loses its comment; then it is an attribute of the next
top-level label, or a define, or labels of any kind followed by at most one more statement.
-/
namespace Assembler65816

/-- The lines that could be read, and what stopped the reading, if it did not reach the end. -/
structure Lines where
  lines : List Text := []
  failure : Option Text := none
  deriving DecidableEq, Repr

namespace Lines

/-- A line this long, or longer, cannot be read. -/
def tooLong : Nat := 65536

def dropReturn (s : Text) : Text := if s.getLast? = some 13 then s.dropLast else s

/-- Cuts a source into lines. `failure` says what stops the reading where the source ends. A last
line without a line feed counts unless it is empty. -/
def ofText (failure : Option Text) (s : Text) : Lines :=
  match s with
  | [] => {failure}
  | b :: t =>
    let line := (b :: t).takeWhile (· != 10)
    if tooLong ≤ line.length then {failure := some (ascii "bufio.Scanner: token too long")}
    else
      match _h : (b :: t).dropWhile (· != 10) with
      | [] => {lines := [dropReturn line], failure}
      | _ :: rest =>
        let more := ofText failure rest
        {more with lines := dropReturn line :: more.lines}
termination_by s.length
decreasing_by
  have := (List.dropWhile_suffix (l := b :: t) (· != 10)).length_le
  rw [_h] at this
  simp only [List.length_cons] at *
  omega

end Lines

namespace Line

/-- The number of bytes before the comment, `n` of which are already counted; `quote` is the mark
that closes the string at hand. A character constant may hold any byte, and strings hold no escapes
here. -/
def codeLength (quote : Option UInt8) (n : Nat) (s : Text) : Nat :=
  match quote, s with
  | _, [] => n
  | some q, c :: s => codeLength (if c == q then none else some q) (n + 1) s
  | none, 39 :: _ :: 39 :: s => codeLength none (n + 3) s
  | none, c :: s =>
    if c == 34 || c == 39 then codeLength (some c) (n + 1) s
    else if c == 59 then n
    else codeLength none (n + 1) s

/-- The line without its comment and without blanks around. -/
def code (s : Text) : Text := Text.trim (s.take (codeLength none 0 s))

theorem length_code (s : Text) : (code s).length ≤ s.length :=
  Nat.le_trans (Text.length_trim _) (List.length_take_le' _ _)

end Line

/-! ### Attributes -/

/-- A bank number, in hexadecimal after a dollar sign. -/
def bankNumber? (value : Text) : Option UInt8 :=
  let n? := match value with
    | 36 :: digits => readNumeral? .hex digits
    | digits => readNumeral? .decimal digits
  n?.bind fun n => if n < 256 then some (UInt8.ofNat n) else none

/-- Reads what follows the sign of an attribute: a name in any case, and words as its value. -/
def Attribute.read (s : Text) : Except SyntaxError Attribute :=
  match Text.words s with
  | [] => .error .emptyAttribute
  | word :: words =>
    let name := word.lower
    let value := List.intercalate [32] words
    if name = ascii "bank" then
      match bankNumber? value with
      | some n => .ok (.bank n)
      | none => .error (.invalidBank value)
    else .ok (.named name value)

/-! ### Labels -/

inductive LabelHead
  | top (name : Text)
  | nested (depth : Nat) (name : Text)
  | anonymous (direction : Direction) (count : Nat)
  deriving DecidableEq, Repr

namespace LabelHead

/-- A name and a colon. -/
def top? (s : Text) : Option (LabelHead × Text) :=
  if s.head?.any isNameStart then
    match s.dropWhile isNameByte with
    | 58 :: r => some (.top (s.takeWhile isNameByte), r)
    | _ => none
  else none

/-- Dots, a name, and a colon or nothing more. -/
def nested? (s : Text) : Option (LabelHead × Text) :=
  let dots := s.takeWhile (· == 46)
  let start := s.dropWhile (· == 46)
  if !dots.isEmpty && start.head?.any isNameStart then
    let head := nested dots.length (start.takeWhile isNameByte)
    match start.dropWhile isNameByte with
    | 58 :: r => some (head, r)
    | r => if Text.isBlank r then some (head, r) else none
  else none

/-- A run of one sign, perhaps a colon, and a gap or nothing more. -/
def anonymous? (direction : Direction) (s : Text) : Option (LabelHead × Text) :=
  let signs := s.takeWhile (· == direction.sign)
  let rest := s.dropWhile (· == direction.sign)
  if signs.isEmpty then none
  else
    match (Text.after? [58] rest).getD rest with
    | [] => some (.anonymous direction signs.length, [])
    | b :: r => if isGap b then some (.anonymous direction signs.length, r) else none

/-- The label that starts a text. -/
def read? (s : Text) : Option (LabelHead × Text) :=
  (top? s).or <| (nested? s).or <| (anonymous? .backward s).or (anonymous? .forward s)

/-- A label takes the attributes that wait for it if it is a top-level one. -/
def statement (attributes : List Attribute) (pos : Position) : LabelHead → Statement
  | top name => .topLabel name attributes pos
  | nested depth name => .localLabel depth name
  | anonymous .backward count => .backwardLabel count
  | anonymous .forward count => .forwardLabel count

/-- The attributes that still wait after a label. -/
def waiting (attributes : List Attribute) : LabelHead → List Attribute
  | top _ => []
  | _ => attributes

theorem top?_length {s r : Text} {head : LabelHead} (h : top? s = some (head, r)) :
    r.length < s.length := by
  unfold top? at h
  split at h
  · split at h
    · rename_i r' hr
      cases h
      have := (List.dropWhile_suffix (l := s) isNameByte).length_le
      rw [hr, List.length_cons] at this
      omega
    · cases h
  · cases h

theorem nested?_length {s r : Text} {head : LabelHead} (h : nested? s = some (head, r)) :
    r.length < s.length := by
  unfold nested? at h
  simp only at h
  split at h
  · rename_i hd
    have hrun : (s.dropWhile (· == 46)).length < s.length :=
      ExprReader.length_dropWhile_of_run fun he => by simp [he] at hd
    have hname := (List.dropWhile_suffix (l := s.dropWhile (· == 46)) isNameByte).length_le
    split at h
    · rename_i r' hr
      cases h
      rw [hr, List.length_cons] at hname
      omega
    · split at h
      · cases h
        omega
      · cases h
  · cases h

theorem anonymous?_length {direction : Direction} {s r : Text} {head : LabelHead}
    (h : anonymous? direction s = some (head, r)) : r.length < s.length := by
  unfold anonymous? at h
  simp only at h
  split at h
  · cases h
  · rename_i hs
    have hrun : (s.dropWhile (· == direction.sign)).length < s.length :=
      ExprReader.length_dropWhile_of_run fun he => hs (by simp [he])
    have hcolon : ∀ t : Text, ((Text.after? [58] t).getD t).length ≤ t.length := by
      intro t
      cases ht : Text.after? [58] t with
      | none => simp
      | some u =>
        rw [Text.after?_eq_some] at ht
        simp [ht]
    have hle := hcolon (s.dropWhile (· == direction.sign))
    split at h
    · cases h
      exact Nat.lt_of_le_of_lt (Nat.zero_le _) hrun
    · rename_i b r' hr
      rw [hr, List.length_cons] at hle
      split at h
      · cases h
        omega
      · cases h

theorem read?_length {s r : Text} {head : LabelHead} (h : read? s = some (head, r)) :
    r.length < s.length := by
  simp only [read?, Option.or_eq_some_iff] at h
  rcases h with h | ⟨_, h | ⟨_, h | ⟨_, h⟩⟩⟩
  · exact top?_length h
  · exact nested?_length h
  · exact anonymous?_length h
  · exact anonymous?_length h

end LabelHead

namespace Line

/-- A statement of a line. A label is known at once; other texts are read when their turn comes. -/
inductive Item
  | ready (st : Statement)
  | written (s : Text) (pos : Position)
  deriving DecidableEq, Repr

def Item.statement (labels : Labels) : Item → Statement
  | ready st => st
  | written s pos =>
    match Statement.read labels s pos with
    | .ok st => st
    | .error cause => .unreadable cause false pos

/-- The labels at the start of a text and the statement after them, with the attributes that still
wait at the end. -/
def labelled (pos : Position) (attributes : List Attribute) (s : Text) :
    List Item × List Attribute :=
  match _h : LabelHead.read? s with
  | some (head, r) =>
    (labelled pos (head.waiting attributes) (Text.trim r)).map
      (.ready (head.statement attributes pos) :: ·) id
  | none => (if s.isEmpty then [] else [.written s pos], attributes)
termination_by s.length
decreasing_by
  have := LabelHead.read?_length _h
  have := Text.length_trim r
  omega

theorem length_labelled (pos : Position) (attributes : List Attribute) (s : Text) :
    (labelled pos attributes s).1.length ≤ s.length := by
  fun_induction labelled pos attributes s with
  | case1 attributes s head r h ih =>
    have := LabelHead.read?_length h
    have := Text.length_trim r
    simp only [Prod.map, List.length_cons]
    omega
  | case2 attributes s h =>
    cases s <;> simp

/-- The statements of a line, and the attributes that wait after it. -/
def items (pos : Position) (attributes : List Attribute) (line : Text) :
    Except SyntaxError (List Item × List Attribute) :=
  match code line with
  | [] => .ok ([], attributes)
  | 64 :: s =>
    match Attribute.read s with
    | .ok a => .ok ([], attributes ++ [a])
    | .error e => .error e
  | s =>
    if (Define.parts? s).isSome then .ok ([.written s pos], attributes)
    else .ok (labelled pos attributes s)

theorem length_items {pos : Position} {attributes attributes' : List Attribute} {line : Text}
    {is : List Item} (h : items pos attributes line = .ok (is, attributes')) :
    is.length ≤ line.length := by
  have hcode := length_code line
  unfold items at h
  split at h
  · cases h
    exact Nat.zero_le _
  · split at h
    · cases h
      exact Nat.zero_le _
    · cases h
  · rename_i s hnil _
    split at h
    · cases h
      have := List.length_pos_iff.2 hnil
      simp only [List.length_cons, List.length_nil]
      omega
    · have := length_labelled pos attributes (code line)
      rw [Except.ok.inj h] at this
      exact Nat.le_trans this hcode

end Line
end Assembler65816
