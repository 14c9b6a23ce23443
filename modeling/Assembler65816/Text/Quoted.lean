import Assembler65816.Text.Utf8
import Assembler65816.Text.Numeral
import Assembler65816.Text.Printable

/-!
# Quoted texts

`quote` shows a text between double quotes inside a message, with an escape for all that would not
print. `unquote?` reads a string literal of the source: between double quotes or single quotes with
escapes (a single-quoted one holds at most one character), or between back quotes as it stands, less
its carriage returns.

The two are not inverse: a byte that is no character is shown as a hexadecimal escape, but written
raw between double quotes it reads as U+FFFD.
-/
namespace Assembler65816.Text

/-- Small hexadecimal digits, at least `width`. -/
def lowHex (width n : Nat) : Text :=
  (zeroFill width (numeral .hex n)).map fun b => if isUpperLetter b then b + 32 else b

/-- The letter that names a control character after a backslash. -/
def controlName? (n : Nat) : Option UInt8 :=
  match n with
  | 7 => some 97
  | 8 => some 98
  | 9 => some 116
  | 10 => some 110
  | 11 => some 118
  | 12 => some 102
  | 13 => some 114
  | _ => none

def quotePiece : Utf8.Piece → Text
  | .stray b => ascii "\\x" ++ lowHex 2 b.toNat
  | .char c =>
    if c = '"' ∨ c = '\\' then 92 :: String.utf8EncodeChar c
    else if isPrintable c then String.utf8EncodeChar c
    else match controlName? c.toNat with
      | some b => [92, b]
      | none =>
        if c.toNat < 0x80 then ascii "\\x" ++ lowHex 2 c.toNat
        else if c.toNat < 0x10000 then ascii "\\u" ++ lowHex 4 c.toNat
        else ascii "\\U" ++ lowHex 8 c.toNat

def quote (s : Text) : Text := 34 :: ((Utf8.decode s).flatMap quotePiece ++ [34])

/-! ### Reading a literal -/

/-- Reads `count` hexadecimal digits. -/
def hexDigits? (count : Nat) (s : Text) : Option (Nat × Text) :=
  (readNumeral? .hex (s.take count)).bind fun n =>
    if count ≤ s.length then some (n, s.drop count) else none

/-- Reads three octal digits, the first of which is `d`. -/
def octalDigits? (d : Nat) : Text → Option (Nat × Text)
  | a :: b :: s =>
    if 48 ≤ a && a ≤ 55 && 48 ≤ b && b ≤ 55 then
      some (64 * d + 8 * (a.toNat - 48) + (b.toNat - 48), s)
    else none
  | _ => none

/-- The one byte that a backslash and `c` stand for between quotes `q`. -/
def plainEscape? (q c : UInt8) : Option UInt8 :=
  if c == q || c == 92 then some c
  else match c with
    | 97 => some 7
    | 98 => some 8
    | 102 => some 12
    | 110 => some 10
    | 114 => some 13
    | 116 => some 9
    | 118 => some 11
    | _ => none

def byteOf? (n : Nat) : Option Text := if n < 256 then some [UInt8.ofNat n] else none

def charOf? (n : Nat) : Option Text :=
  if n.isValidChar then some (String.utf8EncodeChar (Char.ofNat n)) else none

/-- Reads a number after a backslash and `c`: two, four or eight hexadecimal digits, or octal ones.
-/
def numericEscape? (c : UInt8) (s : Text) : Option (Nat × Text) :=
  if c == 120 then hexDigits? 2 s
  else if c == 117 then hexDigits? 4 s
  else if c == 85 then hexDigits? 8 s
  else if 48 ≤ c && c ≤ 55 then octalDigits? (c.toNat - 48) s
  else none

/-- What a backslash and `c` stand for between quotes `q`, and what follows them. A number names one
byte, or after `u` and `U` one character. -/
def escape? (q c : UInt8) (s : Text) : Option (Text × Text) :=
  match plainEscape? q c with
  | some b => some ([b], s)
  | none =>
    (numericEscape? c s).bind fun (n, r) =>
      (if c == 117 || c == 85 then charOf? n else byteOf? n).map (·, r)

/-- Reads one character or escape between quotes `q`; a line feed stands in no literal. -/
def literalChar? (q : UInt8) : Text → Option (Text × Text)
  | [] => none
  | b :: s =>
    if b == q || b == 10 then none
    else if b == 92 then
      match s with
      | [] => none
      | c :: r => escape? q c r
    else
      some (String.utf8EncodeChar (Utf8.first b s).1.toChar, (Utf8.first b s).2)

theorem hexDigits?_length {count n : Nat} {s r : Text} (h : hexDigits? count s = some (n, r)) :
    r.length ≤ s.length := by
  obtain ⟨m, _, h⟩ := Option.bind_eq_some_iff.1 h
  split at h
  · obtain ⟨_, rfl⟩ := Prod.mk.inj (Option.some.inj h)
    simp
  · simp at h

theorem octalDigits?_length {d n : Nat} {s r : Text} (h : octalDigits? d s = some (n, r)) :
    r.length ≤ s.length := by
  unfold octalDigits? at h
  split at h
  · split at h
    · obtain ⟨_, rfl⟩ := Prod.mk.inj (Option.some.inj h)
      simp only [List.length_cons]
      omega
    · simp at h
  · simp at h

theorem numericEscape?_length {c : UInt8} {n : Nat} {s r : Text}
    (h : numericEscape? c s = some (n, r)) : r.length ≤ s.length := by
  unfold numericEscape? at h
  split at h
  · exact hexDigits?_length h
  split at h
  · exact hexDigits?_length h
  split at h
  · exact hexDigits?_length h
  split at h
  · exact octalDigits?_length h
  · cases h

theorem escape?_length {q c : UInt8} {s t r : Text} (h : escape? q c s = some (t, r)) :
    r.length ≤ s.length := by
  unfold escape? at h
  split at h
  · cases h
    exact Nat.le_refl _
  · obtain ⟨⟨n, r'⟩, hn, h⟩ := Option.bind_eq_some_iff.1 h
    obtain ⟨u, _, h⟩ := Option.map_eq_some_iff.1 h
    cases h
    exact numericEscape?_length hn

theorem literalChar?_length {q : UInt8} {s t r : Text} (h : literalChar? q s = some (t, r)) :
    r.length < s.length := by
  unfold literalChar? at h
  split at h
  · simp at h
  · split at h
    · simp at h
    · split at h
      · split at h
        · simp at h
        · have := escape?_length h
          simp only [List.length_cons]
          omega
      · rename_i b s _ _
        cases h
        have := Utf8.first_length b s
        simp only [List.length_cons]
        omega

/-- The characters up to the closing double quote, and what follows it. -/
def doubleQuoted? (s : Text) : Option (Text × Text) :=
  match s with
  | 34 :: r => some ([], r)
  | s =>
    match _h : literalChar? 34 s with
    | some (t, r) => (doubleQuoted? r).map fun (u, v) => (t ++ u, v)
    | none => none
termination_by s.length
decreasing_by exact literalChar?_length _h

/-- At most one character up to the closing single quote. -/
def singleQuoted? (s : Text) : Option (Text × Text) :=
  match s with
  | 39 :: r => some ([], r)
  | s =>
    match literalChar? 39 s with
    | some (t, 39 :: r) => some (t, r)
    | _ => none

/-- The text a whole literal denotes. -/
def unquote? (s : Text) : Option Text :=
  match s with
  | 34 :: r => closed (doubleQuoted? r)
  | 39 :: r => closed (singleQuoted? r)
  | 96 :: r =>
    match splitFirst 96 r with
    | (t, some []) => some (t.filter (· != 13))
    | _ => none
  | _ => none
where
  closed : Option (Text × Text) → Option Text
    | some (t, []) => some t
    | _ => none

end Assembler65816.Text
