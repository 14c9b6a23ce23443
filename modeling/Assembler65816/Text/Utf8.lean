import Assembler65816.Text.Basic

/-!
# Characters in a text

A text is cut into pieces from the left: the longest well-formed UTF-8 sequence for one character,
or a single stray byte that begins none. Overlong forms, surrogates and values past the last code
point are not well formed.
-/
namespace Assembler65816.Utf8

inductive Piece
  | char (c : Char)
  | stray (b : UInt8)
  deriving DecidableEq, Repr

/-- The character a piece stands for when every piece has to be one. -/
def Piece.toChar : Piece → Char
  | .char c => c
  | .stray _ => '\ufffd'

def isContinuation (b : UInt8) : Bool := 0x80 ≤ b && b < 0xC0

/-- Extends `n` by the six payload bits of each of the next `count` continuation bytes. -/
def payload : (count n : Nat) → Text → Option (Nat × Text)
  | 0, n, s => some (n, s)
  | _ + 1, _, [] => none
  | count + 1, n, b :: s =>
    if isContinuation b then payload count (64 * n + b.toNat % 64) s else none

theorem payload_length {count n m : Nat} {s r : Text} (h : payload count n s = some (m, r)) :
    r.length ≤ s.length := by
  induction count generalizing n s with
  | zero => simp_all [payload]
  | succ count ih =>
    cases s with
    | nil => simp [payload] at h
    | cons b s =>
      simp only [payload] at h
      split at h
      · have := ih h
        simp only [List.length_cons]
        omega
      · simp at h

/-- A sequence of `count` continuation bytes counts only if its value needs that many. -/
def sequence (lead : UInt8) (count n least : Nat) (s : Text) : Piece × Text :=
  match payload count n s with
  | some (m, r) => if least ≤ m ∧ m.isValidChar then (.char (Char.ofNat m), r) else (.stray lead, s)
  | none => (.stray lead, s)

/-- The piece that starts with `lead`, and what follows it. -/
def first (lead : UInt8) (s : Text) : Piece × Text :=
  if lead < 0x80 then (.char (Char.ofNat lead.toNat), s)
  else if lead < 0xC0 then (.stray lead, s)
  else if lead < 0xE0 then sequence lead 1 (lead.toNat % 32) 0x80 s
  else if lead < 0xF0 then sequence lead 2 (lead.toNat % 16) 0x800 s
  else if lead < 0xF8 then sequence lead 3 (lead.toNat % 8) 0x10000 s
  else (.stray lead, s)

theorem sequence_length (lead : UInt8) (count n least : Nat) (s : Text) :
    (sequence lead count n least s).2.length ≤ s.length := by
  unfold sequence
  split
  · rename_i m r h
    split
    · exact payload_length h
    · exact Nat.le_refl _
  · exact Nat.le_refl _

theorem first_length (lead : UInt8) (s : Text) : (first lead s).2.length ≤ s.length := by
  unfold first
  split
  · exact Nat.le_refl _
  split
  · exact Nat.le_refl _
  repeat' split
  all_goals first | exact sequence_length .. | exact Nat.le_refl _

def decode : Text → List Piece
  | [] => []
  | b :: s => (first b s).1 :: decode (first b s).2
termination_by s => s.length
decreasing_by
  have := first_length b s
  simp only [List.length_cons]
  omega

/-- Writes characters. -/
def encodeChars (cs : List Char) : Text := cs.flatMap String.utf8EncodeChar

end Assembler65816.Utf8
