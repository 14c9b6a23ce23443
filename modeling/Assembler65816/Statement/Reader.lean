import Assembler65816.Statement.Data
import Assembler65816.Operand.Reader

/-!
# Reading one statement

What stands on a line after its labels is a define, a directive or an instruction. A define binds a
name by `=`, or by `equ` or `.equ` between blanks. A directive starts with a dot. Everything else is
a mnemonic with an operand.
-/
namespace Assembler65816

namespace Define

/-- Letters outside ASCII that fold to s and k. -/
def foldedLetters : List Text := [[0xC5, 0xBF], [0xE2, 0x84, 0xAA]]

theorem foldedLetters_solid : Text.Solid foldedLetters := by
  unfold Text.Solid
  decide

/-- What follows the longest name at the start. -/
def dropName (s : Text) : Text :=
  match _hs : Text.afterForm? foldedLetters s with
  | some r => dropName r
  | none =>
    match s with
    | [] => []
    | b :: r => if isNameByte b then dropName r else b :: r
termination_by s.length
decreasing_by
  · exact foldedLetters_solid.afterForm?_length _hs
  · simp

/-- Whether a name starts here. -/
def startsName (s : Text) : Bool :=
  (Text.afterForm? foldedLetters s).isSome || s.head?.any isNameStart

/-- The word `equ` in any case. -/
def afterEqu? : Text → Option Text
  | a :: b :: c :: s =>
    if Case.lowerByte a == 101 && Case.lowerByte b == 113 && Case.lowerByte c == 117 then some s
    else none
  | _ => none

/-- What follows `=`, or `equ` between blanks. -/
def afterSign? (s : Text) : Option Text :=
  match s.dropWhile isGap with
  | 61 :: r => some r
  | word =>
    if s.head?.any isGap then
      match afterEqu? ((Text.after? [46] word).getD word) with
      | some (b :: r) => if isGap b then some r else none
      | _ => none
    else none

/-- The name and the value of a define. -/
def parts? (s : Text) : Option (Text × Text) :=
  if startsName s then
    let rest := dropName s
    match afterSign? rest with
    | some r =>
      let value := r.dropWhile isGap
      if value.isEmpty then none else some (s.take (s.length - rest.length), value)
    | none => none
  else none

end Define

namespace Statement

def suffixSize? (suffix : Text) : Option Size :=
  if suffix = [98] then some .byte
  else if suffix = [119] then some .word
  else if suffix = [108] then some .long
  else none

/-- The first word, up to a space or tab, and what follows it without blanks around. -/
def splitHead (s : Text) : Text × Text :=
  (s.takeWhile (!isSpaceOrTab ·), Text.trim (s.dropWhile (!isSpaceOrTab ·)))

/-- A mnemonic in small letters, and the size declared after its first dot. -/
def readMnemonic (head : Text) : Text × Except SyntaxError Size :=
  match head.lower.splitFirst 46 with
  | (mnemonic, none) => (mnemonic, .ok .any)
  | (mnemonic, some suffix) =>
    (mnemonic,
      match suffixSize? suffix with
      | some size => .ok size
      | none => .error (.invalidSuffix suffix))

def readInstruction (labels : Labels) (head args : Text) (pos : Position) :
    Except Cause Statement := do
  let (mnemonic, declared) := readMnemonic head
  let size ← declared.mapError .malformed
  let arg ← (Operand.read labels args).mapError fun e => .malformed (.expression e)
  return .instruction {mnemonic, size, arg, pos}

/-- Reads a statement that is no label. -/
def read (labels : Labels) (s : Text) (pos : Position) : Except Cause Statement :=
  match Define.parts? s with
  | some (name, value) => do
    let t ← Directive.readTerm labels value
    return .define name (.ofTerm t) pos
  | none =>
    let (head, args) := splitHead s
    if head.head? = some 46 then Directive.read labels head.lower args pos
    else readInstruction labels head args pos

end Statement
end Assembler65816
