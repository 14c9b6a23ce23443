import Assembler65816.Operand.Basic
import Assembler65816.Expression.Reader
import Assembler65816.Text.Blank

/-!
# Reading operands

The shape of an operand is found from its ends: an index letter after the last comma, an enclosing
pair of brackets, or both. A bracket pair counts only if the first bracket closes at the end, so
that `(a+1)*2` is a plain expression. Shapes are tried from the most to the least specific; what has
none is a plain expression.
-/
namespace Assembler65816

/-- The ways to write an index letter; the long s folds to s. -/
inductive IndexLetter
  | x
  | y
  | s
  deriving DecidableEq, Repr

def IndexLetter.spellings : IndexLetter → List Text
  | x => [[120], [88]]
  | y => [[121], [89]]
  | s => [[115], [83], [0xC5, 0xBF]]

namespace Shape

/-- The text before the last comma, if all that follows is the letter. -/
def indexed? (letter : IndexLetter) (s : Text) : Option Text :=
  match s.splitLast 44 with
  | some (body, tail) =>
    if letter.spellings.contains (tail.dropWhile isGap) then some body else none
  | none => none

/-- The text between an opening byte and a closing one. -/
def enclosed? (opening closing : UInt8) (s : Text) : Option Text :=
  match s with
  | [] => none
  | c :: r =>
    match r.reverse with
    | [] => none
    | d :: inner => if c = opening ∧ d = closing then some inner.reverse else none

/-- A body that can be an expression: something, on one line. -/
def body? (s : Text) : Option Text := if s.isEmpty || s.contains 10 then none else some s

def isOpening (b : UInt8) : Bool := b == 40 || b == 91

def isClosing (b : UInt8) : Bool := b == 41 || b == 93

/-- Whether the brackets open so far close at the end, but for an index letter. -/
def wrapsWhole (depth : Int) : Text → Bool
  | [] => false
  | b :: s =>
    if isOpening b then wrapsWhole (depth + 1) s
    else if isClosing b then
      if depth = 1 then
        let tail := (Text.words s).flatten
        tail.isEmpty || tail == ascii ",y" || tail == ascii ",Y"
      else wrapsWhole (depth - 1) s
    else wrapsWhole depth s

def parenthesized? (s : Text) : Option Text := enclosed? 40 41 s

def bracketed? (s : Text) : Option Text := enclosed? 91 93 s

/-- The text before a final index letter y. -/
def beforeY? (s : Text) : Option Text := (indexed? .y s).map (·.dropEnd isGap)

/-- The shapes in brackets, most specific first. -/
def wrapped : List (Form × (Text → Option Text)) :=
  [(.stackIndirectY, fun s => ((beforeY? s).bind parenthesized?).bind (indexed? .s)),
   (.xIndirect, fun s => (parenthesized? s).bind (indexed? .x)),
   (.indirectY, fun s => (beforeY? s).bind parenthesized?),
   (.indirect, parenthesized?),
   (.indirectLongY, fun s => (beforeY? s).bind bracketed?),
   (.indirectLong, bracketed?)]

/-- The shapes without brackets. -/
def bare : List (Form × (Text → Option Text)) :=
  [(.x, indexed? .x), (.y, indexed? .y), (.stack, indexed? .s)]

/-- The first of the shapes that fits, with the expression inside it. -/
def first? (shapes : List (Form × (Text → Option Text))) (s : Text) : Option (Form × Text) :=
  shapes.findSome? fun (form, inner?) => ((inner? s).bind body?).map (form, ·)

/-- The form of an operand that is written as something other than `a`, and its expression. -/
def of (s : Text) : Form × Text :=
  let shaped :=
    ((Text.after? [35] s).bind body?).map (Form.immediate, ·)
      |>.or (if wrapsWhole 0 s then first? wrapped s else none)
      |>.or (first? bare s)
  shaped.getD (.plain, s)

end Shape

/-- Reads the operand of an instruction. -/
def Operand.read (labels : Labels) (s : Text) : Except ExprError Operand :=
  let s := s.trim
  if s.isEmpty then .ok ⟨.none, .ofTerm .empty⟩
  else if s = [97] ∨ s = [65] then .ok ⟨.accumulator, .ofTerm .empty⟩
  else
    let (form, written) := Shape.of s
    (Term.read labels written).map fun t => ⟨form, .ofTerm t⟩

end Assembler65816
