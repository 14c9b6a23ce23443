import Assembler65816.Text.Basic

/-!
# Blocks of a document

Scenario documents use a small part of Markdown: headings that start with number signs, fenced code
blocks, and paragraphs, which carry nothing. A fence is three or more backticks or tildes; it is
closed by at least as many of the same, or by the end of the document, and its content loses the
indentation of the opening fence, counted in columns with tab stops every four. A block is placed
by the line of its content, or by line 1 if it has none.
-/
namespace Assembler65816

inductive Block
  | heading (title : Text) (line : Nat)
  | fence (language body : Text) (line : Nat)
  deriving DecidableEq, Repr

namespace Document

/-- A fence that is still open. -/
structure Fence where
  mark : UInt8
  length : Nat
  /-- The columns before the opening fence. -/
  indent : Nat
  language : Text
  /-- The lines of content so far, latest first. -/
  content : List Text := []
  deriving DecidableEq, Repr

/-- The lines of a document, each with its line feed, which the last one may lack. -/
def lines (s : Text) : List Text :=
  match s with
  | [] => []
  | b :: t =>
    let length := ((b :: t).takeWhile (· != 10)).length + 1
    (b :: t).take length :: lines ((b :: t).drop length)
termination_by s.length
decreasing_by
  simp only [List.length_drop, List.length_cons]
  omega

/-- Space, tab, line feed and carriage return. A form feed is content like any other byte. -/
def isSpacing (b : UInt8) : Bool := b == 32 || b == 9 || b == 10 || b == 13

def trimSpacing (s : Text) : Text := Text.dropEnd isSpacing (s.dropWhile isSpacing)

def indentation (s : Text) : Nat := (s.takeWhile (· == 32)).length

/-- A title without the number signs that close it. -/
def dropClosing (title : Text) : Text :=
  let words := title.dropEnd (· == 35)
  match words.getLast? with
  | none => []
  | some b => if isSpacing b then words.dropEnd isSpacing else title

/-- The title of a heading: one to six number signs and spacing, or nothing more. -/
def heading? (s : Text) : Option Text :=
  let level := (s.takeWhile (· == 35)).length
  let rest := s.dropWhile (· == 35)
  if level == 0 || 6 < level then none
  else
    match rest with
    | [] => some []
    | b :: _ => if isSpacing b then some (dropClosing (trimSpacing rest)) else none

/-- What an opening fence says after its marks. A single byte that ends both the line and the
document says nothing. -/
def info (rest : Text) : Text := if rest.length < 2 then [] else trimSpacing rest

/-- A line that opens a fence; what it says after the marks names the language first. -/
def fence? (indent : Nat) : Text → Option Fence
  | [] => none
  | mark :: s =>
    if mark == 96 || mark == 126 then
      let length := ((mark :: s).takeWhile (· == mark)).length
      let info := info (s.dropWhile (· == mark))
      if length < 3 || (mark == 96 && info.contains 96) then none
      else some {mark, length, indent, language := info.takeWhile (· != 32)}
    else none

/-- Whether a line closes the fence. -/
def Fence.isClosedBy (f : Fence) (line : Text) : Bool :=
  let s := line.drop (indentation line)
  indentation line < 4 && f.length ≤ (s.takeWhile (· == f.mark)).length &&
    (s.dropWhile (· == f.mark)).all isSpacing

/-- What a line that starts at `column` holds from column `indent` on, if only spaces and tabs stand
before it. A tab that reaches beyond leaves the rest of its columns as spaces. -/
def fromColumn? (indent column : Nat) (line : Text) : Option Text :=
  if indent ≤ column then some (List.replicate (column - indent) 32 ++ line)
  else
    match line with
    | [] => none
    | b :: rest =>
      if b == 32 then fromColumn? indent (column + 1) rest
      else if b == 9 then fromColumn? indent (column + (4 - column % 4)) rest
      else none

/-- A line of content without the indentation of the fence. A line with less of it loses what it
has, unless it holds nothing else. -/
def Fence.unindent (f : Fence) (line : Text) : Text :=
  match fromColumn? f.indent 0 line with
  | some rest => rest
  | none =>
    match line.drop (indentation line) with
    | [] => line
    | b :: rest => if b == 10 then line else b :: rest

/-- The block of a fence that ends before line `line`. -/
def Fence.block (f : Fence) (line : Nat) : Block :=
  .fence f.language f.content.reverse.flatten
    (if f.content.isEmpty then 1 else line - f.content.length)

/-- The blocks of the lines from number `line` on, inside a fence or outside. -/
def blocksFrom (line : Nat) : Option Fence → List Text → List Block
  | none, [] => []
  | some f, [] => [f.block line]
  | some f, s :: rest =>
    if f.isClosedBy s then f.block line :: blocksFrom (line + 1) none rest
    else blocksFrom (line + 1) (some {f with content := f.unindent s :: f.content}) rest
  | none, s :: rest =>
    let indent := indentation s
    let text := s.drop indent
    if 3 < indent then blocksFrom (line + 1) none rest
    else
      match heading? text, fence? indent text with
      | some title, _ => .heading title line :: blocksFrom (line + 1) none rest
      | none, some f => blocksFrom (line + 1) (some f) rest
      | none, none => blocksFrom (line + 1) none rest

/-- The headings and fenced blocks of a document, in order. -/
def blocks (s : Text) : List Block := blocksFrom 1 none (lines s)

end Document
end Assembler65816
