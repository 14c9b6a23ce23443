import Assembler65816.Statement.Basic

/-!
# Data directives

The arguments of a data directive are separated by commas outside parentheses. A string in double
quotes is an item of its own and holds escapes; a string that is never closed counts as an
expression. Each value that is known is written into its field, and each that is not leaves zeros
and a reference.
-/
namespace Assembler65816

/-- One argument of a data directive. -/
structure DataItem where
  value : Text
  quoted : Bool := false
  deriving DecidableEq, Repr

namespace DataItem

/-- The byte a backslash and `c` stand for in a string. -/
def unescape (c : UInt8) : UInt8 :=
  if c == 110 then 10 else if c == 116 then 9 else if c == 48 then 0 else c

/-- An expression ends; `read` holds its bytes, last first. Blank ones do not count. -/
def flush (read : Text) : List DataItem :=
  let value := Text.trim read.reverse
  if value.isEmpty then [] else [{value}]

mutual

/-- Outside a string, `depth` parentheses deep. -/
def outside (depth : Int) (read : Text) (s : Text) : List DataItem :=
  match s with
  | [] => flush read
  | c :: s =>
    if c == 34 then flush read ++ inside depth [] s
    else if c == 40 then outside (depth + 1) (c :: read) s
    else if c == 41 then outside (depth - 1) (c :: read) s
    else if c == 44 && depth == 0 then flush read ++ outside depth [] s
    else outside depth (c :: read) s
termination_by s.length

/-- Inside a string. -/
def inside (depth : Int) (read : Text) (s : Text) : List DataItem :=
  match s with
  | [] => flush read
  | 34 :: s => {value := read.reverse, quoted := true} :: outside depth [] s
  | 92 :: c :: s => inside depth (unescape c :: read) s
  | c :: s => inside depth (c :: read) s
termination_by s.length

end

/-- The arguments of a directive. -/
def split (s : Text) : List DataItem := outside 0 [] s

end DataItem

namespace Directive

def readTerm (labels : Labels) (s : Text) : Except Cause Term :=
  (Term.read labels s).mapError fun e => .malformed (.expression e)

/-- The bytes of one item that starts at `base`, and the reference it leaves. -/
def image (labels : Labels) (size : Size) (base : Nat) (item : DataItem) :
    Except Cause (List UInt8 × List DataRef) :=
  if item.quoted then .ok (item.value, [])
  else do
    let t ← readTerm labels item.value
    match t.value? with
    | some v =>
      let field ← (Field.plain size v).mapError (Cause.item item.value)
      return (field, [])
    | none => return (List.replicate size.width 0, [⟨Int64.ofNat base, .sized t size⟩])

/-- The items one after the other, from `base` on. -/
def images (labels : Labels) (size : Size) :
    (base : Nat) → List DataItem → Except Cause (List UInt8 × List DataRef)
  | _, [] => .ok ([], [])
  | base, item :: items => do
    let (bytes, refs) ← image labels size base item
    let (bytes', refs') ← images labels size (base + bytes.length) items
    return (bytes ++ bytes', refs ++ refs')

/-- Values in fields of one size. -/
def values (labels : Labels) (size : Size) (args : Text) (pos : Position) :
    Except Cause Statement :=
  match DataItem.split args with
  | [] => .error (.malformed .noValues)
  | items => do
    let (bytes, refs) ← images labels size 0 items
    return .data bytes refs pos

/-- The constant a text denotes. -/
def constant? (labels : Labels) (s : Text) : Option Int64 :=
  match Term.read labels s with
  | .ok t => t.value?
  | .error _ => none

/-- The byte that fills a block of space. -/
def fillByte (labels : Labels) : List DataItem → Except SyntaxError UInt8
  | [] => .ok 0
  | item :: _ =>
    match constant? labels item.value with
    | some v => if Field.fits 1 v then .ok v.toUInt64.toUInt8 else .error (.spaceFill item.value)
    | none => .error (.spaceFill item.value)

/-- A block of equal bytes: a count and, optionally, the byte. -/
def space (labels : Labels) (args : Text) : Except SyntaxError (List UInt8) :=
  match DataItem.split args with
  | [] => .error .spaceArguments
  | count :: fill =>
    if 1 < fill.length || count.quoted then .error .spaceArguments
    else
      match constant? labels count.value with
      | none => .error (.spaceCount count.value)
      | some n =>
        if n < 0 then .error (.spaceCount count.value)
        else if (maxSpace : Int) < n.toInt then .error (.spaceTooLarge n)
        else (fillByte labels fill).map (List.replicate n.toInt.toNat ·)

/-- The text of a string literal. -/
def literal (args : Text) : Except SyntaxError (List UInt8) :=
  match args.trim.unquote? with
  | some bytes => .ok bytes
  | none => .error .unquoted

def valueSize? (name : Text) : Option Size :=
  if name = ascii ".db" ∨ name = ascii ".byte" then some .byte
  else if name = ascii ".dw" ∨ name = ascii ".word" then some .word
  else if name = ascii ".dl" ∨ name = ascii ".long" then some .long
  else none

/-- Reads a directive, the name of which is in small letters. -/
def read (labels : Labels) (name args : Text) (pos : Position) : Except Cause Statement :=
  match valueSize? name with
  | some size => values labels size args pos
  | none =>
    let bytes :=
      if name = ascii ".ds" then space labels args
      else if name = ascii ".text" then literal args
      else .error (.unknownDirective name)
    match bytes with
    | .ok bytes => .ok (.data bytes [] pos)
    | .error e => .error (.malformed e)

end Directive
end Assembler65816
