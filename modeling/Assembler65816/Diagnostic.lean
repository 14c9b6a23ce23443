import Assembler65816.Expression.Reader
import Assembler65816.Operand.Encoding
import Assembler65816.Text.Blank

/-!
# Diagnostics

A diagnostic ties a failure to the chunk and the statement it came from. It has one kind, and where
something else failed underneath, that cause is kept whole: its message closes the diagnostic's, and
the categories it falls under are categories of the diagnostic too.
-/
namespace Assembler65816

/-- What a failure can be about. Each category has a text that messages open with. -/
inductive Category
  | parse
  | addressingMode
  | internal
  | fieldOverflow
  | overflow
  | unknownMnemonic
  | noMode
  | malformed
  | truncated
  deriving DecidableEq, Repr

namespace Category

def all : List Category :=
  [parse, addressingMode, internal, fieldOverflow, overflow, unknownMnemonic, noMode, malformed,
   truncated]

def text : Category → Text
  | parse => ascii "parse error"
  | addressingMode => ascii "addressing mode mismatch"
  | internal => ascii "internal consistency fault"
  | fieldOverflow => ascii "field overflow"
  | overflow => ascii "value does not fit field"
  | unknownMnemonic => ascii "unknown mnemonic"
  | noMode => ascii "addressing mode not available"
  | malformed => ascii "syntax error"
  | truncated => ascii "truncated instruction"

end Category

/-- What a statement text can have wrong with it. -/
inductive SyntaxError
  | expression (e : ExprError)
  | emptyAttribute
  | invalidBank (value : Text)
  | invalidSuffix (suffix : Text)
  | unknownDirective (name : Text)
  | noValues
  | spaceArguments
  | spaceCount (written : Text)
  | spaceTooLarge (count : Int64)
  | spaceFill (written : Text)
  | unquoted
  deriving DecidableEq, Repr

/-- The largest block of space: one full 24-bit address space. -/
def maxSpace : Nat := 0x1000000

def SyntaxError.message (e : SyntaxError) : Text :=
  ascii "syntax error: " ++
    match e with
    | expression e => e.message
    | emptyAttribute => ascii "empty attribute"
    | invalidBank value => ascii "invalid bank " ++ value.quote
    | invalidSuffix suffix => ascii "invalid size suffix: " ++ suffix
    | unknownDirective name => ascii "unknown directive: " ++ name
    | noValues => ascii "data directive requires at least one value"
    | spaceArguments => ascii ".ds requires a count and an optional fill byte"
    | spaceCount written => ascii "invalid count for .ds: " ++ written
    | spaceTooLarge count =>
      ascii ".ds count " ++ decimal count.toInt ++ ascii " exceeds $" ++ hex maxSpace ++
        ascii " bytes"
    | spaceFill written => ascii "invalid fill for .ds: " ++ written
    | unquoted => ascii ".text expects a quoted string"

/-- What lies under a diagnostic. -/
inductive Cause
  | malformed (e : SyntaxError)
  /-- A value of a data directive that does not fit. -/
  | item (written : Text) (e : FieldError)
  /-- The source could not be read to its end. -/
  | reading (file reason : Text)
  | opcode (e : Opcode.LookupError)
  | unfoldable
  | mode (e : ModeError)
  | encoding (e : EncodeError)
  | field (e : FieldError)
  | unknownStatement
  | category (c : Category)
  /-- A failure reported from elsewhere. -/
  | foreign (message : Text)
  deriving DecidableEq, Repr

def FieldError.categories (e : FieldError) : List Category :=
  if e.isOverflow then [.overflow] else []

def Opcode.LookupError.category : Opcode.LookupError → Category
  | unknownMnemonic _ => .unknownMnemonic
  | noMode _ _ => .noMode

def EncodeError.categories : EncodeError → List Category
  | opcode (.unknownMnemonic _) => [.unknownMnemonic]
  | opcode (.noMode ..) => [.addressingMode, .noMode]
  | field e => .fieldOverflow :: e.categories

namespace Cause

def message : Cause → Text
  | malformed e => e.message
  | item written e => written ++ ascii ": " ++ e.message
  | reading file reason => ascii "reading " ++ file ++ ascii ": " ++ reason
  | opcode e => e.message
  | unfoldable => ascii "constant expression does not evaluate"
  | mode e => e.message
  | encoding e => e.message
  | field e => e.message
  | unknownStatement => ascii "unknown statement <nil>"
  | category c => c.text
  | foreign message => message

/-- Every category the cause falls under. -/
def categories : Cause → List Category
  | malformed _ => [.malformed]
  | item _ e => e.categories
  | opcode e => [e.category]
  | mode _ => [.addressingMode]
  | encoding e => e.categories
  | field e => e.categories
  | category c => [c]
  | reading .. | unfoldable | unknownStatement | foreign _ => []

end Cause

structure Position where
  file : Text := []
  line : Int := 0
  deriving DecidableEq, Repr, Inhabited

def Position.text (p : Position) : Text :=
  if p.file.isEmpty then
    if p.line = 0 then [] else ascii "line " ++ decimal p.line
  else p.file ++ ascii ":" ++ decimal p.line

structure Diagnostic where
  kind : Category
  /-- The chunk at hand. -/
  label : Text := []
  pos : Position := {}
  mnemonic : Text := []
  /-- The operand or expression at fault, as written. -/
  subject : Text := []
  want : Text := []
  got : Text := []
  cause : Option Cause := none
  deriving DecidableEq, Repr

namespace Diagnostic

def categories (d : Diagnostic) : List Category :=
  d.kind :: (d.cause.map Cause.categories).getD []

def message (d : Diagnostic) : Text :=
  let place := d.pos.text
  let subject := Text.trim (d.mnemonic.trim ++ ascii " " ++ d.subject)
  (if place.isEmpty then [] else place ++ ascii ": ") ++
    (if d.label.isEmpty then [] else ascii "in " ++ d.label ++ ascii ": ") ++
    d.kind.text ++
    (if subject.isEmpty then [] else ascii " in '" ++ subject ++ ascii "'") ++
    (if d.want.isEmpty && d.got.isEmpty then []
      else ascii " (expected " ++ d.want ++ ascii ", got " ++ d.got ++ ascii ")") ++
    match d.cause with
    | some c => ascii ": " ++ c.message
    | none => []

end Diagnostic
end Assembler65816
