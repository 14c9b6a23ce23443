import Assembler65816.Expression.Basic
import Assembler65816.Machine.Mode

/-!
# Operands

The form of an operand is the shape it is written in. Together with a size it picks the addressing
mode. Some forms exist with a direct-page operand only and so have a size of their own.
-/
namespace Assembler65816

inductive Form
  | none
  | accumulator
  | immediate
  | plain
  | x
  | y
  | indirect
  | xIndirect
  | indirectY
  | indirectLong
  | indirectLongY
  | stack
  | stackIndirectY
  /-- A code outside the table: no mode has this form. -/
  | unlisted (code : Int)
  deriving DecidableEq, Repr, Inhabited

namespace Form

/-- The forms, in the order of their codes. -/
def all : List Form :=
  [none, accumulator, immediate, plain, x, y, indirect, xIndirect, indirectY, indirectLong,
   indirectLongY, stack, stackIndirectY]

def ofCode (code : Int) : Form :=
  if code < 0 then unlisted code else (all[code.toNat]?).getD (unlisted code)

def code : Form → Int
  | unlisted code => code
  | form => all.idxOf form

def frame : Form → Frame
  | none => .fixed ""
  | accumulator => .fixed "a"
  | immediate => .around "#" ""
  | plain | unlisted _ => .around "" ""
  | x => .around "" ",x"
  | y => .around "" ",y"
  | indirect => .around "(" ")"
  | xIndirect => .around "(" ",x)"
  | indirectY => .around "(" "),y"
  | indirectLong => .around "[" "]"
  | indirectLongY => .around "[" "],y"
  | stack => .around "" ",s"
  | stackIndirectY => .around "(" ",s),y"

/-- The size that the form itself imposes. -/
def size : Form → Size
  | indirectY | indirectLongY | stack | stackIndirectY => .byte
  | _ => .any

/-- The mode of a form that has an operand, at a size. -/
def mode? : Form → Size → Option Mode
  | immediate, .byte => some .immediate8
  | immediate, .word => some .immediate16
  | plain, .byte => some .direct
  | plain, .word => some .absolute
  | plain, .long => some .long
  | plain, .relByte => some .relative8
  | plain, .relWord => some .relative16
  | x, .byte => some .directX
  | x, .word => some .absoluteX
  | x, .long => some .longX
  | y, .byte => some .directY
  | y, .word => some .absoluteY
  | indirect, .byte => some .directIndirect
  | indirect, .word => some .absoluteIndirect
  | xIndirect, .byte => some .directXIndirect
  | xIndirect, .word => some .absoluteXIndirect
  | indirectY, .byte => some .directIndirectY
  | indirectLong, .byte => some .directIndirectLong
  | indirectLong, .word => some .absoluteIndirectLong
  | indirectLongY, .byte => some .directIndirectLongY
  | stack, .byte => some .stackRelative
  | stackIndirectY, .byte => some .stackRelativeIndirectY
  | _, _ => Option.none

end Form

structure Operand where
  form : Form := .none
  expr : Expression := {}
  deriving DecidableEq, Repr, Inhabited

namespace Operand

def text (o : Operand) : Text := o.form.frame.fill o.expr.text

end Operand

/-- Why an operand has no mode at a size. The operand is quoted as written. -/
inductive ModeError
  | cannotBe (operand : Text) (size : Size)
  | missing (size : Size)
  | unexpected (operand : Text)
  | noForm (size : Size) (operand : Text)
  deriving DecidableEq, Repr

def ModeError.message (e : ModeError) : Text :=
  ascii "addressing mode mismatch: " ++
    match e with
    | cannotBe operand size => operand ++ ascii " operand cannot be " ++ size.name
    | missing size => ascii "missing " ++ size.name ++ ascii " operand"
    | unexpected operand => ascii "unexpected operand " ++ operand
    | noForm size operand => ascii "no " ++ size.name ++ ascii " form of " ++ operand

/-- The addressing mode of an operand once its size is settled. -/
def Operand.mode (o : Operand) (size : Size) : Except ModeError Mode :=
  match size.meet? o.form.size with
  | none => .error (.cannotBe o.text size)
  | some s =>
    match o.form with
    | .none => if s = .any ∨ s = .implicit then .ok .implied else .error (.missing s)
    | .accumulator => if s = .any ∨ s = .implicit then .ok .accumulator else .error (.missing s)
    | form =>
      if !o.expr.isEmpty ∧ s = .implicit then .error (.unexpected o.text)
      else match form.mode? s with
        | some m => .ok m
        | none => .error (.noForm s o.text)

end Assembler65816
