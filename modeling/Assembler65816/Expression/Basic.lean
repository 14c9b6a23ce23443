import Assembler65816.Label.Ident
import Assembler65816.Size

/-!
# Operand expressions

A term is the tree of one operand: constants, positions inside the chunk at hand and references to
symbols, under prefix and infix operators. An expression is a term with the size its writer asked
for. An expression without a term has no operand, as has one whose term is `Term.empty`.
-/
namespace Assembler65816

inductive UnaryOp
  | neg
  | not
  | low
  | high
  | bank
  deriving DecidableEq, Repr

inductive BinaryOp
  | add
  | sub
  | mul
  | div
  | mod
  | and
  | or
  | xor
  | shl
  | shr
  deriving DecidableEq, Repr

def UnaryOp.sign : UnaryOp → String
  | neg => "-"
  | not => "~"
  | low => "<"
  | high => ">"
  | bank => "^"

/-- The byte selectors, as opposed to arithmetic. -/
def UnaryOp.isSelector : UnaryOp → Bool
  | low | high | bank => true
  | neg | not => false

def BinaryOp.sign : BinaryOp → String
  | add => "+"
  | sub => "-"
  | mul => "*"
  | div => "/"
  | mod => "%"
  | and => "&"
  | or => "|"
  | xor => "^"
  | shl => "<<"
  | shr => ">>"

inductive Term
  | empty
  | constant (v : Int64)
  /-- A byte position inside the chunk at hand. -/
  | offset (v : Int64)
  | ref (id : Ident)
  | unary (op : UnaryOp) (x : Term)
  | binary (op : BinaryOp) (l r : Term)
  deriving DecidableEq, Repr, Inhabited

namespace Term

/-- A constant in hexadecimal, after its sign. The sign of the least value cannot be taken off, so
it shows on both sides. -/
def constantText (v : Int64) : Text :=
  if v < 0 then ascii "-$" ++ hex (-v).toInt else ascii "$" ++ hex v.toInt

/-- A term without operators, as listings show it. -/
def leafText : Term → Text
  | constant v => constantText v
  | offset v => ascii "@" ++ decimal v.toInt
  | ref id => id.text
  | _ => []

/-- The text of a term in front of `tail`, so that no part of it is copied twice. -/
def textBefore (tail : Text) : Term → Text
  | unary op x => ascii op.sign ++ x.textBefore tail
  | binary op l r =>
    ascii "(" ++ l.textBefore
      (ascii " " ++ (ascii op.sign ++ (ascii " " ++ r.textBefore (ascii ")" ++ tail))))
  | leaf => leaf.leafText ++ tail

/-- The term as listings show it, with every infix operator in parentheses. -/
def text (t : Term) : Text := t.textBefore []

theorem textBefore_append (t : Term) (a b : Text) :
    t.textBefore (a ++ b) = t.textBefore a ++ b := by
  induction t generalizing a with
  | unary op x ih => simp only [textBefore, ih, List.append_assoc]
  | binary op l r ihl ihr => simp only [textBefore, ← ihl, ← ihr, List.append_assoc]
  | _ => simp only [textBefore, List.append_assoc]

theorem textBefore_eq (t : Term) (tail : Text) : t.textBefore tail = t.text ++ tail :=
  textBefore_append t [] tail

theorem text_unary (op : UnaryOp) (x : Term) : (unary op x).text = ascii op.sign ++ x.text := rfl

theorem text_binary (op : BinaryOp) (l r : Term) :
    (binary op l r).text =
      ascii "(" ++ l.text ++ ascii " " ++ ascii op.sign ++ ascii " " ++ r.text ++ ascii ")" := by
  rw [text, textBefore, textBefore_eq l, textBefore_eq r]
  simp only [List.append_assoc, List.append_nil]

/-- The leaves of a term in front of `tail`. -/
def leavesBefore (tail : List Term) : Term → List Term
  | unary _ x => x.leavesBefore tail
  | binary _ l r => l.leavesBefore (r.leavesBefore tail)
  | leaf => leaf :: tail

/-- The leaves from left to right. -/
def leaves (t : Term) : List Term := t.leavesBefore []

theorem leavesBefore_append (t : Term) (a b : List Term) :
    t.leavesBefore (a ++ b) = t.leavesBefore a ++ b := by
  induction t generalizing a with
  | unary op x ih => exact ih a
  | binary op l r ihl ihr => simp only [leavesBefore, ihl, ihr]
  | _ => rfl

theorem leaves_binary (op : BinaryOp) (l r : Term) :
    (binary op l r).leaves = l.leaves ++ r.leaves :=
  leavesBefore_append l [] r.leaves

/-- Replaces every reference that `σ` knows. -/
def substitute (σ : Ident → Option Term) : Term → Term
  | ref id => (σ id).getD (ref id)
  | unary op x => unary op (x.substitute σ)
  | binary op l r => binary op (l.substitute σ) (r.substitute σ)
  | leaf => leaf

/-- Whether nothing in the term is left for later: no reference and no position. -/
def isConstant : Term → Bool
  | empty | constant _ => true
  | offset _ | ref _ => false
  | unary _ x => x.isConstant
  | binary _ l r => l.isConstant && r.isConstant

def isEmpty : Term → Bool
  | empty => true
  | _ => false

/-- Whether the term selects a byte of its value. -/
def isSelector : Term → Bool
  | unary op _ => op.isSelector
  | _ => false

end Term

structure Expression where
  root : Option Term := none
  size : Size := .any
  deriving DecidableEq, Repr, Inhabited

namespace Expression

def ofTerm (t : Term) : Expression := {root := some t}

def sized (t : Term) (size : Size) : Expression := {root := some t, size}

def term (e : Expression) : Term := e.root.getD .empty

def isEmpty (e : Expression) : Bool := e.term.isEmpty

def isConstant (e : Expression) : Bool := e.term.isConstant

def text (e : Expression) : Text := e.term.text

/-- The expression with `f` of its term for a root. -/
def map (f : Term → Term) (e : Expression) : Expression := {e with root := some (f e.term)}

end Expression
end Assembler65816
