import Assembler65816.Expression.Basic

/-!
# Folding

Arithmetic is 64-bit and wraps; division truncates toward zero. Division by zero and shifts by other
than 0 to 63 places have no value. `Term.reduce` folds what has a value: operators on constants, a
position moved by a constant, and the distance between two positions, which does not change when the
chunk is placed.
-/
namespace Assembler65816

def UnaryOp.eval : UnaryOp → Int64 → Int64
  | neg, x => -x
  | not, x => ~~~x
  | low, x => x &&& 0xFF
  | high, x => (x >>> 8) &&& 0xFF
  | bank, x => (x >>> 16) &&& 0xFF

/-- Whether `n` is a number of places to shift by. -/
def isShiftCount (n : Int64) : Bool := 0 ≤ n && n ≤ 63

def BinaryOp.eval? : BinaryOp → Int64 → Int64 → Option Int64
  | add, l, r => some (l + r)
  | sub, l, r => some (l - r)
  | mul, l, r => some (l * r)
  | div, l, r => if r = 0 then none else some (l / r)
  | mod, l, r => if r = 0 then none else some (l % r)
  | and, l, r => some (l &&& r)
  | or, l, r => some (l ||| r)
  | xor, l, r => some (l ^^^ r)
  | shl, l, r => if isShiftCount r then some (l <<< r) else none
  | shr, l, r => if isShiftCount r then some (l >>> r) else none

namespace Term

/-- The leaf an operator on two leaves folds to. -/
def fold? : BinaryOp → Term → Term → Option Term
  | op, constant l, constant r => (op.eval? l r).map constant
  | .add, constant l, offset r => some (offset (l + r))
  | .add, offset l, constant r => some (offset (l + r))
  | .sub, offset l, constant r => some (offset (l - r))
  | .sub, offset l, offset r => some (constant (l - r))
  | _, _, _ => none

/-- A prefix operator on a folded operand. -/
def applyUnary (op : UnaryOp) : Term → Term
  | constant v => constant (op.eval v)
  | x => unary op x

/-- An infix operator on folded operands. -/
def applyBinary (op : BinaryOp) (l r : Term) : Term := (fold? op l r).getD (binary op l r)

def reduce : Term → Term
  | unary op x => applyUnary op x.reduce
  | binary op l r => applyBinary op l.reduce r.reduce
  | leaf => leaf

/-- The constant a term folds to. -/
def value? (t : Term) : Option Int64 :=
  match t.reduce with
  | constant v => some v
  | _ => none

end Term

namespace Expression

def reduce (e : Expression) : Expression := e.map Term.reduce

def value? (e : Expression) : Option Int64 := e.term.value?

end Expression
end Assembler65816
