import Assembler65816.Text.Basic

/-!
# Operand sizes

A size says how wide an operand field is and whether it holds a displacement. `Size.any` leaves the
question open and `Size.implicit` says that there is no field. Statements built elsewhere may carry
a code that names no size: it has no width, fits no instruction, and agrees only with itself and
with `Size.any`.
-/
namespace Assembler65816

inductive Size
  | any
  | implicit
  | byte
  | word
  | long
  | relByte
  | relWord
  | unlisted (code : Int)
  deriving DecidableEq, Repr, Inhabited

namespace Size

/-- The named sizes, in the order of their codes. -/
def all : List Size := [any, implicit, byte, word, long, relByte, relWord]

def ofCode (code : Int) : Size :=
  if code < 0 then unlisted code else (all[code.toNat]?).getD (unlisted code)

def name : Size → Text
  | any => ascii "any"
  | implicit => ascii "implicit"
  | byte => ascii "byte"
  | word => ascii "word"
  | long => ascii "long"
  | relByte => ascii "relbyte"
  | relWord => ascii "relword"
  | unlisted _ => ascii "invalid"

def ofName? (t : Text) : Option Size := all.find? (·.name == t)

/-- The number of bytes of the field. -/
def width : Size → Nat
  | byte | relByte => 1
  | word | relWord => 2
  | long => 3
  | _ => 0

def isRelative : Size → Bool
  | relByte | relWord => true
  | _ => false

/-- The size that satisfies both constraints. -/
def meet? (s t : Size) : Option Size :=
  if t = any ∨ t = s then some s
  else if s = any then some t
  else none

theorem width_le (s : Size) : s.width ≤ 3 := by
  cases s <;> simp [width]

theorem width_pos_of_isRelative {s : Size} (h : s.isRelative) : 0 < s.width := by
  cases s <;> simp_all [width, isRelative]

end Size
end Assembler65816
