import Assembler65816.Label.Ident

/-!
# Label bookkeeping

`Labels` hands out the identities of local labels in program order. The reader of the source asks it
what a reference names and the assembler asks it to record definitions, so both share one state.

A reference to `n` minus signs names the latest such definition, a reference to `n` plus signs the
next one. Named locals nest under the latest shallower local of the same scope, and a new top-level
label opens a new scope.
-/
namespace Assembler65816

/-- A count for every number of signs. -/
abbrev Tally := Int → Nat

def Tally.bump (t : Tally) (n : Int) : Tally :=
  let count := t n + 1
  fun k => if k = n then count else t k

structure Labels where
  /-- The number of top-level labels met so far. -/
  scope : Nat := 0
  /-- Backward definitions so far. -/
  backward : Tally := fun _ => 0
  /-- Forward definitions so far. -/
  forward : Tally := fun _ => 0
  /-- The names of the local labels that enclose this place, outermost first. -/
  path : List Text := []

namespace Labels

def enterScope (l : Labels) : Labels := {l with scope := l.scope + 1, path := []}

/-- The latest backward label with `n` signs. -/
def latest (l : Labels) (n : Int) : Ident := .anonymous .backward n (l.backward n)

def hasBackward (l : Labels) (n : Int) : Bool := 0 < l.backward n

def defineBackward (l : Labels) (n : Int) : Ident × Labels :=
  let l := {l with backward := l.backward.bump n}
  (l.latest n, l)

/-- The next forward label with `n` signs. -/
def next (l : Labels) (n : Int) : Ident := .anonymous .forward n (l.forward n + 1)

def defineForward (l : Labels) (n : Int) : Ident × Labels :=
  (l.next n, {l with forward := l.forward.bump n})

/-- The names on the way to a local label at `depth`, of which the outermost is 1. Levels that no
label has opened are nameless. -/
def pathTo (l : Labels) (depth : Int) (name : Text) : List Text :=
  let above := (depth - 1).toNat
  (l.path ++ List.replicate (above - l.path.length) []).take above ++ [name]

def named (l : Labels) (path : List Text) : Ident := .named l.scope (List.intercalate [46] path)

/-- What a reference to a local label names. -/
def reference (l : Labels) (depth : Int) (name : Text) : Ident := l.named (l.pathTo depth name)

def defineLocal (l : Labels) (depth : Int) (name : Text) : Ident × Labels :=
  (l.reference depth name, {l with path := l.pathTo depth name})

end Labels
end Assembler65816
