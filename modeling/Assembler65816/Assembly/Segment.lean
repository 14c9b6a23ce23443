import Assembler65816.Chunk.Resolution

/-!
# Segments

A segment is the code under one top-level label while it is being collected: its bytes, the offsets
of its labels, the fields to be filled at the end and the faults of its statements. Closing a
segment yields one chunk, or, if anything in it was at fault, its diagnostics instead. It yields
nothing at all if a field is out of bounds.
-/
namespace Assembler65816

structure Segment where
  label : Text
  attributes : List Attribute := []
  bytes : List UInt8 := []
  diverging : Bool := false
  offsets : Offsets := []
  /-- Fields to fill at the end, in the order in which they came up. -/
  fixups : List Fixup := []
  /-- Faults of statements so far. -/
  faults : List Diagnostic := []
  deriving DecidableEq, Repr

namespace Segment

/-- Records a label at this place. -/
def mark (s : Segment) (id : Ident) : Segment :=
  {s with offsets := (id, s.bytes.length) :: s.offsets}

/-- Control may arrive at this place. -/
def entered (s : Segment) : Segment := {s with diverging := false}

def fault (s : Segment) (d : Diagnostic) : Segment := {s with faults := s.faults ++ [d]}

/-! ### Data -/

/-- The fixup of a reference inside data that starts at `base`, or what is wrong with it. -/
def reference (label : Text) (pos : Position) (base length : Nat) (r : DataRef) :
    Except Diagnostic Fixup :=
  if Fixup.inRange length r.offset r.expr.size then
    .ok {offset := Int64.ofNat base + r.offset, expr := r.expr.map id, sameBank := false}
  else
    .error
      { kind := .internal, label, pos, subject := r.expr.text,
        want := ascii "reference within " ++ decimal length ++ ascii " data bytes",
        got := ascii "offset " ++ decimal r.offset.toInt ++ ascii " width " ++
          decimal r.expr.size.width }

/-- Appends data. Data is not meant to be executed. -/
def data (s : Segment) (bytes : List UInt8) (refs : List DataRef) (pos : Position) : Segment :=
  let found := refs.map (reference s.label pos s.bytes.length bytes.length)
  {s with
    diverging := true
    bytes := s.bytes ++ bytes
    fixups := s.fixups ++ found.filterMap fun
      | .ok f => some f
      | .error _ => none
    faults := s.faults ++ found.filterMap fun
      | .ok _ => none
      | .error d => some d}

/-! ### Instructions -/

/-- An instruction that can be appended: its image, and the field that is still open in it. -/
structure Assembled where
  encoded : Encoded
  /-- The expression of the operand field, unless it is settled. -/
  operand : Option Expression
  deriving DecidableEq, Repr

/-- The size of an operand from the mnemonic, the expression and the declaration, inferred if none
of them says. -/
def settleSize (i : Instruction) : Option Size := do
  let hinted ← (sizeOfText i.mnemonic).meet? i.arg.expr.size
  let size ← hinted.meet? i.size
  if size = .any ∧ i.arg.form ≠ .none ∧ i.arg.form ≠ .accumulator then
    return i.arg.inferSize i.mnemonic
  else return size

/-- Assembles an instruction in a segment called `label`. -/
def assemble (label : Text) (i : Instruction) : Except Diagnostic Assembled :=
  let e := i.arg.expr
  let fail {α : Type} (kind : Category) (want got : Text) (cause : Option Cause) :
      Except Diagnostic α :=
    .error
      { kind, label, pos := i.pos, mnemonic := i.mnemonic, subject := i.arg.text, want, got, cause }
  if (Mnemonic.ofText? i.mnemonic).isNone then
    fail .addressingMode [] [] (some (.opcode (.unknownMnemonic i.mnemonic)))
  else
    let isSettled := sizeOfText i.mnemonic == .implicit || e.isEmpty || e.isConstant
    -- Nothing that comes later can make a constant expression fold.
    if sizeOfText i.mnemonic != .implicit && !e.isEmpty && e.isConstant && e.value?.isNone then
      fail .fieldOverflow (ascii "constant operand") e.text (some .unfoldable)
    else
      match settleSize i with
      | none =>
        fail .addressingMode (sizeOfText i.mnemonic).name (e.size.name ++ ascii "/" ++ i.size.name)
          none
      | some size =>
        match i.arg.mode size with
        | .error err => fail .addressingMode size.name i.arg.form.size.name (some (.mode err))
        | .ok mode =>
          match Encoded.of i.mnemonic mode e with
          | .error err =>
            let kind := match err with
              | .field _ => .fieldOverflow
              | .opcode _ => .addressingMode
            fail kind (decimal mode.width ++ ascii "-byte operand") e.text (some (.encoding err))
          | .ok encoded =>
            .ok ⟨encoded, if isSettled then none else some {e.map id with size := mode.size}⟩

/-- Appends an instruction, or records why it cannot be assembled. -/
def instruction (s : Segment) (i : Instruction) : Segment :=
  match assemble s.label i with
  | .error d => s.fault d
  | .ok a =>
    -- The operand starts after the opcode.
    let field := a.operand.map fun expr =>
      {offset := Int64.ofNat (s.bytes.length + 1), expr, sameBank := true : Fixup}
    {s with
      bytes := s.bytes ++ a.encoded.bytes
      diverging := s.diverging || a.encoded.diverging
      fixups := s.fixups ++ field.toList}

/-! ### Closing -/

/-- The bank of the last bank attribute. -/
def bank? (attributes : List Attribute) : Option UInt8 :=
  (attributes.filterMap fun
    | .bank n => some n
    | .named .. => none).getLast?

def resolutions (s : Segment) : List Resolution :=
  s.fixups.map (Fixup.resolve s.label s.offsets s.bytes.length)

/-- The chunk of a segment in which nothing is at fault. -/
def chunk (s : Segment) : Chunk :=
  { bytes := s.resolutions.foldl Resolution.apply s.bytes
    fixups := s.resolutions.filterMap Resolution.outgoing?
    attributes := s.attributes
    diverging := s.diverging
    bank := bank? s.attributes }

/-- The faults of the statements, then those of the fixups. -/
def diagnostics (s : Segment) : List Diagnostic :=
  s.faults ++ s.resolutions.filterMap Resolution.failed?

/-- Whether a field of the segment is out of bounds. -/
def crashes (s : Segment) : Bool := s.resolutions.any Resolution.isOutOfBounds

/-- What is handed out for a closed segment. Fields are written before anything is handed out, so
one out of bounds leaves nothing, whatever else is wrong. -/
def close (s : Segment) : Option (List Output) :=
  if s.crashes then none
  else
    match s.diagnostics with
    | [] => some [.chunk s.label s.chunk]
    | ds => some (ds.map .error)

end Segment
end Assembler65816
