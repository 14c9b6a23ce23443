import Assembler65816.Assembly.Segment
import Assembler65816.Source.Basic

/-!
# Assembly

An assembly pulls statements from a source and turns them into output, on demand. Each statement is
handled once the output of those before it has been handed out, so the consumer, the source and the
label bookkeeping move in step. `Assembly.next` hands out one item; `Assembly.run` hands out all
that remain. A fatal statement drops the open segment but not the faults found in it. A segment that
cannot be closed ends the program: what was handed out before stays, and nothing follows.
-/
namespace Assembler65816

inductive Progress
  | running
  /-- The source is exhausted or ended in a fatal statement. -/
  | finished
  /-- A segment could not be closed. -/
  | crashed
  deriving DecidableEq, Repr

structure Assembly where
  source : Source
  labels : Labels := {}
  /-- The open segment. -/
  segment : Segment
  /-- Output that was not handed out yet. -/
  queue : List Output := []
  progress : Progress := .running

namespace Assembly

/-- Whether no statement is pulled any more. -/
def done (a : Assembly) : Bool := a.progress != .running

/-- Whether the program has ended in the middle of its work. -/
def crashed (a : Assembly) : Bool := a.progress == .crashed

/-- The label of the code before the first top-level label. -/
def rootLabel : Text := ascii "*root"

/-- An assembly about to start. An empty root label stands for the usual one. -/
def start (source : Source) (labels : Labels) (root : Text) : Assembly :=
  {source, labels, segment := {label := if root.isEmpty then rootLabel else root}}

def emit (a : Assembly) (out : List Output) : Assembly := {a with queue := a.queue ++ out}

/-- Records a local label at this place. -/
def define (a : Assembly) (d : Ident × Labels) : Assembly :=
  {a with labels := d.2, segment := a.segment.mark d.1}

/-- Control may arrive at this place. -/
def entered (a : Assembly) : Assembly := {a with segment := a.segment.entered}

def unread (a : Assembly) (cause : Cause) (pos : Position) : Output :=
  .error {kind := .parse, label := a.segment.label, pos, cause := some cause}

/-- What is said of something that is no statement. -/
def unknown (a : Assembly) : Diagnostic :=
  {kind := .internal, label := a.segment.label, cause := some .unknownStatement}

/-- Closes the open segment and goes on with another one. -/
def close (a : Assembly) (segment : Segment) (labels : Labels) (progress : Progress) : Assembly :=
  match a.segment.close with
  | some out => {a.emit out with segment, labels, progress}
  | none => {a with progress := .crashed}

/-- Takes in one statement. -/
def handle (a : Assembly) : Statement → Assembly
  | .define name value _ => a.emit [.define name value]
  | .topLabel name attributes _ =>
    a.close {label := name, attributes} a.labels.enterScope a.progress
  | .backwardLabel count => a.define (a.labels.defineBackward count)
  | .forwardLabel count => a.entered.define (a.labels.defineForward count)
  | .localLabel depth name => a.entered.define (a.labels.defineLocal depth name)
  | .data bytes refs pos => {a with segment := a.segment.data bytes refs pos}
  | .instruction i => {a with segment := a.segment.instruction i}
  | .unreadable cause false pos => a.emit [a.unread cause pos]
  | .unreadable cause true pos =>
    {a.emit (a.segment.faults.map .error ++ [a.unread cause pos]) with
      segment := {label := a.segment.label, attributes := a.segment.attributes}
      progress := .finished}
  | .unknown => {a with segment := a.segment.fault a.unknown}

/-- Closes the last segment. -/
def finish (a : Assembly) : Assembly := a.close {label := a.segment.label} a.labels .finished

/-- Pulls one statement, or finishes at the end of the source. -/
def step (a : Assembly) : Assembly :=
  match a.source.next a.labels with
  | none => a.finish
  | some (st, source) => {a with source}.handle st

/-- How many pulls there can still be. -/
def remaining (a : Assembly) : Nat := if a.done then 0 else a.source.budget + 1

theorem source_close (a : Assembly) (segment : Segment) (labels : Labels) (progress : Progress) :
    (a.close segment labels progress).source = a.source := by
  unfold close
  split <;> rfl

theorem source_handle (a : Assembly) (st : Statement) : (a.handle st).source = a.source := by
  cases st with
  | topLabel => exact a.source_close ..
  | unreadable cause fatal pos => cases fatal <;> rfl
  | _ => rfl

theorem done_finish (a : Assembly) : a.finish.done := by
  unfold finish close
  split <;> rfl

theorem remaining_le (a : Assembly) : a.remaining ≤ a.source.budget + 1 := by
  unfold remaining
  split <;> omega

theorem remaining_step {a : Assembly} (h : ¬a.done) : a.step.remaining < a.remaining := by
  have ha : a.remaining = a.source.budget + 1 := if_neg h
  unfold step
  split
  · have hfinish : a.finish.remaining = 0 := if_pos a.done_finish
    omega
  · rename_i st source hs
    have hb := Source.next_budget hs
    have hr := remaining_le ({a with source}.handle st)
    simp only [source_handle] at hr
    omega

/-- The next item of output, if there is one. -/
def next (a : Assembly) : Option Output × Assembly :=
  match a.queue with
  | out :: queue => (some out, {a with queue})
  | [] => if _h : a.done then (none, a) else a.step.next
termination_by a.remaining
decreasing_by exact remaining_step _h

/-- All the output that is left, and the assembly after it. -/
def run (a : Assembly) : List Output × Assembly :=
  if _h : a.done then (a.queue, {a with queue := []})
  else
    let rest := ({a with queue := []} : Assembly).step.run
    (a.queue ++ rest.1, rest.2)
termination_by a.remaining
decreasing_by exact remaining_step _h

/-- Up to `n` items. -/
def take : (n : Nat) → Assembly → List Output × Assembly
  | 0, a => ([], a)
  | n + 1, a =>
    match a.next with
    | (none, a) => ([], a)
    | (some out, a) =>
      let (outs, a) := take n a
      (out :: outs, a)

end Assembly

/-- Everything that is handed out for a source, up to the place where the program crashes if it
does. -/
def assemble (source : Source) (labels : Labels) (root : Text) : List Output :=
  (Assembly.start source labels root).run.1

end Assembler65816
