import Mathlib.Algebra.Ring.Nat
import Assembler65816.Assembly.Basic

/-!
# Runs of an assembly

An assembly is a machine that pulls one statement at a time. What it hands out does not depend on
how it is asked: every way of asking sees the front of one sequence of outputs, the one that
`Assembly.run` hands out, and once that is used up there is nothing more to see. The machine reads a
statement under the labels that all statements before it leave behind, and `Assembly.pulls` lists
the statements of a run with those labels.

The source matters for nothing else. A run can be retold as `Assembly.total`, which takes in a given
list of statements without handing anything out in between.
-/
namespace Assembler65816

namespace Statement

def isFatal : Statement → Bool
  | unreadable _ fatal _ => fatal
  | _ => false

def isTop : Statement → Bool
  | topLabel .. => true
  | _ => false

end Statement

namespace Labels

def after (l : Labels) : Statement → Labels
  | .topLabel .. => l.enterScope
  | .backwardLabel count => (l.defineBackward count).2
  | .forwardLabel count => (l.defineForward count).2
  | .localLabel depth name => (l.defineLocal depth name).2
  | _ => l

/-- The identity that a statement gives to the place it stands at. -/
def identity? (l : Labels) : Statement → Option Ident
  | .backwardLabel count => some (l.defineBackward count).1
  | .forwardLabel count => some (l.defineForward count).1
  | .localLabel depth name => some (l.defineLocal depth name).1
  | _ => none

end Labels

/-- A statement as it was pulled, with the labels known at that moment. -/
structure Pull where
  labels : Labels
  statement : Statement

def Pull.identity? (p : Pull) : Option Ident := p.labels.identity? p.statement

/-- A segment can be closed unless a field of it is out of bounds. -/
theorem Segment.close_eq_none_iff (g : Segment) : g.close = none ↔ g.crashes := by
  unfold close
  split
  · rename_i hcrashes
    simp [hcrashes]
  · rename_i hcrashes
    split <;> simp [hcrashes]

namespace Assembly

theorem close_of_some {a : Assembly} {out : List Output} (h : a.segment.close = some out)
    (segment : Segment) (labels : Labels) (progress : Progress) :
    a.close segment labels progress = {a.emit out with segment, labels, progress} := by
  rw [close, h]

theorem close_of_none {a : Assembly} (h : a.segment.close = none) (segment : Segment)
    (labels : Labels) (progress : Progress) :
    a.close segment labels progress = {a with progress := .crashed} := by
  rw [close, h]

/-- A statement ends the pulling if it is fatal, or if it closes a segment that cannot be closed. -/
theorem done_handle (a : Assembly) (st : Statement) :
    (a.handle st).done = (a.done || st.isFatal || (st.isTop && a.segment.crashes)) := by
  cases st with
  | topLabel name attributes pos =>
    simp only [handle, Statement.isFatal, Statement.isTop, Bool.or_false, Bool.true_and]
    cases hclose : a.segment.close with
    | none =>
      rw [close_of_none hclose, (Segment.close_eq_none_iff _).1 hclose, Bool.or_true]
      rfl
    | some out =>
      have hcrashes : a.segment.crashes = false := by
        rw [← Bool.not_eq_true, ← Segment.close_eq_none_iff, hclose]
        exact Option.some_ne_none out
      rw [close_of_some hclose, hcrashes, Bool.or_false]
      rfl
  | unreadable cause fatal pos =>
    cases fatal with
    | true => simp [handle, done, Statement.isFatal, Statement.isTop]
    | false => simp [handle, emit, done, Statement.isFatal, Statement.isTop]
  | _ => simp [handle, emit, define, entered, done, Statement.isFatal, Statement.isTop]

theorem labels_handle {a : Assembly} {st : Statement} (h : ¬(a.handle st).done) :
    (a.handle st).labels = a.labels.after st := by
  cases st with
  | topLabel name attributes pos =>
    cases hclose : a.segment.close with
    | none =>
      rw [handle, close_of_none hclose] at h
      exact absurd rfl h
    | some out =>
      rw [handle, close_of_some hclose]
      rfl
  | unreadable cause fatal pos => cases fatal <;> rfl
  | _ => rfl

theorem close_withQueue (a : Assembly) (q : List Output) (segment : Segment) (labels : Labels)
    (progress : Progress) :
    let empty : Assembly := {a with queue := []}
    ({a with queue := q} : Assembly).close segment labels progress =
      { a.close segment labels progress with
        queue := q ++ (empty.close segment labels progress).queue } := by
  intro empty
  cases hclose : a.segment.close with
  | none =>
    rw [close_of_none hclose, close_of_none (a := {a with queue := q}) hclose,
      close_of_none (a := empty) hclose, List.append_nil]
  | some out =>
    rw [close_of_some hclose, close_of_some (a := {a with queue := q}) hclose,
      close_of_some (a := empty) hclose]
    rfl

/-- A statement only adds to the queue, and adds the same whatever stands in it. -/
theorem handle_withQueue (a : Assembly) (q : List Output) (st : Statement) :
    ({a with queue := q} : Assembly).handle st =
      {a.handle st with queue := q ++ (({a with queue := []} : Assembly).handle st).queue} := by
  cases st with
  | topLabel => exact a.close_withQueue ..
  | unreadable cause fatal pos => cases fatal <;> rfl
  | define => rfl
  | unknown => simp [handle, unknown]
  | _ => simp [handle, define, entered]

theorem close_withSource (a : Assembly) (source : Source) (segment : Segment) (labels : Labels)
    (progress : Progress) :
    ({a with source} : Assembly).close segment labels progress =
      {a.close segment labels progress with source} := by
  cases hclose : a.segment.close with
  | none => rw [close_of_none hclose, close_of_none (a := {a with source}) hclose]
  | some out =>
    rw [close_of_some hclose, close_of_some (a := {a with source}) hclose]
    rfl

/-- Nor does it matter to a statement where the next one comes from. -/
theorem handle_withSource (a : Assembly) (source : Source) (st : Statement) :
    ({a with source} : Assembly).handle st = {a.handle st with source} := by
  cases st with
  | topLabel => exact a.close_withSource ..
  | unreadable cause fatal pos => cases fatal <;> rfl
  | _ => rfl

theorem step_of_none {a : Assembly} (h : a.source.next a.labels = none) : a.step = a.finish := by
  rw [step, h]

theorem step_of_some {a : Assembly} {st : Statement} {source : Source}
    (h : a.source.next a.labels = some (st, source)) :
    a.step = {a.handle st with source} := by
  rw [step, h]
  exact handle_withSource a source st

theorem done_step {a : Assembly} {st : Statement} {source : Source}
    (h : a.source.next a.labels = some (st, source)) : a.step.done = (a.handle st).done := by
  rw [step_of_some h]
  rfl

/-- A pull adds to the queue as well. -/
theorem step_withQueue (a : Assembly) (q : List Output) :
    ({a with queue := q} : Assembly).step =
      {a.step with queue := q ++ ({a with queue := []} : Assembly).step.queue} := by
  cases h : a.source.next a.labels with
  | none =>
    rw [step_of_none h, step_of_none (a := {a with queue := q}) h,
      step_of_none (a := {a with queue := []}) h]
    exact a.close_withQueue ..
  | some p =>
    rw [step_of_some h, step_of_some (a := {a with queue := q}) h,
      step_of_some (a := {a with queue := []}) h, handle_withQueue]

theorem run_of_done {a : Assembly} (h : a.done) : a.run = (a.queue, {a with queue := []}) := by
  rw [run, dif_pos h]

theorem run_of_not_done {a : Assembly} (h : ¬a.done) :
    a.run = (a.queue ++ ({a with queue := []} : Assembly).step.run.1,
      ({a with queue := []} : Assembly).step.run.2) := by
  rw [run, dif_neg h]

/-- What waits in the queue comes first. -/
theorem run_withQueue (a : Assembly) (q : List Output) :
    ({a with queue := q} : Assembly).run =
      (q ++ ({a with queue := []} : Assembly).run.1, ({a with queue := []} : Assembly).run.2) := by
  by_cases h : a.done
  · rw [run_of_done (a := {a with queue := q}) h, run_of_done (a := {a with queue := []}) h]
    simp
  · rw [run_of_not_done (a := {a with queue := q}) h,
      run_of_not_done (a := {a with queue := []}) h]
    rfl

/-- A pull may be made before what waits is handed out. -/
theorem run_step {a : Assembly} (h : ¬a.done) : a.run = a.step.run := by
  let first := ({a with queue := []} : Assembly).step
  have hempty : first.run = (first.queue ++ ({a.step with queue := []} : Assembly).run.1,
      ({a.step with queue := []} : Assembly).run.2) := by
    have hfirst : first = {a.step with queue := first.queue} := step_withQueue a []
    rw [hfirst]
    exact run_withQueue a.step first.queue
  calc
    a.run = (a.queue ++ first.run.1, first.run.2) := run_of_not_done h
    _ = ((a.queue ++ first.queue) ++ ({a.step with queue := []} : Assembly).run.1,
          ({a.step with queue := []} : Assembly).run.2) := by rw [hempty, List.append_assoc]
    _ = ({a.step with queue := a.queue ++ first.queue} : Assembly).run :=
      (run_withQueue a.step _).symm
    _ = a.step.run := congrArg run (step_withQueue a a.queue).symm

theorem done_of_crashed {a : Assembly} (h : a.crashed) : a.done := by
  rw [crashed, beq_iff_eq] at h
  rw [done, h]
  rfl

/-- A crash hands nothing out. -/
theorem queue_of_crashed_close {a : Assembly} {segment : Segment} {labels : Labels}
    {progress : Progress} (hprogress : progress ≠ .crashed)
    (h : (a.close segment labels progress).crashed) :
    (a.close segment labels progress).queue = a.queue := by
  cases hclose : a.segment.close with
  | none => rw [close_of_none hclose]
  | some out =>
    rw [close_of_some hclose, crashed, beq_iff_eq] at h
    exact absurd h hprogress

theorem queue_of_crashed_step {a : Assembly} (hd : ¬a.done) (h : a.step.crashed) :
    a.step.queue = a.queue := by
  have hrunning : a.progress ≠ .crashed := fun hc => hd (done_of_crashed (by rw [crashed, hc]; rfl))
  cases hnext : a.source.next a.labels with
  | none =>
    rw [step_of_none hnext] at h ⊢
    exact queue_of_crashed_close Progress.noConfusion h
  | some p =>
    rw [step_of_some hnext] at h ⊢
    change (a.handle p.1).crashed at h
    change (a.handle p.1).queue = a.queue
    cases hst : p.1 with
    | topLabel name attributes pos =>
      rw [hst] at h
      exact queue_of_crashed_close hrunning h
    | unreadable cause fatal pos =>
      rw [hst] at h
      cases fatal with
      | true => cases h
      | false => exact absurd (beq_iff_eq.1 h) hrunning
    | _ =>
      rw [hst] at h
      exact absurd (beq_iff_eq.1 h) hrunning

/-- What asking for `n` items comes to: the front of what a run hands out, with the rest still to
come. Where a run crashes, so does whoever asks for more than it hands out. -/
structure Serves (a : Assembly) (n : Nat) (outs : List Output) (b : Assembly) : Prop where
  seen : outs = a.run.1.take n
  left : b.run.1 = a.run.1.drop n
  ending : b.run.2.crashed = a.run.2.crashed
  crashed : b.crashed ↔ a.crashed ∨ a.run.1.length < n ∧ a.run.2.crashed

namespace Serves
variable {a b c : Assembly} {n m : Nat} {outs outs' : List Output}

theorem refl (a : Assembly) : Serves a 0 [] a :=
  ⟨rfl, rfl, rfl, by simp⟩

theorem trans (h : Serves a n outs b) (h' : Serves b m outs' c) :
    Serves a (n + m) (outs ++ outs') c := by
  refine ⟨?_, ?_, h'.ending.trans h.ending, ?_⟩
  · rw [h.seen, h'.seen, h.left, List.take_add]
  · rw [h'.left, h.left, List.drop_drop]
  · rw [h'.crashed, h.crashed, h.left, h.ending, List.length_drop]
    by_cases hcrash : a.run.2.crashed
    · simp only [hcrash, and_true, or_assoc]
      exact or_congr_right (by omega)
    · simp [hcrash]

end Serves

/-- One item is the first of what a run hands out, and leaves the others. -/
theorem serves_next (a : Assembly) : Serves a 1 a.next.1.toList a.next.2 := by
  fun_induction next a with
  | case1 a out queue hq =>
    have hrun : a.run = (out :: ({a with queue} : Assembly).run.1,
        ({a with queue} : Assembly).run.2) := by
      have h := run_withQueue a (out :: queue)
      rw [← hq] at h
      rw [h, hq, run_withQueue a queue]
      rfl
    refine ⟨by rw [hrun]; rfl, by rw [hrun]; rfl, by rw [hrun], ?_⟩
    have hlength : ¬a.run.1.length < 1 := by simp [hrun]
    simp only [hlength, false_and, or_false]
    rfl
  | case2 a hq hd =>
    have hrun : a.run = ([], a) := by
      rw [run_of_done hd, ← hq]
    refine ⟨by rw [hrun]; rfl, by rw [hrun]; rfl, rfl, ?_⟩
    simp [hrun]
  | case3 a hq hd ih =>
    obtain ⟨hseen, hleft, hending, hcrashed⟩ := ih
    rw [← run_step hd] at hseen hleft hending hcrashed
    refine ⟨hseen, hleft, hending, hcrashed.trans ?_⟩
    constructor
    · rintro (hstep | hlater)
      · have hrun : a.run = ([], {a.step with queue := []}) := by
          rw [run_step hd, run_of_done (done_of_crashed hstep), queue_of_crashed_step hd hstep, hq]
        rw [hrun]
        exact .inr ⟨Nat.one_pos, hstep⟩
      · exact .inr hlater
    · rintro (hnow | hlater)
      · exact absurd (done_of_crashed hnow) hd
      · exact .inr hlater

theorem serves_take (n : Nat) (a : Assembly) : Serves a n (take n a).1 (take n a).2 := by
  induction n generalizing a with
  | zero => exact .refl a
  | succ n ih =>
    have hnext := serves_next a
    simp only [take]
    split
    · rename_i b hb
      rw [hb] at hnext
      have hrun : a.run.1 = [] := by simpa using hnext.seen.symm
      refine ⟨by rw [hrun]; rfl, ?_, hnext.ending, ?_⟩
      · rw [hnext.left, hrun]
        rfl
      · simpa [hrun] using hnext.crashed
    · rename_i out b hb
      rw [hb] at hnext
      rw [Nat.add_comm]
      exact hnext.trans (ih b)

end Assembly

/-- One way of asking an assembly for output. -/
inductive Request
  /-- One item. -/
  | next
  /-- A loop over the items that is left after so many of them. -/
  | loop (count : Nat)
  deriving DecidableEq, Repr

def Request.count : Request → Nat
  | next => 1
  | loop count => count

def demand (requests : List Request) : Nat := (requests.map Request.count).sum

namespace Assembly

/-- What a consumer sees, and the assembly it leaves. -/
def serve : List Request → Assembly → List Output × Assembly
  | [], a => ([], a)
  | .next :: requests, a =>
    let rest := serve requests a.next.2
    (a.next.1.toList ++ rest.1, rest.2)
  | .loop count :: requests, a =>
    let rest := serve requests (take count a).2
    ((take count a).1 ++ rest.1, rest.2)

/-- Whatever the mixture of requests, a consumer sees the front of the run. -/
theorem serves_serve (requests : List Request) (a : Assembly) :
    Serves a (demand requests) (serve requests a).1 (serve requests a).2 := by
  induction requests generalizing a with
  | nil => exact .refl a
  | cons request requests ih =>
    have hdemand : demand (request :: requests) = request.count + demand requests := by
      simp only [demand, List.map_cons, List.sum_cons]
    rw [hdemand]
    cases request with
    | next => exact (serves_next a).trans (ih _)
    | loop count => exact (serves_take count a).trans (ih _)

section Preserved
variable {P : Assembly → Prop}
variable (hqueue : ∀ (a : Assembly) (q : List Output), P a → P {a with queue := q})
variable (hstep : ∀ a : Assembly, ¬a.done → P a → P a.step)
include hqueue hstep

/-- What every pull preserves holds after the next item. -/
theorem next_preserves {a : Assembly} (ha : P a) : P a.next.2 := by
  fun_induction next a with
  | case1 a out queue hq => exact hqueue a queue ha
  | case2 a hq hd => exact ha
  | case3 a hq hd ih => exact ih (hstep a hd ha)

theorem take_preserves (n : Nat) {a : Assembly} (ha : P a) : P (take n a).2 := by
  induction n generalizing a with
  | zero => exact ha
  | succ n ih =>
    have hn := next_preserves hqueue hstep ha
    simp only [take]
    split <;> rename_i hnext <;> rw [hnext] at hn
    · exact hn
    · exact ih hn

/-- What every pull preserves holds whatever a consumer asks for. -/
theorem serve_preserves (requests : List Request) {a : Assembly} (ha : P a) :
    P (serve requests a).2 := by
  induction requests generalizing a with
  | nil => exact ha
  | cons request requests ih =>
    cases request with
    | next => exact ih (next_preserves hqueue hstep ha)
    | loop count => exact ih (take_preserves hqueue hstep count ha)

end Preserved

/-- The statements still to be pulled, each with the labels known when its turn comes. -/
def pulls (a : Assembly) : List Pull :=
  if _h : a.done then []
  else
    match a.source.next a.labels with
    | none => []
    | some (st, _) => ⟨a.labels, st⟩ :: a.step.pulls
termination_by a.remaining
decreasing_by exact remaining_step _h

/-- The assembly after statements that are taken in one after the other, up to one that ends the
pulling or up to the end of the source. Nothing is handed out in between. -/
def ending (a : Assembly) : List Statement → Assembly
  | [] => a.finish
  | st :: sts => if (a.handle st).done then a.handle st else (a.handle st).ending sts

theorem ending_withQueue (a : Assembly) (q : List Output) (sts : List Statement) :
    ({a with queue := q} : Assembly).ending sts =
      {a.ending sts with queue := q ++ (({a with queue := []} : Assembly).ending sts).queue} := by
  induction sts generalizing a q with
  | nil => exact a.close_withQueue ..
  | cons st sts ih =>
    have hempty := handle_withQueue a [] st
    have hdone : (({a with queue := []} : Assembly).handle st).done = (a.handle st).done := by
      rw [hempty]
      rfl
    have hdone' : (({a with queue := q} : Assembly).handle st).done = (a.handle st).done := by
      rw [handle_withQueue a q]
      rfl
    simp only [ending, hdone, hdone']
    split
    · exact handle_withQueue a q st
    · rw [handle_withQueue a q st, ih, hempty, ih (a.handle st) ([] ++ _)]
      simp only [List.nil_append, List.append_assoc]

theorem ending_withSource (a : Assembly) (source : Source) (sts : List Statement) :
    ({a with source} : Assembly).ending sts = {a.ending sts with source} := by
  induction sts generalizing a with
  | nil => exact a.close_withSource ..
  | cons st sts ih =>
    rw [ending, ending, handle_withSource]
    by_cases hd : (a.handle st).done
    · rw [if_pos hd, if_pos]
      exact hd
    · rw [if_neg hd, if_neg, ih]
      exact hd

/-- A run hands out what its statements yield, and ends as they do. -/
theorem run_eq_ending {a : Assembly} (h : ¬a.done) :
    a.run.1 = (a.ending (a.pulls.map Pull.statement)).queue ∧
      a.run.2.crashed = (a.ending (a.pulls.map Pull.statement)).crashed := by
  fun_induction pulls a with
  | case1 a hd => exact absurd hd h
  | case2 a hd hnext =>
    rw [run_step hd, step_of_none hnext, run_of_done a.done_finish]
    exact ⟨rfl, rfl⟩
  | case3 a hd st source hnext ih =>
    have hstep := step_of_some hnext
    have hdone := done_step hnext
    rw [run_step hd, List.map_cons, ending]
    split
    · rename_i hf
      rw [run_of_done (hdone.trans hf), hstep]
      exact ⟨rfl, rfl⟩
    · rename_i hf
      have hsource := ending_withSource (a.handle st) source (a.step.pulls.map Pull.statement)
      rw [← hstep] at hsource
      obtain ⟨hqueue, hcrashed⟩ := ih (by rwa [hdone])
      rw [hqueue, hcrashed, hsource]
      exact ⟨rfl, rfl⟩

/-- A list of statements is pulled up to the one that ends the pulling. -/
theorem ending_pulls {a : Assembly} (h : ¬a.done) {sts : List Statement}
    (hs : a.source = .statements sts) :
    a.ending (a.pulls.map Pull.statement) = a.ending sts := by
  induction sts generalizing a with
  | nil =>
    have hnext : a.source.next a.labels = none := by rw [hs]; rfl
    rw [pulls, dif_neg h, hnext]
    rfl
  | cons st sts ih =>
    have hnext : a.source.next a.labels = some (st, .statements sts) := by rw [hs]; rfl
    have hstep := step_of_some hnext
    have hdone := done_step hnext
    rw [pulls, dif_neg h, hnext]
    simp only [List.map_cons, ending]
    split
    · rfl
    · rename_i hf
      have hrest := ih (a := a.step) (by rwa [hdone]) (by rw [hstep])
      have hback : a.handle st = {a.step with source := a.source} := by
        rw [hstep, ← source_handle a st]
      have hending : ∀ sts', (a.handle st).ending sts' =
          {a.step.ending sts' with source := a.source} := by
        intro sts'
        rw [hback]
        exact ending_withSource a.step a.source sts'
      rw [hending, hending, hrest]

end Assembly
end Assembler65816
