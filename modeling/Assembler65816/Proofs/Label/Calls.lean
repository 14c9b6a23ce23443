import Assembler65816.Proofs.Label.Definitions

/-!
# Label bookkeeping under any order of calls

The bookkeeping is shared by two parties, so nothing is known of the order in which scopes are
entered, labels defined and references asked for. The main statement is that references and
definitions agree all the same: what a reference names can be said from the calls alone, without
the counts and the path that the bookkeeping holds.
-/
namespace Assembler65816
namespace Labels

/-- What can be asked of the bookkeeping that changes it. -/
inductive Call
  | enterScope
  | defineBackward (n : Int)
  | defineForward (n : Int)
  | defineLocal (depth : Int) (name : Text)
  deriving DecidableEq, Repr

/-- The identity that a call returns, if any, and the labels after it. -/
def perform (l : Labels) : Call → Option Ident × Labels
  | .enterScope => (none, l.enterScope)
  | .defineBackward n => (l.defineBackward n).map some id
  | .defineForward n => (l.defineForward n).map some id
  | .defineLocal depth name => (l.defineLocal depth name).map some id

/-- The labels at a moment of a run: before the call with that number, or at the end. -/
def atMoment (calls : List Call) (i : Nat) : Labels :=
  (calls.take i).foldl (fun l call => (l.perform call).2) {}

def returned? (calls : List Call) (i : Nat) : Option Ident :=
  calls[i]?.bind fun call => ((atMoment calls i).perform call).1

/-- A statement for which the assembler makes the call. Locals are nowhere above the first level. -/
def Call.statement : Call → Statement
  | enterScope => .topLabel [] [] {}
  | defineBackward n => .backwardLabel n
  | defineForward n => .forwardLabel n
  | defineLocal depth name => .localLabel (max 1 depth) name

theorem Call.statement_eq_backward {call : Call} {n : Int} :
    call.statement = .backwardLabel n ↔ call = .defineBackward n := by
  cases call <;> simp [statement]

theorem Call.statement_eq_forward {call : Call} {n : Int} :
    call.statement = .forwardLabel n ↔ call = .defineForward n := by
  cases call <;> simp [statement]

theorem pathTo_max (l : Labels) (depth : Int) (name : Text) :
    l.pathTo (max 1 depth) name = l.pathTo depth name := by
  have hlevels : (max 1 depth - 1).toNat = (depth - 1).toNat := by omega
  rw [pathTo, pathTo, hlevels]

theorem perform_eq (l : Labels) (call : Call) :
    l.perform call = (l.identity? call.statement, l.after call.statement) := by
  cases call with
  | defineLocal depth name =>
    simp only [perform, Call.statement, identity?, after, defineLocal, reference, pathTo_max]
    rfl
  | _ => rfl

theorem atMoment_eq (calls : List Call) (i : Nat) :
    atMoment calls i = ((calls.map Call.statement).take i).foldl after {} := by
  simp only [atMoment, perform_eq, ← List.map_take, List.foldl_map]

theorem returned?_eq_some_iff {calls : List Call} {j : Nat} {id : Ident} :
    returned? calls j = some id ↔
      ∃ call, calls[j]? = some call ∧
        Pull.identity? ⟨atMoment calls j, call.statement⟩ = some id := by
  simp only [returned?, perform_eq, Option.bind_eq_some_iff, Pull.identity?]

section Moment
variable (calls : List Call) (i : Nat)

theorem count_statement {call : Call} {st : Statement}
    (h : ∀ c : Call, c.statement = st ↔ c = call) :
    ((calls.map Call.statement).take i).count st = (calls.take i).count call := by
  rw [← List.map_take, List.count, List.countP_map, List.count]
  refine List.countP_congr fun c _ => ?_
  simp [h]

theorem backward_atMoment (n : Int) :
    (atMoment calls i).backward n = (calls.take i).count (.defineBackward n) := by
  rw [atMoment_eq, backward_foldl_after,
    count_statement calls i fun _ => Call.statement_eq_backward]
  exact Nat.zero_add _

theorem forward_atMoment (n : Int) :
    (atMoment calls i).forward n = (calls.take i).count (.defineForward n) := by
  rw [atMoment_eq, forward_foldl_after, count_statement calls i fun _ => Call.statement_eq_forward]
  exact Nat.zero_add _

theorem scope_atMoment : (atMoment calls i).scope = (calls.take i).count .enterScope := by
  rw [atMoment_eq, scope_foldl_after, ← List.map_take, List.countP_map, List.count]
  refine (Nat.zero_add _).trans (List.countP_congr fun c _ => ?_)
  cases c <;> simp [Call.statement, Statement.isTop]

theorem pathTo_atMoment (depth : Int) (name : Text) :
    (atMoment calls i).pathTo depth name = fullPath (calls.map Call.statement) i depth name := by
  rw [atMoment_eq]
  refine pathTo_foldl_after (fun depth name hmem => ?_) i depth name
  obtain ⟨call, -, hcall⟩ := List.mem_map.1 hmem
  cases call with
  | defineLocal depth' name' =>
    cases hcall
    omega
  | _ => cases hcall

end Moment

/-- How references and definitions go together in a run. -/
structure Paired (calls : List Call) : Prop where
  /-- A forward reference names the first such definition from then on. -/
  forward : ∀ n i j, returned? calls j = some ((atMoment calls i).next n) ↔
    calls[j]? = some (.defineForward n) ∧ i ≤ j ∧
      ∀ k, i ≤ k → k < j → calls[k]? ≠ some (.defineForward n)
  /-- A backward reference names the last such definition until then. -/
  backward : ∀ n i j, returned? calls j = some ((atMoment calls i).latest n) ↔
    calls[j]? = some (.defineBackward n) ∧ j < i ∧
      ∀ k, j < k → k < i → calls[k]? ≠ some (.defineBackward n)
  /-- No two definitions share an anonymous identity. -/
  distinct : ∀ i j direction n turn,
    returned? calls i = some (.anonymous direction n turn) →
      returned? calls j = some (.anonymous direction n turn) → i = j
  /-- A local reference names what a definition would define, before and right after it. -/
  here : ∀ i depth name,
    (atMoment calls i).reference depth name = ((atMoment calls i).defineLocal depth name).1 ∧
      ((atMoment calls i).defineLocal depth name).2.reference depth name =
        ((atMoment calls i).defineLocal depth name).1
  /-- Local references at two moments name the same exactly if scope and path are the same. -/
  named : ∀ i j depth depth' name name', 46 ∉ name → 46 ∉ name' →
    ((atMoment calls i).reference depth name = (atMoment calls j).reference depth' name' ↔
      (calls.take i).count .enterScope = (calls.take j).count .enterScope ∧
        fullPath (calls.map Call.statement) i depth name =
          fullPath (calls.map Call.statement) j depth' name')

section Paired
variable {calls : List Call} {i j : Nat} {n turn : Int}

theorem returned?_eq_backward_iff :
    returned? calls j = some (.anonymous .backward n turn) ↔
      calls[j]? = some (.defineBackward n) ∧
        turn = ((calls.take j).count (.defineBackward n) + 1 : Nat) := by
  simp only [returned?_eq_some_iff, Pull.identity?_eq_backward, Call.statement_eq_backward,
    backward_atMoment, and_left_comm, exists_eq_left]

theorem returned?_eq_forward_iff :
    returned? calls j = some (.anonymous .forward n turn) ↔
      calls[j]? = some (.defineForward n) ∧
        turn = ((calls.take j).count (.defineForward n) + 1 : Nat) := by
  simp only [returned?_eq_some_iff, Pull.identity?_eq_forward, Call.statement_eq_forward,
    forward_atMoment, and_left_comm, exists_eq_left]

/-- A definition does not change the path to its own label. -/
theorem pathTo_defineLocal (l : Labels) (depth : Int) (name : Text) :
    (l.defineLocal depth name).2.pathTo depth name = l.pathTo depth name := by
  rw [pathTo_eq, pathTo_eq]
  congr 1
  refine List.map_congr_left fun k hk => ?_
  have hpath : (l.defineLocal depth name).2.path = l.pathTo depth name := rfl
  rw [hpath, pathTo_eq, List.getElem?_append_left (by simpa using hk), List.getElem?_map,
    List.getElem?_range (by simpa using hk)]
  rfl

theorem reference_eq_iff (l l' : Labels) (depth depth' : Int) (name name' : Text) :
    l.reference depth name = l'.reference depth' name' ↔
      l.scope = l'.scope ∧ List.intercalate [46] (l.pathTo depth name) =
        List.intercalate [46] (l'.pathTo depth' name') := by
  simp only [reference, Labels.named, Ident.named.injEq, Int.natCast_inj]

/-- However scopes are entered and labels are defined, references and definitions go together. -/
theorem paired_of_dotFree (calls : List Call)
    (hnames : ∀ depth name, .defineLocal depth name ∈ calls → 46 ∉ name) : Paired calls where
  forward := by
    intro n i j
    have hnext : (atMoment calls i).next n =
        .anonymous .forward n ((calls.take i).count (.defineForward n) + 1 : Nat) := by
      rw [next, forward_atMoment]
      rfl
    rw [hnext, returned?_eq_forward_iff]
    refine and_congr_right fun hj => ?_
    rw [← count_take_eq_iff hj]
    omega
  backward := by
    intro n i j
    rw [latest, backward_atMoment, returned?_eq_backward_iff]
    refine and_congr_right fun hj => ?_
    rw [← count_take_eq_succ_iff hj]
    omega
  distinct := by
    intro i j direction n turn hi hj
    cases direction with
    | backward =>
      rw [returned?_eq_backward_iff] at hi hj
      exact eq_of_count_take_eq hi.1 hj.1 (by omega)
    | forward =>
      rw [returned?_eq_forward_iff] at hi hj
      exact eq_of_count_take_eq hi.1 hj.1 (by omega)
  here := by
    intro i depth name
    refine ⟨rfl, ?_⟩
    rw [reference, pathTo_defineLocal]
    rfl
  named := by
    intro i j depth depth' name name' hname hname'
    have hdots : ∀ depth name, .localLabel depth name ∈ calls.map Call.statement → 46 ∉ name := by
      intro depth name hmem
      obtain ⟨call, hmem, hcall⟩ := List.mem_map.1 hmem
      cases call <;> cases hcall
      exact hnames _ name hmem
    rw [reference_eq_iff, scope_atMoment, scope_atMoment, pathTo_atMoment, pathTo_atMoment,
      intercalate_fullPath_inj hdots hname hname']

/-- A run that skips the second level and asks for one above the first. -/
theorem paired_of_dotFree_of_skipped :
    let calls : List Call :=
      [ .enterScope, .defineLocal 1 (ascii "a"), .defineForward 1, .defineLocal 3 (ascii "c"),
        .defineBackward 1, .defineLocal 0 (ascii "b"), .enterScope, .defineForward 1 ]
    (∀ depth name, .defineLocal depth name ∈ calls → 46 ∉ name) ∧ Paired calls ∧
      returned? calls 3 = some (.named 1 (ascii "a..c")) ∧
      returned? calls 7 = some ((atMoment calls 3).next 1) ∧
      (atMoment calls 3).reference 3 (ascii "c") = (atMoment calls 5).reference 3 (ascii "c") := by
  intro calls
  have hnames : ∀ depth name, .defineLocal depth name ∈ calls → 46 ∉ name := by
    intro depth name hmem
    simp only [calls, List.mem_cons, reduceCtorEq, Call.defineLocal.injEq, List.not_mem_nil,
      false_or, or_false] at hmem
    rcases hmem with ⟨-, rfl⟩ | ⟨-, rfl⟩ | ⟨-, rfl⟩ <;> decide
  have hpaired := paired_of_dotFree calls hnames
  have hname : 46 ∉ ascii "c" := by decide
  have hnext : returned? calls 7 = some ((atMoment calls 3).next 1) :=
    (hpaired.forward 1 3 7).2 (by decide)
  have hsame : (atMoment calls 3).reference 3 (ascii "c") =
      (atMoment calls 5).reference 3 (ascii "c") :=
    (hpaired.named 3 5 3 3 _ _ hname hname).2 (by decide)
  exact ⟨hnames, hpaired, by decide, hnext, hsame⟩

end Paired
end Labels
end Assembler65816
