import Assembler65816.Proofs.Expression.Mentions
import Assembler65816.Proofs.Assembly.Run

/-!
# What a mention means

In a list of statements a mention at one place means a definition at another, and which one can be
said without any bookkeeping. A run of minus signs means the last definition with as many signs
before it, a run of plus signs the first one after it. A local name means the definitions under the
same top-level label that have the same path, where the names on a path are those of the shallower
local labels that enclose the place.

The main statement is that the identities agree: the identity of a mention is that of a definition
if and only if the mention means that definition. So identities of anonymous labels are never
shared, and those of local labels only under one top-level label.
-/
namespace Assembler65816

def topsBefore (sts : List Statement) (i : Nat) : Nat := (sts.take i).countP Statement.isTop

namespace Statement

/-- Whether no local label at a level, or deeper, encloses what follows the statement unless it is
the statement itself. -/
def closes (level : Int) : Statement → Bool
  | topLabel .. => true
  | localLabel depth _ => depth ≤ level
  | _ => false

def nameAt (level : Int) : Statement → Text
  | localLabel depth name => if depth = level then name else []
  | _ => []

def isAnonymous : Statement → Bool
  | backwardLabel _ | forwardLabel _ => true
  | _ => false

end Statement

/-- The name of the local label that encloses a place at a level, empty if there is none: the latest
label that is not deeper decides. -/
def enclosing (sts : List Statement) (i : Nat) (level : Int) : Text :=
  (((sts.take i).reverse.find? (·.closes level)).map (·.nameAt level)).getD []

/-- The names on the way to a local label that is written at a place. -/
def fullPath (sts : List Statement) (i : Nat) (depth : Int) (name : Text) : List Text :=
  (List.range (depth - 1).toNat).map (fun k => enclosing sts i (k + 1 : Nat)) ++ [name]

/-- Whether a mention at place `i` means the definition at place `j`. -/
def Means (sts : List Statement) (i : Nat) : Mention → Nat → Prop
  | .global _, _ => False
  | .backward n, j => j < i ∧ sts[j]? = some (.backwardLabel n) ∧
      ∀ k, j < k → k < i → sts[k]? ≠ some (.backwardLabel n)
  | .forward n, j => i < j ∧ sts[j]? = some (.forwardLabel n) ∧
      ∀ k, i < k → k < j → sts[k]? ≠ some (.forwardLabel n)
  | .nested depth name, j => ∃ depth' name', sts[j]? = some (.localLabel depth' name') ∧
      topsBefore sts j = topsBefore sts i ∧ fullPath sts j depth' name' = fullPath sts i depth name

section Count
variable {α : Type} [DecidableEq α] {l : List α} {a : α}

theorem count_take_mono {i j : Nat} (h : i ≤ j) : (l.take i).count a ≤ (l.take j).count a := by
  have htake : l.take i = (l.take j).take i := by rw [List.take_take, Nat.min_eq_left h]
  rw [htake]
  exact (List.take_sublist i (l.take j)).count_le a

theorem count_take_succ (i : Nat) :
    (l.take (i + 1)).count a = (l.take i).count a + if l[i]? = some a then 1 else 0 := by
  rw [List.take_add_one, List.count_append]
  congr 1
  cases h : l[i]? with
  | none => rfl
  | some b => by_cases hb : b = a <;> simp [hb]

theorem count_take_lt {i j k : Nat} (hk : l[k]? = some a) (hik : i ≤ k) (hkj : k < j) :
    (l.take i).count a < (l.take j).count a := by
  have hi := count_take_mono (l := l) (a := a) hik
  have hj := count_take_mono (l := l) (a := a) (show k + 1 ≤ j from hkj)
  have hsucc := count_take_succ (l := l) (a := a) k
  rw [if_pos hk] at hsucc
  omega

theorem count_take_eq {i j : Nat} (hij : i ≤ j) (h : ∀ k, i ≤ k → k < j → l[k]? ≠ some a) :
    (l.take j).count a = (l.take i).count a := by
  induction j with
  | zero => rw [Nat.le_zero.1 hij]
  | succ j ih =>
    rcases Nat.lt_or_eq_of_le hij with hlt | rfl
    · have hle : i ≤ j := Nat.le_of_lt_succ hlt
      rw [count_take_succ, if_neg (h j hle (Nat.lt_succ_self j)),
        ih hle fun k hik hkj => h k hik (Nat.lt_succ_of_lt hkj)]
      omega
    · rfl

/-- An occurrence is the last one before a place exactly if the count there is one more. -/
theorem count_take_eq_succ_iff {i j : Nat} (hj : l[j]? = some a) :
    (l.take i).count a = (l.take j).count a + 1 ↔
      j < i ∧ ∀ k, j < k → k < i → l[k]? ≠ some a := by
  have hsucc := count_take_succ (l := l) (a := a) j
  rw [if_pos hj] at hsucc
  constructor
  · intro hcount
    have hlt : j < i := by
      rcases Nat.lt_or_ge j i with hlt | hge
      · exact hlt
      · have hle := count_take_mono (l := l) (a := a) hge
        omega
    refine ⟨hlt, fun k hjk hki hk => ?_⟩
    have hless := count_take_lt hk (show j + 1 ≤ k from hjk) hki
    omega
  · rintro ⟨hlt, hlast⟩
    have heq := count_take_eq (l := l) (show j + 1 ≤ i from hlt) fun k hjk hki => hlast k hjk hki
    omega

/-- An occurrence is the first one from a place on exactly if the counts before both are equal. -/
theorem count_take_eq_iff {i j : Nat} (hj : l[j]? = some a) :
    (l.take i).count a = (l.take j).count a ↔
      i ≤ j ∧ ∀ k, i ≤ k → k < j → l[k]? ≠ some a := by
  constructor
  · intro hcount
    have hle : i ≤ j := by
      rcases Nat.lt_or_ge j i with hlt | hge
      · have hless := count_take_lt hj (Nat.le_refl j) hlt
        omega
      · exact hge
    refine ⟨hle, fun k hik hkj hk => ?_⟩
    have hless := count_take_lt hk hik hkj
    omega
  · rintro ⟨hle, hfirst⟩
    exact (count_take_eq hle hfirst).symm

/-- No two occurrences have the same count before them. -/
theorem eq_of_count_take_eq {i j : Nat} (hi : l[i]? = some a) (hj : l[j]? = some a)
    (h : (l.take i).count a = (l.take j).count a) : i = j :=
  Nat.le_antisymm ((count_take_eq_iff hj).1 h).1 ((count_take_eq_iff hi).1 h.symm).1

/-- A value that occurs before a place has a last occurrence before it. -/
theorem exists_last_of_count_take_pos {i : Nat} (h : 0 < (l.take i).count a) :
    ∃ j < i, l[j]? = some a ∧ ∀ k, j < k → k < i → l[k]? ≠ some a := by
  induction i with
  | zero => simp at h
  | succ i ih =>
    by_cases hi : l[i]? = some a
    · refine ⟨i, Nat.lt_succ_self i, hi, fun k hik hki => ?_⟩
      omega
    · rw [count_take_succ, if_neg hi] at h
      obtain ⟨j, hj, hja, hlast⟩ := ih h
      refine ⟨j, Nat.lt_succ_of_lt hj, hja, fun k hjk hki => ?_⟩
      rcases Nat.lt_or_eq_of_le (Nat.le_of_lt_succ hki) with hlt | rfl
      · exact hlast k hjk hlt
      · exact hi

end Count

namespace Labels

theorem backward_foldl_after (l : Labels) (sts : List Statement) (n : Int) :
    (sts.foldl after l).backward n = l.backward n + sts.count (.backwardLabel n) := by
  induction sts generalizing l with
  | nil => rfl
  | cons st sts ih =>
    have hstep : (l.after st).backward n =
        l.backward n + if st = .backwardLabel n then 1 else 0 := by
      cases st with
      | backwardLabel count =>
        by_cases hn : n = count
        · simp [after, defineBackward, Tally.bump, hn]
        · simp [after, defineBackward, Tally.bump, hn, Ne.symm hn]
      | _ => simp [after, enterScope, defineForward, defineLocal]
    rw [List.foldl_cons, ih, hstep, List.count_cons]
    simp only [beq_iff_eq]
    omega

theorem forward_foldl_after (l : Labels) (sts : List Statement) (n : Int) :
    (sts.foldl after l).forward n = l.forward n + sts.count (.forwardLabel n) := by
  induction sts generalizing l with
  | nil => rfl
  | cons st sts ih =>
    have hstep : (l.after st).forward n =
        l.forward n + if st = .forwardLabel n then 1 else 0 := by
      cases st with
      | forwardLabel count =>
        by_cases hn : n = count
        · simp [after, defineForward, Tally.bump, hn]
        · simp [after, defineForward, Tally.bump, hn, Ne.symm hn]
      | _ => simp [after, enterScope, defineBackward, defineLocal]
    rw [List.foldl_cons, ih, hstep, List.count_cons]
    simp only [beq_iff_eq]
    omega

theorem scope_foldl_after (l : Labels) (sts : List Statement) :
    (sts.foldl after l).scope = l.scope + sts.countP Statement.isTop := by
  induction sts generalizing l with
  | nil => rfl
  | cons st sts ih =>
    have hstep : (l.after st).scope = l.scope + if st.isTop then 1 else 0 := by
      cases st <;> rfl
    rw [List.foldl_cons, ih, hstep, List.countP_cons]
    omega

/-- The path to a local label, level by level. -/
theorem pathTo_eq (l : Labels) (depth : Int) (name : Text) :
    l.pathTo depth name =
      (List.range (depth - 1).toNat).map (fun k => l.path[k]?.getD []) ++ [name] := by
  unfold pathTo
  simp only
  congr 1
  apply List.ext_getElem
  · simp
    omega
  · intro k hk hk'
    simp only [List.length_map, List.length_range] at hk'
    rw [List.getElem_take, List.getElem_append, List.getElem_map, List.getElem_range]
    split
    · rename_i hlt
      rw [List.getElem?_eq_getElem hlt]
      rfl
    · rename_i hge
      rw [List.getElem?_eq_none (Nat.le_of_not_lt hge), List.getElem_replicate]
      rfl

/-- A statement sets the names of the levels that it closes. -/
theorem path_after (l : Labels) {st : Statement}
    (hdepth : ∀ depth name, st = .localLabel depth name → 0 < depth) (k : Nat) :
    (l.after st).path[k]?.getD [] =
      if st.closes (k + 1 : Nat) then st.nameAt (k + 1 : Nat) else l.path[k]?.getD [] := by
  cases st with
  | topLabel name attributes pos => rfl
  | localLabel depth name =>
    have hpos := hdepth depth name rfl
    have hpath : (l.after (.localLabel depth name)).path =
        (List.range (depth - 1).toNat).map (fun k => l.path[k]?.getD []) ++ [name] :=
      l.pathTo_eq depth name
    rw [hpath, List.getElem?_append]
    simp only [List.length_map, List.length_range, Statement.closes, Statement.nameAt,
      decide_eq_true_eq]
    rcases Nat.lt_trichotomy k (depth - 1).toNat with hlt | heq | hgt
    · rw [if_pos hlt, if_neg (by omega), List.getElem?_map, List.getElem?_range hlt]
      rfl
    · have hdepth' : depth = (k + 1 : Nat) := by omega
      rw [if_neg (by omega), if_pos (by omega), if_pos hdepth', heq, Nat.sub_self]
      rfl
    · rw [if_neg (by omega), if_pos (by omega), if_neg (by omega), List.getElem?_eq_none]
      · rfl
      · simp only [List.length_singleton]
        omega
  | _ => rfl

theorem path_foldl_after (l : Labels) {sts : List Statement}
    (hdepth : ∀ depth name, .localLabel depth name ∈ sts → 0 < depth) (k : Nat) :
    (sts.foldl after l).path[k]?.getD [] =
      ((sts.reverse.find? (·.closes (k + 1 : Nat))).map (·.nameAt (k + 1 : Nat))).getD
        (l.path[k]?.getD []) := by
  induction sts generalizing l with
  | nil => rfl
  | cons st sts ih =>
    have hrest : ∀ depth name, .localLabel depth name ∈ sts → 0 < depth :=
      fun depth name hmem => hdepth depth name (List.mem_cons_of_mem st hmem)
    have hfirst : ∀ depth name, st = .localLabel depth name → 0 < depth :=
      fun depth name he => hdepth depth name (he ▸ List.mem_cons_self)
    rw [List.foldl_cons, ih _ hrest, path_after l hfirst, List.reverse_cons, List.find?_append]
    cases sts.reverse.find? (·.closes (k + 1 : Nat)) with
    | some st' => rfl
    | none =>
      by_cases hc : st.closes (k + 1 : Nat)
      · rw [if_pos hc, List.find?_cons_of_pos hc]
        rfl
      · rw [if_neg hc, List.find?_cons_of_neg hc]
        rfl

/-- The labels that statements leave behind know the names on the way to a local label. -/
theorem pathTo_foldl_after {sts : List Statement}
    (hdepth : ∀ depth name, .localLabel depth name ∈ sts → 0 < depth) (i : Nat) (depth : Int)
    (name : Text) :
    ((sts.take i).foldl after {}).pathTo depth name = fullPath sts i depth name := by
  rw [pathTo_eq, fullPath]
  congr 2
  funext k
  rw [path_foldl_after]
  · rfl
  · exact fun depth name hmem => hdepth depth name (List.mem_of_mem_take hmem)

end Labels

section FullPath
variable {sts : List Statement} (h : ∀ depth name, .localLabel depth name ∈ sts → 46 ∉ name)
  {i j : Nat} {depth depth' : Int} {name name' : Text}
include h

theorem dotFree_fullPath (hname : 46 ∉ name) : ∀ x ∈ fullPath sts i depth name, 46 ∉ x := by
  intro x hx
  rcases List.mem_append.1 hx with hx | hx
  · obtain ⟨k, -, rfl⟩ := List.mem_map.1 hx
    unfold enclosing
    cases hfind : (sts.take i).reverse.find? (·.closes (k + 1 : Nat)) with
    | none => exact List.not_mem_nil
    | some st =>
      have hmem : st ∈ sts :=
        List.mem_of_mem_take (List.mem_reverse.1 (List.mem_of_find?_eq_some hfind))
      cases st with
      | localLabel depth' name' =>
        simp only [Option.map_some, Option.getD_some, Statement.nameAt]
        split
        · exact h depth' name' hmem
        · exact List.not_mem_nil
      | _ => exact List.not_mem_nil
  · rw [List.mem_singleton.1 hx]
    exact hname

/-- Names hold no dots, so a path can be read off its text. -/
theorem intercalate_fullPath_inj (hname : 46 ∉ name) (hname' : 46 ∉ name') :
    List.intercalate [46] (fullPath sts i depth name) =
        List.intercalate [46] (fullPath sts j depth' name') ↔
      fullPath sts i depth name = fullPath sts j depth' name' := by
  have hne : ∀ i depth name, fullPath sts i depth name ≠ [] := by simp [fullPath]
  refine ⟨fun htext => ?_, fun hpath => by rw [hpath]⟩
  have hsplit := congrArg (List.splitOn 46) htext
  rwa [List.splitOn_intercalate _ (dotFree_fullPath h hname) (hne _ _ _),
    List.splitOn_intercalate _ (dotFree_fullPath h hname') (hne _ _ _)] at hsplit

end FullPath

namespace Pull
variable {q : Pull}

theorem identity?_eq_backward {n t : Int} :
    q.identity? = some (.anonymous .backward n t) ↔
      q.statement = .backwardLabel n ∧ t = (q.labels.backward n + 1 : Nat) := by
  unfold identity?
  cases q.statement with
  | backwardLabel count =>
    simp only [Labels.identity?, Labels.defineBackward, Labels.latest, Tally.bump,
      Option.some.injEq, Ident.anonymous.injEq, true_and, Statement.backwardLabel.injEq, if_true]
    constructor
    · rintro ⟨rfl, rfl⟩
      exact ⟨rfl, rfl⟩
    · rintro ⟨rfl, rfl⟩
      exact ⟨rfl, rfl⟩
  | _ => simp [Labels.identity?, Labels.defineForward, Labels.next, Labels.defineLocal,
      Labels.reference, Labels.named]

theorem identity?_eq_forward {n t : Int} :
    q.identity? = some (.anonymous .forward n t) ↔
      q.statement = .forwardLabel n ∧ t = (q.labels.forward n + 1 : Nat) := by
  unfold identity?
  cases q.statement with
  | forwardLabel count =>
    simp only [Labels.identity?, Labels.defineForward, Labels.next, Option.some.injEq,
      Ident.anonymous.injEq, true_and, Statement.forwardLabel.injEq]
    constructor
    · rintro ⟨rfl, rfl⟩
      exact ⟨rfl, rfl⟩
    · rintro ⟨rfl, rfl⟩
      exact ⟨rfl, rfl⟩
  | _ => simp [Labels.identity?, Labels.defineBackward, Labels.latest, Labels.defineLocal,
      Labels.reference, Labels.named]

theorem identity?_eq_named {scope : Int} {path : Text} :
    q.identity? = some (.named scope path) ↔
      ∃ depth name, q.statement = .localLabel depth name ∧ scope = q.labels.scope ∧
        path = List.intercalate [46] (q.labels.pathTo depth name) := by
  unfold identity?
  cases q.statement with
  | localLabel depth name =>
    simp only [Labels.identity?, Labels.defineLocal, Labels.reference, Labels.named,
      Option.some.injEq, Ident.named.injEq, Statement.localLabel.injEq]
    constructor
    · rintro ⟨rfl, rfl⟩
      exact ⟨depth, name, ⟨rfl, rfl⟩, rfl, rfl⟩
    · rintro ⟨depth, name, ⟨rfl, rfl⟩, rfl, rfl⟩
      exact ⟨rfl, rfl⟩
  | _ => simp [Labels.identity?, Labels.defineBackward, Labels.latest, Labels.defineForward,
      Labels.next]

theorem identity?_ne_global (name : Text) : q.identity? ≠ some (.global name) := by
  unfold identity?
  cases q.statement <;> simp [Labels.identity?, Labels.defineBackward, Labels.latest,
    Labels.defineForward, Labels.next, Labels.defineLocal, Labels.reference, Labels.named]

end Pull

/-- Pulls in a row, from the start on: each was made under the labels that those before it leave
behind, and local labels are as they can be written. -/
structure Consecutive (ps : List Pull) : Prop where
  labels : ∀ i p, ps[i]? = some p →
    p.labels = ((ps.map Pull.statement).take i).foldl Labels.after {}
  nested : ∀ depth name, .localLabel depth name ∈ ps.map Pull.statement → 0 < depth ∧ 46 ∉ name

namespace Consecutive
variable {ps : List Pull} (h : Consecutive ps) {i j : Nat} {p q : Pull}

theorem statement_at (hp : ps[i]? = some p) : (ps.map Pull.statement)[i]? = some p.statement := by
  rw [List.getElem?_map, hp]
  rfl

include h

theorem backward_eq (hp : ps[i]? = some p) (n : Int) :
    p.labels.backward n = ((ps.map Pull.statement).take i).count (.backwardLabel n) := by
  rw [h.labels i p hp, Labels.backward_foldl_after]
  exact Nat.zero_add _

theorem forward_eq (hp : ps[i]? = some p) (n : Int) :
    p.labels.forward n = ((ps.map Pull.statement).take i).count (.forwardLabel n) := by
  rw [h.labels i p hp, Labels.forward_foldl_after]
  exact Nat.zero_add _

theorem scope_eq (hp : ps[i]? = some p) :
    p.labels.scope = topsBefore (ps.map Pull.statement) i := by
  rw [h.labels i p hp, Labels.scope_foldl_after]
  exact Nat.zero_add _

theorem pathTo_eq (hp : ps[i]? = some p) (depth : Int) (name : Text) :
    p.labels.pathTo depth name = fullPath (ps.map Pull.statement) i depth name := by
  rw [h.labels i p hp]
  exact Labels.pathTo_foldl_after (fun depth name hmem => (h.nested depth name hmem).1) i depth name

/-- The latest backward label is the last one before the place. -/
theorem identity?_eq_latest_iff (hp : ps[i]? = some p) (hq : ps[j]? = some q) (n : Int) :
    q.identity? = some (p.labels.latest n) ↔ Means (ps.map Pull.statement) i (.backward n) j := by
  have hturn : p.labels.latest n = .anonymous .backward n (p.labels.backward n : Int) := rfl
  rw [hturn, Pull.identity?_eq_backward, h.backward_eq hp, h.backward_eq hq]
  have hstatement := statement_at hq
  constructor
  · rintro ⟨hst, hcount⟩
    have hj : (ps.map Pull.statement)[j]? = some (.backwardLabel n) := by rw [hstatement, hst]
    obtain ⟨hlt, hlast⟩ := (count_take_eq_succ_iff hj).1 (Int.ofNat.inj hcount)
    exact ⟨hlt, hj, hlast⟩
  · rintro ⟨hlt, hj, hlast⟩
    refine ⟨by rw [hstatement] at hj; exact Option.some.inj hj, ?_⟩
    rw [(count_take_eq_succ_iff hj).2 ⟨hlt, hlast⟩]

/-- The next forward label is the first one after the place. -/
theorem identity?_eq_next_iff (hp : ps[i]? = some p) (hq : ps[j]? = some q) (n : Int)
    (hi : p.statement ≠ .forwardLabel n) :
    q.identity? = some (p.labels.next n) ↔ Means (ps.map Pull.statement) i (.forward n) j := by
  have hturn : p.labels.next n = .anonymous .forward n (p.labels.forward n + 1 : Nat) := rfl
  rw [hturn, Pull.identity?_eq_forward, h.forward_eq hp, h.forward_eq hq]
  have hstatement := statement_at hq
  have hhere : (ps.map Pull.statement)[i]? ≠ some (.forwardLabel n) := by
    rw [statement_at hp]
    exact fun he => hi (Option.some.inj he)
  constructor
  · rintro ⟨hst, hcount⟩
    have hj : (ps.map Pull.statement)[j]? = some (.forwardLabel n) := by rw [hstatement, hst]
    obtain ⟨hle, hfirst⟩ := (count_take_eq_iff hj).1 (Nat.succ.inj (Int.ofNat.inj hcount))
    have hne : i ≠ j := fun he => hhere (he ▸ hj)
    exact ⟨Nat.lt_of_le_of_ne hle hne, hj, fun k hik => hfirst k (Nat.le_of_lt hik)⟩
  · rintro ⟨hlt, hj, hfirst⟩
    refine ⟨by rw [hstatement] at hj; exact Option.some.inj hj, ?_⟩
    rw [(count_take_eq_iff hj).2 ⟨Nat.le_of_lt hlt, fun k hik hkj => ?_⟩]
    rcases Nat.lt_or_eq_of_le hik with hik | rfl
    · exact hfirst k hik hkj
    · exact hhere

/-- A local name is that of the labels with the same path under the same top-level label. -/
theorem identity?_eq_reference_iff (hp : ps[i]? = some p) (hq : ps[j]? = some q) {depth : Int}
    {name : Text} (hname : 46 ∉ name) :
    q.identity? = some (p.labels.reference depth name) ↔
      Means (ps.map Pull.statement) i (.nested depth name) j := by
  have hstatement := statement_at hq
  have hreference : p.labels.reference depth name = .named (topsBefore (ps.map Pull.statement) i)
      (List.intercalate [46] (fullPath (ps.map Pull.statement) i depth name)) := by
    rw [← h.scope_eq hp, ← h.pathTo_eq hp]
    rfl
  have hdots : ∀ depth name, .localLabel depth name ∈ ps.map Pull.statement → 46 ∉ name :=
    fun depth name hmem => (h.nested depth name hmem).2
  rw [hreference, Pull.identity?_eq_named, h.scope_eq hq]
  constructor
  · rintro ⟨depth', name', hst, hscope, hpath⟩
    have hname' := hdots depth' name' (List.mem_of_getElem? (hst ▸ hstatement))
    rw [h.pathTo_eq hq] at hpath
    exact ⟨depth', name', by rw [hstatement, hst], by omega,
      ((intercalate_fullPath_inj hdots hname hname').1 hpath).symm⟩
  · rintro ⟨depth', name', hst, hscope, hpath⟩
    rw [hstatement] at hst
    refine ⟨depth', name', Option.some.inj hst, by omega, ?_⟩
    rw [h.pathTo_eq hq, hpath]

/-- The identity of a mention is that of a definition if the mention means it, and only then. -/
theorem identity?_eq_resolve_iff (hp : ps[i]? = some p) (hq : ps[j]? = some q) {m : Mention}
    (hm : m.Proper) (hi : p.statement.isAnonymous = false) :
    q.identity? = some (p.labels.resolve m) ↔ Means (ps.map Pull.statement) i m j := by
  cases m with
  | global name => simp [Labels.resolve, Pull.identity?_ne_global, Means]
  | backward n => exact h.identity?_eq_latest_iff hp hq n
  | forward n =>
    apply h.identity?_eq_next_iff hp hq n
    intro he
    rw [he] at hi
    cases hi
  | nested depth name => exact h.identity?_eq_reference_iff hp hq hm.2

/-- A backward label exists for a mention exactly if the mention means one. -/
theorem hasBackward_iff (hp : ps[i]? = some p) (n : Int) :
    p.labels.hasBackward n ↔ ∃ j, Means (ps.map Pull.statement) i (.backward n) j := by
  have hcount : p.labels.hasBackward n = decide (0 < p.labels.backward n) := rfl
  rw [hcount, decide_eq_true_eq, h.backward_eq hp]
  constructor
  · intro hpos
    obtain ⟨j, hj, hja, hlast⟩ := exists_last_of_count_take_pos hpos
    exact ⟨j, hj, hja, hlast⟩
  · rintro ⟨j, hlt, hj, -⟩
    exact Nat.lt_of_le_of_lt (Nat.zero_le _) (count_take_lt hj (Nat.le_refl j) hlt)

/-- No two anonymous definitions share an identity. -/
theorem eq_of_identity?_eq (hp : ps[i]? = some p) (hq : ps[j]? = some q)
    (hanonymous : p.statement.isAnonymous) (hid : p.identity? = q.identity?) : i = j := by
  have hpi := statement_at hp
  have hqj := statement_at hq
  cases hst : p.statement with
  | backwardLabel n =>
    have hpid := Pull.identity?_eq_backward.2 ⟨hst, rfl⟩
    rw [hid, Pull.identity?_eq_backward, h.backward_eq hp, h.backward_eq hq] at hpid
    rw [hst] at hpi
    rw [hpid.1] at hqj
    exact eq_of_count_take_eq hpi hqj (by omega)
  | forwardLabel n =>
    have hpid := Pull.identity?_eq_forward.2 ⟨hst, rfl⟩
    rw [hid, Pull.identity?_eq_forward, h.forward_eq hp, h.forward_eq hq] at hpid
    rw [hst] at hpi
    rw [hpid.1] at hqj
    exact eq_of_count_take_eq hpi hqj (by omega)
  | _ =>
    rw [hst] at hanonymous
    cases hanonymous

/-- Definitions that share an identity stand under the same top-level label. -/
theorem topsBefore_eq_of_identity?_eq (hp : ps[i]? = some p) (hq : ps[j]? = some q) {id : Ident}
    (hpid : p.identity? = some id) (hqid : q.identity? = some id) :
    topsBefore (ps.map Pull.statement) i = topsBefore (ps.map Pull.statement) j := by
  cases id with
  | global name => exact absurd hpid (Pull.identity?_ne_global name)
  | anonymous direction n t =>
    have hanonymous : p.statement.isAnonymous := by
      cases direction with
      | backward => rw [(Pull.identity?_eq_backward.1 hpid).1]; rfl
      | forward => rw [(Pull.identity?_eq_forward.1 hpid).1]; rfl
    rw [h.eq_of_identity?_eq hp hq hanonymous (hpid.trans hqid.symm)]
  | named scope path =>
    obtain ⟨-, -, -, hscope, -⟩ := Pull.identity?_eq_named.1 hpid
    obtain ⟨-, -, -, hscope', -⟩ := Pull.identity?_eq_named.1 hqid
    rw [h.scope_eq hp] at hscope
    rw [h.scope_eq hq] at hscope'
    omega

end Consecutive
end Assembler65816
