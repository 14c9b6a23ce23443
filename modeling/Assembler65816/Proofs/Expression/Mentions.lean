import Assembler65816.Proofs.Expression.Folding
import Assembler65816.Proofs.Text.Blank

/-!
# References as they are written

What a text refers to is written with signs and dots, and only the labels known at its place turn
that into identities. Reading a text under `Labels.asWritten`, which knows a backward label of every
kind and nothing else, keeps all that is written: each identity it yields stands for one `Mention`.

The main statement is that reading under any labels comes to the same as reading as written and then
looking the mentions up. Nothing else in a term depends on labels, and the reading fails for want of
a label only if a mention is of a backward label that does not exist.
-/
namespace Assembler65816

/-- A reference as it is written. -/
inductive Mention
  | global (name : Text)
  | backward (count : Int)
  | forward (count : Int)
  | nested (depth : Int) (name : Text)
  deriving DecidableEq, Repr

/-- Whether a mention can be written: local names have a depth and no dots. -/
def Mention.Proper : Mention → Prop
  | nested depth name => 0 < depth ∧ 46 ∉ name
  | _ => True

namespace Labels

/-- The labels under which a text shows its references as they are written. -/
def asWritten : Labels := {backward := fun _ => 1}

def resolve (l : Labels) : Mention → Ident
  | .global name => .global name
  | .backward count => l.latest count
  | .forward count => l.next count
  | .nested depth name => l.reference depth name

/-- Whether there is anything that a mention can refer to: a backward label has to exist. -/
def knows (l : Labels) : Mention → Bool
  | .backward count => l.hasBackward count
  | _ => true

end Labels

/-- The mention that an identity stands for if it was read as written. -/
def Ident.mention : Ident → Mention
  | global name => .global name
  | anonymous .backward count _ => .backward count
  | anonymous .forward count _ => .forward count
  | named _ path =>
    .nested ((path.takeWhile (· == 46)).length + 1 : Nat) (path.dropWhile (· == 46))

theorem intercalate_dots (k : Nat) (name : Text) :
    List.intercalate [46] (List.replicate k [] ++ [name]) = List.replicate k 46 ++ name := by
  induction k with
  | zero => simp [List.intercalate]
  | succ k ih =>
    rw [List.replicate_succ, List.cons_append, List.replicate_succ, List.cons_append, ← ih]
    cases k <;> rfl

/-- A local name without dots is mentioned by its depth and itself. -/
theorem Labels.mention_reference {depth : Nat} (hdepth : 0 < depth) {name : Text}
    (hname : 46 ∉ name) : (asWritten.reference depth name).mention = .nested depth name := by
  have hpath : asWritten.pathTo depth name = List.replicate (depth - 1) [] ++ [name] := by
    have habove : ((depth : Int) - 1).toNat = depth - 1 := by omega
    simp [pathTo, asWritten, habove]
  have hmention : (asWritten.reference depth name).mention =
      Ident.mention (.named 0 (List.replicate (depth - 1) 46 ++ name)) := by
    rw [Labels.reference, hpath, Labels.named, intercalate_dots]
    rfl
  have hstop : name.head? ≠ some 46 := fun h => hname (List.mem_of_head? h)
  obtain ⟨htake, hdrop⟩ := Text.span_replicate 46 (depth - 1) hstop
  rw [hmention, Ident.mention, htake, hdrop, List.length_replicate]
  congr 2
  omega

theorem Term.proper_of_read {s : Text} {t : Term} (h : Term.read .asWritten s = .ok t) :
    ∀ id ∈ t.references, id.mention.Proper := by
  refine ExprReader.read_keeps (P := fun t => ∀ id ∈ t.references, id.mention.Proper) ?_ ?_ ?_ ?_ h
  · intro s t r h id hid
    rcases ExprReader.primary_eq_ok h with ⟨v, rfl⟩ | ⟨word, rfl⟩ |
      ⟨depth, word, hdepth, hword, rfl⟩
    · cases hid
    · rw [List.mem_singleton.1 hid]
      trivial
    · rw [List.mem_singleton.1 hid, Labels.mention_reference hdepth hword]
      exact ⟨Int.natCast_pos.2 hdepth, hword⟩
  · intro s t r h id hid
    obtain ⟨n, rfl | rfl⟩ := ExprReader.anonymous?_eq_ok h
    · rw [List.mem_singleton.1 hid]
      trivial
    · rw [List.mem_singleton.1 hid]
      trivial
  · intro op x hx
    exact hx
  · intro op x y hx hy id hid
    rcases List.mem_append.1 hid with hid | hid
    · exact hx id hid
    · exact hy id hid

namespace Term

/-- A term read as written, with its mentions looked up. -/
def under? (l : Labels) : Term → Option Term
  | ref id => if l.knows id.mention then some (.ref (l.resolve id.mention)) else none
  | unary op x => (x.under? l).map (unary op)
  | binary op x y => (x.under? l).bind fun x' => (y.under? l).map (binary op x')
  | leaf => some leaf

theorem under?_eq_some {l : Labels} {t t' : Term} (h : t.under? l = some t') :
    (∀ id ∈ t.references, l.knows id.mention) ∧
      t'.references = t.references.map fun id => l.resolve id.mention := by
  induction t generalizing t' with
  | ref id =>
    rw [under?] at h
    split at h
    · rename_i hknows
      cases h
      exact ⟨fun id' hid => by rwa [List.mem_singleton.1 hid], rfl⟩
    · cases h
  | unary op x ih =>
    obtain ⟨x', hx, rfl⟩ := Option.map_eq_some_iff.1 h
    have hih := ih hx
    exact hih
  | binary op x y ihx ihy =>
    obtain ⟨x', hx, h⟩ := Option.bind_eq_some_iff.1 h
    obtain ⟨y', hy, rfl⟩ := Option.map_eq_some_iff.1 h
    obtain ⟨hknowsx, hrefsx⟩ := ihx hx
    obtain ⟨hknowsy, hrefsy⟩ := ihy hy
    refine ⟨fun id hid => ?_, by rw [references, hrefsx, hrefsy, references, List.map_append]⟩
    rcases List.mem_append.1 hid with hid | hid
    · exact hknowsx id hid
    · exact hknowsy id hid
  | empty | constant | offset =>
    cases h
    refine ⟨fun id hid => ?_, rfl⟩
    cases hid

theorem under?_eq_none {l : Labels} {t : Term} (h : t.under? l = none) :
    ∃ id ∈ t.references, l.knows id.mention = false := by
  induction t with
  | ref id =>
    rw [under?] at h
    split at h
    · cases h
    · rename_i hknows
      exact ⟨id, List.mem_singleton.2 rfl, by simpa using hknows⟩
  | unary op x ih => exact ih (Option.map_eq_none_iff.1 h)
  | binary op x y ihx ihy =>
    cases hx : x.under? l with
    | none =>
      obtain ⟨id, hid, hknows⟩ := ihx hx
      exact ⟨id, List.mem_append_left _ hid, hknows⟩
    | some x' =>
      rw [under?, hx] at h
      obtain ⟨id, hid, hknows⟩ := ihy (Option.map_eq_none_iff.1 h)
      exact ⟨id, List.mem_append_right _ hid, hknows⟩
  | empty | constant | offset => cases h

/-- A term that mentions nothing is the same under all labels. -/
theorem under?_of_references (l : Labels) {t : Term} (h : t.references = []) :
    t.under? l = some t := by
  induction t with
  | ref id => cases h
  | unary op x ih => rw [under?, ih h]; rfl
  | binary op x y ihx ihy =>
    rw [references, List.append_eq_nil_iff] at h
    rw [under?, ihx h.1, ihy h.2]
    rfl
  | _ => rfl

theorem value?_of_references_ne {t : Term} (h : t.references ≠ []) : t.value? = none := by
  cases hv : t.value? with
  | none => rfl
  | some v => exact absurd (references_of_value? hv) h

theorem value?_of_under? {l : Labels} {t t' : Term} (h : t.under? l = some t') :
    t'.value? = t.value? := by
  by_cases hrefs : t.references = []
  · rw [under?_of_references l hrefs] at h
    cases h
    rfl
  · have hrefs' : t'.references ≠ [] := by
      rw [(under?_eq_some h).2]
      simpa using hrefs
    rw [value?_of_references_ne hrefs, value?_of_references_ne hrefs']

theorem value?_of_under?_none {l : Labels} {t : Term} (h : t.under? l = none) :
    t.value? = none := by
  obtain ⟨id, hid, -⟩ := under?_eq_none h
  exact value?_of_references_ne (List.ne_nil_of_mem hid)

end Term

namespace ExprReader

/-- A term and a rest, with the mentions of the term looked up. -/
def lookUp (l : Labels) (p : Term × Text) : Option (Term × Text) :=
  (p.1.under? l).map fun t => (t, p.2)

theorem number_under (l : Labels) (radix : Radix) (start digits : Text) :
    (number radix start digits).toOption =
      (number radix start digits).toOption.bind (lookUp l) := by
  cases h : number radix start digits with
  | error e => rfl
  | ok p =>
    unfold number at h
    simp only at h
    split at h
    · cases h
    split at h
    · cases h
      rfl
    · cases h

theorem name_under (l : Labels) (s : Text) :
    (name l s).toOption = (name .asWritten s).toOption.bind (lookUp l) := by
  have hdots := dot_notMem_name (s.dropWhile (· == 46))
  unfold name
  simp only
  split
  · rfl
  split
  · rfl
  · rename_i hdepth
    have hmention := Labels.mention_reference (Nat.pos_of_ne_zero hdepth) hdots
    simp only [Except.toOption, Option.bind_some, lookUp, Term.under?, hmention, Labels.knows,
      Labels.resolve, if_true, Option.map_some]

theorem primary_under (l : Labels) (s : Text) :
    (primary l s).toOption = (primary .asWritten s).toOption.bind (lookUp l) := by
  unfold primary
  split
  · rfl
  split
  · exact number_under ..
  split
  · exact number_under ..
  split
  · exact number_under ..
  split
  · split <;> rfl
  split
  · exact name_under l _
  · rfl

theorem lookUp_latest (l : Labels) (n : Int) (r : Text) :
    lookUp l (.ref (Labels.asWritten.latest n), r) =
      if l.hasBackward n then some (.ref (l.latest n), r) else none := by
  have hunder : Term.under? l (.ref (Labels.asWritten.latest n)) =
      if l.hasBackward n then some (.ref (l.latest n)) else none := rfl
  rw [lookUp, hunder]
  split <;> rfl

theorem anonymous?_under (l : Labels) (s : Text) :
    (anonymous? l s).map Except.toOption =
      (anonymous? .asWritten s).map fun x => x.toOption.bind (lookUp l) := by
  unfold anonymous?
  split
  · rfl
  split
  · rfl
  simp only
  split
  · rfl
  split
  · rfl
  · have hknown : ∀ n : Int, Labels.asWritten.hasBackward n := fun n => rfl
    rw [if_pos (hknown _)]
    simp only [Option.map_some, Except.toOption, Option.bind_some, lookUp_latest]
    split <;> rfl

theorem unary?_under_of_shorter (l : Labels) (s : Text)
    (ih : ∀ r, r.length < s.length → unary? l r = (unary? .asWritten r).bind (lookUp l) ∧
      ∀ least, infixed? l least r = (infixed? .asWritten least r).bind (lookUp l)) :
    unary? l s = (unary? .asWritten s).bind (lookUp l) := by
  rw [unary?_eq, unary?_eq]
  cases hs : skip s with
  | nil => rfl
  | cons c r =>
    obtain ⟨hunary, hinfixed⟩ := ih r (skip_cons_length hs)
    have hanon := anonymous?_under l (c :: r)
    simp only
    cases ha : anonymous? .asWritten (c :: r) with
    | some x =>
      rw [ha] at hanon
      obtain ⟨y, hy, hxy⟩ := Option.map_eq_some_iff.1 hanon
      simp only [hy, hxy]
    | none =>
      rw [ha] at hanon
      rw [Option.map_eq_none_iff.1 hanon]
      simp only
      split
      · rfl
      cases hop : unarySign? c with
      | some op =>
        have hinner : (if op.isSelector then infixed? l 0 r else unary? l r) =
            (if op.isSelector then infixed? .asWritten 0 r else unary? .asWritten r).bind
              (lookUp l) := by
          split
          · exact hinfixed 0
          · exact hunary
        simp only
        rw [hinner]
        cases (if op.isSelector then infixed? .asWritten 0 r else unary? .asWritten r) with
        | none => rfl
        | some p =>
          simp only [Option.bind_some, Option.map_some, lookUp, Term.under?, Option.map_map]
          rfl
      | none =>
        simp only
        split
        · rw [hinfixed 0]
          cases infixed? .asWritten 0 r with
          | none => rfl
          | some p =>
            have hlook : lookUp l p = (p.1.under? l).map fun t => (t, p.2) := rfl
            simp only [Option.bind_some, hlook]
            cases hskip : skip p.2 with
            | nil => cases p.1.under? l <;> simp [hskip]
            | cons d r' =>
              by_cases hd : d = 41
              · subst hd
                cases hu : p.1.under? l <;> simp [hskip, lookUp, hu]
              · cases p.1.under? l <;> simp [hskip, hd]
        · exact primary_under l (c :: r)

theorem climb?_under_of_shorter (l : Labels) (s : Text)
    (ih : ∀ r, r.length < s.length →
      (∀ least, infixed? l least r = (infixed? .asWritten least r).bind (lookUp l)) ∧
        ∀ least left, (left.under? l).bind (fun left' => climb? l least left' r) =
          (climb? .asWritten least left r).bind (lookUp l))
    (least : Nat) (left : Term) :
    (left.under? l).bind (fun left' => climb? l least left' s) =
      (climb? .asWritten least left s).bind (lookUp l) := by
  have hstop : (left.under? l).bind (fun left' => some (left', s)) =
      (some (left, s)).bind (lookUp l) := by
    cases hleft : left.under? l <;> simp [lookUp, hleft]
  have hunfold := fun left' => climb?_eq l least left' s
  rw [climb?_eq .asWritten least left s]
  simp only [hunfold]
  split
  · exact hstop
  rename_i op r ho
  split
  · exact hstop
  have hlt := operator?_skip_length ho
  rw [(ih r hlt).1]
  cases hi : infixed? .asWritten (level op + 1) r with
  | none => simp
  | some p =>
    have hlt' : p.2.length < s.length := Nat.lt_trans (infixed?_length hi) hlt
    -- The left operand is looked up before the right one here, and after it there.
    have hclimb := (ih p.2 hlt').2 least (.binary op left p.1)
    simp only [Option.bind_some]
    rw [← hclimb, Term.under?]
    cases left.under? l <;> cases hright : p.1.under? l <;> simp [lookUp, hright]

/-- Reading under any labels is reading as written and looking the mentions up. -/
theorem readers_under (l : Labels) (s : Text) :
    unary? l s = (unary? .asWritten s).bind (lookUp l) ∧
      (∀ least, infixed? l least s = (infixed? .asWritten least s).bind (lookUp l)) ∧
      ∀ least left, (left.under? l).bind (fun left' => climb? l least left' s) =
        (climb? .asWritten least left s).bind (lookUp l) := by
  induction s using length_induction with
  | h s ih =>
    have hunary := unary?_under_of_shorter l s fun r hr => ⟨(ih r hr).1, (ih r hr).2.1⟩
    refine ⟨hunary, ?_, climb?_under_of_shorter l s fun r hr => (ih r hr).2⟩
    intro least
    rw [infixed?_eq, infixed?_eq, hunary]
    cases hu : unary? .asWritten s with
    | none => rfl
    | some p =>
      have hclimb := (ih p.2 (unary?_length hu)).2.2 least p.1
      simp only [Option.bind_some]
      rw [← hclimb]
      cases hp : p.1.under? l <;> simp [lookUp, hp]

end ExprReader

theorem Term.read_under (l : Labels) (s : Text) :
    (Term.read l s).toOption = (Term.read .asWritten s).toOption.bind (Term.under? l) := by
  rw [Term.toOption_read, Term.toOption_read, (ExprReader.readers_under l s).2.1 0]
  cases ExprReader.infixed? .asWritten 0 s with
  | none => rfl
  | some p =>
    simp only [Option.bind_some, ExprReader.lookUp]
    cases hp : p.1.under? l with
    | none =>
      simp only [Option.map_none, Option.bind_none]
      split <;> simp [hp]
    | some t =>
      simp only [Option.map_some, Option.bind_some]
      split <;> simp [hp]

namespace Mention

def spelling : Mention → Text
  | global name => name
  | backward count => List.replicate count.toNat 45
  | forward count => List.replicate count.toNat 43
  | nested depth name => List.replicate depth.toNat 46 ++ name

/-- Whether a mention has a spelling that can be read. -/
def Writable : Mention → Prop
  | global name => name.head?.any isNameStart ∧ ∀ b ∈ name, isNameByte b
  | backward count | forward count => 0 < count
  | nested depth name => 0 < depth ∧ name ≠ [] ∧ ∀ b ∈ name, isNameByte b

def isNamed : Mention → Bool
  | global _ | nested .. => true
  | backward _ | forward _ => false

end Mention

namespace ExprReader

/-- What is read is the whole expression if nothing but spaces comes after it. -/
theorem read_of_infixed? {labels : Labels} {s r : Text} {t : Term}
    (h : infixed? labels 0 s = some (t, r)) (hr : skip r = []) : Term.read labels s = .ok t := by
  have hread : (Term.read labels s).toOption = some t := by
    rw [Term.toOption_read, h, Option.bind_some, if_pos hr]
  cases hs : Term.read labels s with
  | error e =>
    rw [hs] at hread
    cases hread
  | ok t' =>
    rw [hs] at hread
    cases hread
    rfl

theorem read_of_unary? {labels : Labels} {s : Text} {t : Term}
    (h : unary? labels s = some (t, [])) : Term.read labels s = .ok t := by
  have hclimb : climb? labels 0 t [] = some (t, []) := by
    rw [climb?_eq]
    rfl
  have hinfixed : infixed? labels 0 s = some (t, []) := by
    rw [infixed?_eq, h, Option.bind_some, hclimb]
  exact read_of_infixed? hinfixed rfl

theorem skip_of_head {c : UInt8} {s : Text} (h : isSpaceOrTab c = false) : skip (c :: s) = c :: s :=
  List.dropWhile_cons_of_neg (by simp [h])

/-- A run of signs and nothing else is a reference. -/
theorem unary?_run (direction : Direction) (k : Nat) :
    unary? .asWritten (List.replicate (k + 1) direction.sign) =
      some (.ref (.anonymous direction (k + 1 : Nat) 1), []) := by
  have hblank : isSpaceOrTab direction.sign = false := by cases direction <;> rfl
  have hanonymous : anonymous? .asWritten (List.replicate (k + 1) direction.sign) =
      some (.ok (.ref (.anonymous direction (k + 1 : Nat) 1), [])) := by
    have hstop : [].head? ≠ some direction.sign := fun h => by cases h
    obtain ⟨htake, hdrop⟩ := Text.span_replicate direction.sign (k + 1) hstop
    rw [List.append_nil, List.replicate_succ] at htake hdrop
    rw [List.replicate_succ]
    unfold anonymous?
    simp only [htake, hdrop]
    cases direction <;>
      simp [Direction.sign, standsAlone, skip, Labels.hasBackward, Labels.latest, Labels.next,
        Labels.asWritten]
  rw [List.replicate_succ] at hanonymous ⊢
  rw [unary?_eq, skip_of_head hblank]
  simp only [hanonymous]
  rfl

/-- A byte that can open an operand without signs or parentheses before it. -/
def opensPrimary (b : UInt8) : Bool := b == 36 || b == 37 || b == 39 || b == 46 || isNameByte b

theorem unsigned_of_opensPrimary {b : UInt8} (h : opensPrimary b) :
    isSpaceOrTab b = false ∧ b ≠ 45 ∧ b ≠ 43 ∧ unarySign? b = none ∧ b ≠ 40 ∧ b ≠ 41 ∧ b ≠ 44 := by
  have hbyte := Text.of_all_bytes (p := opensPrimary)
    (q := fun b => !isSpaceOrTab b && b != 45 && b != 43 && (unarySign? b).isNone && b != 40 &&
      b != 41 && b != 44) (by decide +kernel) h
  simpa [and_assoc] using hbyte

theorem unary?_primary {labels : Labels} {c : UInt8} {s r : Text} {t : Term}
    (hc : opensPrimary c) (h : primary labels (c :: s) = .ok (t, r)) :
    unary? labels (c :: s) = some (t, r) := by
  obtain ⟨hblank, hminus, hplus, hsign, hparen, -⟩ := unsigned_of_opensPrimary hc
  have hanonymous : anonymous? labels (c :: s) = none := by simp [anonymous?, hminus, hplus]
  rw [unary?_eq, skip_of_head hblank]
  simp [hanonymous, hsign, hplus, hparen, h, Except.toOption]

def endsName (rest : Text) : Bool := rest.head?.all fun b => !isNameByte b

/-- A name after so many dots, as far as it goes. -/
theorem name_append (labels : Labels) (depth : Nat) {word rest : Text} (hne : word ≠ [])
    (hword : ∀ b ∈ word, isNameByte b) (hrest : endsName rest) :
    name labels (List.replicate depth 46 ++ (word ++ rest)) =
      .ok (.ref (if depth = 0 then .global word else labels.reference depth word), rest) := by
  have hstop : (word ++ rest).head? ≠ some 46 := by
    obtain ⟨b, word, rfl⟩ := List.exists_cons_of_ne_nil hne
    rintro ⟨⟩
    exact absurd (hword 46 List.mem_cons_self) (by decide)
  obtain ⟨htake, hdrop⟩ := Text.span_replicate 46 depth hstop
  obtain ⟨htake', hdrop'⟩ := Text.span_append hword hrest
  have hempty : word.isEmpty = false := by simpa using hne
  simp [name, htake, hdrop, htake', hdrop', hempty]

theorem primary_name {labels : Labels} {c : UInt8} {s : Text} (hc : c = 46 ∨ isNameStart c) :
    primary labels (c :: s) = name labels (c :: s) := by
  have hname : c == 46 || isNameStart c := by simpa using hc
  have hbyte := Text.of_all_bytes (p := fun b => b == 46 || isNameStart b)
    (q := fun b => b != 36 && b != 37 && !isDigit b && b != 39) (by decide +kernel) hname
  simp only [Bool.and_eq_true, bne_iff_ne, Bool.not_eq_true'] at hbyte
  simp [primary, hbyte, hname]

/-- A mention by name is read as far as it goes. -/
theorem unary?_spelling (labels : Labels) {m : Mention} (h : m.Writable) (hnamed : m.isNamed)
    {rest : Text} (hrest : endsName rest) :
    unary? labels (m.spelling ++ rest) = some (.ref (labels.resolve m), rest) := by
  cases m with
  | global word =>
    obtain ⟨hstart, hbytes⟩ := h
    cases word with
    | nil => cases hstart
    | cons c word =>
      have hc : isNameStart c := hstart
      have hopens : opensPrimary c := by simp [opensPrimary, isNameByte, hc]
      refine unary?_primary hopens ?_
      rw [primary_name (.inr hc)]
      exact name_append labels 0 (List.cons_ne_nil c word) hbytes hrest
  | nested depth word =>
    obtain ⟨hdepth, hne, hbytes⟩ := h
    obtain ⟨k, rfl⟩ : ∃ k : Nat, depth = (k + 1 : Nat) := ⟨depth.toNat - 1, by omega⟩
    have hname := name_append labels (k + 1) hne hbytes hrest
    rw [← List.append_assoc] at hname
    refine unary?_primary (c := 46) rfl ?_
    rw [primary_name (.inl rfl)]
    exact hname
  | _ => cases hnamed

end ExprReader

/-- A mention that stands alone is read as that mention. -/
theorem Mention.read_spelling {m : Mention} (h : m.Writable) :
    ∃ id, Term.read .asWritten m.spelling = .ok (.ref id) ∧ id.mention = m := by
  have hrun : ∀ (direction : Direction) (count : Int), 0 < count →
      Term.read .asWritten (List.replicate count.toNat direction.sign) =
        .ok (.ref (.anonymous direction count 1)) := by
    intro direction count hpos
    obtain ⟨k, rfl⟩ : ∃ k : Nat, count = (k + 1 : Nat) := ⟨count.toNat - 1, by omega⟩
    exact ExprReader.read_of_unary? (ExprReader.unary?_run direction k)
  have hname : m.isNamed →
      Term.read .asWritten m.spelling = .ok (.ref (Labels.asWritten.resolve m)) := by
    intro hnamed
    have hend : ExprReader.endsName [] := rfl
    have hunary := ExprReader.unary?_spelling .asWritten h hnamed hend
    rw [List.append_nil] at hunary
    exact ExprReader.read_of_unary? hunary
  cases m with
  | backward count => exact ⟨_, hrun .backward count h, rfl⟩
  | forward count => exact ⟨_, hrun .forward count h, rfl⟩
  | global name => exact ⟨_, hname rfl, rfl⟩
  | nested depth name =>
    obtain ⟨hdepth, -, hbytes⟩ := h
    obtain ⟨k, rfl⟩ : ∃ k : Nat, depth = (k + 1 : Nat) := ⟨depth.toNat - 1, by omega⟩
    have hdots : 46 ∉ name := fun hmem => absurd (hbytes 46 hmem) (by decide)
    exact ⟨_, hname rfl, Labels.mention_reference (Nat.succ_pos k) hdots⟩

end Assembler65816
