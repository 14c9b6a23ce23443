import Assembler65816.Proofs.Expression.Rendering

/-!
# Listings that are read again

A listing puts parentheses around every infix formula and none around a prefix operator. That keeps
`-` and `~` with their operands, but a byte selector takes in everything to its right: listed as the
left operand of an infix operator, it takes the operator and the right operand as well. So every
listing of a term that was read can be read again, but not always as the same term. `Term.relist`
says what it is read as, and the main statement is that this is the term itself exactly if no left
operand has a selector among its prefix operators.

What follows an operand decides what a selector before it takes in, so the induction over the term
is for every text behind the listing and for what that text makes of an operand.
-/
namespace Assembler65816

namespace Term

/-- Whether the listing of the term is open to what stands behind it: one of its prefix operators is
a selector. -/
def isOpen : Term → Bool
  | unary op x => op.isSelector || x.isOpen
  | _ => false

def leftsClosed : Term → Bool
  | unary _ x => x.leftsClosed
  | binary _ l r => !l.isOpen && l.leftsClosed && r.leftsClosed
  | _ => true

/-- What the listing of a term is read as before a text that makes `k x` of an operand `x`. A
selector leaves that text to its own operand, and parentheses keep it out. -/
def relist (k : Term → Term) : Term → Term
  | unary op x =>
    if op.isSelector || x.isOpen then unary op (x.relist k) else k (unary op (x.relist id))
  | binary op l r => k (l.relist fun x => binary op x (r.relist id))
  | leaf => k leaf

theorem relist_of_closed {t : Term} (h : t.isOpen = false) (k : Term → Term) :
    t.relist k = k (t.relist id) := by
  cases t with
  | unary op x =>
    have hclosed : (op.isSelector || x.isOpen) = false := h
    rw [relist, relist, hclosed]
    rfl
  | _ => rfl

theorem relist_unary_of_open {op : UnaryOp} {x : Term} (h : (unary op x).isOpen) (k : Term → Term) :
    (unary op x).relist k = unary op (x.relist k) :=
  if_pos h

theorem relist_unary (op : UnaryOp) (x : Term) : (unary op x).relist id = unary op (x.relist id) := by
  rw [relist]
  split <;> rfl

theorem relist_binary_of_closed {l : Term} (h : l.isOpen = false) (op : BinaryOp) (r : Term) :
    (binary op l r).relist id = binary op (l.relist id) (r.relist id) :=
  relist_of_closed h _

/-- Behind an open left operand, the infix operator ends up inside the selector. -/
theorem relist_binary_of_open {l : Term} (h : l.isOpen) (op : BinaryOp) (r : Term) :
    ∃ o x, (binary op l r).relist id = unary o x := by
  cases l with
  | unary o x =>
    have hrelist := relist_unary_of_open h fun y => binary op y (r.relist id)
    exact ⟨o, _, hrelist⟩
  | _ => cases h

theorem relist_eq_self_iff {t : Term} : t.relist id = t ↔ t.leftsClosed := by
  induction t with
  | unary op x ih => rw [relist_unary, unary.injEq, ih, leftsClosed, eq_self_iff_true, true_and]
  | binary op l r ihl ihr =>
    cases hl : l.isOpen with
    | true =>
      obtain ⟨o, x, hrelist⟩ := relist_binary_of_open hl op r
      rw [hrelist, leftsClosed, hl]
      simp
    | false =>
      rw [relist_binary_of_closed hl, binary.injEq, ihl, ihr, leftsClosed, hl]
      simp
  | _ => exact iff_of_true rfl rfl

/-- Whether all leaves are numbers that are not negative and global names that can be written. -/
def IsListed : Term → Prop
  | constant v => 0 ≤ v.toInt
  | ref id => ∃ name, id = .global name ∧ (Mention.global name).Writable
  | unary _ x => x.IsListed
  | binary _ l r => l.IsListed ∧ r.IsListed
  | empty | offset _ => False

theorem isListed_ofNat {n : Nat} (h : n < 2 ^ 63) : (constant (Int64.ofNat n)).IsListed := by
  rw [IsListed, Int64.toInt_ofNat_of_lt h]
  exact Int.natCast_nonneg n

end Term

namespace ExprReader
variable {labels : Labels} {s r : Text} {t : Term}

theorem isListed_of_number {radix : Radix} {start : Text} (h : number radix start s = .ok (t, r)) :
    t.IsListed := by
  unfold number at h
  simp only at h
  split at h
  · cases h
  split at h
  · rename_i hbound
    cases h
    exact Term.isListed_ofNat hbound
  · cases h

/-- A name without dots before it is the whole run of bytes that it is written with. -/
theorem isListed_of_name {c : UInt8} (hc : c == 46 || isNameStart c)
    (h : name labels (c :: s) = .ok (t, r)) (hglobal : ∀ id ∈ t.references, ∃ w, id = .global w) :
    t.IsListed := by
  unfold name at h
  simp only at h
  split at h
  · cases h
  cases h
  obtain ⟨w, hw⟩ := hglobal _ (List.mem_singleton.2 rfl)
  split at hw
  · rename_i hdepth
    have hdot : (c == 46) = false := by
      by_contra hc
      rw [List.takeWhile_cons_of_pos (by simpa using hc)] at hdepth
      cases hdepth
    have hstart : isNameStart c := by rwa [hdot, Bool.false_or] at hc
    have hdrop : (c :: s).dropWhile (· == 46) = c :: s :=
      List.dropWhile_cons_of_neg (by rw [hdot]; decide)
    rw [hdrop] at hw ⊢
    refine ⟨w, ?_, ?_⟩
    · rw [if_pos hdepth, hw]
    · cases hw
      have hbyte : isNameByte c := by rw [isNameByte, hstart, Bool.true_or]
      rw [List.takeWhile_cons_of_pos hbyte]
      exact ⟨hstart, List.forall_mem_cons.2
        ⟨hbyte, fun b hb => List.all_eq_true.1 List.all_takeWhile b hb⟩⟩
  · cases hw

theorem isListed_of_primary (h : primary labels s = .ok (t, r))
    (hglobal : ∀ id ∈ t.references, ∃ w, id = .global w) : t.IsListed := by
  unfold primary at h
  split at h
  · cases h
  split at h
  · exact isListed_of_number h
  split at h
  · exact isListed_of_number h
  split at h
  · exact isListed_of_number h
  split at h
  · split at h
    · rename_i v r'
      cases h
      exact Term.isListed_ofNat (Nat.lt_trans v.toNat_lt (by decide))
    · cases h
  split at h
  · rename_i hc
    exact isListed_of_name hc h hglobal
  · cases h

end ExprReader

/-- A term that was read can be listed if all its references are global names. -/
theorem Term.isListed_of_read {labels : Labels} {s : Text} {t : Term}
    (h : Term.read labels s = .ok t) (hglobal : ∀ id ∈ t.references, ∃ w, id = .global w) :
    t.IsListed := by
  refine ExprReader.read_keeps
    (P := fun t => (∀ id ∈ t.references, ∃ w, id = Ident.global w) → t.IsListed) ?_ ?_ ?_ ?_ h hglobal
  · exact fun s t r h => ExprReader.isListed_of_primary h
  · intro s t r h hglobal
    obtain ⟨n, rfl | rfl⟩ := ExprReader.anonymous?_eq_ok h
    · obtain ⟨w, hw⟩ := hglobal _ (List.mem_singleton.2 rfl)
      cases hw
    · obtain ⟨w, hw⟩ := hglobal _ (List.mem_singleton.2 rfl)
      cases hw
  · exact fun op x hx => hx
  · intro op x y hx hy hglobal
    exact ⟨hx fun id hid => hglobal id (List.mem_append_left _ hid),
      hy fun id hid => hglobal id (List.mem_append_right _ hid)⟩

namespace ExprReader

/-- What reading makes of the listing of a term, whatever follows it. -/
structure Lists (labels : Labels) (t : Term) : Prop where
  takesSigns : TakesSigns t.text
  /-- A term that is not open is one operand. -/
  closed : t.isOpen = false → ∀ rest, endsName rest →
    unary? labels (t.text ++ rest) = some (t.relist id, rest)
  /-- A term that is open takes in what the rest makes of an operand, up to `tail`. -/
  opened : t.isOpen → ∀ rest k tail, endsName rest →
    (∀ x, climb? labels 0 x rest = some (k x, tail)) → operator? (skip tail) = none →
    unary? labels (t.text ++ rest) = some (t.relist k, tail)

section
variable {labels : Labels}

theorem climb?_of_none {rest : Text} (h : operator? (skip rest) = none) (least : Nat) (t : Term) :
    climb? labels least t rest = some (t, rest) := by
  apply Formula.climb?_of_loose
  intro op r ho
  rw [h] at ho
  cases ho

/-- On its own, a listing is read up to where the rest no longer goes on. -/
theorem Lists.whole {t : Term} (h : Lists labels t) {rest tail : Text} {k : Term → Term}
    (hname : endsName rest) (hk : ∀ x, climb? labels 0 x rest = some (k x, tail))
    (htail : operator? (skip tail) = none) :
    infixed? labels 0 (t.text ++ rest) = some (t.relist k, tail) := by
  rw [infixed?_eq]
  cases hopen : t.isOpen with
  | true =>
    rw [h.opened hopen rest k tail hname hk htail]
    exact climb?_of_none htail 0 _
  | false =>
    rw [h.closed hopen rest hname, Term.relist_of_closed hopen k]
    exact hk _

/-- Where no operator follows, a listing is one operand, open or not. -/
theorem Lists.operand {t : Term} (h : Lists labels t) {rest : Text} (hname : endsName rest)
    (hrest : operator? (skip rest) = none) :
    unary? labels (t.text ++ rest) = some (t.relist id, rest) := by
  cases hopen : t.isOpen with
  | true => exact h.opened hopen rest id rest hname (climb?_of_none hrest 0) hrest
  | false => exact h.closed hopen rest hname

theorem lists_leaf {t : Term} (hopen : t.isOpen = false) (hsigns : TakesSigns t.text)
    (h : ∀ rest, endsName rest → unary? labels (t.text ++ rest) = some (t.relist id, rest)) :
    Lists labels t := by
  refine ⟨hsigns, fun _ => h, fun h => ?_⟩
  rw [hopen] at h
  cases h

theorem takesSigns_of_primary {c : UInt8} (h : opensPrimary c) (s : Text) : TakesSigns (c :: s) := by
  obtain ⟨hblank, hminus, -, -, -, hclose, hcomma⟩ := unsigned_of_opensPrimary h
  exact takesSigns_of_head hblank hminus hclose hcomma s

theorem text_constant {v : Int64} (h : 0 ≤ v.toInt) :
    (Term.constant v).text = 36 :: numeral .hex v.toInt.toNat := by
  have hsign : ¬v < 0 := by
    rw [Int64.lt_iff_toInt_lt]
    exact Int.not_lt.2 h
  have htext : (Term.constant v).text = Term.constantText v := List.append_nil _
  have habs : v.toInt.natAbs = v.toInt.toNat := by omega
  rw [htext, Term.constantText, if_neg hsign, hex, signedNumeral, if_neg (Int.not_lt.2 h), habs]
  rfl

theorem lists_constant {v : Int64} (h : 0 ≤ v.toInt) : Lists labels (.constant v) := by
  have hbound : v.toInt.toNat < 2 ^ 63 := by
    have hlt := v.toInt_lt
    omega
  have hvalue : Int64.ofNat v.toInt.toNat = v := by
    rw [← Int64.ofInt_eq_ofNat, Int.toNat_of_nonneg h, Int64.ofInt_toInt]
  refine lists_leaf rfl ?_ fun rest hrest => ?_
  · rw [text_constant h]
    exact takesSigns_of_primary rfl _
  · rw [text_constant h, unary?_spells labels (Formula.spells_hex _) hbound hrest, hvalue]
    rfl

theorem lists_global {name : Text} (h : (Mention.global name).Writable) :
    Lists labels (.ref (.global name)) := by
  have htext : (Term.ref (.global name)).text = (Mention.global name).spelling := List.append_nil _
  refine lists_leaf rfl ?_ fun rest hrest => ?_
  · obtain ⟨c, s, hs, hc⟩ := exists_head_of_spelling h rfl
    rw [htext, hs]
    exact takesSigns_of_primary hc s
  · rw [htext, unary?_spelling labels h rfl hrest]
    rfl

theorem lists_unary (op : UnaryOp) {x : Term} (hx : Lists labels x) :
    Lists labels (.unary op x) := by
  have hnone : IsSpacing [] := List.forall_mem_nil _
  have hread : ∀ rest, unary? labels ((Term.unary op x).text ++ rest) =
      (if op.isSelector then infixed? labels 0 (x.text ++ rest)
        else unary? labels (x.text ++ rest)).map
          fun p => (.unary op p.1, p.2) := by
    intro rest
    rw [Term.text_unary, List.append_assoc]
    exact unary?_sign labels op hnone hx.takesSigns rest
  refine ⟨?_, fun hclosed rest hname => ?_, fun hopen rest k tail hname hk htail => ?_⟩
  · rw [Term.text_unary]
    cases op with
    | neg => exact takesSigns_minus hnone hx.takesSigns
    | _ => exact takesSigns_of_head rfl (by decide) (by decide) (by decide) _
  · obtain ⟨hop, hxclosed⟩ := Bool.or_eq_false_iff.1 hclosed
    rw [hread, hop, if_neg Bool.false_ne_true, hx.closed hxclosed rest hname, Term.relist_unary]
    rfl
  · rw [hread, Term.relist_unary_of_open hopen]
    cases hop : op.isSelector with
    | true =>
      rw [if_pos rfl, hx.whole hname hk htail]
      rfl
    | false =>
      have hxopen : x.isOpen := by rwa [Term.isOpen, hop, Bool.false_or] at hopen
      rw [if_neg Bool.false_ne_true, hx.opened hxopen rest k tail hname hk htail]
      rfl

theorem lists_binary (op : BinaryOp) {l r : Term} (hl : Lists labels l) (hr : Lists labels r) :
    Lists labels (.binary op l r) := by
  have htext : ∀ rest, (Term.binary op l r).text ++ rest =
      40 :: (l.text ++ ([32] ++ (ascii op.sign ++ ([32] ++ (r.text ++ 41 :: rest))))) := by
    intro rest
    have hparen : ascii "(" = [40] := rfl
    have hspace : ascii " " = [32] := rfl
    have hclose : ascii ")" = [41] := rfl
    rw [Term.text_binary, hparen, hspace, hclose]
    simp only [List.append_assoc, List.cons_append, List.nil_append]
  have hspace : IsSpacing [32] := List.forall_mem_singleton.2 rfl
  have hstop : ∀ rest, operator? (skip (41 :: rest)) = none := fun rest => rfl
  -- What follows the left operand makes an infix formula of it.
  have hclimb : ∀ rest x, climb? labels 0 x
      ([32] ++ (ascii op.sign ++ ([32] ++ (r.text ++ 41 :: rest)))) =
        some (.binary op x (r.relist id), 41 :: rest) := by
    intro rest x
    have hsign : skip (ascii op.sign ++ ([32] ++ (r.text ++ 41 :: rest))) =
        ascii op.sign ++ ([32] ++ (r.text ++ 41 :: rest)) := by cases op <;> rfl
    have hright : infixed? labels (level op + 1)
        ([32] ++ (r.text ++ 41 :: rest)) = some (r.relist id, 41 :: rest) := by
      rw [infixed?_spacing hspace, infixed?_eq, hr.operand rfl (hstop rest)]
      exact climb?_of_none (hstop rest) _ _
    rw [climb?_eq, skip_spacing hspace, hsign, operator?_sign]
    simp only [Nat.not_lt_zero, if_false, hright, Option.bind_some]
    exact climb?_of_none (hstop rest) _ _
  have hread : ∀ rest, unary? labels ((Term.binary op l r).text ++ rest) =
      some ((Term.binary op l r).relist id, rest) := by
    intro rest
    have hname : endsName ([32] ++ (ascii op.sign ++ ([32] ++ (r.text ++ 41 :: rest)))) := rfl
    rw [htext]
    exact unary?_parenthesis labels (hl.whole hname (hclimb rest) (hstop rest))
      (skip_of_head rfl)
  refine lists_leaf rfl ?_ fun rest _ => hread rest
  have htext' := htext []
  rw [List.append_nil] at htext'
  rw [htext']
  exact takesSigns_of_head rfl (by decide) (by decide) (by decide) _

theorem lists_of_isListed {t : Term} (h : t.IsListed) : Lists labels t := by
  induction t with
  | constant v => exact lists_constant h
  | ref id =>
    obtain ⟨name, rfl, hname⟩ := h
    exact lists_global hname
  | unary op x ih => exact lists_unary op (ih h)
  | binary op l r ihl ihr => exact lists_binary op (ihl h.1) (ihr h.2)
  | empty | offset => cases h

end
end ExprReader

namespace Term

theorem read_text {t : Term} (h : t.IsListed) (labels : Labels) :
    Term.read labels t.text = .ok (t.relist id) := by
  have hlists : ExprReader.Lists labels t := ExprReader.lists_of_isListed h
  have hinfixed : ExprReader.infixed? labels 0 (t.text ++ []) = some (t.relist id, []) :=
    hlists.whole rfl (ExprReader.climb?_of_none rfl 0) rfl
  rw [List.append_nil] at hinfixed
  exact ExprReader.read_of_infixed? hinfixed rfl

theorem read_of_rendered (labels : Labels) {t : Formula} {s : Text} (h : t.Rendered .whole s) :
    Term.read labels s = .ok (t.term labels) := by
  have hinfixed : ExprReader.infixed? labels 0 (s ++ []) = some (t.term labels, []) :=
    (h.reads labels).whole rfl rfl
  rw [List.append_nil] at hinfixed
  exact ExprReader.read_of_infixed? hinfixed rfl

/-- The listing of a term that was read, with global names only, can be read again. It is read as
the same term exactly if no left operand of an infix operator has a byte selector among its prefix
operators. -/
theorem read_text_iff {labels labels' : Labels} {s : Text} {t : Term}
    (h : Term.read labels s = .ok t) (hglobal : ∀ id ∈ t.references, ∃ name, id = .global name) :
    Term.read labels' t.text = .ok (t.relist id) ∧
      (Term.read labels' t.text = .ok t ↔ t.leftsClosed) := by
  have hread := read_text (isListed_of_read h hglobal) labels'
  refine ⟨hread, ?_⟩
  rw [hread, Except.ok.injEq, relist_eq_self_iff]

/-- Selectors as right operands, under each other and behind a minus sign. -/
theorem read_text_iff_of_selectors :
    let t : Term := .binary .sub (.unary .neg (.ref (.global (ascii "x"))))
      (.unary .low (.binary .add (.ref (.global (ascii "y")))
        (.unary .bank (.ref (.global (ascii "z"))))))
    Term.read {} (ascii "-x-(<y+(^z))") = .ok t ∧
      (∀ id ∈ t.references, ∃ name, id = .global name) ∧
      t.text = ascii "(-x - <(y + ^z))" ∧ Term.read {} t.text = .ok t := by
  intro t
  let x : Formula := .symbol (.global (ascii "x")) ⟨rfl, List.all_eq_true.1 rfl⟩ rfl
  let y : Formula := .symbol (.global (ascii "y")) ⟨rfl, List.all_eq_true.1 rfl⟩ rfl
  let z : Formula := .symbol (.global (ascii "z")) ⟨rfl, List.all_eq_true.1 rfl⟩ rfl
  have hnone : IsSpacing [] := fun c hc => by cases hc
  have hinner : (Formula.binary .add y (.unary .bank z)).Rendered .whole (ascii "y+(^z)") :=
    @Formula.Rendered.infixed _ .add _ _ _ _ _ _ (Nat.zero_le _) .symbol hnone hnone
      (.parentheses hnone (@Formula.Rendered.selector .bank _ _ _ rfl hnone .symbol) hnone)
  have hread : Term.read {} (ascii "-x-(<y+(^z))") = .ok t :=
    read_of_rendered {} (@Formula.Rendered.infixed _ .sub _ _ _ _ _ _ (Nat.zero_le _)
      (@Formula.Rendered.sign _ .neg x _ _ rfl hnone .symbol) hnone hnone
      (.parentheses hnone (@Formula.Rendered.selector .low _ _ _ rfl hnone hinner) hnone))
  have hglobal : ∀ id ∈ t.references, ∃ name, id = .global name :=
    List.forall_mem_cons.2 ⟨⟨_, rfl⟩,
      List.forall_mem_cons.2 ⟨⟨_, rfl⟩, List.forall_mem_singleton.2 ⟨_, rfl⟩⟩⟩
  exact ⟨hread, hglobal, rfl, (read_text_iff hread hglobal).2.2 rfl⟩

/-- A selector as the left operand of a sum takes in the sum when its listing is read. -/
theorem exists_read_text_ne :
    ∃ (labels : Labels) (s : Text) (t : Term), Term.read labels s = .ok t ∧
      (∀ id ∈ t.references, ∃ name, id = .global name) ∧ Term.read labels t.text ≠ .ok t := by
  let t : Term :=
    .binary .add (.unary .low (.ref (.global (ascii "b")))) (.ref (.global (ascii "a")))
  let a : Formula := .symbol (.global (ascii "a")) ⟨rfl, List.all_eq_true.1 rfl⟩ rfl
  let b : Formula := .symbol (.global (ascii "b")) ⟨rfl, List.all_eq_true.1 rfl⟩ rfl
  have hnone : IsSpacing [] := fun c hc => by cases hc
  have hselector : (Formula.unary .low b).Rendered .whole (ascii "<b") :=
    @Formula.Rendered.selector .low _ _ _ rfl hnone .symbol
  have hsum : (Formula.binary .add (.unary .low b) a).Rendered .whole (ascii "(<b)+a") :=
    @Formula.Rendered.infixed _ .add _ _ _ _ _ _ (Nat.zero_le _)
      (.parentheses hnone hselector hnone) hnone hnone .symbol
  have hread : Term.read {} (ascii "(<b)+a") = .ok t := read_of_rendered {} hsum
  have hglobal : ∀ id ∈ t.references, ∃ name, id = .global name :=
    List.forall_mem_cons.2 ⟨⟨_, rfl⟩, List.forall_mem_singleton.2 ⟨_, rfl⟩⟩
  refine ⟨{}, _, t, hread, hglobal, ?_⟩
  rw [read_text (isListed_of_read hread hglobal), Ne, Except.ok.injEq, relist_eq_self_iff]
  exact Bool.false_ne_true

end Term
end Assembler65816
