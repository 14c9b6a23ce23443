import Mathlib.Algebra.Ring.Nat
import Assembler65816.Proofs.Expression.Mentions
import Assembler65816.Proofs.Text.Numeral

/-!
# Formulas as they are written

A formula is what a writer has in mind: numbers and names under operators, as a tree. On paper it
takes parentheses where an operator would bind otherwise, and it may have more of them, and spaces
between its tokens. `Formula.Rendered` says which texts write a formula in which place, where the
levels of the operators decide which parentheses have to be there.

The main statement is that every formula can be written and that each of its texts is read as that
formula, whatever labels there are. Several signs have two uses: `-`, `^` and `%` stand before an
operand and between two, `<` is the start of `<<`, and a run of `-` may be a label. What tells them
apart is the place, so the induction is over the rendering, with the rest of the text general.
-/
namespace Assembler65816

inductive Formula
  | constant (v : Nat) (bound : v < 2 ^ 63)
  | symbol (m : Mention) (writable : m.Writable) (named : m.isNamed)
  | unary (op : UnaryOp) (x : Formula)
  | binary (op : BinaryOp) (l r : Formula)

def Formula.term (labels : Labels) : Formula → Term
  | constant v _ => .constant (Int64.ofNat v)
  | symbol m _ _ => .ref (labels.resolve m)
  | unary op x => .unary op (x.term labels)
  | binary op l r => .binary op (l.term labels) (r.term labels)

/-- What may stand between two tokens. -/
def IsSpacing (g : Text) : Prop := ∀ b ∈ g, isSpaceOrTab b

/-- Whether a row of digits denotes `v`. Underscores may stand anywhere after the first digit. -/
structure Radix.Denotes (radix : Radix) (digits : Text) (v : Nat) : Prop where
  starts : digits.head?.any radix.isDigitOf
  continues : ∀ b ∈ digits, radix.isDigitOf b || b == 95
  value_eq : numeralValue radix (digits.filter (· != 95)) = v

/-- Digits without underscores. -/
theorem Radix.denotes_numeralValue {radix : Radix} {digits : Text} (hne : digits ≠ [])
    (hdigits : ∀ b ∈ digits, radix.isDigitOf b) :
    radix.Denotes digits (numeralValue radix digits) := by
  have hplain : digits.filter (· != 95) = digits := by
    refine List.filter_eq_self.2 fun b hb => ?_
    have hne : b ≠ 95 := by
      rintro rfl
      have hdigit := hdigits 95 hb
      cases radix <;> cases hdigit
    simpa using hne
  refine ⟨?_, fun b hb => by simp [hdigits b hb], by rw [hplain]⟩
  obtain ⟨d, digits, rfl⟩ := List.exists_cons_of_ne_nil hne
  exact hdigits d List.mem_cons_self

namespace Formula
open ExprReader (level)

inductive Spells (v : Nat) : Text → Prop
  | hex {digits : Text} : Radix.hex.Denotes digits v → Spells v (36 :: digits)
  | binary {digits : Text} : Radix.binary.Denotes digits v → Spells v (37 :: digits)
  | decimal {digits : Text} : Radix.decimal.Denotes digits v → Spells v digits
  | character {b : UInt8} : b.toNat = v → Spells v [39, b, 39]

/-- Where a formula stands: on its own, or as an operand, where an infix formula does without
parentheses only if its operator is of the level `least` or tighter. -/
inductive Slot
  | whole
  | operand (least : Nat)

def Slot.least : Slot → Nat
  | whole => 0
  | operand least => least

/-- The texts that write a formula in a slot. Parentheses may be put around anything. An infix
formula does without them if its operator is tight enough, which none is after a prefix `-` or `~`,
and a byte selector does without them on its own only. -/
inductive Rendered : Slot → Formula → Text → Prop
  | constant {slot : Slot} {v : Nat} {bound : v < 2 ^ 63} {s : Text} :
      Spells v s → Rendered slot (.constant v bound) s
  | symbol {slot : Slot} {m : Mention} {writable : m.Writable} {named : m.isNamed} :
      Rendered slot (.symbol m writable named) m.spelling
  | parentheses {slot : Slot} {t : Formula} {g s g' : Text} :
      IsSpacing g → Rendered .whole t s → IsSpacing g' →
      Rendered slot t (40 :: (g ++ (s ++ (g' ++ [41]))))
  | sign {slot : Slot} {op : UnaryOp} {x : Formula} {g s : Text} :
      op.isSelector = false → IsSpacing g → Rendered (.operand 6) x s →
      Rendered slot (.unary op x) (ascii op.sign ++ (g ++ s))
  | selector {op : UnaryOp} {x : Formula} {g s : Text} :
      op.isSelector → IsSpacing g → Rendered .whole x s →
      Rendered .whole (.unary op x) (ascii op.sign ++ (g ++ s))
  | infixed {slot : Slot} {op : BinaryOp} {l r : Formula} {s g g' s' : Text} :
      slot.least ≤ level op → Rendered (.operand (level op)) l s → IsSpacing g → IsSpacing g' →
      Rendered (.operand (level op + 1)) r s' →
      Rendered slot (.binary op l r) (s ++ (g ++ (ascii op.sign ++ (g' ++ s'))))

end Formula

namespace ExprReader

theorem level_le (op : BinaryOp) : level op ≤ 5 := by
  cases op <;> decide

theorem operator?_sign (op : BinaryOp) (r : Text) :
    operator? (ascii op.sign ++ r) = some (op, r) := by
  cases op <;> rfl

section Spacing
variable {g : Text} (h : IsSpacing g) (s : Text)
include h

theorem skip_spacing : skip (g ++ s) = skip s := List.dropWhile_append_of_pos h

theorem unary?_spacing (labels : Labels) : unary? labels (g ++ s) = unary? labels s := by
  rw [unary?_eq, skip_spacing h, ← unary?_eq]

theorem infixed?_spacing (labels : Labels) (least : Nat) :
    infixed? labels least (g ++ s) = infixed? labels least s := by
  rw [infixed?_eq, unary?_spacing h, ← infixed?_eq]

theorem standsAlone_spacing : standsAlone (g ++ s) = standsAlone s := by
  rw [standsAlone, skip_spacing h, standsAlone]

theorem endsName_spacing (hs : endsName s) : endsName (g ++ s) := by
  cases g with
  | nil => exact hs
  | cons b g =>
    exact Text.of_all_bytes (p := isSpaceOrTab) (q := fun b => !isNameByte b) (by decide +kernel)
      (h b List.mem_cons_self)

end Spacing

theorem isNameByte_of_isNumberPart {radix : Radix} {b : UInt8} (h : isNumberPart radix b) :
    isNameByte b := by
  cases radix <;> exact Text.of_all_bytes (p := isNumberPart _) (by decide +kernel) h

/-- A row of digits is read as far as it goes. -/
theorem number_append {radix : Radix} {digits : Text} {v : Nat} (h : radix.Denotes digits v)
    (bound : v < 2 ^ 63) (start : Text) {rest : Text} (hrest : endsName rest) :
    number radix start (digits ++ rest) = .ok (.constant (Int64.ofNat v), rest) := by
  have hparts : ∀ b ∈ digits, isNumberPart radix b := h.continues
  have hstop : rest.head?.all fun b => !isNumberPart radix b := by
    cases rest with
    | nil => rfl
    | cons b rest =>
      have hb : isNameByte b = false := by simpa [endsName] using hrest
      simp only [List.head?_cons, Option.all_some, Bool.not_eq_true']
      by_contra hpart
      rw [Bool.not_eq_false] at hpart
      rw [isNameByte_of_isNumberPart hpart] at hb
      cases hb
  have hwritten : (digits.filter (· != 95)).isEmpty = false := by
    cases digits with
    | nil => cases h.starts
    | cons d digits =>
      have hd : d ≠ 95 := by
        rintro rfl
        have hdigit := h.starts
        cases radix <;> cases hdigit
      simp [hd]
  obtain ⟨htake, hdrop⟩ := Text.span_append hparts hstop
  simp only [number, htake, hdrop, hwritten, h.value_eq]
  exact if_pos bound

theorem opensPrimary_of_isDigitOf {radix : Radix} {b : UInt8} (h : radix.isDigitOf b) :
    opensPrimary b := by
  have hpart : isNumberPart radix b := by simp [isNumberPart, h]
  simp [opensPrimary, isNameByte_of_isNumberPart hpart]

/-- A number is read as far as it goes, however it is written. -/
theorem unary?_spells (labels : Labels) {v : Nat} {s : Text} (h : Formula.Spells v s)
    (bound : v < 2 ^ 63) {rest : Text} (hrest : endsName rest) :
    unary? labels (s ++ rest) = some (.constant (Int64.ofNat v), rest) := by
  cases h with
  | hex h => exact unary?_primary (c := 36) rfl (number_append h bound _ hrest)
  | binary h => exact unary?_primary (c := 37) rfl (number_append h bound _ hrest)
  | decimal h =>
    cases s with
    | nil => cases h.starts
    | cons d digits =>
      have hd : Radix.decimal.isDigitOf d := h.starts
      have hbyte := Text.of_all_bytes (p := Radix.decimal.isDigitOf)
        (q := fun b => b != 36 && b != 37 && isDigit b) (by decide +kernel) hd
      simp only [Bool.and_eq_true, bne_iff_ne] at hbyte
      have hprimary : primary labels (d :: (digits ++ rest)) =
          number .decimal (d :: (digits ++ rest)) (d :: digits ++ rest) := by
        simp [primary, hbyte]
      refine unary?_primary (opensPrimary_of_isDigitOf hd) ?_
      exact hprimary.trans (number_append h bound _ hrest)
  | character hb =>
    subst hb
    exact unary?_primary (c := 39) rfl rfl

theorem exists_head_of_spells {v : Nat} {s : Text} (h : Formula.Spells v s) :
    ∃ c r, s = c :: r ∧ opensPrimary c := by
  cases h with
  | hex | binary | character => exact ⟨_, _, rfl, rfl⟩
  | decimal h =>
    cases s with
    | nil => cases h.starts
    | cons d digits => exact ⟨d, digits, rfl, opensPrimary_of_isDigitOf h.starts⟩

theorem exists_head_of_spelling {m : Mention} (h : m.Writable) (hnamed : m.isNamed) :
    ∃ c r, m.spelling = c :: r ∧ opensPrimary c := by
  cases m with
  | global word =>
    cases word with
    | nil => cases h.1
    | cons c word =>
      have hc : isNameByte c := h.2 c List.mem_cons_self
      exact ⟨c, word, rfl, by simp [opensPrimary, hc]⟩
  | nested depth word =>
    obtain ⟨k, rfl⟩ : ∃ k : Nat, depth = (k + 1 : Nat) := ⟨depth.toNat - 1, by have := h.1; omega⟩
    exact ⟨46, List.replicate k 46 ++ word, rfl, rfl⟩
  | _ => cases hnamed

/-- Whether signs before the text have something to apply to, instead of standing alone. -/
def TakesSigns (s : Text) : Prop :=
  ∀ rest, standsAlone (s ++ rest) = false ∧
    standsAlone ((s ++ rest).dropWhile (· == 45)) = false

theorem takesSigns_of_head {c : UInt8} (hblank : isSpaceOrTab c = false) (hminus : c ≠ 45)
    (hclose : c ≠ 41) (hcomma : c ≠ 44) (s : Text) : TakesSigns (c :: s) := by
  intro rest
  have halone : standsAlone (c :: (s ++ rest)) = false := by
    simp [standsAlone, skip_of_head hblank, hclose, hcomma]
  refine ⟨halone, ?_⟩
  rw [List.cons_append, List.dropWhile_cons_of_neg (by simp [hminus])]
  exact halone

theorem takesSigns_minus {g s : Text} (hg : IsSpacing g) (hs : TakesSigns s) :
    TakesSigns (45 :: (g ++ s)) := by
  intro rest
  refine ⟨rfl, ?_⟩
  rw [List.cons_append, List.dropWhile_cons_of_pos rfl, List.append_assoc]
  cases g with
  | nil => exact (hs rest).2
  | cons b g =>
    -- The run ends at the space, and the space is skipped.
    have hblank : isSpaceOrTab b := hg b List.mem_cons_self
    have hb : b ≠ 45 := by
      rintro rfl
      cases hblank
    rw [List.cons_append, List.dropWhile_cons_of_neg (by simpa using hb), ← List.cons_append,
      standsAlone_spacing hg]
    exact (hs rest).1

/-- A prefix operator before an operand is not taken for a label. -/
theorem anonymous?_sign (labels : Labels) (op : UnaryOp) {g s : Text} (hg : IsSpacing g)
    (hs : TakesSigns s) (rest : Text) :
    anonymous? labels (ascii op.sign ++ (g ++ (s ++ rest))) = none := by
  cases op with
  | neg =>
    have hrun := (takesSigns_minus hg hs rest).2
    rw [List.cons_append, List.append_assoc] at hrun
    have hsign : ascii UnaryOp.neg.sign = [45] := rfl
    rw [hsign, List.singleton_append, anonymous?]
    simp only [hrun]
    rfl
  | _ => rfl

theorem unary?_sign (labels : Labels) (op : UnaryOp) {g s : Text} (hg : IsSpacing g)
    (hs : TakesSigns s) (rest : Text) :
    unary? labels (ascii op.sign ++ (g ++ (s ++ rest))) =
      (if op.isSelector then infixed? labels 0 (s ++ rest) else unary? labels (s ++ rest)).map
        fun p => (.unary op p.1, p.2) := by
  have hanonymous := anonymous?_sign labels op hg hs rest
  obtain ⟨c, hsign, hunary, hblank, hplus⟩ : ∃ c, ascii op.sign = [c] ∧ unarySign? c = some op ∧
      isSpaceOrTab c = false ∧ c ≠ 43 := by
    cases op <;> exact ⟨_, rfl, rfl, rfl, by decide⟩
  rw [hsign, List.singleton_append] at hanonymous ⊢
  rw [unary?_eq, skip_of_head hblank, ← unary?_spacing hg (s ++ rest),
    ← infixed?_spacing hg (s ++ rest)]
  simp [hanonymous, hunary, hplus]

theorem unary?_parenthesis (labels : Labels) {s rest : Text} {t : Term}
    (h : infixed? labels 0 s = some (t, rest)) {r : Text} (hrest : skip rest = 41 :: r) :
    unary? labels (40 :: s) = some (t, r) := by
  have hanonymous : anonymous? labels (40 :: s) = none := rfl
  have hsign : unarySign? 40 = none := rfl
  rw [unary?_eq, skip_of_head rfl]
  simp [hanonymous, hsign, h, hrest]

end ExprReader

namespace Formula
open ExprReader

theorem Rendered.takesSigns {slot : Slot} {t : Formula} {s : Text} (h : t.Rendered slot s) :
    TakesSigns s := by
  induction h with
  | constant h =>
    obtain ⟨c, r, rfl, hc⟩ := exists_head_of_spells h
    obtain ⟨hblank, hminus, -, -, -, hclose, hcomma⟩ := unsigned_of_opensPrimary hc
    exact takesSigns_of_head hblank hminus hclose hcomma r
  | @symbol slot m writable named =>
    obtain ⟨c, r, hs, hc⟩ := exists_head_of_spelling writable named
    obtain ⟨hblank, hminus, -, -, -, hclose, hcomma⟩ := unsigned_of_opensPrimary hc
    rw [hs]
    exact takesSigns_of_head hblank hminus hclose hcomma r
  | parentheses => exact takesSigns_of_head rfl (by decide) (by decide) (by decide) _
  | @sign slot op x g s hop hg h ih =>
    cases op with
    | neg =>
      have hsign : ascii UnaryOp.neg.sign = [45] := rfl
      rw [hsign, List.singleton_append]
      exact takesSigns_minus hg ih
    | not => exact takesSigns_of_head rfl (by decide) (by decide) (by decide) _
    | _ => cases hop
  | @selector op x g s hop hg h ih =>
    cases op with
    | neg | not => cases hop
    | _ => exact takesSigns_of_head rfl (by decide) (by decide) (by decide) _
  | infixed hop hl hg hg' hr ihl ihr =>
    intro rest
    rw [List.append_assoc]
    exact ihl _

/-- Whether a formula in the slot ends before `rest`: no operator follows that it would be an
operand of. -/
def Slot.Ends : Slot → Text → Prop
  | whole, rest => operator? (skip rest) = none
  | operand least, rest => ∀ op r, operator? (skip rest) = some (op, r) → level op ≤ least

/-- What reading makes of a rendering, whatever follows it. -/
structure Reads (labels : Labels) (slot : Slot) (t : Term) (s : Text) : Prop where
  /-- It is a left operand for what follows. -/
  infixed : ∀ least rest, least ≤ slot.least → endsName rest → slot.Ends rest →
    infixed? labels least (s ++ rest) = climb? labels least t rest
  /-- Where no infix formula goes without parentheses, it is one operand. -/
  unary : 6 ≤ slot.least → ∀ rest, endsName rest → unary? labels (s ++ rest) = some (t, rest)

section Reads
variable {labels : Labels} {slot : Slot} {t : Term} {s : Text}

theorem Reads.of_unary?
    (h : ∀ rest, endsName rest → unary? labels (s ++ rest) = some (t, rest)) :
    Reads labels slot t s := by
  refine ⟨fun least rest _ hrest _ => ?_, fun _ => h⟩
  rw [infixed?_eq, h rest hrest, Option.bind_some]

/-- Operators that are too loose are left alone. -/
theorem climb?_of_loose {least : Nat} {rest : Text}
    (h : ∀ op r, operator? (skip rest) = some (op, r) → level op < least) :
    climb? labels least t rest = some (t, rest) := by
  rw [climb?_eq]
  split
  next => rfl
  next op r ho => rw [if_pos (h op r ho)]

theorem Reads.whole (h : Reads labels .whole t s) {rest : Text} (hname : endsName rest)
    (hends : operator? (skip rest) = none) : infixed? labels 0 (s ++ rest) = some (t, rest) := by
  rw [h.infixed 0 rest (Nat.le_refl 0) hname hends]
  apply climb?_of_loose
  intro op r ho
  rw [hends] at ho
  cases ho

/-- An operator joins its operands and leaves what follows to go on from there. -/
theorem Reads.infixed_binary {op : BinaryOp} {l r : Term} {g g' s' : Text}
    (hop : slot.least ≤ level op) (hl : Reads labels (.operand (level op)) l s) (hg : IsSpacing g)
    (hg' : IsSpacing g') (hr : Reads labels (.operand (level op + 1)) r s') {least : Nat}
    {rest : Text} (hleast : least ≤ slot.least) (hrest : endsName rest) (hends : slot.Ends rest) :
    infixed? labels least (s ++ (g ++ (ascii op.sign ++ (g' ++ (s' ++ rest))))) =
      climb? labels least (.binary op l r) rest := by
  have hskip : operator? (skip (g ++ (ascii op.sign ++ (g' ++ (s' ++ rest))))) =
      some (op, g' ++ (s' ++ rest)) := by
    have hsign : skip (ascii op.sign ++ (g' ++ (s' ++ rest))) =
        ascii op.sign ++ (g' ++ (s' ++ rest)) := by cases op <;> rfl
    rw [skip_spacing hg, hsign, operator?_sign]
  have hname : endsName (g ++ (ascii op.sign ++ (g' ++ (s' ++ rest)))) :=
    endsName_spacing hg _ (by cases op <;> rfl)
  have hloose : ∀ op' r', operator? (skip rest) = some (op', r') → level op' ≤ level op := by
    intro op' r' ho
    cases slot with
    | whole =>
      rw [Slot.Ends, ho] at hends
      cases hends
    | operand k => exact Nat.le_trans (hends op' r' ho) hop
  have hright : infixed? labels (level op + 1) (g' ++ (s' ++ rest)) = some (r, rest) := by
    rw [infixed?_spacing hg', hr.infixed (level op + 1) rest (Nat.le_refl _) hrest]
    · exact climb?_of_loose fun op' r' ho => Nat.lt_succ_of_le (hloose op' r' ho)
    · exact fun op' r' ho => Nat.le_succ_of_le (hloose op' r' ho)
  have hnot : ¬level op < least := by omega
  rw [hl.infixed least _ (by simp only [Slot.least]; omega) hname, climb?_eq, hskip]
  · simp only [hnot, if_false, hright, Option.bind_some]
  · intro op' r' ho
    rw [hskip] at ho
    cases ho
    exact Nat.le_refl _

end Reads

theorem Rendered.reads (labels : Labels) {slot : Slot} {t : Formula} {s : Text}
    (h : t.Rendered slot s) : Reads labels slot (t.term labels) s := by
  induction h with
  | @constant slot v bound s h =>
    exact .of_unary? fun rest hrest => unary?_spells labels h bound hrest
  | @symbol slot m writable named =>
    exact .of_unary? fun rest hrest => unary?_spelling labels writable named hrest
  | @parentheses slot t g s g' hg h hg' ih =>
    refine .of_unary? fun rest hrest => ?_
    have hclose : skip (g' ++ 41 :: rest) = 41 :: rest := by
      rw [skip_spacing hg', skip_of_head rfl]
    have hinner : infixed? labels 0 (g ++ (s ++ (g' ++ 41 :: rest))) =
        some (t.term labels, g' ++ 41 :: rest) := by
      rw [infixed?_spacing hg]
      refine ih.whole (endsName_spacing hg' _ rfl) ?_
      rw [hclose]
      rfl
    have htext : 40 :: (g ++ (s ++ (g' ++ [41]))) ++ rest =
        40 :: (g ++ (s ++ (g' ++ 41 :: rest))) := by simp
    rw [htext]
    exact unary?_parenthesis labels hinner hclose
  | @sign slot op x g s hop hg h ih =>
    refine .of_unary? fun rest hrest => ?_
    rw [List.append_assoc, List.append_assoc, unary?_sign labels op hg h.takesSigns, hop,
      if_neg Bool.false_ne_true, ih.unary (Nat.le_refl 6) rest hrest]
    rfl
  | @selector op x g s hop hg h ih =>
    refine ⟨fun least rest _ hrest hends => ?_, fun hsix => absurd hsix (by decide)⟩
    rw [List.append_assoc, List.append_assoc, infixed?_eq, unary?_sign labels op hg h.takesSigns,
      if_pos hop, ih.whole hrest hends]
    rfl
  | @infixed slot op l r s g g' s' hop hl hg hg' hr ihl ihr =>
    refine ⟨fun least rest hleast hrest hends => ?_, fun hsix => ?_⟩
    · simp only [List.append_assoc]
      exact Reads.infixed_binary hop ihl hg hg' ihr hleast hrest hends
    · have := level_le op
      omega

theorem spells_hex (v : Nat) : Spells v (36 :: numeral .hex v) := by
  have hdenotes := Radix.denotes_numeralValue (numeral_ne_nil .hex v)
    fun b => isDigitOf_of_mem_numeral
  rw [numeralValue_numeral] at hdenotes
  exact .hex hdenotes

/-- With parentheses around all that may need them, a text fits every slot. -/
theorem exists_rendered (t : Formula) : ∃ s, ∀ slot, t.Rendered slot s := by
  have hnone : IsSpacing [] := fun b hb => by cases hb
  induction t with
  | constant v bound => exact ⟨_, fun slot => .constant (spells_hex v)⟩
  | symbol m writable named => exact ⟨_, fun slot => .symbol⟩
  | unary op x ih =>
    obtain ⟨s, hs⟩ := ih
    cases hop : op.isSelector with
    | false => exact ⟨_, fun slot => .sign hop hnone (hs _)⟩
    | true => exact ⟨_, fun slot => .parentheses hnone (.selector hop hnone (hs _)) hnone⟩
  | binary op l r ihl ihr =>
    obtain ⟨s, hs⟩ := ihl
    obtain ⟨s', hs'⟩ := ihr
    exact ⟨_, fun slot => .parentheses hnone
      (.infixed (Nat.zero_le _) (hs _) hnone hnone (hs' _)) hnone⟩

/-- Every formula can be written, and whichever way it is, with whatever spaces and parentheses, it
is read as that formula under all labels. -/
theorem read_rendered (t : Formula) :
    (∃ s, t.Rendered .whole s) ∧
      ∀ s, t.Rendered .whole s → ∀ g g', IsSpacing g → IsSpacing g' → ∀ labels,
        Term.read labels (g ++ (s ++ g')) = .ok (t.term labels) := by
  constructor
  · obtain ⟨s, hs⟩ := t.exists_rendered
    exact ⟨s, hs .whole⟩
  · intro s hs g g' hg hg' labels
    have hend : skip g' = [] := by
      have hskip := skip_spacing hg' []
      rwa [List.append_nil] at hskip
    have hname : endsName g' := by
      have hname := endsName_spacing hg' [] rfl
      rwa [List.append_nil] at hname
    refine read_of_infixed? (r := g') ?_ hend
    rw [infixed?_spacing hg]
    refine (hs.reads labels).whole hname ?_
    rw [hend]
    rfl

/-- A minus sign after a minus sign, `%` and `^` between operands and before one, a selector over
all of it. -/
theorem read_rendered_of_signs :
    let b : Formula := .symbol (.nested 2 (ascii "b"))
      ⟨by decide, by decide, List.all_eq_true.1 rfl⟩ rfl
    let difference : Formula := .binary .sub b (.unary .neg (.constant 16 (by decide)))
    let remainder : Formula := .binary .mod difference (.constant 2 (by decide))
    let t : Formula := .unary .bank (.binary .xor remainder (.constant 120 (by decide)))
    t.Rendered .whole (ascii "^(..b--$1_0) %%10^'x'") ∧
      Term.read {} (ascii " ^(..b--$1_0) %%10^'x'\t") = .ok (t.term {}) := by
  intro b difference remainder t
  have hspace : IsSpacing [32] := fun c hc => by rw [List.mem_singleton.1 hc]; rfl
  have htab : IsSpacing [9] := fun c hc => by rw [List.mem_singleton.1 hc]; rfl
  have hnone : IsSpacing [] := fun c hc => by cases hc
  have hsixteen : Spells 16 (ascii "$1_0") := .hex ⟨rfl, List.all_eq_true.1 rfl, rfl⟩
  have htwo : Spells 2 (ascii "%10") := .binary ⟨rfl, List.all_eq_true.1 rfl, rfl⟩
  have hletter : Spells 120 (ascii "'x'") := .character (b := 120) rfl
  have hb : b.Rendered (.operand 4) (ascii "..b") := .symbol
  have hdifference : difference.Rendered .whole (ascii "..b--$1_0") :=
    @Rendered.infixed _ .sub _ _ _ _ _ _ (Nat.zero_le _) hb hnone hnone
      (@Rendered.sign _ .neg _ _ _ rfl hnone (.constant hsixteen))
  have hremainder : remainder.Rendered (.operand 1) (ascii "(..b--$1_0) %%10") :=
    @Rendered.infixed _ .mod _ _ _ _ _ _ (by decide) (.parentheses hnone hdifference hnone)
      hspace hnone (.constant htwo)
  have hrendered : t.Rendered .whole (ascii "^(..b--$1_0) %%10^'x'") :=
    @Rendered.selector .bank _ _ _ rfl hnone
      (@Rendered.infixed _ .xor _ _ _ _ _ _ (Nat.zero_le _) hremainder hnone hnone
        (.constant hletter))
  exact ⟨hrendered, (read_rendered t).2 _ hrendered [32] [9] hspace htab {}⟩

end Formula
end Assembler65816
