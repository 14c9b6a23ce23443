import Mathlib.Algebra.Ring.Nat
import Assembler65816.Proofs.Expression.Extent
import Assembler65816.Proofs.Operand.Shapes

/-!
# Every expression in every form

An operand is an expression in the frame of its form. The reader of operands finds the form from the
ends of the text and does not read the expression for it, so it may be taken in by what the
expression itself begins and ends with. The main statement is that this happens in two cases only,
both without a frame in brackets: an expression that is a single group of parentheses makes its own
frame, and the name `a` is the accumulator. In all other cases the form and the term come back,
whatever the expression is and however it is spaced, as long as it holds no character constant.
-/
namespace Assembler65816

namespace Text

/-- Whether a text closes the parentheses that it opens, and each of them after it is opened. -/
def Closes (s : Text) : Prop :=
  s.count 40 = s.count 41 ∧ ∀ n, (s.take n).count 41 ≤ (s.take n).count 40

/-- Whether a text is a parenthesis, what stands inside, and the parenthesis that closes it. -/
def IsGroup (s inner : Text) : Prop := s = 40 :: (inner ++ [41]) ∧ Closes inner

theorem Closes.cons {b : UInt8} {s : Text} (hopen : b ≠ 40) (hclose : b ≠ 41) (h : Closes s) :
    Closes (b :: s) := by
  refine ⟨?_, fun n => ?_⟩
  · rw [List.count_cons_of_ne hopen, List.count_cons_of_ne hclose, h.1]
  · cases n with
    | zero => exact Nat.le_refl 0
    | succ n =>
      rw [List.take_succ_cons, List.count_cons_of_ne hopen, List.count_cons_of_ne hclose]
      exact h.2 n

theorem Closes.group {s r : Text} (hs : Closes s) (hr : Closes r) :
    Closes (40 :: (s ++ 41 :: r)) := by
  have hopen : (40 : UInt8) ≠ 41 := by decide
  have hwhole := hs.1
  refine ⟨?_, fun n => ?_⟩
  · have hrest := hr.1
    simp only [List.count_cons_self, List.count_append, List.count_cons_of_ne hopen,
      List.count_cons_of_ne hopen.symm]
    omega
  · cases n with
    | zero => exact Nat.le_refl 0
    | succ n =>
      rw [List.take_succ_cons, List.take_append]
      -- The text ends inside of the group or behind it.
      cases hm : n - s.length with
      | zero =>
        have hinner := hs.2 n
        simp only [List.take_zero, List.append_nil, List.count_cons_self,
          List.count_cons_of_ne hopen]
        omega
      | succ m =>
        have hrest := hr.2 m
        have htake : s.take n = s := List.take_of_length_le (by omega)
        simp only [htake, List.take_succ_cons, List.count_cons_self, List.count_append,
          List.count_cons_of_ne hopen, List.count_cons_of_ne hopen.symm]
        omega

/-- What closes its parentheses goes on to the first parenthesis that it does not open. -/
theorem Closes.eq_of_append {a b r : Text} (ha : Closes a) (hb : Closes b)
    (h : a ++ 41 :: r = b ++ [41]) : r = [] ∧ a = b := by
  have hlength := congrArg List.length h
  simp only [List.length_append, List.length_cons, List.length_nil] at hlength
  by_cases hr : r = []
  · subst hr
    exact ⟨rfl, List.append_cancel_right h⟩
  · have hpos := List.length_pos_iff.2 hr
    have htake : b.take (a.length + 1) = a ++ [41] := by
      have hprefix := congrArg (List.take (a.length + 1)) h
      rw [List.take_append_of_le_length (by omega : a.length + 1 ≤ b.length)] at hprefix
      rw [← hprefix, List.take_length_add_append]
      rfl
    have hcount := hb.2 (a.length + 1)
    rw [htake, List.count_append, List.count_append, ha.1] at hcount
    exact absurd hcount (by simp)

end Text

/-- Spaces and tokens are none of the bytes that shapes are told by. -/
theorem unshaped_of_isToken {b : UInt8} (h : isSpaceOrTab b || isToken b) :
    (isSpaceOrTab b || Text.isInk b) ∧ b ∉ ascii "#,()[]\n" := by
  have hbyte := Text.of_all_bytes (p := fun b => isSpaceOrTab b || isToken b)
    (q := fun b => (isSpaceOrTab b || Text.isInk b) && !(ascii "#,()[]\n").contains b)
    (by decide +kernel) h
  simpa using hbyte

theorem Nested.closes {s : Text} (h : Nested s) : Text.Closes s := by
  induction h with
  | nil => exact ⟨rfl, fun n => by simp⟩
  | byte hb _ ih =>
    have hshape := (unshaped_of_isToken hb).2
    refine ih.cons ?_ ?_ <;> rintro rfl <;> exact hshape (by decide)
  | group _ _ ihs ihr => exact ihs.group ihr

namespace Nested

theorem wrapsWhole_byte {b : UInt8} (hb : isSpaceOrTab b || isToken b) (depth : Int) (s : Text) :
    Shape.wrapsWhole depth (b :: s) = Shape.wrapsWhole depth s := by
  have hplain : Shape.isOpening b = false ∧ Shape.isClosing b = false := by
    have hshape := (unshaped_of_isToken hb).2
    rw [Bool.eq_false_iff, Bool.eq_false_iff]
    constructor <;> intro hbracket <;>
    · simp only [Shape.isOpening, Shape.isClosing, Bool.or_eq_true, beq_iff_eq] at hbracket
      rcases hbracket with rfl | rfl <;> exact hshape (by decide)
  refine Shape.wrapsWhole_append (e := [b]) (fun c hc => ?_) depth s
  rwa [List.mem_singleton.1 hc]

variable {e : Text} (h : Nested e)
include h

/-- Of the bytes that shapes are told by, an expression has the parentheses only. -/
theorem seen {b : UInt8} (hb : b ∈ e) :
    (isSpaceOrTab b || Text.isInk b) ∧ b ∉ ascii "#,[]\n" := by
  have hbyte := h.byte_of_mem hb
  simp only [Bool.or_eq_true, beq_iff_eq] at hbyte
  rcases hbyte with (htoken | rfl) | rfl
  · obtain ⟨hink, hshape⟩ := unshaped_of_isToken (Bool.or_eq_true_iff.2 htoken)
    have hsub : ascii "#,[]\n" ⊆ ascii "#,()[]\n" := by decide
    exact ⟨hink, fun hmem => hshape (hsub hmem)⟩
  · exact ⟨rfl, by decide⟩
  · exact ⟨rfl, by decide⟩

theorem seen_append {s : Text} (hs : ∀ b ∈ s, Text.isInk b) :
    ∀ b ∈ e ++ s, isSpaceOrTab b || Text.isInk b := by
  intro b hb
  rcases List.mem_append.1 hb with hb | hb
  · exact (h.seen hb).1
  · rw [hs b hb, Bool.or_true]

/-- Inside brackets an expression leaves the depth as it was. -/
theorem wrapsWhole_append {depth : Int} (hdepth : 1 ≤ depth) (s : Text) :
    Shape.wrapsWhole depth (e ++ s) = Shape.wrapsWhole depth s := by
  induction h generalizing depth s with
  | nil => rfl
  | byte hb _ ih => rw [List.cons_append, wrapsWhole_byte hb, ih hdepth]
  | group _ _ ihe ihr =>
    rw [List.cons_append, List.append_assoc, List.cons_append, Shape.wrapsWhole_open rfl,
      ihe (by omega), Shape.wrapsWhole_close_inner rfl (by omega), Int.add_sub_cancel, ihr hdepth]

/-- Outside of brackets, what wraps the whole text is a group at its end. -/
theorem exists_isTail {s : Text} (hs : Shape.wrapsWhole 0 s = false)
    (hwhole : Shape.wrapsWhole 0 (e ++ s)) : ∃ r, Nested r ∧ Shape.isTail (r ++ s) := by
  induction h with
  | nil => cases hs.symm.trans hwhole
  | byte hb _ ih =>
    rw [List.cons_append, wrapsWhole_byte hb] at hwhole
    exact ih hwhole
  | @group e r he hr _ _ =>
    refine ⟨r, hr, ?_⟩
    rwa [List.cons_append, List.append_assoc, List.cons_append, Shape.wrapsWhole_open rfl,
      he.wrapsWhole_append (by decide), Int.zero_add, Shape.wrapsWhole_close rfl] at hwhole

theorem isBody (hne : e ≠ []) : Shape.IsBody e where
  ne_nil := hne
  hash hhead := (h.seen (List.mem_of_head? hhead)).2 (by decide)
  comma hmem := (h.seen hmem).2 (by decide)
  lineFeed hmem := (h.seen hmem).2 (by decide)
  balanced _ hdepth s := h.wrapsWhole_append hdepth s

end Nested

/-- An expression text that ends in a token is not followed by what may follow a group. -/
theorem IsPiece.not_isTail {r s : Text} (hr : IsPiece r) (hne : r ≠ [])
    (hs : ∀ b ∈ s, isSpaceOrTab b || Text.isInk b) : ¬Shape.isTail (r ++ s) := by
  have hbytes : ∀ b ∈ r ++ s, isSpaceOrTab b || Text.isInk b := by
    intro b hb
    rcases List.mem_append.1 hb with hb | hb
    · exact (hr.nested.seen hb).1
    · exact hs b hb
  obtain ⟨c, hlast⟩ := Option.isSome_iff_exists.1 (List.getLast?_isSome.2 hne)
  have hmem : c ∈ r.filter (!isSpaceOrTab ·) :=
    List.mem_filter.2 ⟨List.mem_of_getLast? hlast, by rw [hr.ends c hlast]; rfl⟩
  rw [Shape.isTail_iff hbytes, List.filter_append]
  -- What is left of the expression starts with something that is no comma.
  cases hfilter : r.filter (!isSpaceOrTab ·) with
  | nil =>
    rw [hfilter] at hmem
    cases hmem
  | cons b f =>
    have hb : b ∈ r.filter (!isSpaceOrTab ·) := by
      rw [hfilter]
      exact List.mem_cons_self
    have hcomma : b ≠ 44 := by
      rintro rfl
      exact (hr.nested.seen (List.mem_filter.1 hb).1).2 (by decide)
    have hy : ascii ",y" = [44, 121] ∧ ascii ",Y" = [44, 89] := by decide
    simp [hy, hcomma]

/-- Neither does what ends in something other than y. -/
theorem Nested.not_isTail {r s : Text} (hr : Nested r) (hs : ∀ b ∈ s, Text.isInk b)
    (hlast : s.getLast?.any fun b => b != 121 && b != 89) : ¬Shape.isTail (r ++ s) := by
  have hink : s.filter (!isSpaceOrTab ·) = s := by
    refine List.filter_eq_self.2 fun b hb => ?_
    rw [Text.isSpaceOrTab_of_isInk (hs b hb)]
    rfl
  rw [Shape.isTail_iff (hr.seen_append hs), List.filter_append, hink]
  intro hmem
  have hend : ∀ w ∈ [[], ascii ",y", ascii ",Y"], w.getLast?.all fun b => b == 121 || b == 89 := by
    decide
  obtain ⟨c, hc, hne⟩ := (Option.any_eq_true _ _).1 hlast
  have hcy := hend _ hmem
  rw [List.getLast?_append, hc] at hcy
  simp only [Option.some_or, Option.all_some, Bool.or_eq_true, beq_iff_eq] at hcy
  rcases hcy with rfl | rfl <;> cases hne

theorem IsSpacing.blank {g : Text} (h : IsSpacing g) : Text.Blank g := by
  induction g with
  | nil => exact .nil
  | cons b g ih =>
    have hb : [b] ∈ Text.blankForms := Text.mem_blankForms_of_isSpaceOrTab (h b List.mem_cons_self)
    exact .cons hb (ih fun c hc => h c (List.mem_cons_of_mem b hc))

/-- What is not blank and not the letter of the accumulator is read by its shape. -/
theorem Operand.read_of_shape {labels : Labels} {written s body : Text} {form : Form} {t : Term}
    (htrim : written.trim = s) (hne : s ≠ []) (hletter : ¬(s = [97] ∨ s = [65]))
    (hshape : Shape.of s = (form, body)) (hread : Term.read labels body = .ok t) :
    Operand.read labels written = .ok ⟨form, .ofTerm t⟩ := by
  have hempty : s.isEmpty = false := by simpa using hne
  simp only [Operand.read, htrim, hempty, hletter, hshape, hread, Bool.false_eq_true, if_false]
  rfl

theorem Operand.read_of_length {labels : Labels} {written s body : Text} {form : Form} {t : Term}
    (htrim : written.trim = s) (hlength : 2 ≤ s.length) (hshape : Shape.of s = (form, body))
    (hread : Term.read labels body = .ok t) :
    Operand.read labels written = .ok ⟨form, .ofTerm t⟩ := by
  refine Operand.read_of_shape htrim (List.length_pos_iff.1 (by omega)) ?_ hshape hread
  rintro (rfl | rfl) <;> exact absurd hlength (by decide)

/-- After a sign, the spaces before the expression stay. -/
theorem Operand.read_hash {labels : Labels} {t : Term} {lead core trail : Text}
    (htrail : IsSpacing trail) (hlast : core.getLast?.any Text.isInk) (hlf : 10 ∉ lead ++ core)
    (hread : Term.read labels (lead ++ core) = .ok t) :
    Operand.read labels (35 :: (lead ++ (core ++ trail))) = .ok ⟨.immediate, .ofTerm t⟩ := by
  have hne : lead ++ core ≠ [] := by
    intro hnil
    rw [(List.append_eq_nil_iff.1 hnil).2] at hlast
    cases hlast
  have htrim : Text.trim (35 :: (lead ++ (core ++ trail))) = 35 :: (lead ++ core) := by
    have hink := Text.getLast?_any_append hlast (35 :: lead)
    have htrim := Text.trim_of_isInk (s := 35 :: (lead ++ core)) .nil htrail.blank rfl hink
    rwa [List.nil_append, List.cons_append, List.append_assoc] at htrim
  refine Operand.read_of_length htrim ?_ (Shape.of_hash hne hlf) hread
  exact Nat.succ_le_succ (List.length_pos_iff.2 hne)

namespace Term.IsCore
variable {labels : Labels} {t : Term} {core : Text} (h : IsCore labels t core)
include h

theorem ne_nil : core ≠ [] := by
  rintro rfl
  cases h.starts

theorem read_eq : Term.read labels core = .ok t := ExprReader.read_of_infixed? h.read rfl

theorem isInk_of_mem {b : UInt8} (hb : b ∈ core) (hsolid : isSpaceOrTab b = false) :
    Text.isInk b := by
  have hseen := (h.piece.nested.seen hb).1
  rwa [hsolid, Bool.false_or] at hseen

theorem head?_any_isInk : core.head?.any Text.isInk := by
  obtain ⟨c, hc, hsolid⟩ := (Option.any_eq_true _ _).1 h.starts
  rw [Bool.not_eq_true'] at hsolid
  exact (Option.any_eq_true _ _).2 ⟨c, hc, h.isInk_of_mem (List.mem_of_head? hc) hsolid⟩

theorem getLast?_any_isInk : core.getLast?.any Text.isInk := by
  obtain ⟨c, hc⟩ := Option.isSome_iff_exists.1 (List.getLast?_isSome.2 h.ne_nil)
  exact (Option.any_eq_true _ _).2
    ⟨c, hc, h.isInk_of_mem (List.mem_of_getLast? hc) (h.piece.ends c hc)⟩

/-- Without being a group, a core has no shape in brackets, whatever index letter follows it. -/
theorem first?_wrapped (hquote : 39 ∉ core) (hgroup : ∀ inner, ¬Text.IsGroup core inner) {s : Text}
    (hs : ∀ b ∈ s, isSpaceOrTab b || Text.isInk b) (hwhole : Shape.wrapsWhole 0 (core ++ s)) :
    Shape.first? Shape.wrapped (core ++ s) = none := by
  obtain ⟨c, rest, rfl⟩ := List.exists_cons_of_ne_nil h.ne_nil
  by_cases hc : c = 40
  · subst hc
    have hrest : 39 ∉ rest := fun hmem => hquote (List.mem_cons_of_mem _ hmem)
    obtain ⟨inner, r, rfl, hinner, hr, -⟩ := ExprReader.exists_group hrest h.read
    have hne : r ≠ [] := by
      rintro rfl
      exact hgroup inner ⟨rfl, hinner.closes⟩
    rw [List.cons_append, List.append_assoc, List.cons_append, Shape.wrapsWhole_open rfl,
      hinner.wrapsWhole_append (by decide), Int.zero_add, Shape.wrapsWhole_close rfl] at hwhole
    exact absurd hwhole (hr.not_isTail hne hs)
  · have hbracket : c ≠ 91 := by
      rintro rfl
      exact (h.piece.nested.seen List.mem_cons_self).2 (by decide)
    exact Shape.first?_wrapped_of_head hc hbracket _

/-- What stands inside of a core that is a group is a core of the same term, spaces apart. -/
theorem read_inner {inner : Text} (hquote : 39 ∉ core) (hgroup : core.IsGroup inner) :
    Term.read labels inner = .ok t ∧ Shape.IsBody inner := by
  obtain ⟨rfl, hcloses⟩ := hgroup
  have hrest : 39 ∉ inner ++ [41] := fun hmem => hquote (List.mem_cons_of_mem _ hmem)
  obtain ⟨inner', r, hsame, hnested, -, hread⟩ := ExprReader.exists_group hrest h.read
  obtain ⟨rfl, rfl⟩ := hnested.closes.eq_of_append hcloses hsame.symm
  have hne : inner' ≠ [] := by
    rintro rfl
    obtain ⟨r, hinfixed, -⟩ := Term.read_eq_ok_iff.1 (hread rfl)
    cases ExprReader.infixed?_length hinfixed
  exact ⟨hread rfl, hnested.isBody hne⟩

/-- Before an index letter other than y, it never has one. -/
theorem first?_wrapped_indexed {trail : Text} (htrail : IsSpacing trail) {letter : UInt8}
    (hink : Text.isInk letter) (hletter : letter != 121 && letter != 89)
    (hwhole : Shape.wrapsWhole 0 ((core ++ trail) ++ 44 :: [letter])) :
    Shape.first? Shape.wrapped ((core ++ trail) ++ 44 :: [letter]) = none := by
  have hnested : Nested (core ++ trail) := h.piece.nested.append (.of_spacing htrail)
  have hplain : Shape.wrapsWhole 0 (44 :: [letter]) = false := by
    simp [Shape.wrapsWhole, Shape.isOpening, Shape.isClosing]
  obtain ⟨r, hr, htail⟩ := hnested.exists_isTail hplain hwhole
  refine absurd htail (hr.not_isTail (fun b hb => ?_) hletter)
  rcases List.mem_cons.1 hb with rfl | hb
  · rfl
  · rwa [List.mem_singleton.1 hb]

end Term.IsCore

/-- Before an index letter, the spaces after the expression stay. -/
theorem Term.IsCore.trim_indexed {labels : Labels} {t : Term} {lead core : Text}
    (hcore : Term.IsCore labels t core) (hlead : IsSpacing lead) {trail : Text} {letter : UInt8}
    (hink : Text.isInk letter) :
    Text.trim ((lead ++ (core ++ trail)) ++ 44 :: [letter]) =
      (core ++ trail) ++ 44 :: [letter] := by
  have hfirst := Text.head?_any_append hcore.head?_any_isInk (trail ++ 44 :: [letter])
  have hlast : ((core ++ trail) ++ 44 :: [letter]).getLast?.any Text.isInk :=
    Text.getLast?_any_append (p := Text.isInk) (s := 44 :: [letter]) hink _
  rw [← List.append_assoc] at hfirst
  have htrim := Text.trim_of_isInk hlead.blank .nil hfirst hlast
  rwa [List.append_nil, ← List.append_assoc] at htrim

section Frames
variable {labels : Labels} {t : Term} {lead core trail : Text} (hlead : IsSpacing lead)
  (htrail : IsSpacing trail) (hcore : Term.IsCore labels t core)
include hlead htrail hcore

theorem Term.IsCore.trim_eq : Text.trim (lead ++ (core ++ trail)) = core :=
  Text.trim_of_isInk hlead.blank htrail.blank hcore.head?_any_isInk hcore.getLast?_any_isInk

theorem Operand.read_immediate :
    Operand.read labels (35 :: (lead ++ (core ++ trail))) = .ok ⟨.immediate, .ofTerm t⟩ := by
  have hnested : Nested (lead ++ core) := (Nested.of_spacing hlead).append hcore.piece.nested
  refine Operand.read_hash htrail hcore.getLast?_any_isInk ?_ ?_
  · exact fun hmem => (hnested.seen hmem).2 (by decide)
  · exact (Term.read_spacing hlead).2 hcore.read_eq

variable (hread : Term.read labels (lead ++ (core ++ trail)) = .ok t)
include hread

theorem Operand.read_indexed {form : Form} {letter : UInt8}
    (hform : (form, letter) ∈ [(Form.x, 120), (.y, 121), (.stack, 115)])
    (hwrap : Shape.wrapsWhole 0 ((core ++ trail) ++ 44 :: [letter]) →
      Shape.first? Shape.wrapped ((core ++ trail) ++ 44 :: [letter]) = none) :
    Operand.read labels ((lead ++ (core ++ trail)) ++ 44 :: [letter]) = .ok ⟨form, .ofTerm t⟩ := by
  have hnested : Nested (core ++ trail) := hcore.piece.nested.append (.of_spacing htrail)
  have hne : core ++ trail ≠ [] := List.append_ne_nil_of_left_ne_nil hcore.ne_nil trail
  have hink : Text.isInk letter := by
    simp only [List.mem_cons, Prod.mk.injEq, List.not_mem_nil, or_false] at hform
    rcases hform with ⟨-, rfl⟩ | ⟨-, rfl⟩ | ⟨-, rfl⟩ <;> rfl
  refine Operand.read_of_length (hcore.trim_indexed hlead hink) ?_
    (Shape.of_indexed (hnested.isBody hne) rfl hform hwrap) ?_
  · rw [List.length_append]
    exact Nat.le_add_left 2 _
  · exact (Term.read_spacing hlead).1 hread

/-- In brackets, all of it stays. -/
theorem Operand.read_bracketed {form : Form} {opening : UInt8} {tail : Text}
    (hopen : Text.isInk opening) (htail : tail.getLast?.any Text.isInk)
    (hshape : Shape.IsBody (lead ++ (core ++ trail)) →
      Shape.of (opening :: ((lead ++ (core ++ trail)) ++ tail)) =
        (form, lead ++ (core ++ trail))) :
    Operand.read labels (opening :: ((lead ++ (core ++ trail)) ++ tail)) =
      .ok ⟨form, .ofTerm t⟩ := by
  have hnested : Nested (lead ++ (core ++ trail)) :=
    (Nested.of_spacing hlead).append (hcore.piece.nested.append (.of_spacing htrail))
  have hne : lead ++ (core ++ trail) ≠ [] := by
    simp [hcore.ne_nil]
  have hlast : (opening :: ((lead ++ (core ++ trail)) ++ tail)).getLast?.any Text.isInk :=
    Text.getLast?_any_append htail (opening :: (lead ++ (core ++ trail)))
  have htrim : Text.trim (opening :: ((lead ++ (core ++ trail)) ++ tail)) =
      opening :: ((lead ++ (core ++ trail)) ++ tail) := by
    have htrim := Text.trim_of_isInk (s := opening :: ((lead ++ (core ++ trail)) ++ tail)) .nil .nil
      hopen hlast
    rwa [List.append_nil, List.nil_append] at htrim
  refine Operand.read_of_length htrim ?_ (hshape (hnested.isBody hne)) hread
  have hpos := List.length_pos_iff.2 hne
  rw [List.length_cons, List.length_append]
  omega

omit hread in
/-- A group makes its own frame, also with an index letter after it. -/
theorem Operand.read_group (hquote : 39 ∉ core) {inner : Text} (hgroup : core.IsGroup inner) :
    Term.read labels inner = .ok t ∧
      Operand.read labels (lead ++ (core ++ trail)) = .ok ⟨.indirect, .ofTerm t⟩ ∧
      Operand.read labels ((lead ++ (core ++ trail)) ++ ascii ",y") =
        .ok ⟨.indirectY, .ofTerm t⟩ := by
  obtain ⟨hinner, hbody⟩ := hcore.read_inner hquote hgroup
  obtain ⟨rfl, -⟩ := hgroup
  refine ⟨hinner, ?_, ?_⟩
  · exact Operand.read_of_length (hcore.trim_eq hlead htrail) (by simp) (Shape.of_indirect hbody)
      hinner
  · have htrim : Text.trim ((lead ++ ((40 :: (inner ++ [41])) ++ trail)) ++ ascii ",y") =
        ((40 :: (inner ++ [41])) ++ trail) ++ ascii ",y" := hcore.trim_indexed hlead rfl
    have hwritten : ((40 :: (inner ++ [41])) ++ trail) ++ ascii ",y" =
        40 :: (inner ++ 41 :: (trail ++ ascii ",y")) := by simp
    rw [hwritten] at htrim
    refine Operand.read_of_length htrim ?_ (Shape.of_indirectY hbody htrail) hinner
    simp only [List.length_cons, List.length_append]
    omega

omit hread in
/-- What is no group is read as it is, unless it is the letter of the accumulator. -/
theorem Operand.read_plain (hquote : 39 ∉ core) (hgroup : ∀ inner, ¬core.IsGroup inner) :
    Operand.read labels (lead ++ (core ++ trail)) =
      if core = ascii "a" ∨ core = ascii "A" then .ok ⟨.accumulator, .ofTerm .empty⟩
      else .ok ⟨.plain, .ofTerm t⟩ := by
  have htrim := hcore.trim_eq hlead htrail
  split
  · rename_i hletter
    have hempty : core.isEmpty = false := by simpa using hcore.ne_nil
    rw [Operand.read, htrim]
    simp only [hempty, Bool.false_eq_true, if_false]
    exact if_pos hletter
  · rename_i hletter
    have hbody : Shape.IsBody core := hcore.piece.nested.isBody hcore.ne_nil
    have hnone := hcore.first?_wrapped hquote hgroup (List.forall_mem_nil _)
    rw [List.append_nil] at hnone
    exact Operand.read_of_shape htrim hcore.ne_nil hletter (Shape.of_plain hbody hnone)
      hcore.read_eq

theorem Operand.read_y (hquote : 39 ∉ core) (hgroup : ∀ inner, ¬core.IsGroup inner) :
    Operand.read labels ((lead ++ (core ++ trail)) ++ ascii ",y") = .ok ⟨.y, .ofTerm t⟩ := by
  refine Operand.read_indexed hlead htrail hcore hread (by decide) fun hwhole => ?_
  have hbytes : ∀ b ∈ trail ++ 44 :: [121], isSpaceOrTab b || Text.isInk b :=
    (Nested.of_spacing htrail).seen_append (List.all_eq_true.1 rfl)
  rw [List.append_assoc] at hwhole ⊢
  exact hcore.first?_wrapped hquote hgroup hbytes hwhole

end Frames

/-- An expression without character constants in the frame of any form is read as that form and that
expression. Without a frame, a single group of parentheses is taken for a frame around what stands
inside, which is read as the same term, and the letter `a` for the accumulator. -/
theorem Operand.read_in_frame {labels : Labels} {e : Text} {t : Term}
    (h : Term.read labels e = .ok t) (hquote : 39 ∉ e) :
    (∀ p ∈ [("#", "", Form.immediate), ("", ",x", .x), ("(", ")", .indirect),
        ("(", ",x)", .xIndirect), ("(", "),y", .indirectY), ("[", "]", .indirectLong),
        ("[", "],y", .indirectLongY), ("", ",s", .stack), ("(", ",s),y", .stackIndirectY)],
      Operand.read labels (ascii p.1 ++ (e ++ ascii p.2.1)) = .ok ⟨p.2.2, .ofTerm t⟩) ∧
    (∀ inner, e.trim.IsGroup inner → Term.read labels inner = .ok t ∧
      Operand.read labels e = .ok ⟨.indirect, .ofTerm t⟩ ∧
      Operand.read labels (e ++ ascii ",y") = .ok ⟨.indirectY, .ofTerm t⟩) ∧
    ((∀ inner, ¬e.trim.IsGroup inner) →
      Operand.read labels e =
        (if e.trim = ascii "a" ∨ e.trim = ascii "A" then .ok ⟨.accumulator, .ofTerm .empty⟩
        else .ok ⟨.plain, .ofTerm t⟩) ∧
      Operand.read labels (e ++ ascii ",y") = .ok ⟨.y, .ofTerm t⟩) := by
  obtain ⟨lead, core, trail, rfl, hlead, htrail, hcore⟩ := Term.exists_core h hquote
  have hquote' : 39 ∉ core := fun hmem =>
    hquote (List.mem_append_right _ (List.mem_append_left _ hmem))
  rw [hcore.trim_eq hlead htrail]
  refine ⟨?_, fun inner hgroup => ?_, fun hgroup => ⟨?_, ?_⟩⟩
  · have hnil : ascii "" = [] := by decide
    have hsign : ascii "#" = [35] := by decide
    simp only [List.forall_mem_cons, hnil, hsign, List.append_nil, List.nil_append,
      List.singleton_append]
    refine ⟨?_, ?_, ?_, ?_, ?_, ?_, ?_, ?_, ?_, List.forall_mem_nil _⟩
    · exact Operand.read_immediate hlead htrail hcore
    · exact Operand.read_indexed hlead htrail hcore h (by decide)
        (hcore.first?_wrapped_indexed htrail rfl rfl)
    · exact Operand.read_bracketed hlead htrail hcore h rfl rfl Shape.of_indirect
    · exact Operand.read_bracketed hlead htrail hcore h rfl rfl Shape.of_xIndirect
    · exact Operand.read_bracketed hlead htrail hcore h rfl rfl
        fun hbody => Shape.of_indirectY hbody (List.forall_mem_nil _)
    · exact Operand.read_bracketed hlead htrail hcore h rfl rfl Shape.of_indirectLong
    · exact Operand.read_bracketed hlead htrail hcore h rfl rfl Shape.of_indirectLongY
    · exact Operand.read_indexed hlead htrail hcore h (by decide)
        (hcore.first?_wrapped_indexed htrail rfl rfl)
    · exact Operand.read_bracketed hlead htrail hcore h rfl rfl Shape.of_stackIndirectY
  · exact Operand.read_group hlead htrail hcore hquote' hgroup
  · exact Operand.read_plain hlead htrail hcore hquote' hgroup
  · exact Operand.read_y hlead htrail hcore h hquote' hgroup

/-- A product of two groups is no group, though it starts and ends with parentheses; a group with
spaces around it is one. -/
theorem Operand.read_in_frame_of_groups :
    let product := ascii "(a+1)*(2) "
    let group := ascii " (a) "
    let a : Term := .ref (.global (ascii "a"))
    let t : Term := .binary .mul (.binary .add a (.constant 1)) (.constant 2)
    (Term.read {} product = .ok t ∧ 39 ∉ product ∧
      Operand.read {} (ascii "(" ++ (product ++ ascii ",s),y")) = .ok ⟨.stackIndirectY, .ofTerm t⟩ ∧
      Operand.read {} product = .ok ⟨.plain, .ofTerm t⟩ ∧
      Operand.read {} (product ++ ascii ",y") = .ok ⟨.y, .ofTerm t⟩) ∧
    Term.read {} group = .ok a ∧ 39 ∉ group ∧ Term.read {} (ascii "a") = .ok a ∧
      Operand.read {} group = .ok ⟨.indirect, .ofTerm a⟩ ∧
      Operand.read {} (group ++ ascii ",y") = .ok ⟨.indirectY, .ofTerm a⟩ := by
  intro product group a t
  have hproduct : Term.read {} product = .ok t := by decide +kernel
  have hgroup : Term.read {} group = .ok a := by decide +kernel
  have hquote : 39 ∉ product ∧ 39 ∉ group := by decide +kernel
  obtain ⟨hframe, -, hplain⟩ := read_in_frame hproduct hquote.1
  obtain ⟨-, hinner, -⟩ := read_in_frame hgroup hquote.2
  have hnot : ∀ inner, ¬product.trim.IsGroup inner := by
    rintro inner ⟨hsame, -, hcount⟩
    have htrim : product.trim = 40 :: (ascii "a+1)*(2" ++ [41]) := by decide +kernel
    rw [htrim] at hsame
    cases List.append_cancel_right (List.cons.inj hsame).2
    exact absurd (hcount 4) (by decide)
  have hisGroup : group.trim.IsGroup (ascii "a") :=
    ⟨by decide +kernel, (Nested.of_bytes (List.all_eq_true.1 rfl)).closes⟩
  refine ⟨⟨hproduct, hquote.1, hframe ("(", ",s),y", .stackIndirectY) (by decide), ?_, ?_⟩, hgroup,
    hquote.2, hinner _ hisGroup⟩
  · refine (hplain hnot).1.trans (if_neg ?_)
    decide +kernel
  · exact (hplain hnot).2

end Assembler65816
