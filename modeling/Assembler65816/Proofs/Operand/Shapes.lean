import Mathlib.Data.List.TakeDrop
import Mathlib.Data.List.TakeWhile
import Assembler65816.Operand.Reader
import Assembler65816.Proofs.Text.Blank

/-!
# Operands have the shape they are written in

Every form of an operand is a frame around an expression. The shapes are told apart by the ends of
the text and by its last comma, so an expression that holds no comma and closes what it opens can be
put into the frame of any form, and reading gives back the form and the expression.
-/
namespace Assembler65816

namespace Text

theorem splitLast_append {c : UInt8} {tail : Text} (h : c ∉ tail) (body : Text) :
    splitLast c (body ++ c :: tail) = some (body, tail) := by
  have hrev : (body ++ c :: tail).reverse = tail.reverse ++ c :: body.reverse := by simp
  have hrun : ∀ b ∈ tail.reverse, (b != c) = true := by
    intro b hb
    have : b ≠ c := fun he => h (he ▸ List.mem_reverse.1 hb)
    simpa using this
  rw [splitLast, hrev, List.span_eq_takeWhile_dropWhile, List.takeWhile_append_of_pos hrun,
    List.dropWhile_append_of_pos hrun]
  simp

theorem splitLast_of_notMem {c : UInt8} {s : Text} (h : c ∉ s) : splitLast c s = none := by
  have hrun : ∀ b ∈ s.reverse, (b != c) = true := by
    intro b hb
    have : b ≠ c := fun he => h (he ▸ List.mem_reverse.1 hb)
    simpa using this
  have hdrop : s.reverse.dropWhile (· != c) = [] := List.dropWhile_eq_nil_iff.2 hrun
  rw [splitLast, List.span_eq_takeWhile_dropWhile, hdrop]

theorem splitLast_eq_some {c : UInt8} {s body tail : Text} (h : splitLast c s = some (body, tail)) :
    s = body ++ c :: tail := by
  rw [splitLast, List.span_eq_takeWhile_dropWhile] at h
  have hs : s.reverse.takeWhile (· != c) ++ s.reverse.dropWhile (· != c) = s.reverse :=
    List.takeWhile_append_dropWhile
  have hnot := List.head?_dropWhile_not (· != c) s.reverse
  cases hdrop : s.reverse.dropWhile (· != c) with
  | nil =>
    rw [hdrop] at h
    cases h
  | cons d front =>
    rw [hdrop] at h hs hnot
    cases h
    have hd : d = c := by simpa using hnot
    have hrev := congrArg List.reverse hs
    rw [List.reverse_reverse, List.reverse_append, List.reverse_cons, List.append_assoc, hd] at hrev
    exact hrev.symm

end Text

namespace Shape

/-- An expression text that can stand in any frame. -/
structure IsBody (e : Text) : Prop where
  ne_nil : e ≠ []
  hash : e.head? ≠ some 35
  comma : 44 ∉ e
  lineFeed : 10 ∉ e
  /-- Within brackets it leaves the depth as it was. -/
  balanced : ∀ depth : Int, 1 ≤ depth → ∀ s, wrapsWhole depth (e ++ s) = wrapsWhole depth s

theorem wrapsWhole_append {e : Text} (h : ∀ b ∈ e, isOpening b = false ∧ isClosing b = false)
    (depth : Int) (s : Text) : wrapsWhole depth (e ++ s) = wrapsWhole depth s := by
  induction e with
  | nil => rfl
  | cons b e ih =>
    obtain ⟨hopen, hclose⟩ := h b List.mem_cons_self
    rw [List.cons_append, wrapsWhole, hopen, hclose]
    exact ih fun c hc => h c (List.mem_cons_of_mem _ hc)

theorem indexed?_append {letter : IndexLetter} {e tail : Text} (htail : 44 ∉ tail) :
    indexed? letter (e ++ 44 :: tail) =
      if letter.spellings.contains (tail.dropWhile isGap) then some e else none := by
  rw [indexed?, Text.splitLast_append htail]

theorem indexed?_of_notMem {letter : IndexLetter} {e : Text} (h : 44 ∉ e) :
    indexed? letter e = none := by
  rw [indexed?, Text.splitLast_of_notMem h]

theorem enclosed?_append (opening closing c d : UInt8) (e : Text) :
    enclosed? opening closing (c :: (e ++ [d])) =
      if c = opening ∧ d = closing then some e else none := by
  simp [enclosed?]

/-- There may be gaps before the comma. -/
theorem beforeY?_append {e g : Text} {d : UInt8} (hd : isGap d = false) (hg : ∀ b ∈ g, isGap b) :
    beforeY? ((e ++ [d]) ++ g ++ ascii ",y") = some (e ++ [d]) := by
  have hindexed : indexed? .y (((e ++ [d]) ++ g) ++ 44 :: [121]) = some ((e ++ [d]) ++ g) := by
    rw [indexed?_append (by decide)]
    rfl
  have hend : ((e ++ [d]) ++ g).dropEnd isGap = e ++ [d] := by
    have hgaps : ∀ b ∈ g.reverse, isGap b := fun b hb => hg b (List.mem_reverse.1 hb)
    simp [Text.dropEnd, List.dropWhile_append_of_pos hgaps, List.dropWhile_cons_of_neg, hd]
  have hascii : ascii ",y" = 44 :: [121] := by decide
  rw [beforeY?, hascii, hindexed, Option.map_some, hend]

/-- Whether what follows the last bracket of a shape is nothing or an index letter. -/
def isTail (s : Text) : Bool :=
  let tail := (Text.words s).flatten
  tail.isEmpty || tail == ascii ",y" || tail == ascii ",Y"

theorem wrapsWhole_open {opening : UInt8} (h : isOpening opening) (depth : Int) (s : Text) :
    wrapsWhole depth (opening :: s) = wrapsWhole (depth + 1) s := by
  rw [wrapsWhole, if_pos h]

theorem isOpening_of_isClosing {b : UInt8} (h : isClosing b) : isOpening b = false := by
  simp only [isClosing, Bool.or_eq_true, beq_iff_eq] at h
  rcases h with rfl | rfl <;> rfl

theorem wrapsWhole_close_inner {closing : UInt8} (h : isClosing closing) {depth : Int}
    (hdepth : depth ≠ 1) (s : Text) :
    wrapsWhole depth (closing :: s) = wrapsWhole (depth - 1) s := by
  rw [wrapsWhole, isOpening_of_isClosing h, if_neg Bool.false_ne_true, if_pos h, if_neg hdepth]

theorem wrapsWhole_close {closing : UInt8} (h : isClosing closing) (s : Text) :
    wrapsWhole 1 (closing :: s) = isTail s := by
  rw [wrapsWhole, isOpening_of_isClosing h, if_neg Bool.false_ne_true, if_pos h, if_pos rfl, isTail]

/-- Spaces and tabs in what follows do not matter. -/
theorem isTail_iff {s : Text} (h : ∀ b ∈ s, isSpaceOrTab b || Text.isInk b) :
    isTail s ↔ s.filter (!isSpaceOrTab ·) ∈ [[], ascii ",y", ascii ",Y"] := by
  rw [isTail, Text.flatten_words h]
  simp [or_assoc]

/-- Spaces may follow the last bracket, and an index letter. -/
theorem wrapsWhole_tail {closing : UInt8} (h : isClosing closing) {g s : Text}
    (hg : ∀ b ∈ g, isSpaceOrTab b) (hs : s = [] ∨ s = ascii ",y") :
    wrapsWhole 1 (closing :: (g ++ s)) := by
  have hletter : s.all Text.isInk ∧
      s.filter (!isSpaceOrTab ·) ∈ [[], ascii ",y", ascii ",Y"] := by
    rcases hs with rfl | rfl <;> exact ⟨rfl, by decide⟩
  have hbytes : ∀ b ∈ g ++ s, isSpaceOrTab b || Text.isInk b := by
    intro b hb
    rcases List.mem_append.1 hb with hb | hb
    · rw [hg b hb, Bool.true_or]
    · rw [List.all_eq_true.1 hletter.1 b hb, Bool.or_true]
  have hfilter : g.filter (!isSpaceOrTab ·) = [] :=
    List.filter_eq_nil_iff.2 fun b hb => by simp [hg b hb]
  rw [wrapsWhole_close h, isTail_iff hbytes, List.filter_append, hfilter]
  exact hletter.2

/-- A bracket at the end, or before an index letter, closes the shape. -/
theorem wrapsWhole_end {closing : UInt8} (h : isClosing closing) {s : Text}
    (hs : s = [] ∨ s = ascii ",y") : wrapsWhole 1 (closing :: s) :=
  wrapsWhole_tail h (List.forall_mem_nil _) hs

theorem isPrefix_of_beforeY? {s b : Text} (h : beforeY? s = some b) : b <+: s := by
  obtain ⟨body, hbody, rfl⟩ := Option.map_eq_some_iff.1 h
  have hprefix : body.dropEnd isGap <+: body := by
    rw [Text.dropEnd, ← List.reverse_suffix, List.reverse_reverse]
    exact List.dropWhile_suffix _
  unfold indexed? at hbody
  split at hbody
  · rename_i body' tail hsplit
    split at hbody
    · cases hbody
      rw [Text.splitLast_eq_some hsplit]
      exact hprefix.trans (List.prefix_append _ _)
    · cases hbody
  · cases hbody

theorem enclosed?_of_isPrefix {opening closing c : UInt8} (hc : c ≠ opening) {b s : Text}
    (h : b <+: c :: s) : enclosed? opening closing b = none := by
  cases b with
  | nil => rfl
  | cons d b =>
    obtain ⟨rfl, -⟩ := List.cons_prefix_cons.1 h
    unfold enclosed?
    simp only [hc, false_and, if_false]
    split <;> rfl

/-- A text that does not start with a bracket has none of the shapes in brackets. -/
theorem first?_wrapped_of_head {c : UInt8} (hparen : c ≠ 40) (hbracket : c ≠ 91) (s : Text) :
    first? wrapped (c :: s) = none := by
  have henclosed : ∀ b, b <+: c :: s → parenthesized? b = none ∧ bracketed? b = none :=
    fun b hb => ⟨enclosed?_of_isPrefix hparen hb, enclosed?_of_isPrefix hbracket hb⟩
  have hy : (beforeY? (c :: s)).bind parenthesized? = none ∧
      (beforeY? (c :: s)).bind bracketed? = none := by
    cases hb : beforeY? (c :: s) with
    | none => exact ⟨rfl, rfl⟩
    | some b => exact henclosed b (isPrefix_of_beforeY? hb)
  have hwhole := henclosed (c :: s) (List.prefix_refl _)
  simp [first?, wrapped, hy, hwhole]

theorem body?_of_ne_nil {e : Text} (hne : e ≠ []) (hlf : 10 ∉ e) : body? e = some e := by
  have hempty : e.isEmpty = false := by simpa using hne
  have hcontains : e.contains 10 = false := by simpa using hlf
  rw [body?, hempty, hcontains]
  rfl

/-- Behind the sign of an immediate operand, everything is a body. -/
theorem of_hash {e : Text} (hne : e ≠ []) (hlf : 10 ∉ e) :
    of (ascii "#" ++ e) = (.immediate, e) := by
  have hafter : Text.after? [35] (ascii "#" ++ e) = some e := Text.after?_eq_some.2 rfl
  simp [of, hafter, body?_of_ne_nil hne hlf]

section
variable {e : Text} (h : IsBody e)
include h

theorem IsBody.body? : body? e = some e := body?_of_ne_nil h.ne_nil h.lineFeed

/-- A text in brackets is told by its end. -/
theorem IsBody.wrapsWhole_bracketed {opening : UInt8} (hopen : isOpening opening) (s : Text) :
    wrapsWhole 0 (opening :: (e ++ s)) = wrapsWhole 1 s := by
  rw [wrapsWhole_open hopen]
  exact h.balanced _ (by decide) s

theorem of_immediate : of (ascii "#" ++ e) = (.immediate, e) := of_hash h.ne_nil h.lineFeed

theorem after?_hash (s : Text) : Text.after? [35] (e ++ s) = none := by
  obtain ⟨b, tail, rfl⟩ := List.exists_cons_of_ne_nil h.ne_nil
  have hb : (35 : UInt8) ≠ b := fun he => h.hash (by rw [he]; rfl)
  simp [Text.after?, hb]

/-- Where no shape in brackets fits, the others are tried. -/
theorem of_bare {s : Text} (hwrap : wrapsWhole 0 (e ++ s) → first? wrapped (e ++ s) = none) :
    of (e ++ s) = (first? bare (e ++ s)).getD (.plain, e ++ s) := by
  have hnone : (if wrapsWhole 0 (e ++ s) then first? wrapped (e ++ s) else none) = none := by
    split
    · exact hwrap ‹_›
    · rfl
  simp only [of, after?_hash h s, hnone]
  rfl

theorem of_plain (hwrap : wrapsWhole 0 e → first? wrapped e = none) : of e = (.plain, e) := by
  have hbare : of (e ++ []) = _ := of_bare h (by rwa [List.append_nil])
  rw [List.append_nil] at hbare
  simp [hbare, first?, bare, indexed?_of_notMem h.comma]

/-- An index letter after the expression. -/
theorem of_indexed {form : Form} {letter : UInt8} {s : Text} (hs : s = 44 :: [letter])
    (hform : (form, letter) ∈ [(Form.x, 120), (.y, 121), (.stack, 115)])
    (hwrap : wrapsWhole 0 (e ++ s) → first? wrapped (e ++ s) = none) : of (e ++ s) = (form, e) := by
  rw [of_bare h hwrap]
  subst hs
  have hindexed : ∀ l : IndexLetter, 44 ∉ [letter] → indexed? l (e ++ 44 :: [letter]) =
      if l.spellings.contains ([letter].dropWhile isGap) then some e else none :=
    fun l hl => indexed?_append hl
  simp only [List.mem_cons, Prod.mk.injEq, List.not_mem_nil, or_false] at hform
  rcases hform with ⟨rfl, rfl⟩ | ⟨rfl, rfl⟩ | ⟨rfl, rfl⟩ <;>
    simp [first?, bare, hindexed, h.body?, IndexLetter.spellings, isGap]

/-- A text in brackets that close at its end has one of the shapes in brackets. -/
theorem of_wrapped {s : Text} {opening : UInt8} {form : Form} (hopen : isOpening opening)
    (hwrap : wrapsWhole 1 s) (hfirst : first? wrapped (opening :: (e ++ s)) = some (form, e)) :
    of (opening :: (e ++ s)) = (form, e) := by
  have hafter : Text.after? [35] (opening :: (e ++ s)) = none := by
    have hne : (35 : UInt8) ≠ opening := by
      rintro rfl
      cases hopen
    simp [Text.after?, hne]
  have hwhole : wrapsWhole 0 (opening :: (e ++ s)) = true := by
    rw [h.wrapsWhole_bracketed hopen, hwrap]
  simp [of, hafter, hwhole, hfirst]

theorem of_indirect : of (40 :: (e ++ [41])) = (.indirect, e) := by
  have hcomma : 44 ∉ 40 :: (e ++ [41]) := by simp [h.comma]
  have hy : beforeY? (40 :: (e ++ [41])) = none := by
    rw [beforeY?, indexed?_of_notMem hcomma]
    rfl
  have hparen : parenthesized? (40 :: (e ++ [41])) = some e := enclosed?_append ..
  refine of_wrapped h rfl (wrapsWhole_end rfl (.inl rfl)) ?_
  simp [first?, wrapped, hy, hparen, indexed?_of_notMem h.comma, h.body?]

theorem of_indirectLong : of (91 :: (e ++ [93])) = (.indirectLong, e) := by
  have hcomma : 44 ∉ 91 :: (e ++ [93]) := by simp [h.comma]
  have hy : beforeY? (91 :: (e ++ [93])) = none := by
    rw [beforeY?, indexed?_of_notMem hcomma]
    rfl
  have hparen : parenthesized? (91 :: (e ++ [93])) = none := enclosed?_append ..
  have hbracket : bracketed? (91 :: (e ++ [93])) = some e := enclosed?_append ..
  refine of_wrapped h rfl (wrapsWhole_end rfl (.inl rfl)) ?_
  simp [first?, wrapped, hy, hparen, hbracket, h.body?]

theorem of_xIndirect : of (40 :: (e ++ ascii ",x)")) = (.xIndirect, e) := by
  have hs : 40 :: (e ++ ascii ",x)") = (40 :: e) ++ 44 :: [120, 41] := by
    have : ascii ",x)" = [44, 120, 41] := by decide
    simp [this]
  have hs' : 40 :: (e ++ ascii ",x)") = 40 :: ((e ++ 44 :: [120]) ++ [41]) := by simp [hs]
  have hy : beforeY? (40 :: (e ++ ascii ",x)")) = none := by
    rw [beforeY?, hs, indexed?_append (by decide)]
    rfl
  have hparen : parenthesized? (40 :: (e ++ ascii ",x)")) = some (e ++ 44 :: [120]) := by
    rw [hs']
    exact enclosed?_append ..
  have hx : indexed? .x (e ++ 44 :: [120]) = some e := by
    rw [indexed?_append (by decide)]
    rfl
  have hclosed : wrapsWhole 1 [41] := wrapsWhole_end rfl (.inl rfl)
  refine of_wrapped h rfl hclosed ?_
  simp [first?, wrapped, hy, hparen, hx, h.body?]

theorem of_indirectY {g : Text} (hg : ∀ b ∈ g, isSpaceOrTab b) :
    of (40 :: (e ++ 41 :: (g ++ ascii ",y"))) = (.indirectY, e) := by
  have hgaps : ∀ b ∈ g, isGap b := fun b hb => Text.isGap_of_isSpaceOrTab (hg b hb)
  have hy : beforeY? (40 :: (e ++ 41 :: (g ++ ascii ",y"))) = some (40 :: (e ++ [41])) := by
    have := beforeY?_append (e := 40 :: e) (d := 41) rfl hgaps
    simpa using this
  have hinner : parenthesized? (40 :: (e ++ [41])) = some e := enclosed?_append ..
  have hparen : parenthesized? (40 :: (e ++ 41 :: (g ++ ascii ",y"))) = none := by
    have hs : e ++ 41 :: (g ++ ascii ",y") = (e ++ 41 :: (g ++ [44])) ++ [121] := by
      have : ascii ",y" = [44, 121] := by decide
      simp [this]
    rw [hs]
    exact enclosed?_append ..
  refine of_wrapped h rfl (wrapsWhole_tail rfl hg (.inr rfl)) ?_
  simp [first?, wrapped, hy, hinner, hparen, indexed?_of_notMem h.comma, h.body?]

theorem of_indirectLongY : of (91 :: (e ++ ascii "],y")) = (.indirectLongY, e) := by
  have hs : 91 :: (e ++ ascii "],y") = ((91 :: e) ++ [93]) ++ ascii ",y" := by
    have : ascii "],y" = [93] ++ ascii ",y" := by decide
    simp [this]
  have hy : beforeY? (91 :: (e ++ ascii "],y")) = some (91 :: (e ++ [93])) := by
    rw [hs, ← List.append_nil ((91 :: e) ++ [93])]
    exact beforeY?_append rfl (List.forall_mem_nil _)
  have hinner : parenthesized? (91 :: (e ++ [93])) = none := enclosed?_append ..
  have hbracket : bracketed? (91 :: (e ++ [93])) = some e := enclosed?_append ..
  have hparen : parenthesized? (91 :: (e ++ ascii "],y")) = none := by
    have : ascii "],y" = [93, 44] ++ [121] := by decide
    rw [this, ← List.append_assoc]
    exact enclosed?_append ..
  refine of_wrapped h rfl (wrapsWhole_end rfl (.inr rfl)) ?_
  simp [first?, wrapped, hy, hinner, hparen, hbracket, h.body?]

theorem of_stackIndirectY : of (40 :: (e ++ ascii ",s),y")) = (.stackIndirectY, e) := by
  let inner := e ++ 44 :: [115]
  have hs : 40 :: (e ++ ascii ",s),y") = ((40 :: inner) ++ [41]) ++ ascii ",y" := by
    have : ascii ",s),y" = [44, 115, 41] ++ ascii ",y" := by decide
    simp [this, inner]
  have hy : beforeY? (40 :: (e ++ ascii ",s),y")) = some (40 :: (inner ++ [41])) := by
    rw [hs, ← List.append_nil ((40 :: inner) ++ [41])]
    exact beforeY?_append rfl (List.forall_mem_nil _)
  have hparen : parenthesized? (40 :: (inner ++ [41])) = some inner := enclosed?_append ..
  have hstack : indexed? .s inner = some e := by
    rw [indexed?_append (by decide)]
    rfl
  have hclosed : wrapsWhole 1 (41 :: ascii ",y") := wrapsWhole_end rfl (.inr rfl)
  refine of_wrapped h rfl hclosed ?_
  simp only [first?, wrapped, List.findSome?_cons, hy, hparen, hstack, Option.bind_some, h.body?]
  rfl

/-- An expression in the frame of a form is read as that form. In a frame without brackets it must
not have a shape in brackets. -/
theorem of_fill {form : Form} (hform : form ∈ Form.all.drop 2)
    (hwrap : form ∈ [Form.plain, .x, .y, .stack] → wrapsWhole 0 (form.frame.fill e) →
      first? wrapped (form.frame.fill e) = none) :
    of (form.frame.fill e) = (form, e) := by
  have hnil : ascii "" = [] := by decide
  have hfill : ∀ before after : String,
      (Frame.around before after).fill e = ascii before ++ (e ++ ascii after) := by
    intro before after
    rw [Frame.fill, List.append_assoc]
  cases form with
  | none | accumulator => exact absurd hform (by decide)
  | unlisted code => simp [Form.all] at hform
  | immediate =>
    rw [Form.frame, hfill, hnil, List.append_nil]
    exact of_immediate h
  | plain =>
    have hwrap := hwrap (by decide)
    rw [Form.frame, hfill, hnil, List.append_nil, List.nil_append] at hwrap ⊢
    exact of_plain h hwrap
  | x | y | stack =>
    have hwrap := hwrap (by decide)
    rw [Form.frame, hfill, hnil, List.nil_append] at hwrap ⊢
    exact of_indexed h rfl (by decide) hwrap
  | indirect => exact of_indirect h
  | xIndirect => exact of_xIndirect h
  | indirectY => exact of_indirectY h (List.forall_mem_nil _)
  | indirectLong => exact of_indirectLong h
  | indirectLongY => exact of_indirectLongY h
  | stackIndirectY => exact of_stackIndirectY h

end
end Shape
end Assembler65816
