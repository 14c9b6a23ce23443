import Assembler65816.Proofs.Operand.Forms
import Assembler65816.Statement.Data

/-!
# Where the arguments of a directive are split

The arguments of a directive are split before they are read, by a scan that knows parentheses,
commas and strings in double quotes, and no other part of the grammar. So a character constant that
holds one of these bytes is not seen for what it is: it opens a string, ends an argument, or shifts
the count of parentheses. The main statement says exactly when expressions that are joined by commas
come apart again. Each must be free of double quotes and of commas outside of parentheses, and each
but the last must have as many opening parentheses as closing ones, all of this by the bytes alone.
An expression without one of the four bytes as a character constant is always such.
-/
namespace Assembler65816

/-- By how many parentheses a text ends deeper than it starts. -/
def Text.depth (s : Text) : Int := s.count 40 - s.count 41

namespace Text

theorem depth_nil : depth [] = 0 := rfl

theorem depth_append (s r : Text) : depth (s ++ r) = depth s + depth r := by
  simp only [depth, List.count_append]
  omega

theorem depth_cons (b : UInt8) (s : Text) : depth (b :: s) = depth [b] + depth s :=
  depth_append [b] s

theorem depth_eq_zero_iff {s : Text} : depth s = 0 ↔ s.count 40 = s.count 41 := by
  rw [depth]
  omega

/-- A text with nothing that the arguments of a directive break at, and as many opening parentheses
as closing ones. -/
structure Calm (s : Text) : Prop where
  quote : 34 ∉ s
  comma : 44 ∉ s
  depth : depth s = 0

theorem calm_of_bytes {s : Text} (h : ∀ b ∈ s, b ∉ ascii "\",()") : Calm s := by
  have hmem : ∀ b ∈ ascii "\",()", b ∉ s := fun b hb hs => h b hs hb
  refine ⟨hmem 34 (by decide), hmem 44 (by decide), ?_⟩
  rw [Text.depth, List.count_eq_zero.2 (hmem 40 (by decide)),
    List.count_eq_zero.2 (hmem 41 (by decide))]
  rfl

theorem Calm.append {s r : Text} (hs : Calm s) (hr : Calm r) : Calm (s ++ r) := by
  refine ⟨?_, ?_, ?_⟩
  · rw [List.mem_append, not_or]
    exact ⟨hs.quote, hr.quote⟩
  · rw [List.mem_append, not_or]
    exact ⟨hs.comma, hr.comma⟩
  · rw [depth_append, hs.depth, hr.depth]
    rfl

theorem Calm.group {s : Text} (hs : Calm s) : Calm (40 :: (s ++ [41])) := by
  refine ⟨?_, ?_, ?_⟩
  · simpa using hs.quote
  · simpa using hs.comma
  · rw [depth_cons, depth_append, hs.depth]
    rfl

theorem calm_of_blank {s : Text} (h : Blank s) : Calm s := by
  refine calm_of_bytes fun b hb hmem => ?_
  have hink : isInk b := List.all_eq_true.1 (by decide : (ascii "\",()").all isInk) b hmem
  exact notMem_of_blank hink h hb

end Text

namespace DataItem

/-- A text, begun `d` parentheses deep, without double quotes and without commas outside of
parentheses. -/
def Whole (d : Int) (s : Text) : Prop := 34 ∉ s ∧ ∀ p q, s = p ++ 44 :: q → d + Text.depth p ≠ 0

theorem whole_nil (d : Int) : Whole d [] := by
  refine ⟨List.not_mem_nil, fun p q h => ?_⟩
  simp at h

theorem whole_cons {d : Int} {b : UInt8} {s : Text} :
    Whole d (b :: s) ↔ b ≠ 34 ∧ (b = 44 → d ≠ 0) ∧ Whole (d + Text.depth [b]) s := by
  constructor
  · rintro ⟨hquote, hcomma⟩
    rw [List.mem_cons, not_or] at hquote
    refine ⟨Ne.symm hquote.1, ?_, hquote.2, ?_⟩
    · rintro rfl
      have hfirst := hcomma [] s rfl
      rwa [Text.depth_nil, Int.add_zero] at hfirst
    · intro p q hs
      have hlater := hcomma (b :: p) q (by rw [hs, List.cons_append])
      rwa [Text.depth_cons, ← Int.add_assoc] at hlater
  · rintro ⟨hb, hfirst, hquote, hcomma⟩
    refine ⟨?_, ?_⟩
    · rw [List.mem_cons, not_or]
      exact ⟨Ne.symm hb, hquote⟩
    · intro p q hs
      cases p with
      | nil =>
        obtain ⟨rfl, -⟩ := List.cons.inj hs
        rw [Text.depth_nil, Int.add_zero]
        exact hfirst rfl
      | cons c p =>
        obtain ⟨rfl, htail⟩ := List.cons.inj hs
        rw [Text.depth_cons, ← Int.add_assoc]
        exact hcomma p q htail

theorem whole_of_calm {s : Text} (h : s.Calm) (d : Int) : Whole d s := by
  refine ⟨h.quote, ?_⟩
  rintro p q rfl
  exact absurd (List.mem_append_right p List.mem_cons_self) h.comma

instance Whole.decidable : (d : Int) → (s : Text) → Decidable (Whole d s)
  | d, [] => isTrue (whole_nil d)
  | d, b :: s =>
    have := Whole.decidable (d + Text.depth [b]) s
    decidable_of_iff _ whole_cons.symm

/-- A text is whole, or it is so up to the byte that breaks it. -/
theorem exists_break (d : Int) (s : Text) :
    Whole d s ∨ ∃ p c q, s = p ++ c :: q ∧ Whole d p ∧
      (c = 34 ∨ c = 44 ∧ d + Text.depth p = 0) := by
  induction s generalizing d with
  | nil => exact .inl (whole_nil d)
  | cons b s ih =>
    by_cases hquote : b = 34
    · exact .inr ⟨[], b, s, rfl, whole_nil d, .inl hquote⟩
    by_cases hcomma : b = 44 → d ≠ 0
    · rcases ih (d + Text.depth [b]) with hs | ⟨p, c, q, rfl, hp, hc⟩
      · exact .inl (whole_cons.2 ⟨hquote, hcomma, hs⟩)
      · refine .inr ⟨b :: p, c, q, rfl, whole_cons.2 ⟨hquote, hcomma, hp⟩, ?_⟩
        rwa [Text.depth_cons, ← Int.add_assoc]
    · rw [Classical.not_imp, not_not] at hcomma
      refine .inr ⟨[], b, s, rfl, whole_nil d, .inr ⟨hcomma.1, ?_⟩⟩
      rw [Text.depth_nil, Int.add_zero, hcomma.2]

/-- A byte that breaks nothing is kept. -/
theorem outside_cons {d : Int} {b : UInt8} (hquote : b ≠ 34) (hcomma : b = 44 → d ≠ 0)
    (read s : Text) : outside d read (b :: s) = outside (d + Text.depth [b]) (b :: read) s := by
  rw [outside]
  by_cases hopen : b = 40
  · subst hopen
    rfl
  by_cases hclose : b = 41
  · subst hclose
    rfl
  have hdepth : Text.depth [b] = 0 := by
    rw [Text.depth, List.count_singleton, List.count_singleton]
    simp [hopen, hclose]
  rw [hdepth, Int.add_zero]
  by_cases hb : b = 44
  · simp [hb, hcomma hb]
  · simp [hquote, hopen, hclose, hb]

theorem outside_append {d : Int} {s : Text} (h : Whole d s) (read rest : Text) :
    outside d read (s ++ rest) = outside (d + Text.depth s) (s.reverse ++ read) rest := by
  induction s generalizing d read with
  | nil =>
    rw [Text.depth_nil, Int.add_zero]
    rfl
  | cons b s ih =>
    obtain ⟨hquote, hcomma, hs⟩ := whole_cons.1 h
    rw [List.cons_append, outside_cons hquote hcomma, ih hs, Text.depth_cons b s, Int.add_assoc,
      List.reverse_cons, List.append_assoc, List.singleton_append]

theorem outside_quote (d : Int) (read s : Text) :
    outside d read (34 :: s) = flush read ++ inside d [] s := by
  rw [outside]
  rfl

theorem outside_comma (read s : Text) :
    outside 0 read (44 :: s) = flush read ++ outside 0 [] s := by
  rw [outside]
  rfl

/-- What has been kept is an item where the text breaks. -/
theorem outside_break {d : Int} {c : UInt8} (hc : c = 34 ∨ c = 44 ∧ d = 0) (read s : Text) :
    ∃ items, outside d read (c :: s) = flush read ++ items := by
  rcases hc with rfl | ⟨rfl, rfl⟩
  · exact ⟨_, outside_quote d read s⟩
  · exact ⟨_, outside_comma read s⟩

/-- What has been kept starts the first item, sooner or later. -/
theorem exists_flush (d : Int) (read s : Text) :
    ∃ (p : Text) (items : List DataItem),
      outside d read s = flush (p.reverse ++ read) ++ items := by
  rcases exists_break d s with hs | ⟨p, c, q, rfl, hp, hc⟩
  · refine ⟨s, [], ?_⟩
    have hend := outside_append hs read []
    rw [List.append_nil] at hend
    rw [hend, outside, List.append_nil]
  · obtain ⟨items, hitems⟩ := outside_break hc (p.reverse ++ read) q
    exact ⟨p, items, by rw [outside_append hp, hitems]⟩

theorem flush_of_blank {s : Text} (h : Text.trim s = []) : flush s.reverse = [] := by
  simp [flush, h]

theorem flush_of_ink {s : Text} (h : Text.trim s ≠ []) :
    flush s.reverse = [{value := Text.trim s}] := by
  simp [flush, h]

theorem flush_nil : flush [] = [] := flush_of_blank Text.trim_nil

theorem split_quote (v : Text) : split (34 :: v) = inside 0 [] v := by
  rw [split, outside_quote, flush_nil, List.nil_append]

/-- A text as it is written in a string, with a backslash before each double quote and each
backslash. -/
def escaped (s : Text) : Text := s.flatMap fun c => if c = 34 ∨ c = 92 then [92, c] else [c]

theorem escaped_cons (c : UInt8) (s : Text) :
    escaped (c :: s) = (if c = 34 ∨ c = 92 then [92, c] else [c]) ++ escaped s := rfl

theorem escaped_of_notMem {s : Text} (hquote : 34 ∉ s) (hslash : 92 ∉ s) : escaped s = s := by
  induction s with
  | nil => rfl
  | cons c s ih =>
    rw [List.mem_cons, not_or] at hquote hslash
    rw [escaped_cons, if_neg, ih hquote.2 hslash.2, List.singleton_append]
    rintro (rfl | rfl)
    · exact hquote.1 rfl
    · exact hslash.1 rfl

theorem inside_close (d : Int) (read s : Text) :
    inside d read (34 :: s) = {value := read.reverse, quoted := true} :: outside d [] s := by
  rw [inside]

theorem inside_escape (d : Int) (read : Text) (c : UInt8) (s : Text) :
    inside d read (92 :: c :: s) = inside d (unescape c :: read) s := by
  rw [inside]

theorem inside_cons {c : UInt8} (hquote : c ≠ 34) (hslash : c ≠ 92) (d : Int) (read s : Text) :
    inside d read (c :: s) = inside d (c :: read) s := by
  rw [inside]
  · exact hquote
  · exact fun _ _ h => absurd h hslash

/-- What was escaped comes back. -/
theorem inside_escaped (d : Int) (read s rest : Text) :
    inside d read (escaped s ++ rest) = inside d (s.reverse ++ read) rest := by
  induction s generalizing read with
  | nil => rfl
  | cons c s ih =>
    rw [escaped_cons, List.append_assoc, List.reverse_cons, List.append_assoc,
      List.singleton_append, ← ih]
    split
    · rename_i hc
      have hback : unescape c = c := by rcases hc with rfl | rfl <;> rfl
      rw [List.cons_append, List.singleton_append, inside_escape, hback]
    · rename_i hc
      rw [not_or] at hc
      rw [List.singleton_append, inside_cons hc.1 hc.2]

end DataItem

namespace Text

/-- A visible byte behind a text is not trimmed with the blanks after the text. -/
theorem trim_append_ink_ne {c : UInt8} (h : isInk c) (s r : Text) :
    trim (s ++ c :: r) ≠ trim s := by
  have hstart : trimStart (s ++ c :: r) = trimStart s ++ c :: r :=
    dropForms_append_cons blankForms_solid (notMem_of_isInk h) s r
  obtain ⟨trail, -, hs⟩ := exists_trimEnd (trimStart s)
  intro he
  have hlength := congrArg List.length he
  have hshorter := congrArg List.length hs
  rw [trim, hstart, trimEnd_append_ink h, trim] at hlength
  simp only [List.length_append, List.length_cons] at hlength hshorter
  omega

theorem trim_append_ink_ne_nil {c : UInt8} (h : isInk c) (s r : Text) :
    trim (s ++ c :: r) ≠ [] := by
  have hstart : trimStart (s ++ c :: r) = trimStart s ++ c :: r :=
    dropForms_append_cons blankForms_solid (notMem_of_isInk h) s r
  rw [trim, hstart, trimEnd_append_ink h]
  exact List.append_ne_nil_of_right_ne_nil _ (List.cons_ne_nil _ _)

theorem blank_of_trim {s : Text} (h : trim s = []) : Blank s := by
  obtain ⟨lead, trail, hlead, htrail, hs, -⟩ := exists_trim s
  rw [h, List.nil_append] at hs
  rw [hs]
  exact Row.append hlead htrail

end Text

namespace Term

theorem isInk_of_isToken {b : UInt8} (h : isToken b) : Text.isInk b := by
  have hseen := (unshaped_of_isToken (b := b) (by rw [h, Bool.or_true])).1
  rwa [not_isSpaceOrTab_of_isToken h, Bool.false_or] at hseen

theorem isInk_of_opensOperand {o : Option UInt8} (h : o.any opensOperand) : o.any Text.isInk := by
  obtain ⟨b, rfl, hopens⟩ := (Option.any_eq_true _ _).1 h
  simp only [opensOperand, Bool.or_eq_true, beq_iff_eq] at hopens
  rcases hopens with (htoken | rfl) | rfl
  · exact isInk_of_isToken htoken
  · rfl
  · rfl

theorem isInk_of_closesOperand {o : Option UInt8} (h : o.any closesOperand) :
    o.any Text.isInk := by
  obtain ⟨b, rfl, hcloses⟩ := (Option.any_eq_true _ _).1 h
  simp only [closesOperand, Bool.or_eq_true, beq_iff_eq] at hcloses
  rcases hcloses with (htoken | rfl) | rfl
  · exact isInk_of_isToken htoken
  · rfl
  · rfl

section
variable {labels : Labels} {t : Term} {e : Text} (h : Term.read labels e = .ok t)
include h

/-- Trimming an expression leaves its operand. -/
theorem exists_trimmed :
    ∃ lead trail, e = lead ++ (e.trim ++ trail) ∧ IsSpacing lead ∧ IsSpacing trail ∧
      e.trim.head?.any opensOperand ∧ e.trim.getLast?.any Text.isInk ∧
      Term.read labels e.trim = .ok t := by
  obtain ⟨lead, core, trail, rfl, hlead, htrail, hfirst, hlast, hread⟩ := exists_operand h
  have htrim : Text.trim (lead ++ (core ++ trail)) = core :=
    Text.trim_of_isInk hlead.blank htrail.blank (isInk_of_opensOperand hfirst)
      (isInk_of_closesOperand hlast)
  rw [htrim]
  exact ⟨lead, trail, rfl, hlead, htrail, hfirst, isInk_of_closesOperand hlast,
    ExprReader.read_of_infixed? hread rfl⟩

theorem trim_ne_nil : e.trim ≠ [] := by
  obtain ⟨lead, trail, -, -, -, hfirst, -⟩ := exists_trimmed h
  intro hnil
  rw [hnil] at hfirst
  cases hfirst

/-- An expression does not begin with a double quote or a comma. -/
theorem trim_ne_nil_of_break {p q : Text} {c : UInt8} (he : e = p ++ c :: q)
    (hc : c = 34 ∨ c = 44) : p.trim ≠ [] := by
  intro hblank
  obtain ⟨lead, trail, hsplit, hlead, -, hfirst, -⟩ := exists_trimmed h
  have hopens : (c :: q).head?.any opensOperand := by
    have hink : Text.isInk c := by rcases hc with rfl | rfl <;> rfl
    have hbreak : Text.trimStart e = c :: q := by
      rw [he, Text.trimStart_blank_append (Text.blank_of_trim hblank), Text.trimStart_ink hink]
    have hoperand : Text.trimStart e = e.trim ++ trail := by
      obtain ⟨b, core, hcore⟩ := List.exists_cons_of_ne_nil (trim_ne_nil h)
      have hb : Text.isInk b := isInk_of_opensOperand (o := some b) (by rwa [hcore] at hfirst)
      calc
        Text.trimStart e = Text.trimStart (lead ++ (e.trim ++ trail)) := by rw [← hsplit]
        _ = e.trim ++ trail := by
          rw [Text.trimStart_blank_append hlead.blank, hcore, List.cons_append,
            Text.trimStart_ink hb]
    rw [← hbreak, hoperand]
    exact Text.head?_any_append hfirst trail
  rcases hc with rfl | rfl <;> cases hopens

/-- Behind the sign of an immediate operand, an expression is read as it is on its own. -/
theorem read_operand (hlf : 10 ∉ e) :
    Operand.read labels (35 :: e) = .ok ⟨.immediate, .ofTerm t⟩ := by
  obtain ⟨lead, trail, hsplit, hlead, htrail, -, hlast, hread⟩ := exists_trimmed h
  generalize e.trim = core at hsplit hlast hread
  subst hsplit
  refine Operand.read_hash htrail hlast ?_ ((read_spacing hlead).2 hread)
  intro hmem
  rw [← List.append_assoc] at hlf
  exact hlf (List.mem_append_left trail hmem)

end

/-- Expressions without the four bytes as character constants are calm. -/
theorem pieceKind_calm : ExprReader.PieceKind fun s =>
    (∀ b ∈ ascii "\",()", ¬[39, b, 39] <:+: s) → s.Calm where
  tokens s hs _ := by
    have hplain : ((ascii "\",()").all fun b => !isToken b) = true := rfl
    refine Text.calm_of_bytes fun b hb hmem => ?_
    have hb' := List.all_eq_true.1 hplain b hmem
    rw [hs b hb] at hb'
    cases hb'
  constant b hfree := by
    have hb : b ∉ ascii "\",()" := fun hmem => hfree b hmem (List.infix_refl _)
    refine Text.calm_of_bytes (List.forall_mem_cons.2 ⟨by decide, List.forall_mem_cons.2 ⟨hb, ?_⟩⟩)
    exact List.forall_mem_singleton.2 (by decide)
  append s r hs hr hfree :=
    (hs fun b hb h => hfree b hb (h.trans (List.prefix_append s r).isInfix)).append
      (hr fun b hb h => hfree b hb (h.trans (List.suffix_append s r).isInfix))
  spacing g s hg _ hs hfree :=
    (Text.calm_of_blank hg.blank).append
      (hs fun b hb h => hfree b hb (h.trans (List.suffix_append g s).isInfix))
  group s g hg hs hfree := by
    have hinfix : s <:+: 40 :: (s ++ g ++ [41]) := ⟨[40], g ++ [41], by simp⟩
    have hinner := (hs fun b hb h => hfree b hb (h.trans hinfix)).append
      (Text.calm_of_blank hg.blank)
    exact hinner.group

theorem calm_of_read {labels : Labels} {t : Term} {e : Text} (h : Term.read labels e = .ok t)
    (hfree : ∀ b ∈ ascii "\",()", ¬[39, b, 39] <:+: e) : e.Calm := by
  obtain ⟨r, hread, hend⟩ := read_eq_ok_iff.1 h
  obtain ⟨piece, rfl, hpiece⟩ :=
    (ExprReader.readers_shed pieceKind_calm labels e).infixed 0 t r hread
  have hblank : IsSpacing r := List.dropWhile_eq_nil_iff.1 hend
  refine (hpiece fun b hb h => ?_).append (Text.calm_of_blank hblank.blank)
  exact hfree b hb (h.trans (List.prefix_append piece r).isInfix)

end Term

namespace DataItem

section
variable {labels : Labels} {t : Term} {e : Text} (h : Term.read labels e = .ok t)
include h

/-- Where an expression breaks, the part before the break is the first item. -/
theorem whole_of_outside {rest : Text} {items : List DataItem}
    (houtside : outside 0 [] (e ++ rest) = {value := e.trim} :: items) : Whole 0 e := by
  rcases exists_break 0 e with hwhole | ⟨p, c, q, he, hp, hc⟩
  · exact hwhole
  · exfalso
    have hbreak : c = 34 ∨ c = 44 := hc.imp_right And.left
    have hink : Text.isInk c := by rcases hbreak with rfl | rfl <;> rfl
    obtain ⟨more, hmore⟩ := outside_break hc p.reverse (q ++ rest)
    rw [he, List.append_assoc, List.cons_append, outside_append hp, List.append_nil, hmore,
      flush_of_ink (Term.trim_ne_nil_of_break h he hbreak)] at houtside
    have hvalue : p.trim = Text.trim (p ++ c :: q) :=
      congrArg DataItem.value (List.cons.inj houtside).1
    exact Text.trim_append_ink_ne hink p q hvalue.symm

/-- An expression that ends the arguments. -/
theorem outside_expression_iff : outside 0 [] e = [{value := e.trim}] ↔ Whole 0 e := by
  constructor
  · intro houtside
    have hend : outside 0 [] (e ++ []) = [{value := e.trim}] := by rwa [List.append_nil]
    exact whole_of_outside h hend
  · intro hwhole
    have hend := outside_append hwhole [] []
    rw [List.append_nil, List.append_nil] at hend
    rw [hend, outside, flush_of_ink (Term.trim_ne_nil h)]

/-- An expression with more arguments after it. Begun too deep or not deep enough, the comma behind
it is part of the first item. -/
theorem outside_expression_comma_iff {rest : Text} {items : List DataItem} :
    outside 0 [] (e ++ 44 :: rest) = {value := e.trim} :: items ↔
      (Whole 0 e ∧ e.count 40 = e.count 41) ∧ outside 0 [] rest = items := by
  rw [← Text.depth_eq_zero_iff]
  by_cases hwhole : Whole 0 e
  · rw [outside_append hwhole, List.append_nil, Int.zero_add]
    by_cases hdepth : Text.depth e = 0
    · rw [hdepth, outside_comma, flush_of_ink (Term.trim_ne_nil h), List.singleton_append,
        List.cons_inj_right]
      exact ⟨fun hitems => ⟨⟨hwhole, rfl⟩, hitems⟩, And.right⟩
    · refine ⟨fun houtside => ?_, fun hcond => absurd hcond.1.2 hdepth⟩
      exfalso
      obtain ⟨p, more, hmore⟩ :=
        exists_flush (Text.depth e + Text.depth [44]) (44 :: e.reverse) rest
      have hread : p.reverse ++ 44 :: e.reverse = (e ++ 44 :: p).reverse := by simp
      rw [outside_cons (by decide) fun _ => hdepth, hmore, hread,
        flush_of_ink (Text.trim_append_ink_ne_nil rfl e p)] at houtside
      exact Text.trim_append_ink_ne rfl e p (congrArg DataItem.value (List.cons.inj houtside).1)
  · exact ⟨fun houtside => absurd (whole_of_outside h houtside) hwhole,
      fun hcond => absurd hcond.1.1 hwhole⟩

end

theorem split_iff_whole {labels : Labels} {es : List Text}
    (h : ∀ e ∈ es, ∃ t, Term.read labels e = .ok t) :
    split ([44].intercalate es) = es.map (fun e => {value := e.trim}) ↔
      (∀ e ∈ es, Whole 0 e) ∧ ∀ e ∈ es.dropLast, e.count 40 = e.count 41 := by
  induction es with
  | nil =>
    have hempty : split [] = [] := by
      rw [split, outside]
      exact flush_of_blank (s := []) Text.trim_nil
    simp [hempty]
  | cons e es ih =>
    obtain ⟨t, ht⟩ := h e List.mem_cons_self
    have hrest := ih fun e' he' => h e' (List.mem_cons_of_mem e he')
    cases es with
    | nil =>
      rw [List.intercalate_singleton, split, List.map_singleton, outside_expression_iff ht]
      simp
    | cons e' es =>
      rw [List.intercalate_cons_cons, List.append_assoc, List.singleton_append, split,
        List.map_cons, outside_expression_comma_iff ht, List.dropLast_cons_cons,
        List.forall_mem_cons (a := e), List.forall_mem_cons (a := e)]
      rw [split] at hrest
      rw [hrest]
      exact and_and_and_comm

/-- Expressions that are joined by commas come apart as they were, trimmed, exactly if each is
whole and each but the last closes as many parentheses as it opens. Expressions without a double
quote, a comma or a parenthesis as a character constant do. Each argument is then read as the term
that it is behind the sign of an immediate operand. -/
theorem split_expressions_iff {labels : Labels} {es : List Text}
    (h : ∀ e ∈ es, ∃ t, Term.read labels e = .ok t) :
    (split ([44].intercalate es) = es.map (fun e => {value := e.trim}) ↔
      (∀ e ∈ es, Whole 0 e) ∧ ∀ e ∈ es.dropLast, e.count 40 = e.count 41) ∧
    ((∀ e ∈ es, ∀ b ∈ ascii "\",()", ¬[39, b, 39] <:+: e) →
      split ([44].intercalate es) = es.map (fun e => {value := e.trim})) ∧
    ∀ e ∈ es, ∀ t, Term.read labels e = .ok t →
      Directive.readTerm labels e.trim = .ok t ∧
        (10 ∉ e → Operand.read labels (35 :: e) = .ok ⟨.immediate, .ofTerm t⟩) := by
  refine ⟨split_iff_whole h, fun hfree => ?_, fun e he t ht => ⟨?_, Term.read_operand ht⟩⟩
  · have hcalm : ∀ e ∈ es, e.Calm := by
      intro e he
      obtain ⟨t, ht⟩ := h e he
      exact Term.calm_of_read ht (hfree e he)
    refine (split_iff_whole h).2 ⟨fun e he => whole_of_calm (hcalm e he) 0, fun e he => ?_⟩
    exact Text.depth_eq_zero_iff.1 (hcalm e (List.dropLast_subset es he)).depth
  · obtain ⟨-, -, -, -, -, -, -, hread⟩ := Term.exists_trimmed ht
    rw [Directive.readTerm, hread]
    rfl

/-- A comma in parentheses is safe, so are parentheses in pairs, and so is the last argument. -/
theorem split_expressions_iff_of_constants :
    let es := [ascii "(',')", ascii " '('+')' ", ascii "')'"]
    (∀ e ∈ es, ∃ t, Term.read {} e = .ok t) ∧
      split ([44].intercalate es) =
        [{value := ascii "(',')"}, {value := ascii "'('+')'"}, {value := ascii "')'"}] ∧
      Operand.read {} (35 :: ascii " '('+')' ") =
        .ok ⟨.immediate, .ofTerm (.binary .add (.constant 40) (.constant 41))⟩ := by
  intro es
  have hpair : Term.read {} (ascii " '('+')' ") =
      .ok (.binary .add (.constant 40) (.constant 41)) := by decide +kernel
  have hread : ∀ e ∈ es, ∃ t, Term.read {} e = .ok t := by
    simp only [es, List.forall_mem_cons]
    refine ⟨⟨.constant 44, ?_⟩, ⟨_, hpair⟩, ⟨.constant 41, ?_⟩, List.forall_mem_nil _⟩
    · decide +kernel
    · decide +kernel
  obtain ⟨hiff, -, hterm⟩ := split_expressions_iff hread
  refine ⟨hread, ?_, (hterm _ (by decide) _ hpair).2 (by decide)⟩
  rw [hiff.2 (by decide)]
  decide +kernel

/-- A comma as a character constant breaks the argument that it is. -/
theorem exists_split_ne :
    ∃ (labels : Labels) (es : List Text), (∀ e ∈ es, ∃ t, Term.read labels e = .ok t) ∧
      split ([44].intercalate es) ≠ es.map (fun e => {value := e.trim}) := by
  have hread : ∀ e ∈ [ascii "','"], ∃ t, Term.read {} e = .ok t :=
    List.forall_mem_singleton.2 ⟨.constant 44, by decide +kernel⟩
  refine ⟨{}, [ascii "','"], hread, ?_⟩
  rw [Ne, split_iff_whole hread]
  decide

end DataItem

end Assembler65816
