import Assembler65816.Proofs.Expression.Holes
import Assembler65816.Proofs.Operand.Shapes

/-!
# Character constants in operands

The shape of an operand is found from bytes, not from tokens. For a constant in it that hardly
matters: neither an index letter nor an enclosing bracket is ever taken from inside a constant, so
each shape fits for all constants at one place or for none. The one exception is the question
whether the first bracket closes at the end. The brackets are counted over all bytes, and one that
stands in a constant is counted with the others. So two operands that differ in a constant only are
read alike unless this count sets them apart, and a constant that is not a bracket never does.
-/
namespace Assembler65816

namespace Text

theorem exists_last_of_mem {c : UInt8} {s : Text} (h : c ∈ s) :
    ∃ body tail, s = body ++ c :: tail ∧ c ∉ tail := by
  obtain ⟨tail, body, hs, htail⟩ := List.eq_append_cons_of_mem (List.mem_reverse.2 h)
  refine ⟨body.reverse, tail.reverse, ?_, by simpa using htail⟩
  rw [← List.reverse_reverse s, hs]
  simp

theorem trim_around (u v : Text) (b : UInt8) :
    trim (u.around v b) = (trimStart u).around (trimEnd v) b := by
  have hquote : isInk 39 := rfl
  have hstart : trimStart (u.around v b) = (trimStart u).around v b :=
    dropForms_append_cons blankForms_solid (notMem_of_isInk hquote) u _
  have hend : (trimStart u).around v b = (trimStart u ++ [39, b]) ++ 39 :: v := by
    simp [around]
  rw [trim, hstart, hend, trimEnd_append_ink hquote]
  simp [around]

theorem opensConstant_trimStart (u : Text) : (trimStart u).opensConstant = u.opensConstant := by
  obtain ⟨lead, hlead, hu⟩ := exists_trimStart u
  conv => rhs; rw [hu]
  rw [opensConstant_append (notMem_of_blank rfl hlead)]

/-- A byte that no blank is written with is in a word. -/
theorem mem_flatten_wordsFrom {c : UInt8} (hc : isInk c) (word s : Text) (h : c ∈ word ∨ c ∈ s) :
    c ∈ (wordsFrom word s).flatten := by
  have hafter : ∀ {s t : Text}, afterForm? blankForms s = some t → c ∈ s → c ∈ t := by
    intro s t hs hmem
    obtain ⟨f, hf, hr⟩ := List.exists_of_findSome?_eq_some hs
    rw [after?_eq_some.1 hr] at hmem
    exact (List.mem_append.1 hmem).resolve_left (notMem_of_isInk hc f hf)
  fun_induction wordsFrom word s with
  | case1 word hword =>
    rw [List.isEmpty_iff.1 hword] at h
    simp at h
  | case2 word hword => simpa using h
  | case3 word b r t hs hword ih =>
    rw [List.isEmpty_iff.1 hword] at h
    exact ih (.inr (hafter hs (h.resolve_left List.not_mem_nil)))
  | case4 word b r t hs hword ih =>
    rw [List.flatten_cons, List.mem_append, List.mem_reverse]
    exact h.imp_right fun h => ih (.inr (hafter hs h))
  | case5 word b r hs ih =>
    apply ih
    simp only [List.mem_cons] at h ⊢
    tauto

end Text

namespace Shape

theorem isTail_of_mem {s : Text} (h : 39 ∈ s) : isTail s = false := by
  have hmem : 39 ∈ (Text.words s).flatten := Text.mem_flatten_wordsFrom rfl [] s (.inr h)
  have hne : ∀ tail : Text, 39 ∉ tail → (Text.words s).flatten ≠ tail :=
    fun tail htail he => htail (he ▸ hmem)
  have hnil := hne [] List.not_mem_nil
  have hlower := hne (ascii ",y") (by decide)
  have hupper := hne (ascii ",Y") (by decide)
  simp [isTail, hnil, hlower, hupper]

/-- A constant that is not a bracket does not count. -/
theorem wrapsWhole_around (u v : Text) {b : UInt8} (hopen : isOpening b = false)
    (hclose : isClosing b = false) (depth : Int) :
    wrapsWhole depth (u.around v b) = wrapsWhole depth (u.around v 48) := by
  induction u generalizing depth with
  | nil =>
    simp only [Text.around, List.nil_append, wrapsWhole, hopen, hclose]
    rfl
  | cons c u ih =>
    have htail : ∀ b, isTail (Text.around u v b) = false :=
      fun b => isTail_of_mem (by simp [Text.around])
    simp only [Text.around_cons]
    by_cases ho : isOpening c
    · rw [wrapsWhole_open ho, wrapsWhole_open ho, ih]
    by_cases hc : isClosing c
    · by_cases hd : depth = 1
      · subst hd
        rw [wrapsWhole_close hc, wrapsWhole_close hc, htail, htail]
      · rw [wrapsWhole_close_inner hc hd, wrapsWhole_close_inner hc hd, ih]
    · simp only [wrapsWhole, if_neg ho, if_neg hc, ih]

theorem indexed?_of_quote (letter : IndexLetter) (w : Text) {v : Text} (h : 44 ∉ v) :
    indexed? letter (w ++ 39 :: v) = none := by
  by_cases hw : 44 ∈ w
  · obtain ⟨body, tail, rfl, htail⟩ := Text.exists_last_of_mem hw
    have hcomma : 44 ∉ tail ++ 39 :: v := by simp [htail, h]
    have hquote : 39 ∈ (tail ++ 39 :: v).dropWhile isGap := by
      have hmem : 39 ∈ tail ++ 39 :: v := by simp
      rw [← List.takeWhile_append_dropWhile (p := isGap) (l := tail ++ 39 :: v)] at hmem
      refine (List.mem_append.1 hmem).resolve_left fun hgap => ?_
      exact absurd (List.all_eq_true.1 List.all_takeWhile 39 hgap) (by decide)
    have hspelling : ∀ t ∈ letter.spellings, 39 ∉ t := by cases letter <;> decide
    rw [List.append_assoc, List.cons_append, indexed?_append hcomma, if_neg]
    intro hcontains
    exact hspelling _ (List.contains_iff_mem.1 hcontains) hquote
  · exact indexed?_of_notMem (by simp [hw, h])

/-- An index letter stands after the constant or nowhere. -/
theorem indexed?_around (letter : IndexLetter) (u v : Text) (b : UInt8) :
    indexed? letter (u.around v b) = (indexed? letter v).map (u.around · b) := by
  by_cases hv : 44 ∈ v
  · obtain ⟨body, tail, rfl, htail⟩ := Text.exists_last_of_mem hv
    have hwhole : u.around (body ++ 44 :: tail) b = u.around body b ++ 44 :: tail := by
      simp [Text.around]
    rw [hwhole, indexed?_append htail, indexed?_append htail]
    split <;> rfl
  · have hwhole : u.around v b = (u ++ [39, b]) ++ 39 :: v := by simp [Text.around]
    rw [hwhole, indexed?_of_quote letter _ hv, indexed?_of_notMem hv, Option.map_none]

theorem dropEnd_around (u v : Text) (b : UInt8) :
    (u.around v b).dropEnd isGap = u.around (v.dropEnd isGap) b := by
  have hrev : ∀ u v : Text, (u.around v b).reverse = Text.around v.reverse u.reverse b := by
    intro u v
    simp [Text.around]
  rw [Text.dropEnd, hrev, (Text.span_around rfl _ _ b).2, hrev, List.reverse_reverse, Text.dropEnd]

theorem beforeY?_around (u v : Text) (b : UInt8) :
    beforeY? (u.around v b) = (beforeY? v).map (u.around · b) := by
  rw [beforeY?, indexed?_around, beforeY?, Option.map_map, Option.map_map]
  congr 1
  funext body
  exact dropEnd_around u body b

/-- The brackets around a constant stand on either side of it. -/
theorem enclosed?_around {opening closing : UInt8} (ho : opening ≠ 39) (hc : closing ≠ 39)
    (u v : Text) (b : UInt8) :
    enclosed? opening closing (u.around v b) =
      if u.head? = some opening ∧ v.getLast? = some closing then
        some (Text.around u.tail v.dropLast b)
      else none := by
  cases u with
  | nil =>
    have hstart : enclosed? opening closing (39 :: b :: 39 :: v) = none :=
      enclosed?_of_isPrefix (Ne.symm ho) (List.prefix_refl _)
    simpa [Text.around] using hstart
  | cons c u =>
    rcases List.eq_nil_or_concat v with rfl | ⟨v, d, rfl⟩
    · have hsplit : Text.around (c :: u) [] b = c :: ((u ++ [39, b]) ++ [39]) := by
        simp [Text.around]
      rw [hsplit, enclosed?_append]
      simp [Ne.symm hc]
    · have hsplit : Text.around (c :: u) (v ++ [d]) b = c :: (Text.around u v b ++ [d]) := by
        simp [Text.around]
      rw [List.concat_eq_append, hsplit, enclosed?_append]
      simp

/-- A byte that can be put into a constant of any operand. -/
def isFiller (b : UInt8) : Bool := b != 39 && b != 10

/-- Whether a text is found inside another one without a look at the constant. -/
def Overlooks (inner? : Text → Option Text) : Prop :=
  ∀ u v : Text, ∃ x : Option (Text × Text),
    (∀ p ∈ x, p.1.opensConstant = u.opensConstant) ∧
      ∀ b, isFiller b → inner? (u.around v b) = x.map fun p => p.1.around p.2 b

namespace Overlooks

theorem bind {inner? next? : Text → Option Text} (h : Overlooks inner?) (hnext : Overlooks next?) :
    Overlooks fun s => (inner? s).bind next? := by
  intro u v
  obtain ⟨x, hopens, hx⟩ := h u v
  cases x with
  | none =>
    refine ⟨none, by simp, fun b hb => ?_⟩
    simp only [hx b hb, Option.map_none, Option.bind_none]
  | some p =>
    obtain ⟨y, hopens', hy⟩ := hnext p.1 p.2
    refine ⟨y, fun q hq => (hopens' q hq).trans (hopens p rfl), fun b hb => ?_⟩
    simp only [hx b hb, Option.map_some, Option.bind_some, hy b hb]

theorem of_end {inner? : Text → Option Text}
    (h : ∀ u v b, inner? (Text.around u v b) = (inner? v).map (Text.around u · b)) :
    Overlooks inner? := by
  intro u v
  refine ⟨(inner? v).map (u, ·), fun p hp => ?_, fun b _ => ?_⟩
  · obtain ⟨w, -, rfl⟩ := Option.map_eq_some_iff.1 hp
    rfl
  · rw [h, Option.map_map]
    rfl

theorem indexed (letter : IndexLetter) : Overlooks (indexed? letter) :=
  of_end (indexed?_around letter)

theorem enclosed {opening closing : UInt8} (ho : opening ≠ 39) (hc : closing ≠ 39) :
    Overlooks (enclosed? opening closing) := by
  intro u v
  by_cases hends : u.head? = some opening ∧ v.getLast? = some closing
  · refine ⟨some (u.tail, v.dropLast), fun p hp => ?_, fun b _ => ?_⟩
    · cases hp
      obtain ⟨u, rfl⟩ := List.head?_eq_some_iff.1 hends.1
      exact (Text.opensConstant_cons ho u).symm
    · rw [enclosed?_around ho hc, if_pos hends]
      rfl
  · refine ⟨none, by simp, fun b _ => ?_⟩
    rw [enclosed?_around ho hc, if_neg hends]
    rfl

theorem hash : Overlooks (Text.after? [35]) := by
  intro u v
  refine ⟨(Text.after? [35] u).map (·, v), fun p hp => ?_, fun b _ => ?_⟩
  · obtain ⟨r, hr, rfl⟩ := Option.map_eq_some_iff.1 hp
    rw [Text.after?_eq_some.1 hr, Text.opensConstant_append (by decide)]
  · have happend := Text.after?_append_of_notMem (f := [35]) (t := 39 :: b :: 39 :: v) (by simp) u
    rw [Option.map_map]
    exact happend

theorem body : Overlooks body? := by
  intro u v
  by_cases hlf : 10 ∈ u ∨ 10 ∈ v
  · refine ⟨none, by simp, fun b hb => ?_⟩
    have hmem : 10 ∈ u.around v b := by
      simp only [Text.around, List.mem_append, List.mem_cons]
      tauto
    simp [body?, hmem]
  · refine ⟨some (u, v), by simp, fun b hb => body?_of_ne_nil (by simp [Text.around]) ?_⟩
    have hb10 : b ≠ 10 := by
      rintro rfl
      cases hb
    rw [not_or] at hlf
    simp [Text.around, hlf.1, hlf.2, Ne.symm hb10]

end Overlooks

/-- A shape with the text that it encloses, before and after a constant. -/
structure Slot where
  form : Form
  left : Text
  right : Text

def Slot.fill (b : UInt8) (p : Slot) : Form × Text := (p.form, p.left.around p.right b)

/-- So it is with the first of some shapes. -/
theorem exists_first? {shapes : List (Form × (Text → Option Text))}
    (h : ∀ shape ∈ shapes, Overlooks shape.2) (u v : Text) :
    ∃ x : Option Slot,
      (∀ p ∈ x, p.form ∈ shapes.map Prod.fst ∧ p.left.opensConstant = u.opensConstant) ∧
        ∀ b, isFiller b → first? shapes (u.around v b) = x.map (Slot.fill b) := by
  induction shapes with
  | nil => exact ⟨none, by simp, fun b _ => rfl⟩
  | cons shape shapes ih =>
    obtain ⟨x, hx, hrest⟩ := ih fun s hs => h s (List.mem_cons_of_mem _ hs)
    obtain ⟨y, hy, hfirst⟩ := (h shape List.mem_cons_self).bind Overlooks.body u v
    cases y with
    | none =>
      refine ⟨x, fun p hp => ⟨List.mem_cons_of_mem _ (hx p hp).1, (hx p hp).2⟩, fun b hb => ?_⟩
      have hnone : (shape.2 (u.around v b)).bind body? = none := hfirst b hb
      rw [← hrest b hb, first?, List.findSome?_cons]
      simp only [hnone, Option.map_none]
      rfl
    | some q =>
      refine ⟨some ⟨shape.1, q.1, q.2⟩, fun p hp => ?_, fun b hb => ?_⟩
      · cases hp
        exact ⟨List.mem_cons_self, hy q rfl⟩
      · have hsome : (shape.2 (u.around v b)).bind body? = some (q.1.around q.2 b) := hfirst b hb
        rw [first?, List.findSome?_cons]
        simp only [hsome, Option.map_some]
        rfl

theorem first?_wrapped_of_start {s : Text} (h : ∀ d ∈ s.head?, d ∉ ascii "([") :
    first? wrapped s = none := by
  cases s with
  | nil => rfl
  | cons d s =>
    have hascii : ascii "([" = [40, 91] := rfl
    have hd : d ≠ 40 ∧ d ≠ 91 := by simpa [hascii] using h d rfl
    exact first?_wrapped_of_head hd.1 hd.2 s

theorem wrapped_overlook : ∀ shape ∈ wrapped, Overlooks shape.2 := by
  have hbefore : Overlooks beforeY? := .of_end beforeY?_around
  have hparen : Overlooks parenthesized? := .enclosed (by decide) (by decide)
  have hbracket : Overlooks bracketed? := .enclosed (by decide) (by decide)
  have hparenY := hbefore.bind hparen
  simp only [wrapped, List.forall_mem_cons]
  exact ⟨hparenY.bind (.indexed .s), hparen.bind (.indexed .x), hparenY, hparen,
    hbefore.bind hbracket, hbracket, List.forall_mem_nil _⟩

theorem bare_overlook : ∀ shape ∈ bare, Overlooks shape.2 := by
  simp only [bare, List.forall_mem_cons]
  exact ⟨.indexed .x, .indexed .y, .indexed .s, List.forall_mem_nil _⟩

/-- The forms of operands that have no shape in brackets. -/
def flatForms : List Form := [.immediate, .plain, .x, .y, .stack]

/-- At one place all constants give the same shape in brackets, if any, and the same other shape.
Which of the two counts is a question of the brackets. -/
theorem exists_of (u v : Text) :
    ∃ (x : Option Slot) (y : Slot),
      (∀ p ∈ x, p.form ∉ flatForms ∧ p.left.opensConstant = u.opensConstant) ∧
      y.form ∈ flatForms ∧ y.left.opensConstant = u.opensConstant ∧
      ∀ b, isFiller b → first? wrapped (u.around v b) = x.map (Slot.fill b) ∧
        of (u.around v b) =
          Slot.fill b (if wrapsWhole 0 (u.around v b) then x.getD y else y) := by
  obtain ⟨x, hx, hwrapped⟩ := exists_first? wrapped_overlook u v
  obtain ⟨y, hy, hbare⟩ := exists_first? bare_overlook u v
  obtain ⟨z, hz, hhash⟩ := Overlooks.hash.bind Overlooks.body u v
  have hforms : ∀ form ∈ wrapped.map Prod.fst, form ∉ flatForms := by decide
  have hflat : ∀ form ∈ bare.map Prod.fst, form ∈ flatForms := by decide
  cases z with
  | none =>
    refine ⟨x, y.getD ⟨.plain, u, v⟩, fun p hp => ⟨hforms _ (hx p hp).1, (hx p hp).2⟩, ?_, ?_,
      fun b hb => ⟨hwrapped b hb, ?_⟩⟩
    · cases y with
      | none => exact (by decide : Form.plain ∈ flatForms)
      | some p => exact hflat _ (hy p rfl).1
    · cases y with
      | none => rfl
      | some p => exact (hy p rfl).2
    · have hnone : (Text.after? [35] (u.around v b)).bind body? = none := hhash b hb
      simp only [of, hnone, hwrapped b hb, hbare b hb]
      split
      · cases x with
        | none => cases y <;> rfl
        | some p => rfl
      · cases y <;> rfl
  | some q =>
    have hnone : x = none := by
      have hsome : (Text.after? [35] (u.around v 48)).bind body? = some (q.1.around q.2 48) :=
        hhash 48 rfl
      obtain ⟨r, hr, -⟩ := Option.bind_eq_some_iff.1 hsome
      have hfirst := hwrapped 48 rfl
      rw [Text.after?_eq_some.1 hr] at hfirst
      have hhead : first? wrapped (35 :: r) = none :=
        first?_wrapped_of_head (by decide) (by decide) r
      exact Option.map_eq_none_iff.1 (hfirst.symm.trans hhead)
    subst hnone
    refine ⟨none, ⟨.immediate, q.1, q.2⟩, by simp, List.mem_cons_self, hz q rfl,
      fun b hb => ⟨hwrapped b hb, ?_⟩⟩
    have hsome : (Text.after? [35] (u.around v b)).bind body? = some (q.1.around q.2 b) :=
      hhash b hb
    simp only [of, hsome, Option.getD_none, ite_self]
    rfl

end Shape

namespace Operand

/-- Whether two operands are read alike but for one leaf of the term: neither can be read, or both
have the same form, and their terms are the same but for this leaf. -/
def AlikeBut (leaf leaf' : Term) (x x' : Except ExprError Operand) : Prop :=
  (x.toOption = none ∧ x'.toOption = none) ∨
    ∃ (form : Form) (K : Term.Hole),
      x = .ok ⟨form, .ofTerm (K.fill leaf)⟩ ∧ x' = .ok ⟨form, .ofTerm (K.fill leaf')⟩

def ofShape (labels : Labels) (shape : Form × Text) : Except ExprError Operand :=
  (Term.read labels shape.2).map fun t => ⟨shape.1, .ofTerm t⟩

theorem read_around (labels : Labels) (u v : Text) (b : UInt8) :
    Operand.read labels (u.around v b) = ofShape labels (Shape.of (u.around v b).trim) := by
  have hlength : 3 ≤ (u.around v b).trim.length := by
    rw [Text.trim_around, Text.length_around]
    omega
  have hne : ∀ s : Text, s.length < 3 → (u.around v b).trim ≠ s := by
    rintro s hs rfl
    omega
  have hempty : (u.around v b).trim.isEmpty = false := by
    simpa using hne [] (by decide)
  simp only [Operand.read, hempty, hne [97] (by decide), hne [65] (by decide), or_self, if_false,
    Bool.false_eq_true]
  rfl

/-- Operands with one shape around two constants. -/
theorem alikeBut_fill (labels : Labels) {p : Shape.Slot} (hp : p.left.opensConstant) {b c : UInt8}
    (hb : b ≠ 39) (hc : c ≠ 39) :
    AlikeBut (.character b) (.character c) (ofShape labels (p.fill b))
      (ofShape labels (p.fill c)) := by
  have hfails : ∀ d, (Term.read labels (p.left.around p.right d)).toOption = none →
      (ofShape labels (p.fill d)).toOption = none := by
    intro d hd
    unfold ofShape Shape.Slot.fill
    cases hr : Term.read labels (p.left.around p.right d) with
    | error e => rfl
    | ok t =>
      rw [hr] at hd
      cases hd
  rcases Term.read_around labels hp p.right with hnone | ⟨K, hK⟩
  · exact .inl ⟨hfails b (hnone b hb), hfails c (hnone c hc)⟩
  · refine .inr ⟨p.form, K, ?_, ?_⟩
    · simp only [ofShape, Shape.Slot.fill, hK b hb]
      rfl
    · simp only [ofShape, Shape.Slot.fill, hK c hc]
      rfl

theorem form_of_ofShape {labels : Labels} {shape : Form × Text} {form : Form}
    {e : Expression} (h : ofShape labels shape = .ok ⟨form, e⟩) : shape.1 = form := by
  unfold ofShape at h
  cases hr : Term.read labels shape.2 with
  | error err =>
    rw [hr] at h
    cases h
  | ok t =>
    rw [hr] at h
    cases h
    rfl

section
variable (labels : Labels) {u : Text} (hu : u.opensConstant) (v : Text) {b c : UInt8}
  (hb : Shape.isFiller b) (hc : Shape.isFiller c)
include hu hb hc

/-- Operands in which all but a constant is the same are read alike exactly if the brackets close
at the end in both or in neither, or this does not matter, or they cannot be read. -/
theorem alikeBut_ofShape_iff :
    AlikeBut (.character b) (.character c) (ofShape labels (Shape.of (u.around v b)))
        (ofShape labels (Shape.of (u.around v c))) ↔
      Shape.wrapsWhole 0 (u.around v b) = Shape.wrapsWhole 0 (u.around v c) ∨
        Shape.first? Shape.wrapped (u.around v b) = none ∨
        ((ofShape labels (Shape.of (u.around v b))).toOption = none ∧
          (ofShape labels (Shape.of (u.around v c))).toOption = none) := by
  have hquote : ∀ {d : UInt8}, Shape.isFiller d → d ≠ 39 := by
    rintro d hd rfl
    cases hd
  obtain ⟨x, y, hx, hyform, hyopens, hof⟩ := Shape.exists_of u v
  have hslot : ∀ p : Shape.Slot, p.left.opensConstant = u.opensConstant →
      AlikeBut (.character b) (.character c) (ofShape labels (p.fill b))
        (ofShape labels (p.fill c)) := fun p hp =>
    alikeBut_fill labels (hp.trans hu) (hquote hb) (hquote hc)
  rw [(hof b hb).1, (hof b hb).2, (hof c hc).2]
  cases x with
  | none =>
    simp only [Option.getD_none, ite_self, Option.map_none]
    exact ⟨fun _ => .inr (.inl trivial), fun _ => hslot y hyopens⟩
  | some p =>
    obtain ⟨hpform, hpopens⟩ := hx p rfl
    have hne : p.form ≠ y.form := fun he => hpform (he ▸ hyform)
    by_cases hwraps : Shape.wrapsWhole 0 (u.around v b) = Shape.wrapsWhole 0 (u.around v c)
    · refine ⟨fun _ => .inl hwraps, fun _ => ?_⟩
      rw [hwraps]
      split
      · exact hslot p hpopens
      · exact hslot y hyopens
    · constructor
      · intro halike
        refine .inr (.inr (halike.resolve_right ?_))
        -- One is read in its brackets and the other one is not, and so their forms differ.
        rintro ⟨form, K, hform, hform'⟩
        have hforms := (form_of_ofShape hform).trans (form_of_ofShape hform').symm
        cases hw : Shape.wrapsWhole 0 (u.around v b) with
        | true =>
          have hw' : Shape.wrapsWhole 0 (u.around v c) = false := by simpa [hw] using hwraps
          rw [hw, hw'] at hforms
          exact hne hforms
        | false =>
          have hw' : Shape.wrapsWhole 0 (u.around v c) = true := by simpa [hw] using hwraps
          rw [hw, hw'] at hforms
          exact hne hforms.symm
      · rintro (h | h | h)
        · exact absurd h hwraps
        · cases h
        · exact .inl h

end

/-- Let two operands differ in a character constant only. If neither constant is a bracket, or no
bracket starts the operands, both have the same form and the same term but for the constant, or
neither can be read. For all constants that is so unless the operands fit a shape in brackets, at
least one can be read, and the brackets close at the end in one of them only when those in constants
are counted too. -/
theorem read_around_iff (labels : Labels) {u : Text} (hu : u.opensConstant) (v : Text)
    {b c : UInt8} (hb : Shape.isFiller b) (hc : Shape.isFiller c) :
    let s := u.around v b
    let s' := u.around v c
    let alike := AlikeBut (.character b) (.character c) (Operand.read labels s)
      (Operand.read labels s')
    ((∀ d ∈ [b, c], d ∉ ascii "()[]") ∨ (∀ d ∈ s.trim.head?, d ∉ ascii "([") → alike) ∧
      (alike ↔ Shape.wrapsWhole 0 s.trim = Shape.wrapsWhole 0 s'.trim ∨
        Shape.first? Shape.wrapped s.trim = none ∨
        ((Operand.read labels s).toOption = none ∧ (Operand.read labels s').toOption = none)) := by
  have hopens : (Text.trimStart u).opensConstant := by rwa [Text.opensConstant_trimStart]
  have hiff := alikeBut_ofShape_iff labels hopens v.trimEnd hb hc
  simp only [read_around, Text.trim_around]
  refine ⟨fun hsafe => hiff.2 ?_, hiff⟩
  rcases hsafe with hplain | hhead
  · refine .inl ?_
    have hcount : ∀ d ∈ [b, c], Shape.wrapsWhole 0 ((Text.trimStart u).around v.trimEnd d) =
        Shape.wrapsWhole 0 ((Text.trimStart u).around v.trimEnd 48) := by
      intro d hd
      have hascii : ascii "()[]" = [40, 41, 91, 93] := rfl
      have hbracket : d ≠ 40 ∧ d ≠ 41 ∧ d ≠ 91 ∧ d ≠ 93 := by simpa [hascii] using hplain d hd
      refine Shape.wrapsWhole_around _ _ ?_ ?_ 0
      · simp [Shape.isOpening, hbracket]
      · simp [Shape.isClosing, hbracket]
    rw [hcount b List.mem_cons_self, hcount c (List.mem_cons_of_mem _ List.mem_cons_self)]
  · exact .inr (.inl (Shape.first?_wrapped_of_start hhead))

/-- A comma in the place of a letter, before another constant and an index letter. -/
theorem read_around_iff_of_comma :
    let u := ascii "(';'+"
    let v := ascii "*2),y"
    u.opensConstant ∧ Shape.isFiller 97 ∧ Shape.isFiller 44 ∧
      (∀ d ∈ [(97 : UInt8), 44], d ∉ ascii "()[]") ∧
      AlikeBut (.character 97) (.character 44) (Operand.read {} (u.around v 97))
        (Operand.read {} (u.around v 44)) := by
  intro u v
  have hplain : ∀ d ∈ [(97 : UInt8), 44], d ∉ ascii "()[]" :=
    List.forall_mem_cons.2 ⟨by decide, List.forall_mem_singleton.2 (by decide)⟩
  exact ⟨rfl, rfl, rfl, hplain, (read_around_iff {} rfl v rfl rfl).1 (.inl hplain)⟩

/-- A letter in parentheses is an indirect operand, and a closing parenthesis in its place makes it
a plain one. -/
theorem exists_read_around_ne :
    ∃ u v : Text, u.opensConstant ∧
      Operand.read {} (u.around v 97) = .ok ⟨.indirect, .ofTerm (.character 97)⟩ ∧
      Operand.read {} (u.around v 41) = .ok ⟨.plain, .ofTerm (.character 41)⟩ ∧
      ¬AlikeBut (.character 97) (.character 41) (Operand.read {} (u.around v 97))
        (Operand.read {} (u.around v 41)) := by
  have htrim : ∀ b, Text.trim (Text.around [40] [41] b) = Text.around [40] [41] b := fun b =>
    @Text.trim_of_isInk [] (Text.around [40] [41] b) [] .nil .nil rfl rfl
  have hletter : Operand.read {} (Text.around [40] [41] 97) =
      .ok ⟨.indirect, .ofTerm (.character 97)⟩ := by
    have hbody : Shape.IsBody [39, 97, 39] :=
      ⟨List.cons_ne_nil _ _, by decide, by decide, by decide, fun _ _ _ => rfl⟩
    have hshape : Shape.of (Text.around [40] [41] 97) = (.indirect, [39, 97, 39]) :=
      Shape.of_indirect hbody
    have hterm : Term.read {} [39, 97, 39] = .ok (.character 97) :=
      ExprReader.read_of_unary? (by rw [ExprReader.unary?_eq]; rfl)
    rw [read_around, htrim, hshape, ofShape, hterm]
    rfl
  have hbracket : Operand.read {} (Text.around [40] [41] 41) =
      .ok ⟨.plain, .ofTerm (.character 41)⟩ := by
    have hwraps : Shape.wrapsWhole 0 (Text.around [40] [41] 41) = false :=
      (@Shape.wrapsWhole_close 41 rfl [39, 41]).trans (Shape.isTail_of_mem List.mem_cons_self)
    have hbare : Shape.first? Shape.bare (Text.around [40] [41] 41) = none := by
      simp [Shape.first?, Shape.bare, Shape.indexed?_of_notMem, Text.around]
    have hshape : Shape.of (Text.around [40] [41] 41) = (.plain, Text.around [40] [41] 41) := by
      rw [Shape.of, hwraps, hbare]
      rfl
    have hconstant : ExprReader.infixed? {} 0 [39, 41, 39, 41] = some (.character 41, [41]) := by
      rw [ExprReader.infixed?_eq, ExprReader.unary?_eq]
      exact ExprReader.climb?_eq {} 0 (.character 41) [41]
    have hterm : Term.read {} (Text.around [40] [41] 41) = .ok (.character 41) :=
      ExprReader.read_of_unary? (ExprReader.unary?_parenthesis {} hconstant rfl)
    rw [read_around, htrim, hshape, ofShape, hterm]
    rfl
  refine ⟨[40], [41], rfl, hletter, hbracket, ?_⟩
  rw [hletter, hbracket]
  rintro (⟨h, -⟩ | ⟨form, K, h, h'⟩)
  · cases h
  · have hform : Form.indirect = form := congrArg Operand.form (Except.ok.inj h)
    have hform' : Form.plain = form := congrArg Operand.form (Except.ok.inj h')
    cases hform.trans hform'.symm

end Operand
end Assembler65816
