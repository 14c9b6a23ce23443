import Assembler65816.Text.Blank

/-!
# Trimming

Blanks are written as forms of one to three bytes. No form starts another one, so a row of blanks
falls into forms in one way only and trimming takes away all of it. The first byte of a form stands
nowhere else in a form, so a blank is never made up of bytes from both sides of a cut before
another blank. A byte that stands in no form at all stops the trimming from either side.
-/
namespace Assembler65816.Text

inductive Row (forms : List Text) : Text → Prop
  | nil : Row forms []
  | cons {f r : Text} (hf : f ∈ forms) (hr : Row forms r) : Row forms (f ++ r)

def Apart (forms : List Text) : Prop := ∀ f ∈ forms, ∀ g ∈ forms, f <+: g → f = g

section
variable {forms : List Text}

theorem Row.single {f : Text} (h : f ∈ forms) : Row forms f := by
  have := Row.cons h .nil
  rwa [List.append_nil] at this

theorem Row.append {s t : Text} (hs : Row forms s) (ht : Row forms t) : Row forms (s ++ t) := by
  induction hs with
  | nil => exact ht
  | cons hf _ ih =>
    rw [List.append_assoc]
    exact .cons hf ih

theorem Row.reverse {s : Text} (h : Row forms s) : Row (forms.map List.reverse) s.reverse := by
  induction h with
  | nil => exact .nil
  | cons hf _ ih =>
    rw [List.reverse_append]
    exact ih.append (.single (List.mem_map_of_mem hf))

theorem Row.unreverse {s : Text} (h : Row (forms.map List.reverse) s) : Row forms s.reverse := by
  have hforms : (forms.map List.reverse).map List.reverse = forms := by
    rw [List.map_map]
    exact List.map_id'' List.reverse_reverse forms
  rw [← hforms]
  exact h.reverse

theorem afterForm?_eq_none {s : Text} : afterForm? forms s = none ↔ ∀ f ∈ forms, ¬f <+: s := by
  rw [afterForm?, List.findSome?_eq_none_iff]
  constructor
  · rintro h f hf ⟨r, hr⟩
    cases (h f hf).symm.trans (after?_eq_some.2 hr.symm)
  · intro h f hf
    cases hr : after? f s with
    | none => rfl
    | some r => exact absurd ⟨r, (after?_eq_some.1 hr).symm⟩ (h f hf)

theorem Apart.afterForm?_append (h : Apart forms) {f : Text} (hf : f ∈ forms) (r : Text) :
    afterForm? forms (f ++ r) = some r := by
  cases hr : afterForm? forms (f ++ r) with
  | none => exact absurd (List.prefix_append f r) (afterForm?_eq_none.1 hr f hf)
  | some r' =>
    obtain ⟨g, hg, hr⟩ := List.exists_of_findSome?_eq_some hr
    rw [after?_eq_some] at hr
    have hfg : f = g := by
      rcases List.prefix_or_prefix_of_prefix (List.prefix_append f r) ⟨r', hr.symm⟩ with hp | hp
      · exact h f hf g hg hp
      · exact (h g hg f hf hp).symm
    subst hfg
    rw [List.append_cancel_left hr]

variable (hsolid : Solid forms)

theorem dropForms_of_some {s r : Text} (h : afterForm? forms s = some r) :
    dropForms forms hsolid s = dropForms forms hsolid r := by
  rw [dropForms]
  split
  · rename_i hr
    rw [Option.some.inj (h.symm.trans hr)]
  · rename_i hr
    cases h.symm.trans hr

theorem dropForms_of_none {s : Text} (h : afterForm? forms s = none) :
    dropForms forms hsolid s = s := by
  rw [dropForms]
  split
  · rename_i hr
    cases h.symm.trans hr
  · rfl

theorem dropForms_nil : dropForms forms hsolid [] = [] :=
  List.eq_nil_of_length_eq_zero (Nat.le_zero.1 (dropForms_length hsolid []))

/-- What is dropped is a row, and no form follows it. -/
theorem exists_row (s : Text) :
    ∃ lead, Row forms lead ∧ s = lead ++ dropForms forms hsolid s ∧
      afterForm? forms (dropForms forms hsolid s) = none := by
  fun_induction dropForms forms hsolid s with
  | case1 s r hs ih =>
    obtain ⟨lead, hlead, hr, hnone⟩ := ih
    obtain ⟨f, hf, hs⟩ := List.exists_of_findSome?_eq_some hs
    refine ⟨f ++ lead, .cons hf hlead, ?_, hnone⟩
    rw [List.append_assoc, ← hr]
    exact after?_eq_some.1 hs
  | case2 s hs => exact ⟨[], .nil, rfl, hs⟩

theorem Row.dropForms_append {lead : Text} (h : Row forms lead) (hapart : Apart forms)
    (s : Text) :
    dropForms forms hsolid (lead ++ s) = dropForms forms hsolid s := by
  induction h with
  | nil => rfl
  | cons hf _ ih =>
    rw [List.append_assoc, dropForms_of_some _ (hapart.afterForm?_append hf _), ih]

end

/-- A form that does not hold the byte after a cut ends before the cut. -/
theorem after?_append_of_notMem {f t : Text} (h : ∀ b ∈ t.head?, b ∉ f) (s : Text) :
    after? f (s ++ t) = (after? f s).map (· ++ t) := by
  induction f generalizing s with
  | nil => rfl
  | cons a f ih =>
    cases s with
    | nil =>
      cases t with
      | nil => rfl
      | cons b t =>
        have hb : b ∉ a :: f := h b rfl
        have hne : a ≠ b := fun he => hb (he ▸ List.mem_cons_self)
        simp [after?, hne]
    | cons b s =>
      have hf : ∀ c ∈ t.head?, c ∉ f := fun c hc hm => h c hc (List.mem_cons_of_mem _ hm)
      by_cases hab : a = b
      · simp [after?, hab, ih hf]
      · simp [after?, hab]

theorem after?_append_of_notMem_tail {f t : Text} (h : ∀ b ∈ t.head?, b ∉ f.tail) {s : Text}
    (hs : s ≠ []) : after? f (s ++ t) = (after? f s).map (· ++ t) := by
  cases f with
  | nil => rfl
  | cons a f =>
    cases s with
    | nil => exact absurd rfl hs
    | cons b s =>
      by_cases hab : a = b
      · simpa [after?, hab] using after?_append_of_notMem h s
      · simp [after?, hab]

theorem afterForm?_append {forms : List Text} {s t : Text}
    (h : ∀ f ∈ forms, after? f (s ++ t) = (after? f s).map (· ++ t)) :
    afterForm? forms (s ++ t) = (afterForm? forms s).map (· ++ t) := by
  induction forms with
  | nil => rfl
  | cons f forms ih =>
    have hf := h f List.mem_cons_self
    have hforms := ih fun g hg => h g (List.mem_cons_of_mem _ hg)
    simp only [afterForm?, List.findSome?_cons] at hforms ⊢
    rw [hf]
    cases after? f s with
    | none => exact hforms
    | some r => rfl

/-- A byte that stands in no form stops the dropping. -/
theorem dropForms_append_cons {forms : List Text} (hsolid : Solid forms) {c : UInt8}
    (hc : ∀ f ∈ forms, c ∉ f) (s r : Text) :
    dropForms forms hsolid (s ++ c :: r) = dropForms forms hsolid s ++ c :: r := by
  have happend (s : Text) :
      afterForm? forms (s ++ c :: r) = (afterForm? forms s).map (· ++ c :: r) :=
    afterForm?_append fun f hf => after?_append_of_notMem (by simpa using hc f hf) s
  fun_induction dropForms forms hsolid s with
  | case1 s s' hs ih => rw [dropForms_of_some _ (by rw [happend, hs, Option.map_some]), ih]
  | case2 s hs => rw [dropForms_of_none _ (by rw [happend, hs, Option.map_none])]

def Blank : Text → Prop := Row blankForms

theorem blankForms_apart : Apart blankForms := by
  unfold Apart
  decide +kernel

theorem blankForms_reversed_apart : Apart (blankForms.map List.reverse) := by
  unfold Apart
  decide +kernel

/-- The first byte of a form stands nowhere else in a form. -/
theorem head_notMem_tail {f g : Text} (hf : f ∈ blankForms) (hg : g ∈ blankForms) {b : UInt8}
    (hb : b ∈ f.head?) : b ∉ g.tail := by
  have hall : (blankForms.all fun f => blankForms.all fun g =>
      f.head?.all fun b => !g.tail.contains b) = true := by decide +kernel
  have hpair := List.all_eq_true.1 (List.all_eq_true.1 hall f hf) g hg
  rw [hb] at hpair
  simpa using hpair

theorem blank_of_isGap {b : UInt8} (h : isGap b) : Blank [b] := by
  have hform : [b] ∈ blankForms := by
    simp only [isGap, Bool.or_eq_true, beq_iff_eq] at h
    rcases h with (((rfl | rfl) | rfl) | rfl) | rfl <;> decide
  exact .single hform

/-- What follows for all 256 bytes follows for every byte. -/
theorem of_all_bytes {p q : UInt8 → Bool}
    (h : ((List.range 256).all fun n => !p (UInt8.ofNat n) || q (UInt8.ofNat n)) = true)
    {b : UInt8} (hb : p b) : q b := by
  have := List.all_eq_true.1 h b.toNat (List.mem_range.2 b.toNat_lt)
  rw [UInt8.ofNat_toNat, hb] at this
  exact this

/-- A run that the next byte ends. -/
theorem span_append {p : UInt8 → Bool} {run t : Text} (hrun : ∀ b ∈ run, p b)
    (ht : t.head?.all fun b => !p b) :
    (run ++ t).takeWhile p = run ∧ (run ++ t).dropWhile p = t := by
  rw [List.takeWhile_append_of_pos hrun, List.dropWhile_append_of_pos hrun]
  cases t with
  | nil => simp
  | cons b t =>
    have hb : p b = false := by simpa using ht
    simp [hb]

theorem span_replicate (c : UInt8) (k : Nat) {t : Text} (ht : t.head? ≠ some c) :
    (List.replicate k c ++ t).takeWhile (· == c) = List.replicate k c ∧
      (List.replicate k c ++ t).dropWhile (· == c) = t := by
  apply span_append
  · intro b hb
    rw [List.eq_of_mem_replicate hb]
    exact beq_self_eq_true c
  · cases t with
    | nil => rfl
    | cons b t => simpa using ht

/-- A byte that no blank character is written with. -/
def isInk (b : UInt8) : Bool := blankForms.all fun f => !f.contains b

theorem notMem_of_isInk {b : UInt8} (h : isInk b) : ∀ f ∈ blankForms, b ∉ f := by
  simpa [isInk] using h

theorem notMem_of_blank {c : UInt8} (hc : isInk c) {s : Text} (h : Blank s) : c ∉ s := by
  induction h with
  | nil => exact List.not_mem_nil
  | cons hf _ ih =>
    intro hmem
    rcases List.mem_append.1 hmem with hmem | hmem
    · exact notMem_of_isInk hc _ hf hmem
    · exact ih hmem

theorem isInk_of_isNameByte {b : UInt8} : isNameByte b → isInk b :=
  of_all_bytes (by decide +kernel)

theorem exists_trimStart (s : Text) : ∃ lead, Blank lead ∧ s = lead ++ trimStart s := by
  obtain ⟨lead, hlead, hs, _⟩ := exists_row blankForms_solid s
  exact ⟨lead, hlead, hs⟩

theorem exists_trimEnd (s : Text) : ∃ trail, Blank trail ∧ s = trimEnd s ++ trail := by
  obtain ⟨lead, hlead, hs, _⟩ := exists_row blankForms_solid.reversed s.reverse
  refine ⟨lead.reverse, hlead.unreverse, ?_⟩
  rw [trimEnd, ← List.reverse_append, ← hs, List.reverse_reverse]

theorem trimStart_blank_append {lead : Text} (h : Blank lead) (s : Text) :
    trimStart (lead ++ s) = trimStart s :=
  Row.dropForms_append blankForms_solid h blankForms_apart s

theorem trimEnd_append_blank {trail : Text} (h : Blank trail) (s : Text) :
    trimEnd (s ++ trail) = trimEnd s := by
  have := (Row.reverse h).dropForms_append blankForms_solid.reversed blankForms_reversed_apart
    s.reverse
  rw [trimEnd, List.reverse_append, this, trimEnd]

theorem trimStart_blank {s : Text} (h : Blank s) : trimStart s = [] := by
  have := trimStart_blank_append h []
  rw [List.append_nil] at this
  rw [this, trimStart, dropForms_nil]

theorem trim_blank_append {lead : Text} (h : Blank lead) (s : Text) :
    trim (lead ++ s) = trim s := by
  rw [trim, trimStart_blank_append h, trim]

theorem trimStart_append_blank {trail : Text} (h : Blank trail) (s : Text) :
    trimStart (s ++ trail) = if trimStart s = [] then [] else trimStart s ++ trail := by
  have hhead : ∀ f ∈ blankForms, ∀ b ∈ trail.head?, b ∉ f.tail := by
    intro f hf b hb
    cases h with
    | nil => cases hb
    | cons hg hr =>
      rename_i g r
      have hsolid := blankForms_solid g hg
      cases g with
      | nil => exact absurd rfl hsolid
      | cons a g => exact head_notMem_tail hg hf hb
  unfold trimStart
  fun_induction dropForms blankForms blankForms_solid s with
  | case1 s r hs ih =>
    have hne : s ≠ [] := by
      rintro rfl
      cases blankForms_solid.afterForm?_length hs
    have happend : afterForm? blankForms (s ++ trail) = some (r ++ trail) := by
      rw [afterForm?_append fun f hf => after?_append_of_notMem_tail (hhead f hf) hne, hs,
        Option.map_some]
    rw [dropForms_of_some _ happend, ih]
  | case2 s hs =>
    by_cases hne : s = []
    · subst hne
      rw [if_pos rfl]
      exact trimStart_blank h
    · have happend : afterForm? blankForms (s ++ trail) = none := by
        rw [afterForm?_append fun f hf => after?_append_of_notMem_tail (hhead f hf) hne, hs,
          Option.map_none]
      rw [dropForms_of_none _ happend, if_neg hne]

theorem trim_append_blank {trail : Text} (h : Blank trail) (s : Text) :
    trim (s ++ trail) = trim s := by
  rw [trim, trimStart_append_blank h, trim]
  split
  · rename_i hs
    rw [hs]
  · exact trimEnd_append_blank h _

@[simp] theorem trim_nil : trim [] = [] :=
  List.eq_nil_of_length_eq_zero (Nat.le_zero.1 (length_trim []))

theorem trimEnd_nil : trimEnd [] = [] := by
  rw [trimEnd, List.reverse_nil, dropForms_nil, List.reverse_nil]

theorem trim_trimEnd (s : Text) : trim (trimEnd s) = trim s := by
  obtain ⟨trail, htrail, hs⟩ := exists_trimEnd s
  calc
    trim (trimEnd s) = trim (trimEnd s ++ trail) := (trim_append_blank htrail _).symm
    _ = trim s := by rw [← hs]

/-- Where a text stands between the blanks around it. -/
theorem exists_trim (s : Text) :
    ∃ lead trail, Blank lead ∧ Blank trail ∧ s = lead ++ (trim s ++ trail) ∧
      trimStart s = trim s ++ trail := by
  obtain ⟨lead, hlead, hs⟩ := exists_trimStart s
  obtain ⟨trail, htrail, ht⟩ := exists_trimEnd (trimStart s)
  exact ⟨lead, trail, hlead, htrail, by rw [trim, ← ht, ← hs], ht⟩

theorem trimEnd_eq_self_iff {s : Text} : trimEnd s = s ↔ ∀ f ∈ blankForms, ¬f <:+ s := by
  have hforms : (∀ f ∈ blankForms, ¬f <:+ s) ↔
      afterForm? (blankForms.map List.reverse) s.reverse = none := by
    rw [afterForm?_eq_none, List.forall_mem_map]
    simp only [List.reverse_prefix]
  rw [hforms]
  constructor
  · intro h
    obtain ⟨_, _, _, hnone⟩ := exists_row blankForms_solid.reversed s.reverse
    rw [List.reverse_eq_iff.1 h] at hnone
    exact hnone
  · intro h
    rw [trimEnd, dropForms_of_none _ h, List.reverse_reverse]

theorem trimEnd_trim (s : Text) : trimEnd (trim s) = trim s := by
  rw [trimEnd_eq_self_iff]
  obtain ⟨_, _, _, hnone⟩ := exists_row blankForms_solid.reversed (trimStart s).reverse
  intro f hf hsuffix
  refine afterForm?_eq_none.1 hnone f.reverse (List.mem_map_of_mem hf) ?_
  rw [← List.reverse_prefix] at hsuffix
  simpa [trim, trimEnd] using hsuffix

/-- The end of a text that is trimmed at its end is trimmed there as well. -/
theorem trimEnd_of_append {a b : Text} (h : trimEnd (a ++ b) = a ++ b) : trimEnd b = b := by
  rw [trimEnd_eq_self_iff] at h ⊢
  exact fun f hf hsuffix => h f hf (hsuffix.trans (List.suffix_append a b))

theorem trimStart_ink {c : UInt8} (h : isInk c) (s : Text) : trimStart (c :: s) = c :: s := by
  have := dropForms_append_cons blankForms_solid (notMem_of_isInk h) [] s
  rw [dropForms_nil] at this
  exact this

theorem trimEnd_append_ink {c : UInt8} (h : isInk c) (a b : Text) :
    trimEnd (a ++ c :: b) = a ++ c :: trimEnd b := by
  have hc : ∀ f ∈ blankForms.map List.reverse, c ∉ f := by
    intro f hf
    obtain ⟨g, hg, rfl⟩ := List.mem_map.1 hf
    simpa using notMem_of_isInk h g hg
  have hrev : (a ++ c :: b).reverse = b.reverse ++ c :: a.reverse := by simp
  rw [trimEnd, hrev, dropForms_append_cons _ hc]
  simp [trimEnd]

theorem head?_any_append {p : UInt8 → Bool} {s : Text} (h : s.head?.any p) (r : Text) :
    (s ++ r).head?.any p := by
  cases s with
  | nil => cases h
  | cons b s => exact h

theorem getLast?_any_append {p : UInt8 → Bool} {s : Text} (h : s.getLast?.any p) (r : Text) :
    (r ++ s).getLast?.any p := by
  obtain ⟨c, hc, hp⟩ := (Option.any_eq_true _ _).1 h
  rw [List.getLast?_append, hc]
  exact hp

/-- Blanks around a text that starts and ends in ink are trimmed, and nothing else. -/
theorem trim_of_isInk {lead s trail : Text} (hlead : Blank lead) (htrail : Blank trail)
    (hstart : s.head?.any isInk) (hend : s.getLast?.any isInk) :
    trim (lead ++ (s ++ trail)) = s := by
  rw [trim_blank_append hlead, trim_append_blank htrail, trim]
  have hfirst : trimStart s = s := by
    cases s with
    | nil => cases hstart
    | cons c s => exact trimStart_ink hstart s
  obtain ⟨c, hc, hink⟩ := (Option.any_eq_true _ _).1 hend
  obtain ⟨front, rfl⟩ := List.getLast?_eq_some_iff.1 hc
  rw [hfirst, trimEnd_append_ink hink, trimEnd_nil]

theorem mem_blankForms_of_isSpaceOrTab {b : UInt8} (h : isSpaceOrTab b) : [b] ∈ blankForms := by
  simp only [isSpaceOrTab, Bool.or_eq_true, beq_iff_eq] at h
  rcases h with rfl | rfl <;> decide

theorem isGap_of_isSpaceOrTab {b : UInt8} (h : isSpaceOrTab b) : isGap b := by
  simp only [isSpaceOrTab, Bool.or_eq_true, beq_iff_eq] at h
  rcases h with rfl | rfl <;> rfl

theorem isSpaceOrTab_of_isInk {b : UInt8} (h : isInk b) : isSpaceOrTab b = false := by
  rw [Bool.eq_false_iff]
  intro hblank
  exact notMem_of_isInk h _ (mem_blankForms_of_isSpaceOrTab hblank) List.mem_cons_self

/-- The words of a text with no other blanks than spaces and tabs are all of it but these. -/
theorem flatten_wordsFrom {s : Text} (h : ∀ b ∈ s, isSpaceOrTab b || isInk b) (word : Text) :
    (wordsFrom word s).flatten = word.reverse ++ s.filter (!isSpaceOrTab ·) := by
  induction s generalizing word with
  | nil =>
    rw [wordsFrom]
    cases word <;> simp
  | cons b s ih =>
    have hrest := ih fun c hc => h c (List.mem_cons_of_mem b hc)
    rw [wordsFrom]
    by_cases hblank : isSpaceOrTab b
    · have hafter : afterForm? blankForms (b :: s) = some s :=
        blankForms_apart.afterForm?_append (mem_blankForms_of_isSpaceOrTab hblank) s
      split
      · rename_i r hr
        cases hafter.symm.trans hr
        cases word <;> simp [hrest, hblank]
      · rename_i hr
        cases hafter.symm.trans hr
    · have hink : isInk b := by
        rcases Bool.or_eq_true_iff.1 (h b List.mem_cons_self) with hb | hb
        · exact absurd hb hblank
        · exact hb
      split
      · rename_i r hr
        obtain ⟨f, hf, hr⟩ := List.exists_of_findSome?_eq_some hr
        rw [after?_eq_some] at hr
        cases f with
        | nil => exact absurd rfl (blankForms_solid [] hf)
        | cons c f =>
          cases hr
          exact absurd List.mem_cons_self (notMem_of_isInk hink _ hf)
      · simp [hrest, hblank]

theorem flatten_words {s : Text} (h : ∀ b ∈ s, isSpaceOrTab b || isInk b) :
    (words s).flatten = s.filter (!isSpaceOrTab ·) :=
  flatten_wordsFrom h []

end Assembler65816.Text
