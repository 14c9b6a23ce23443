import Mathlib.Data.List.TakeWhile
import Assembler65816.Proofs.Expression.Rendering

/-!
# What a reader takes off a text

The readers of expressions take a piece off the front of a text and return the rest. This module
says two things about such a piece. It is put together from tokens, spaces, groups in parentheses
and character constants, and so has every property that these have and that putting together keeps;
without character constants it closes the parentheses that it opens. And it does not depend on what
comes after it, as long as that is the end, a closing parenthesis or a comma: without it the same
term is read from the same piece.
-/
namespace Assembler65816

/-- A byte that tokens are written with, parentheses and quotes apart. -/
def isToken (b : UInt8) : Bool :=
  isNameByte b || [36, 37, 38, 42, 43, 45, 46, 47, 60, 62, 94, 124, 126].contains b

theorem not_isSpaceOrTab_of_isToken {b : UInt8} (h : isToken b) : isSpaceOrTab b = false := by
  have hsolid := Text.of_all_bytes (q := fun b => !isSpaceOrTab b) (by decide +kernel) h
  simpa using hsolid

/-- A text of tokens and spaces that closes the parentheses it opens. -/
inductive Nested : Text → Prop
  | nil : Nested []
  | byte {b : UInt8} {s : Text} : isSpaceOrTab b || isToken b → Nested s → Nested (b :: s)
  | group {s r : Text} : Nested s → Nested r → Nested (40 :: (s ++ 41 :: r))

namespace Nested

theorem append {s r : Text} (hs : Nested s) (hr : Nested r) : Nested (s ++ r) := by
  induction hs with
  | nil => exact hr
  | byte hb _ ih => exact .byte hb ih
  | group hs _ _ ih =>
    rw [List.cons_append, List.append_assoc, List.cons_append]
    exact .group hs ih

theorem of_bytes {s : Text} (h : ∀ b ∈ s, isSpaceOrTab b || isToken b) : Nested s := by
  induction s with
  | nil => exact .nil
  | cons b s ih =>
    exact .byte (h b List.mem_cons_self) (ih fun c hc => h c (List.mem_cons_of_mem b hc))

theorem of_spacing {g : Text} (h : IsSpacing g) : Nested g :=
  of_bytes fun b hb => by rw [h b hb, Bool.true_or]

theorem byte_of_mem {s : Text} (h : Nested s) {b : UInt8} (hb : b ∈ s) :
    isSpaceOrTab b || isToken b || b == 40 || b == 41 := by
  induction h with
  | nil => cases hb
  | byte hc _ ih =>
    rcases List.mem_cons.1 hb with rfl | hb
    · rw [hc, Bool.true_or, Bool.true_or]
    · exact ih hb
  | group _ _ ihs ihr =>
    rcases List.mem_cons.1 hb with rfl | hb
    · rfl
    rcases List.mem_append.1 hb with hb | hb
    · exact ihs hb
    rcases List.mem_cons.1 hb with rfl | hb
    · rfl
    · exact ihr hb

end Nested

/-- The last byte of two texts is the last byte of one of them. -/
theorem Text.getLast?_append_of {p : UInt8 → Prop} {s r : Text} (hs : ∀ b ∈ s.getLast?, p b)
    (hr : ∀ b ∈ r.getLast?, p b) : ∀ b ∈ (s ++ r).getLast?, p b := by
  intro b hb
  rw [List.getLast?_append] at hb
  cases hlast : r.getLast? with
  | none =>
    rw [hlast] at hb
    exact hs b hb
  | some c =>
    rw [hlast] at hb
    exact hr b (hlast ▸ hb)

theorem Text.getLast?_append_of_ne_nil {p : UInt8 → Prop} {s : Text} (hne : s ≠ [])
    (hs : ∀ b ∈ s.getLast?, p b) (g : Text) : ∀ b ∈ (g ++ s).getLast?, p b := by
  intro b hb
  obtain ⟨c, hlast⟩ := Option.isSome_iff_exists.1 (List.getLast?_isSome.2 hne)
  rw [List.getLast?_append, hlast] at hb
  exact hs b (hlast ▸ hb)

/-- What a reader takes: a nested text that does not end in a space. -/
structure IsPiece (s : Text) : Prop where
  nested : Nested s
  ends : ∀ b ∈ s.getLast?, isSpaceOrTab b = false

namespace IsPiece

theorem append {s r : Text} (hs : IsPiece s) (hr : IsPiece r) : IsPiece (s ++ r) :=
  ⟨hs.nested.append hr.nested, Text.getLast?_append_of hs.ends hr.ends⟩

theorem of_tokens {s : Text} (h : ∀ b ∈ s, isToken b) : IsPiece s := by
  refine ⟨.of_bytes fun b hb => by rw [h b hb, Bool.or_true], fun b hb => ?_⟩
  exact not_isSpaceOrTab_of_isToken (h b (List.mem_of_getLast? hb))

theorem spacing_append {g s : Text} (hg : IsSpacing g) (hs : IsPiece s) (hne : s ≠ []) :
    IsPiece (g ++ s) :=
  ⟨(Nested.of_spacing hg).append hs.nested, Text.getLast?_append_of_ne_nil hne hs.ends g⟩

theorem group {s : Text} (hs : Nested s) : IsPiece (40 :: (s ++ [41])) := by
  refine ⟨.group hs .nil, fun b hb => ?_⟩
  rw [← List.cons_append, List.getLast?_concat] at hb
  cases hb
  rfl

end IsPiece

namespace ExprReader

/-- A kind of texts that has all that a reader can take: the runs of tokens, the character
constants, and what its texts give one after the other, behind spaces and in parentheses. -/
structure PieceKind (P : Text → Prop) : Prop where
  tokens : ∀ s : Text, (∀ b ∈ s, isToken b) → P s
  constant : ∀ b : UInt8, P [39, b, 39]
  append : ∀ s r : Text, P s → P r → P (s ++ r)
  spacing : ∀ g s : Text, IsSpacing g → s ≠ [] → P s → P (g ++ s)
  group : ∀ s g : Text, IsSpacing g → P s → P (40 :: (s ++ g ++ [41]))

/-- Whether `r` is what is left of `s` without a text of the kind. -/
def Sheds (P : Text → Prop) (s r : Text) : Prop := ∃ piece, s = piece ++ r ∧ P piece

theorem exists_skip (s : Text) : ∃ g, IsSpacing g ∧ s = g ++ skip s := by
  refine ⟨s.takeWhile isSpaceOrTab, fun b hb => ?_, List.takeWhile_append_dropWhile.symm⟩
  exact List.all_eq_true.1 List.all_takeWhile b hb

theorem isToken_of_isNameByte {b : UInt8} (h : isNameByte b) : isToken b := by
  rw [isToken, h, Bool.true_or]

theorem isToken_of_isNumberPart {radix : Radix} {b : UInt8} (h : isNumberPart radix b) :
    isToken b :=
  isToken_of_isNameByte (isNameByte_of_isNumberPart h)

theorem isToken_of_beq {b c : UInt8} (hc : isToken c) (h : b == c) : isToken b := by
  rwa [beq_iff_eq.1 h]

/-- The signs of anonymous labels. -/
theorem isToken_of_sign {c : UInt8} (h : ¬(c != 45 && c != 43)) : isToken c := by
  simp only [Bool.and_eq_true, bne_iff_ne, not_and_or, not_not] at h
  rcases h with rfl | rfl <;> rfl

theorem isToken_of_unarySign? {c : UInt8} {op : UnaryOp} (h : unarySign? c = some op) :
    isToken c := by
  refine Text.of_all_bytes (p := fun b => (unarySign? b).isSome) (by decide +kernel) ?_
  rw [h]
  rfl

theorem isToken_of_mem_sign {op : BinaryOp} {b : UInt8} (h : b ∈ ascii op.sign) : isToken b := by
  have hsign : (ascii op.sign).all isToken = true := by cases op <;> rfl
  exact List.all_eq_true.1 hsign b h

theorem operator?_eq_some {s r : Text} {op : BinaryOp} (h : operator? s = some (op, r)) :
    s = ascii op.sign ++ r := by
  obtain ⟨op', -, hr⟩ := List.exists_of_findSome?_eq_some h
  obtain ⟨r', hr', he⟩ := Option.map_eq_some_iff.1 hr
  cases he
  exact Text.after?_eq_some.1 hr'

/-- A group is read as what is read behind its parenthesis, if that goes up to the closing one. -/
theorem group_eq_some {labels : Labels} {s r : Text} {t : Term} :
    ((infixed? labels 0 s).bind fun p =>
      match skip p.2 with
      | 41 :: r' => some (p.1, r')
      | _ => none) = some (t, r) ↔ ∃ p, infixed? labels 0 s = some (t, p) ∧ skip p = 41 :: r := by
  constructor
  · intro h
    obtain ⟨⟨x, p⟩, hx, he⟩ := Option.bind_eq_some_iff.1 h
    split at he
    · rename_i r' hp
      cases he
      exact ⟨p, hx, hp⟩
    · cases he
  · rintro ⟨p, hx, hp⟩
    simp only [hx, Option.bind_some, hp]

section Kind
variable {P : Text → Prop} (hP : PieceKind P)
include hP

theorem PieceKind.nil : P [] := hP.tokens [] (List.forall_mem_nil _)

theorem Sheds.trans {s r r' : Text} (h : Sheds P s r) (h' : Sheds P r r') : Sheds P s r' := by
  obtain ⟨p, rfl, hp⟩ := h
  obtain ⟨q, rfl, hq⟩ := h'
  exact ⟨p ++ q, (List.append_assoc ..).symm, hP.append p q hp hq⟩

/-- Spaces before a piece are taken with it. -/
theorem Sheds.of_skip {s r : Text} (h : Sheds P (skip s) r) (hlt : r.length < (skip s).length) :
    Sheds P s r := by
  obtain ⟨g, hg, hs⟩ := exists_skip s
  obtain ⟨p, hp, hpiece⟩ := h
  have hne : p ≠ [] := by
    rintro rfl
    rw [hp] at hlt
    exact absurd hlt (Nat.lt_irrefl _)
  refine ⟨g ++ p, ?_, hP.spacing g p hg hne hpiece⟩
  rw [List.append_assoc, ← hp]
  exact hs

theorem Sheds.of_run {p : UInt8 → Bool} (h : ∀ b, p b → isToken b) (s : Text) :
    Sheds P s (s.dropWhile p) := by
  refine ⟨s.takeWhile p, List.takeWhile_append_dropWhile.symm, hP.tokens _ fun b hb => ?_⟩
  exact h b (List.all_eq_true.1 List.all_takeWhile b hb)

theorem Sheds.of_token {c : UInt8} (h : isToken c) (s : Text) : Sheds P (c :: s) s := by
  refine ⟨[c], rfl, hP.tokens _ fun b hb => ?_⟩
  rwa [List.mem_singleton.1 hb]

/-- What follows a group is left once the group is taken. -/
theorem Sheds.of_group {r p : Text} (h : Sheds P r p) {rest : Text} (hp : skip p = 41 :: rest) :
    Sheds P (40 :: r) rest := by
  obtain ⟨piece, rfl, hpiece⟩ := h
  obtain ⟨g, hg, hs⟩ := exists_skip p
  rw [hp] at hs
  refine ⟨40 :: (piece ++ g ++ [41]), ?_, hP.group piece g hg hpiece⟩
  rw [hs]
  simp

theorem number_sheds {radix : Radix} {start digits r : Text} {t : Term}
    (h : number radix start digits = .ok (t, r)) : Sheds P digits r := by
  unfold number at h
  simp only at h
  split at h
  · cases h
  split at h
  · cases h
    exact .of_run hP (fun b => isToken_of_isNumberPart) digits
  · cases h

theorem name_sheds {labels : Labels} {s r : Text} {t : Term} (h : name labels s = .ok (t, r)) :
    Sheds P s r := by
  unfold name at h
  simp only at h
  split at h
  · cases h
  · cases h
    have hdots : Sheds P s (s.dropWhile (· == 46)) := .of_run hP (fun b => isToken_of_beq rfl) s
    exact hdots.trans hP (.of_run hP (fun b => isToken_of_isNameByte) _)

theorem primary_sheds {labels : Labels} {s r : Text} {t : Term}
    (h : primary labels s = .ok (t, r)) : Sheds P s r := by
  unfold primary at h
  split at h
  · cases h
  rename_i c s
  split at h
  · rename_i hc
    rw [beq_iff_eq.1 hc]
    exact (Sheds.of_token hP rfl s).trans hP (number_sheds hP h)
  split at h
  · rename_i hc
    rw [beq_iff_eq.1 hc]
    exact (Sheds.of_token hP rfl s).trans hP (number_sheds hP h)
  split at h
  · exact number_sheds hP h
  split at h
  · rename_i hc
    split at h
    · rename_i v r'
      cases h
      rw [beq_iff_eq.1 hc]
      exact ⟨[39, v, 39], rfl, hP.constant v⟩
    · cases h
  split at h
  · exact name_sheds hP h
  · cases h

theorem anonymous?_sheds {labels : Labels} {s r : Text} {t : Term}
    (h : anonymous? labels s = some (.ok (t, r))) : Sheds P s r := by
  unfold anonymous? at h
  split at h
  · cases h
  rename_i c s
  split at h
  · cases h
  rename_i hc
  have hrun : Sheds P (c :: s) ((c :: s).dropWhile (· == c)) :=
    .of_run hP (fun b => isToken_of_beq (isToken_of_sign hc)) (c :: s)
  simp only at h
  split at h
  · cases h
  split at h
  · cases h
    exact hrun
  split at h
  · cases h
    exact hrun
  · cases h

theorem operator?_sheds {s r : Text} {op : BinaryOp} (h : operator? s = some (op, r)) :
    Sheds P s r :=
  ⟨ascii op.sign, operator?_eq_some h, hP.tokens _ fun _ => isToken_of_mem_sign⟩

end Kind

/-- Whether each reader takes a text of the kind off the front. -/
structure Shedding (P : Text → Prop) (labels : Labels) (s : Text) : Prop where
  unary : ∀ t r, unary? labels s = some (t, r) → Sheds P s r
  infixed : ∀ least t r, infixed? labels least s = some (t, r) → Sheds P s r
  climb : ∀ least left t r, climb? labels least left s = some (t, r) → Sheds P s r

section
variable {P : Text → Prop} (hP : PieceKind P) {labels : Labels} {s : Text}
  (ih : ∀ r, r.length < s.length → Shedding P labels r)
include hP ih

theorem unary?_sheds {t : Term} {r : Text} (h : unary? labels s = some (t, r)) : Sheds P s r := by
  rw [unary?_eq] at h
  split at h
  · cases h
  rename_i c s' hs
  have hshorter := ih s' (skip_cons_length hs)
  suffices hsheds : Sheds P (c :: s') r ∧ r.length < (c :: s').length by
    rw [← hs] at hsheds
    exact hsheds.1.of_skip hP hsheds.2
  split at h
  · rename_i x hx
    cases x with
    | error e => cases h
    | ok p =>
      cases h
      exact ⟨anonymous?_sheds hP hx, anonymous?_length hx⟩
  split at h
  · cases h
  split at h
  · rename_i op hop
    have hsign : Sheds P (c :: s') s' := .of_token hP (isToken_of_unarySign? hop) s'
    obtain ⟨⟨x, r'⟩, hx, he⟩ := Option.map_eq_some_iff.1 h
    cases he
    split at hx
    · exact ⟨hsign.trans hP (hshorter.infixed 0 x _ hx), Nat.lt_succ_of_lt (infixed?_length hx)⟩
    · exact ⟨hsign.trans hP (hshorter.unary x _ hx), Nat.lt_succ_of_lt (unary?_length hx)⟩
  split at h
  · rename_i hc
    obtain ⟨p, hx, hp⟩ := group_eq_some.1 h
    rw [beq_iff_eq.1 hc]
    refine ⟨(hshorter.infixed 0 _ p hx).of_group hP hp, ?_⟩
    have hrest := skip_cons_length hp
    have hinner := infixed?_length hx
    exact Nat.lt_succ_of_lt (Nat.lt_trans hrest hinner)
  · cases hp : primary labels (c :: s') with
    | error e =>
      rw [hp] at h
      cases h
    | ok p =>
      rw [hp] at h
      cases h
      exact ⟨primary_sheds hP hp, primary_length hp⟩

theorem climb?_sheds {least : Nat} {left t : Term} {r : Text}
    (h : climb? labels least left s = some (t, r)) : Sheds P s r := by
  have hnone : Sheds P s s := ⟨[], rfl, hP.nil⟩
  rw [climb?_eq] at h
  split at h
  · cases h
    exact hnone
  rename_i op s' ho
  split at h
  · cases h
    exact hnone
  obtain ⟨⟨right, r'⟩, hi, hc⟩ := Option.bind_eq_some_iff.1 h
  have hsign : Sheds P s s' := (operator?_sheds hP ho).of_skip hP (operator?_length ho)
  have hlt := operator?_skip_length ho
  have hright := (ih s' hlt).infixed _ right r' hi
  have hrest := (ih r' (Nat.lt_trans (infixed?_length hi) hlt)).climb least _ t r hc
  exact (hsign.trans hP hright).trans hP hrest

end

/-- The readers take texts of every kind that has all they can take. -/
theorem readers_shed {P : Text → Prop} (hP : PieceKind P) (labels : Labels) (s : Text) :
    Shedding P labels s := by
  induction s using length_induction with
  | h s ih =>
    refine ⟨fun t r => unary?_sheds hP ih, fun least t r h => ?_,
      fun least left t r => climb?_sheds hP ih⟩
    rw [infixed?_eq] at h
    obtain ⟨⟨left, r'⟩, hu, hc⟩ := Option.bind_eq_some_iff.1 h
    have hleft : Sheds P s r' := unary?_sheds hP ih hu
    exact hleft.trans hP ((ih r' (unary?_length hu)).climb least left t r hc)

theorem pieceKind_true : PieceKind fun _ => True := by
  constructor <;> intros <;> trivial

/-- Without quotes, what the readers take are pieces. -/
theorem pieceKind_isPiece : PieceKind fun s => 39 ∉ s → IsPiece s where
  tokens s hs _ := .of_tokens hs
  constant b hquote := absurd List.mem_cons_self hquote
  append s r hs hr hquote := by
    rw [List.mem_append, not_or] at hquote
    exact (hs hquote.1).append (hr hquote.2)
  spacing g s hg hne hs hquote := by
    rw [List.mem_append, not_or] at hquote
    exact (hs hquote.2).spacing_append hg hne
  group s g hg hs hquote := by
    have hinner : 39 ∉ s := fun hmem => hquote (by simp [hmem])
    exact .group ((hs hinner).nested.append (.of_spacing hg))

theorem readers_take (labels : Labels) {s : Text} (hquote : 39 ∉ s) :
    Shedding IsPiece labels s := by
  have hpiece : ∀ r, Sheds (fun s => 39 ∉ s → IsPiece s) s r → Sheds IsPiece s r := by
    rintro r ⟨piece, rfl, hpiece⟩
    exact ⟨piece, rfl, hpiece fun hmem => hquote (List.mem_append_left r hmem)⟩
  have hshed := readers_shed pieceKind_isPiece labels s
  exact ⟨fun t r h => hpiece r (hshed.unary t r h),
    fun least t r h => hpiece r (hshed.infixed least t r h),
    fun least left t r h => hpiece r (hshed.climb least left t r h)⟩

theorem skip_append (s z : Text) : skip (s ++ z) = if skip s = [] then skip z else skip s ++ z := by
  rw [skip, List.dropWhile_append, skip, skip]
  simp only [List.isEmpty_iff]

section Detached
variable {z : Text} (hz : standsAlone z)
include hz

/-- What may follow signs that stand alone does not start with a token. -/
theorem not_isToken_of_standsAlone {b : UInt8} (hb : b ∈ z.head?) : ¬isToken b := by
  cases z with
  | nil => cases hb
  | cons c z =>
    cases hb
    have hstop : isSpaceOrTab b || b == 41 || b == 44 := by
      by_cases hblank : isSpaceOrTab b
      · rw [hblank, Bool.true_or, Bool.true_or]
      · rw [Bool.not_eq_true] at hblank
        rw [standsAlone, skip_of_head hblank] at hz
        rw [hblank, Bool.false_or]
        exact hz
    have hplain := Text.of_all_bytes (p := fun b => isSpaceOrTab b || b == 41 || b == 44)
      (q := fun b => !isToken b) (by decide +kernel) hstop
    simpa using hplain

/-- So it does not prolong a run of bytes of tokens. -/
theorem span_detach {p : UInt8 → Bool} (hp : ∀ b, p b → isToken b) (s : Text) :
    (s ++ z).takeWhile p = s.takeWhile p ∧ (s ++ z).dropWhile p = s.dropWhile p ++ z := by
  induction s with
  | nil =>
    cases z with
    | nil => exact ⟨rfl, rfl⟩
    | cons c z =>
      have hc : ¬p c := fun hpc => not_isToken_of_standsAlone hz rfl (hp c hpc)
      simp [hc]
  | cons b s ih =>
    by_cases hb : p b
    · simp [hb, ih.1, ih.2]
    · simp [hb]

theorem number_detach {radix : Radix} {start digits r : Text} {t : Term}
    (h : number radix start (digits ++ z) = .ok (t, r ++ z)) (start' : Text) :
    number radix start' digits = .ok (t, r) := by
  obtain ⟨htake, hdrop⟩ :=
    span_detach hz (p := isNumberPart radix) (fun b => isToken_of_isNumberPart) digits
  unfold number at h ⊢
  simp only [htake, hdrop] at h ⊢
  split at h
  · cases h
  rename_i hwritten
  split at h
  · rename_i hbound
    obtain ⟨ht, hr⟩ := Prod.mk.inj (Except.ok.inj h)
    rw [if_neg hwritten, if_pos hbound, ht, List.append_cancel_right hr]
  · cases h

theorem name_detach {labels : Labels} {s r : Text} {t : Term}
    (h : name labels (s ++ z) = .ok (t, r ++ z)) : name labels s = .ok (t, r) := by
  obtain ⟨htake, hdrop⟩ := span_detach hz (fun b => isToken_of_beq (c := 46) rfl) s
  obtain ⟨htake', hdrop'⟩ :=
    span_detach hz (fun b => isToken_of_isNameByte) (s.dropWhile (· == 46))
  unfold name at h ⊢
  simp only [htake, hdrop, htake', hdrop'] at h ⊢
  split at h
  · cases h
  · rename_i hword
    obtain ⟨ht, hr⟩ := Prod.mk.inj (Except.ok.inj h)
    rw [if_neg hword, ht, List.append_cancel_right hr]

theorem primary_detach {labels : Labels} {c : UInt8} {s r : Text} {t : Term}
    (h : primary labels (c :: (s ++ z)) = .ok (t, r ++ z)) :
    primary labels (c :: s) = .ok (t, r) := by
  unfold primary at h ⊢
  simp only at h ⊢
  split at h
  · rename_i hc
    rw [if_pos hc]
    exact number_detach hz h _
  rename_i hhex
  rw [if_neg hhex]
  split at h
  · rename_i hc
    rw [if_pos hc]
    exact number_detach hz h _
  rename_i hbinary
  rw [if_neg hbinary]
  split at h
  · rename_i hc
    rw [if_pos hc]
    have hdigits : number .decimal (c :: (s ++ z)) ((c :: s) ++ z) = .ok (t, r ++ z) := h
    exact number_detach hz hdigits _
  rename_i hdecimal
  rw [if_neg hdecimal]
  split at h
  · rename_i hc
    rw [if_pos hc]
    split at h
    · rename_i v r' hs
      obtain ⟨ht, hr⟩ := Prod.mk.inj (Except.ok.inj h)
      rw [hr] at hs
      have hs' : s = v :: 39 :: r := List.append_cancel_right (hs.trans (by simp))
      subst hs' ht
      rfl
    · cases h
  rename_i hquote
  rw [if_neg hquote]
  split at h
  · rename_i hc
    rw [if_pos hc]
    exact name_detach hz (s := c :: s) h
  · cases h

theorem standsAlone_append (s : Text) : standsAlone (s ++ z) = standsAlone s := by
  have hnil : standsAlone z = true := hz
  unfold standsAlone at hnil ⊢
  rw [skip_append]
  cases hs : skip s with
  | nil => simpa using hnil
  | cons c s' => rfl

theorem anonymous?_detach (labels : Labels) (c : UInt8) (s : Text) :
    (anonymous? labels (c :: (s ++ z))).map Except.toOption =
      (anonymous? labels (c :: s)).map fun x => x.toOption.map fun p => (p.1, p.2 ++ z) := by
  unfold anonymous?
  simp only
  split
  · rfl
  rename_i hc
  obtain ⟨htake, hdrop⟩ :=
    span_detach hz (fun b => isToken_of_beq (isToken_of_sign hc)) (c :: s)
  rw [List.cons_append] at htake hdrop
  rw [htake, hdrop, standsAlone_append hz]
  split
  · rfl
  split
  · rfl
  split <;> rfl

theorem operator?_detach (s : Text) :
    operator? (s ++ z) = (operator? s).map fun p => (p.1, p.2 ++ z) := by
  have hafter : ∀ op : BinaryOp, Text.after? (ascii op.sign) (s ++ z) =
      (Text.after? (ascii op.sign) s).map (· ++ z) := by
    intro op
    refine Text.after?_append_of_notMem (fun b hb => ?_) s
    exact fun hmem => not_isToken_of_standsAlone hz hb (isToken_of_mem_sign hmem)
  unfold operator?
  rw [List.map_findSome?]
  simp only [hafter, Option.map_map, Function.comp_def]

theorem skip_of_standsAlone : skip z = [] ∨ ∃ z', skip z = 41 :: z' ∨ skip z = 44 :: z' := by
  unfold standsAlone at hz
  cases hs : skip z with
  | nil => exact .inl rfl
  | cons c z' =>
    rw [hs] at hz
    rcases Bool.or_eq_true_iff.1 hz with hc | hc
    · exact .inr ⟨z', .inl (by rw [beq_iff_eq.1 hc])⟩
    · exact .inr ⟨z', .inr (by rw [beq_iff_eq.1 hc])⟩

/-- No operand stands where signs would stand alone. -/
theorem unary?_of_standsAlone (labels : Labels) : unary? labels z = none := by
  rw [unary?_eq]
  rcases skip_of_standsAlone hz with hs | ⟨z', hs | hs⟩ <;> rw [hs] <;> rfl

theorem operator?_skip_of_standsAlone : operator? (skip z) = none := by
  rcases skip_of_standsAlone hz with hs | ⟨z', hs | hs⟩ <;> rw [hs] <;> rfl

end Detached

/-- Whether each reader does without `z` behind the text, where it reads nothing of it. -/
structure Detaches (labels : Labels) (z s : Text) : Prop where
  unary : ∀ t r, unary? labels (s ++ z) = some (t, r ++ z) → unary? labels s = some (t, r)
  infixed : ∀ least t r, infixed? labels least (s ++ z) = some (t, r ++ z) →
    infixed? labels least s = some (t, r)
  climb : ∀ least left t r, climb? labels least left (s ++ z) = some (t, r ++ z) →
    climb? labels least left s = some (t, r)

section
variable {labels : Labels} {z s : Text} (hz : standsAlone z)
  (ih : ∀ r, r.length < s.length → Detaches labels z r)
include hz ih

theorem unary?_detach {t : Term} {r : Text} (h : unary? labels (s ++ z) = some (t, r ++ z)) :
    unary? labels s = some (t, r) := by
  cases hs : skip s with
  | nil =>
    have hnone : unary? labels (s ++ z) = none := by
      rw [unary?_eq, skip_append, if_pos hs, ← unary?_eq, unary?_of_standsAlone hz]
    cases hnone.symm.trans h
  | cons c s' =>
    have hskip : skip (s ++ z) = c :: (s' ++ z) := by
      rw [skip_append, hs, if_neg (List.cons_ne_nil c s'), List.cons_append]
    have hshorter := ih s' (skip_cons_length hs)
    have hanonymous := anonymous?_detach hz labels c s'
    rw [unary?_eq, hskip] at h
    rw [unary?_eq, hs]
    simp only at h ⊢
    cases ha : anonymous? labels (c :: s') with
    | some x =>
      rw [ha] at hanonymous
      obtain ⟨y, hy, hxy⟩ := Option.map_eq_some_iff.1 hanonymous
      simp only [hy, hxy] at h
      obtain ⟨p, hp, he⟩ := Option.map_eq_some_iff.1 h
      obtain ⟨rfl, hr⟩ := Prod.mk.inj he
      simp only [hp, ← List.append_cancel_right hr]
    | none =>
      rw [ha] at hanonymous
      rw [Option.map_eq_none_iff.1 hanonymous] at h
      simp only at h ⊢
      split at h
      · cases h
      rename_i hplus
      rw [if_neg hplus]
      cases hop : unarySign? c with
      | some op =>
        simp only [hop] at h ⊢
        obtain ⟨⟨x, r'⟩, hx, he⟩ := Option.map_eq_some_iff.1 h
        cases he
        split at hx
        · rename_i hselector
          rw [if_pos hselector, hshorter.infixed 0 x r hx]
          rfl
        · rename_i hselector
          rw [if_neg hselector, hshorter.unary x r hx]
          rfl
      | none =>
        simp only [hop] at h ⊢
        split at h
        · rename_i hparen
          rw [if_pos hparen]
          obtain ⟨p, hx, hclosing⟩ := group_eq_some.1 h
          obtain ⟨g, hg, hp⟩ := exists_skip p
          have hp' : p = (g ++ 41 :: r) ++ z := by
            rw [List.append_assoc, List.cons_append, ← hclosing]
            exact hp
          rw [hp'] at hx
          have hclosed : skip (g ++ 41 :: r) = 41 :: r := by
            rw [skip_spacing hg, skip_of_head rfl]
          exact group_eq_some.2 ⟨_, hshorter.infixed 0 t _ hx, hclosed⟩
        · rename_i hparen
          rw [if_neg hparen]
          cases hp : primary labels (c :: (s' ++ z)) with
          | error e =>
            rw [hp] at h
            cases h
          | ok p =>
            rw [hp] at h
            cases h
            rw [primary_detach hz hp]
            rfl

theorem climb?_detach {least : Nat} {left t : Term} {r : Text}
    (h : climb? labels least left (s ++ z) = some (t, r ++ z)) :
    climb? labels least left s = some (t, r) := by
  have hstop : some (left, s ++ z) = some (t, r ++ z) → some (left, s) = some (t, r) := by
    intro he
    obtain ⟨ht, hr⟩ := Prod.mk.inj (Option.some.inj he)
    rw [ht, List.append_cancel_right hr]
  rw [climb?_eq, skip_append] at h
  rw [climb?_eq]
  by_cases hs : skip s = []
  · rw [if_pos hs, operator?_skip_of_standsAlone hz] at h
    rw [hs]
    exact hstop h
  rw [if_neg hs, operator?_detach hz] at h
  cases ho : operator? (skip s) with
  | none =>
    rw [ho] at h
    exact hstop h
  | some p =>
    obtain ⟨op, s'⟩ := p
    rw [ho] at h
    simp only [Option.map_some] at h ⊢
    split at h
    · rename_i hlevel
      rw [if_pos hlevel]
      exact hstop h
    rename_i hlevel
    rw [if_neg hlevel]
    obtain ⟨⟨right, p⟩, hi, hc⟩ := Option.bind_eq_some_iff.1 h
    have hlt := operator?_skip_length ho
    -- The rest of the right operand ends in what is left at last.
    obtain ⟨piece, hpiece, -⟩ := (readers_shed pieceKind_true labels p).climb least _ t _ hc
    rw [← List.append_assoc] at hpiece
    subst hpiece
    have hright := (ih s' hlt).infixed _ right _ hi
    rw [hright, Option.bind_some]
    exact (ih _ (Nat.lt_trans (infixed?_length hright) hlt)).climb least _ t r hc

end

/-- The readers do without what stands behind the text that they read. -/
theorem readers_detach (labels : Labels) {z : Text} (hz : standsAlone z) (s : Text) :
    Detaches labels z s := by
  induction s using length_induction with
  | h s ih =>
    refine ⟨fun t r => unary?_detach hz ih, fun least t r h => ?_,
      fun least left t r => climb?_detach hz ih⟩
    rw [infixed?_eq] at h
    obtain ⟨⟨left, p⟩, hu, hc⟩ := Option.bind_eq_some_iff.1 h
    obtain ⟨piece, hpiece, -⟩ := (readers_shed pieceKind_true labels p).climb least left t _ hc
    rw [← List.append_assoc] at hpiece
    subst hpiece
    have hleft := unary?_detach hz ih hu
    rw [infixed?_eq, hleft, Option.bind_some]
    exact (ih _ (unary?_length hleft)).climb least left t r hc

/-- Behind an opening parenthesis an expression is read up to the closing one. If that is the end,
the text between the two is read as the same term. -/
theorem exists_group {labels : Labels} {s : Text} {t : Term} (hquote : 39 ∉ s)
    (h : infixed? labels 0 (40 :: s) = some (t, [])) :
    ∃ inner r, s = inner ++ 41 :: r ∧ Nested inner ∧ IsPiece r ∧
      (r = [] → Term.read labels inner = .ok t) := by
  rw [infixed?_eq] at h
  obtain ⟨⟨y, r⟩, hu, hc⟩ := Option.bind_eq_some_iff.1 h
  rw [unary?_eq, skip_of_head rfl] at hu
  obtain ⟨p, hy, hp⟩ := group_eq_some.1 hu
  obtain ⟨piece, rfl, hpiece⟩ := (readers_take labels hquote).infixed 0 y p hy
  obtain ⟨g, hg, hp'⟩ := exists_skip p
  rw [hp] at hp'
  subst hp'
  refine ⟨piece ++ g, r, (List.append_assoc ..).symm, hpiece.nested.append (.of_spacing hg), ?_, ?_⟩
  · have hr : 39 ∉ r := fun hmem => hquote (by simp [hmem])
    obtain ⟨piece', hr', hpiece'⟩ := (readers_take labels hr).climb 0 y t [] hc
    rw [List.append_nil] at hr'
    rwa [hr']
  · rintro rfl
    have hclimb : climb? labels 0 y [] = some (y, []) := by
      rw [climb?_eq]
      rfl
    cases hclimb.symm.trans hc
    rw [← List.append_assoc] at hy
    have hinner := (readers_detach labels (z := [41]) rfl _).infixed 0 _ g hy
    refine read_of_infixed? hinner ?_
    rw [← List.append_nil g, skip_spacing hg]
    rfl

end ExprReader

/-- Whether a text without spaces at its ends is read as the term. -/
structure Term.IsCore (labels : Labels) (t : Term) (core : Text) : Prop where
  piece : IsPiece core
  starts : core.head?.any (!isSpaceOrTab ·)
  read : ExprReader.infixed? labels 0 core = some (t, [])

namespace Term
variable {labels : Labels} {t : Term}

theorem read_eq_ok_iff {s : Text} :
    Term.read labels s = .ok t ↔
      ∃ r, ExprReader.infixed? labels 0 s = some (t, r) ∧ ExprReader.skip r = [] := by
  constructor
  · intro h
    have hread := Term.toOption_read labels s
    rw [h] at hread
    obtain ⟨⟨t', r⟩, hi, he⟩ := Option.bind_eq_some_iff.1 hread.symm
    split at he
    · rename_i hr
      cases he
      exact ⟨r, hi, hr⟩
    · cases he
  · rintro ⟨r, hi, hr⟩
    exact ExprReader.read_of_infixed? hi hr

theorem read_spacing {g s : Text} (hg : IsSpacing g) :
    Term.read labels (g ++ s) = .ok t ↔ Term.read labels s = .ok t := by
  rw [read_eq_ok_iff, read_eq_ok_iff, ExprReader.infixed?_spacing hg]

def opensOperand (b : UInt8) : Bool := isToken b || b == 39 || b == 40

def closesOperand (b : UInt8) : Bool := isToken b || b == 39 || b == 41

/-- A text that begins and ends as operands do, spaces before it apart. -/
structure IsOperand (s : Text) : Prop where
  first : ∀ b ∈ (ExprReader.skip s).head?, opensOperand b
  last : ∀ b ∈ s.getLast?, closesOperand b

theorem pieceKind_isOperand : ExprReader.PieceKind IsOperand where
  tokens s hs := by
    constructor
    · intro b hb
      have hmem : b ∈ s := (List.dropWhile_suffix _).subset (List.mem_of_head? hb)
      rw [opensOperand, hs b hmem, Bool.true_or, Bool.true_or]
    · intro b hb
      rw [closesOperand, hs b (List.mem_of_getLast? hb), Bool.true_or, Bool.true_or]
  constant v := by
    constructor
    · intro b hb
      cases hb
      rfl
    · intro b hb
      cases hb
      rfl
  append s r hs hr := by
    constructor
    · intro b hb
      rw [ExprReader.skip_append] at hb
      split at hb
      · exact hr.first b hb
      · rename_i hne
        obtain ⟨c, s', hskip⟩ := List.exists_cons_of_ne_nil hne
        rw [hskip] at hb
        exact hs.first b (hskip ▸ hb)
    · exact Text.getLast?_append_of hs.last hr.last
  spacing g s hg hne hs := by
    constructor
    · intro b hb
      rw [ExprReader.skip_spacing hg] at hb
      exact hs.first b hb
    · exact Text.getLast?_append_of_ne_nil hne hs.last g
  group s g hg hs := by
    constructor
    · intro b hb
      cases hb
      rfl
    · intro b hb
      rw [← List.cons_append, List.getLast?_concat] at hb
      cases hb
      rfl

/-- An expression is an operand with spaces around it, and it can be read without them. -/
theorem exists_operand {e : Text} (h : Term.read labels e = .ok t) :
    ∃ lead core trail, e = lead ++ (core ++ trail) ∧ IsSpacing lead ∧ IsSpacing trail ∧
      core.head?.any opensOperand ∧ core.getLast?.any closesOperand ∧
      ExprReader.infixed? labels 0 core = some (t, []) := by
  obtain ⟨trail, hi, hend⟩ := read_eq_ok_iff.1 h
  have htrail : IsSpacing trail := List.dropWhile_eq_nil_iff.1 hend
  obtain ⟨piece, rfl, -⟩ :=
    (ExprReader.readers_shed ExprReader.pieceKind_true labels _).infixed 0 t trail hi
  obtain ⟨lead, hlead, hpiece⟩ := ExprReader.exists_skip piece
  have hsolid : ∀ b ∈ (ExprReader.skip piece).head?, isSpaceOrTab b = false := by
    intro b hb
    have hnot := List.head?_dropWhile_not isSpaceOrTab piece
    rw [ExprReader.skip] at hb
    rwa [hb] at hnot
  generalize ExprReader.skip piece = core at hpiece hsolid
  subst hpiece
  rw [List.append_assoc] at hi ⊢
  rw [ExprReader.infixed?_spacing hlead] at hi
  have halone : ExprReader.standsAlone trail := by rw [ExprReader.standsAlone, hend]
  have hread := (ExprReader.readers_detach labels halone core).infixed 0 t [] hi
  obtain ⟨piece, hpiece, hends⟩ :=
    (ExprReader.readers_shed pieceKind_isOperand labels core).infixed 0 t [] hread
  rw [List.append_nil] at hpiece
  subst hpiece
  have hne : core ≠ [] := List.length_pos_iff.1 (ExprReader.infixed?_length hread)
  refine ⟨lead, core, trail, rfl, hlead, htrail, ?_, ?_, hread⟩
  · obtain ⟨c, core', rfl⟩ := List.exists_cons_of_ne_nil hne
    refine hends.first c ?_
    rw [ExprReader.skip_of_head (hsolid c rfl)]
    rfl
  · obtain ⟨c, hc⟩ := Option.isSome_iff_exists.1 (List.getLast?_isSome.2 hne)
    exact (Option.any_eq_true _ _).2 ⟨c, hc, hends.last c hc⟩

/-- Without quotes, the operand is a core. -/
theorem exists_core {e : Text} (h : Term.read labels e = .ok t) (hquote : 39 ∉ e) :
    ∃ lead core trail, e = lead ++ (core ++ trail) ∧ IsSpacing lead ∧ IsSpacing trail ∧
      IsCore labels t core := by
  obtain ⟨lead, core, trail, rfl, hlead, htrail, hfirst, -, hread⟩ := exists_operand h
  have hcore : 39 ∉ core := fun hmem =>
    hquote (List.mem_append_right _ (List.mem_append_left _ hmem))
  refine ⟨lead, core, trail, rfl, hlead, htrail, ?_, ?_, hread⟩
  · obtain ⟨piece, hpiece, hall⟩ := (ExprReader.readers_take labels hcore).infixed 0 t [] hread
    rw [List.append_nil] at hpiece
    rwa [hpiece]
  · obtain ⟨c, hc, hopens⟩ := (Option.any_eq_true _ _).1 hfirst
    refine (Option.any_eq_true _ _).2 ⟨c, hc, ?_⟩
    simp only [opensOperand, Bool.or_eq_true, beq_iff_eq] at hopens
    rcases hopens with (htoken | rfl) | rfl
    · rw [not_isSpaceOrTab_of_isToken htoken]
      rfl
    · rfl
    · rfl

end Term
end Assembler65816
