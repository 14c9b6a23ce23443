import Assembler65816.Proofs.Text.Blank
import Assembler65816.Source.Line

/-!
# The code and the labels of a line

A comment starts at the first semicolon outside quotes, so a text without quotes and semicolons is
code all through, and a carriage return at the end of a line changes nothing.

A label is a word of visible bytes and perhaps one gap after it. Except where nothing follows it,
how the label is read does not depend on what follows, and it is still the same label if blanks at
the end of the line are taken away.
-/
namespace Assembler65816

namespace Line

/-- A byte that neither opens a quotation nor a comment. -/
def isPlain (b : UInt8) : Bool := b != 34 && b != 39 && b != 59

theorem isPlain_iff {b : UInt8} : isPlain b ↔ b ≠ 34 ∧ b ≠ 39 ∧ b ≠ 59 := by
  simp [isPlain, and_assoc]

theorem isPlain_of_blank {s : Text} (h : Text.Blank s) : ∀ b ∈ s, isPlain b := by
  intro b hb
  refine isPlain_iff.2 ⟨?_, ?_, ?_⟩
  all_goals
    rintro rfl
    exact Text.notMem_of_blank rfl h hb

/-- The code ends at the end of the line or before a semicolon. -/
theorem exists_comment (quote : Option UInt8) (n : Nat) (s : Text) :
    ∃ body comment, s = body ++ comment ∧ codeLength quote n s = n + body.length ∧
      (comment.head? = none ∨ comment.head? = some 59) := by
  fun_induction codeLength quote n s with
  | case1 _ n => exact ⟨[], [], rfl, rfl, .inl rfl⟩
  | case2 n q c s ih =>
    obtain ⟨body, comment, rfl, hlen, hcomment⟩ := ih
    exact ⟨c :: body, comment, rfl, by simp only [hlen, List.length_cons]; omega, hcomment⟩
  | case3 n c s ih =>
    obtain ⟨body, comment, rfl, hlen, hcomment⟩ := ih
    exact ⟨39 :: c :: 39 :: body, comment, rfl, by simp only [hlen, List.length_cons]; omega,
      hcomment⟩
  | case4 n c s _ _ ih =>
    obtain ⟨body, comment, rfl, hlen, hcomment⟩ := ih
    exact ⟨c :: body, comment, rfl, by simp only [hlen, List.length_cons]; omega, hcomment⟩
  | case5 n c s _ _ hc => exact ⟨[], c :: s, rfl, rfl, .inr (by simpa using hc)⟩
  | case6 n c s _ _ _ ih =>
    obtain ⟨body, comment, rfl, hlen, hcomment⟩ := ih
    exact ⟨c :: body, comment, rfl, by simp only [hlen, List.length_cons]; omega, hcomment⟩

theorem codeLength_plain {body comment : Text} (hbody : ∀ b ∈ body, isPlain b)
    (hcomment : comment.head? = none ∨ comment.head? = some 59) (n : Nat) :
    codeLength none n (body ++ comment) = n + body.length := by
  induction body generalizing n with
  | nil =>
    cases comment with
    | nil => simp [codeLength]
    | cons c comment =>
      have hc : c = 59 := by simpa using hcomment
      subst hc
      simp [codeLength]
  | cons b body ih =>
    obtain ⟨h34, h39, h59⟩ := isPlain_iff.1 (hbody b List.mem_cons_self)
    have hrest := ih (fun c hc => hbody c (List.mem_cons_of_mem _ hc)) (n + 1)
    rw [List.cons_append, codeLength]
    · simp only [h34, h39, h59, beq_iff_eq, Bool.or_eq_true, or_self, if_false, hrest,
        List.length_cons]
      omega
    · intro c s hb
      exact absurd hb h39

/-- A text without quotes and semicolons is all code. -/
theorem code_plain {body comment : Text} (hbody : ∀ b ∈ body, isPlain b)
    (hcomment : comment.head? = none ∨ comment.head? = some 59) :
    code (body ++ comment) = Text.trim body := by
  rw [code, codeLength_plain hbody hcomment, Nat.zero_add, List.take_left]

theorem codeLength_append_return (quote : Option UInt8) (n : Nat) (s : Text) :
    codeLength quote n (s ++ [13]) = codeLength quote n s ∨
      (codeLength quote n s = n + s.length ∧
        codeLength quote n (s ++ [13]) = n + s.length + 1) := by
  fun_induction codeLength quote n s with
  | case1 quote n =>
    right
    cases quote with
    | none => simp [codeLength]
    | some q => simp only [List.nil_append, codeLength]; simp
  | case2 n q c s ih =>
    simp only [List.cons_append, codeLength, List.length_cons]
    omega
  | case3 n c s ih =>
    simp only [List.cons_append, codeLength, List.length_cons]
    omega
  | case4 n c s hquoted hc ih =>
    rw [List.cons_append, codeLength]
    · simp only [hc, if_true, List.length_cons]
      omega
    · exact not_quoted hquoted
  | case5 n c s hquoted hc hsemi =>
    rw [List.cons_append, codeLength]
    · simp [hc, hsemi]
    · exact not_quoted hquoted
  | case6 n c s hquoted hc hsemi ih =>
    rw [List.cons_append, codeLength]
    · simp only [hc, hsemi, Bool.false_eq_true, if_false, List.length_cons]
      omega
    · exact not_quoted hquoted
where
  /-- A carriage return does not close a character constant. -/
  not_quoted {c : UInt8} {s : Text} (h : ∀ b t, c = 39 → s = b :: 39 :: t → False) :
      ∀ b t, c = 39 → s ++ [13] = b :: 39 :: t → False := by
    intro b t hc hs
    match s, hs with
    | [_], hs => simp at hs
    | a :: d :: s, hs =>
      simp only [List.cons_append, List.cons.injEq] at hs
      exact h a s hc (by rw [hs.2.1])

theorem code_append_return (s : Text) : code (s ++ [13]) = code s := by
  have hblank : Text.Blank [13] := Text.blank_of_isGap rfl
  rcases codeLength_append_return none 0 s with h | ⟨hs, h⟩
  · obtain ⟨body, comment, hbody, hlen, -⟩ := exists_comment none 0 s
    have hle : codeLength none 0 s ≤ s.length := by
      rw [hlen, hbody, List.length_append]
      omega
    rw [code, h, List.take_append_of_le_length hle, code]
  · have htake : (s ++ [13]).take (0 + s.length + 1) = s ++ [13] :=
      List.take_of_length_le (by simp)
    rw [code, h, htake, Text.trim_append_blank hblank, code, hs, Nat.zero_add, List.take_length]

theorem code_dropReturn (s : Text) : code (Lines.dropReturn s) = code s := by
  unfold Lines.dropReturn
  split
  · rename_i h
    obtain ⟨t, rfl⟩ := List.getLast?_eq_some_iff.1 h
    rw [List.dropLast_concat, code_append_return]
  · rfl

theorem items_dropReturn (pos : Position) (attributes : List Attribute) (line : Text) :
    items pos attributes (Lines.dropReturn line) = items pos attributes line := by
  rw [items, code_dropReturn, items]

theorem code_nil : code [] = [] := by
  rw [code, List.take_nil, Text.trim_nil]

/-- An empty line holds nothing. -/
theorem items_nil (pos : Position) (attributes : List Attribute) :
    items pos attributes [] = .ok ([], attributes) := by
  rw [items, code_nil]

end Line

namespace Text

structure IsWord (word : Text) : Prop where
  ne_nil : word ≠ []
  ink : ∀ b ∈ word, isInk b

theorem IsWord.trim_append {word : Text} (h : IsWord word) (s : Text) :
    trim (word ++ s) = word ++ trimEnd s := by
  have hstart : trimStart (word ++ s) = word ++ s := by
    obtain ⟨c, tail, rfl⟩ := List.exists_cons_of_ne_nil h.ne_nil
    exact trimStart_ink (h.ink c List.mem_cons_self) _
  have hlast : word.dropLast ++ [word.getLast h.ne_nil] = word := List.dropLast_concat_getLast _
  have hink := h.ink _ (List.getLast_mem h.ne_nil)
  calc
    trim (word ++ s) = trimEnd (word ++ s) := by rw [trim, hstart]
    _ = trimEnd (word.dropLast ++ word.getLast h.ne_nil :: s) := by
      rw [← List.singleton_append (l := s), ← List.append_assoc, hlast]
    _ = word.dropLast ++ word.getLast h.ne_nil :: trimEnd s := trimEnd_append_ink hink _ _
    _ = word ++ trimEnd s := by
      rw [← List.singleton_append (l := trimEnd s), ← List.append_assoc, hlast]

theorem IsWord.trim_eq {word : Text} (h : IsWord word) : trim word = word := by
  have := h.trim_append []
  rwa [List.append_nil, trimEnd_nil, List.append_nil] at this

end Text

/-- The first word of a statement ends at a space or tab. -/
theorem Statement.splitHead_append {word args : Text} (hword : Text.IsWord word)
    (hargs : args.head?.all isSpaceOrTab) :
    Statement.splitHead (word ++ args) = (word, Text.trim args) := by
  have hink : ∀ b ∈ word, !isSpaceOrTab b := by
    intro b hb
    rw [Text.isSpaceOrTab_of_isInk (hword.ink b hb), Bool.not_false]
  have hstop : args.head?.all fun b => !(!isSpaceOrTab b) := by simpa using hargs
  obtain ⟨htake, hdrop⟩ := Text.span_append (p := (!isSpaceOrTab ·)) hink hstop
  rw [splitHead, htake, hdrop]

namespace Define

/-- A name ends before a byte of ASCII that cannot continue it. -/
theorem dropName_append {name t : Text} (hname : ∀ b ∈ name, isNameByte b)
    (ht : t.head?.all fun b => !isNameByte b && b < 0x80) : dropName (name ++ t) = t := by
  have hlow : ∀ b, isNameByte b → b < 0x80 := fun b hb =>
    of_decide_eq_true (Text.of_all_bytes (q := fun b => decide (b < 0x80)) (by decide +kernel) hb)
  have hfolded : ∀ b : UInt8, b < 0x80 → ∀ s, Text.afterForm? foldedLetters (b :: s) = none := by
    intro b hb s
    have h1 : (0xC5 : UInt8) ≠ b := by
      rintro rfl
      exact absurd hb (by decide)
    have h2 : (0xE2 : UInt8) ≠ b := by
      rintro rfl
      exact absurd hb (by decide)
    simp [Text.afterForm?, foldedLetters, Text.after?, h1, h2]
  induction name with
  | nil =>
    cases t with
    | nil =>
      rw [List.nil_append, dropName]
      rfl
    | cons b t =>
      have hb : isNameByte b = false ∧ b < 0x80 := by simpa using ht
      rw [List.nil_append, dropName]
      split
      · rename_i hs
        cases (hfolded b hb.2 t).symm.trans hs
      · simp [hb.1]
  | cons b name ih =>
    have hb := hname b List.mem_cons_self
    rw [List.cons_append, dropName]
    split
    · rename_i hs
      cases (hfolded b (hlow b hb) _).symm.trans hs
    · simp only [hb, if_true]
      exact ih fun c hc => hname c (List.mem_cons_of_mem _ hc)

end Define

namespace LabelHead

structure IsName (name : Text) : Prop where
  starts : name.head?.any isNameStart = true
  continues : ∀ b ∈ name, isNameByte b

theorem IsName.ne_nil {name : Text} (h : IsName name) : name ≠ [] := by
  rintro rfl
  cases h.starts

theorem IsName.head?_append {name : Text} (h : IsName name) (t : Text) :
    (name ++ t).head?.any isNameStart := by
  obtain ⟨b, tail, rfl⟩ := List.exists_cons_of_ne_nil h.ne_nil
  exact h.starts

theorem isName_takeWhile {s : Text} (h : s.head?.any isNameStart) :
    IsName (s.takeWhile isNameByte) := by
  refine ⟨?_, fun b hb => List.all_eq_true.1 List.all_takeWhile b hb⟩
  cases s with
  | nil => exact h
  | cons b s =>
    have hb : isNameStart b := h
    have hname : isNameByte b := by simp [isNameByte, hb]
    rw [List.takeWhile_cons_of_pos hname]
    exact h

theorem top?_of_not_name {s : Text} (h : s.head?.any isNameStart = false) : top? s = none := by
  rw [top?, h]
  rfl

theorem nested?_of_head {s : Text} (h : s.head? ≠ some 46) : nested? s = none := by
  have hdots : s.takeWhile (· == 46) = [] := by
    cases s with
    | nil => rfl
    | cons b s => exact List.takeWhile_cons_of_neg (by simpa using h)
  rw [nested?, hdots]
  rfl

theorem anonymous?_of_head {direction : Direction} {s : Text}
    (h : s.head? ≠ some direction.sign) : anonymous? direction s = none := by
  have hsigns : s.takeWhile (· == direction.sign) = [] := by
    cases s with
    | nil => rfl
    | cons b s => exact List.takeWhile_cons_of_neg (by simpa using h)
  rw [anonymous?, hsigns]
  rfl

theorem read?_top {name : Text} (h : IsName name) (t : Text) :
    read? (name ++ 58 :: t) = some (.top name, t) := by
  obtain ⟨htake, hdrop⟩ := Text.span_append h.continues (t := 58 :: t) rfl
  have htop : top? (name ++ 58 :: t) = some (.top name, t) := by
    rw [top?, if_pos (h.head?_append _), hdrop, htake]
    rfl
  rw [read?, htop]
  rfl

theorem read?_nested {dots name : Text} (hne : dots ≠ []) (hdots : ∀ b ∈ dots, b == 46)
    (h : IsName name) (t : Text) :
    read? (dots ++ (name ++ 58 :: t)) = some (.nested dots.length name, t) := by
  have hname := h.head?_append (58 :: t)
  have hstop : (name ++ 58 :: t).head?.all fun b => !(b == 46) := by
    cases hb : (name ++ 58 :: t).head? with
    | none => rfl
    | some b =>
      rw [hb] at hname
      have hb : isNameStart b := hname
      have : b ≠ 46 := by
        rintro rfl
        cases hb
      simpa using this
  obtain ⟨htake, hdrop⟩ := Text.span_append (p := (· == 46)) hdots hstop
  obtain ⟨htake', hdrop'⟩ := Text.span_append h.continues (t := 58 :: t) rfl
  have htop : top? (dots ++ (name ++ 58 :: t)) = none := by
    refine top?_of_not_name ?_
    obtain ⟨d, tail, rfl⟩ := List.exists_cons_of_ne_nil hne
    have hd : d = 46 := by simpa using hdots d List.mem_cons_self
    simp only [hd, List.cons_append, List.head?_cons]
    rfl
  have hnested : nested? (dots ++ (name ++ 58 :: t)) = some (.nested dots.length name, t) := by
    simp only [nested?, htake, hdrop, htake', hdrop', hname]
    rw [if_pos (by simpa using hne)]
  rw [read?, htop, hnested]
  rfl

theorem read?_anonymous {direction : Direction} {signs colon t r : Text} (hne : signs ≠ [])
    (hsigns : ∀ b ∈ signs, b == direction.sign) (hcolon : colon = [] ∨ colon = [58])
    (ht : t = [] ∧ r = [] ∨ ∃ g, isGap g ∧ t = g :: r) :
    read? (signs ++ (colon ++ t)) = some (.anonymous direction signs.length, r) := by
  have hgap : ∀ g, isGap g → g ≠ direction.sign ∧ g ≠ 58 := by
    intro g hg
    constructor <;> rintro rfl <;> revert hg <;> cases direction <;> decide
  have hstop : (colon ++ t).head?.all fun b => !(b == direction.sign) := by
    rcases hcolon with rfl | rfl
    · rcases ht with ⟨rfl, -⟩ | ⟨g, hg, rfl⟩
      · rfl
      · simpa using (hgap g hg).1
    · cases direction <;> rfl
  have hhead : (signs ++ (colon ++ t)).head? = some direction.sign := by
    obtain ⟨b, tail, rfl⟩ := List.exists_cons_of_ne_nil hne
    have hb : b = direction.sign := by simpa using hsigns b List.mem_cons_self
    simp [hb]
  have hrest : (Text.after? [58] (colon ++ t)).getD (colon ++ t) = t := by
    rcases hcolon with rfl | rfl
    · rcases ht with ⟨rfl, -⟩ | ⟨g, hg, rfl⟩
      · rfl
      · simp [Text.after?, Ne.symm (hgap g hg).2]
    · simp [Text.after?]
  obtain ⟨htake, hdrop⟩ := Text.span_append (p := (· == direction.sign)) hsigns hstop
  have hanonymous : anonymous? direction (signs ++ (colon ++ t)) =
      some (.anonymous direction signs.length, r) := by
    rw [anonymous?]
    simp only [htake, hdrop, hrest]
    rw [if_neg (by simpa using hne)]
    rcases ht with ⟨rfl, rfl⟩ | ⟨g, hg, rfl⟩
    · rfl
    · simp only
      rw [if_pos hg]
  have htop : top? (signs ++ (colon ++ t)) = none := by
    refine top?_of_not_name ?_
    rw [hhead]
    cases direction <;> rfl
  have hnested : nested? (signs ++ (colon ++ t)) = none := by
    refine nested?_of_head ?_
    rw [hhead]
    cases direction <;> decide
  rw [read?, htop, hnested]
  cases direction with
  | backward => rw [hanonymous]; rfl
  | forward =>
    have hback : anonymous? .backward (signs ++ (colon ++ t)) = none :=
      anonymous?_of_head (by rw [hhead]; decide)
    rw [hback, hanonymous]
    rfl

def isLabelByte (b : UInt8) : Bool := isNameByte b || b == 58 || b == 46 || b == 43 || b == 45

theorem visible_of_isLabelByte {b : UInt8} (h : isLabelByte b) : Text.isInk b ∧ Line.isPlain b := by
  simp only [isLabelByte, Bool.or_eq_true, beq_iff_eq] at h
  rcases h with (((hname | rfl) | rfl) | rfl) | rfl
  · refine ⟨Text.isInk_of_isNameByte hname, Line.isPlain_iff.2 ⟨?_, ?_, ?_⟩⟩
    all_goals
      rintro rfl
      cases hname
  all_goals exact ⟨rfl, rfl⟩

/-- A word that reads as a label, with the gap that belongs to it: whatever follows it, and with the
blanks at the end of it cut off. -/
structure Opens (head : LabelHead) (word gap : Text) : Prop where
  ne_nil : word ≠ []
  bytes : ∀ b ∈ word, isLabelByte b
  blank : Text.Blank gap
  read? : ∀ t, ∃ t', LabelHead.read? (word ++ Text.trimEnd (gap ++ t)) = some (head, t') ∧
    Text.trim t' = Text.trim t

theorem Opens.isWord {head : LabelHead} {word gap : Text} (h : Opens head word gap) :
    Text.IsWord word :=
  ⟨h.ne_nil, fun b hb => (visible_of_isLabelByte (h.bytes b hb)).1⟩

theorem opens_of_colon {head : LabelHead} {word : Text} (hbytes : ∀ b ∈ word, isLabelByte b)
    (hread : ∀ t, LabelHead.read? (word ++ 58 :: t) = some (head, t)) :
    Opens head (word ++ [58]) [] where
  ne_nil := by simp
  bytes b hb := by
    rcases List.mem_append.1 hb with hb | hb
    · exact hbytes b hb
    · rw [List.mem_singleton.1 hb]
      rfl
  blank := .nil
  read? t := ⟨Text.trimEnd t, by simpa using hread (Text.trimEnd t), Text.trim_trimEnd t⟩

theorem opens_of_gap {head : LabelHead} {word : Text} {g : UInt8} (hne : word ≠ [])
    (hbytes : ∀ b ∈ word, isLabelByte b) (hg : isGap g)
    (hnil : LabelHead.read? word = some (head, []))
    (hread : ∀ t, LabelHead.read? (word ++ g :: t) = some (head, t)) : Opens head word [g] where
  ne_nil := hne
  bytes := hbytes
  blank := Text.blank_of_isGap hg
  read? t := by
    have hblank : Text.Blank [g] := Text.blank_of_isGap hg
    have htrim : Text.trim (Text.trimEnd ([g] ++ t)) = Text.trim t := by
      rw [Text.trim_trimEnd, Text.trim_blank_append hblank]
    obtain ⟨trail, -, hcut⟩ := Text.exists_trimEnd ([g] ++ t)
    cases hend : Text.trimEnd ([g] ++ t) with
    | nil =>
      rw [hend, Text.trim_nil] at htrim
      exact ⟨[], by rwa [List.append_nil], by rw [Text.trim_nil, htrim]⟩
    | cons c t' =>
      rw [hend] at hcut htrim
      have hc : c = g := (List.cons.inj hcut).1.symm
      subst hc
      exact ⟨t', hread t', by rw [← htrim, ← Text.trim_blank_append hblank t']; rfl⟩

section
variable {s r : Text} {head : LabelHead}

theorem opens_of_top? (h : top? s = some (head, r)) :
    ∃ word, s = word ++ r ∧ Opens head word [] := by
  unfold top? at h
  split at h
  · rename_i hstart
    split at h
    · rename_i r' hdrop
      cases h
      have hname := isName_takeWhile hstart
      have hs := List.takeWhile_append_dropWhile (p := isNameByte) (l := s)
      rw [hdrop] at hs
      refine ⟨s.takeWhile isNameByte ++ [58], by simpa using hs.symm,
        opens_of_colon (fun b hb => ?_) (read?_top hname)⟩
      simp [isLabelByte, hname.continues b hb]
    · cases h
  · cases h

theorem opens_of_nested? (h : nested? s = some (head, r)) :
    Text.isBlank r ∨ ∃ word, s = word ++ r ∧ Opens head word [] := by
  unfold nested? at h
  simp only at h
  split at h
  · rename_i hstart
    obtain ⟨hdots, hstart⟩ := Bool.and_eq_true_iff.1 hstart
    split at h
    · rename_i r' hdrop
      cases h
      have hname := isName_takeWhile hstart
      have hdot : ∀ b ∈ s.takeWhile (· == 46), b == 46 := fun b hb =>
        List.all_eq_true.1 List.all_takeWhile b hb
      have hs : s = s.takeWhile (· == 46) ++
          ((s.dropWhile (· == 46)).takeWhile isNameByte ++ 58 :: r) := by
        rw [← hdrop, List.takeWhile_append_dropWhile, List.takeWhile_append_dropWhile]
      right
      refine ⟨(s.takeWhile (· == 46) ++ (s.dropWhile (· == 46)).takeWhile isNameByte) ++ [58],
        by simpa using hs, opens_of_colon (fun b hb => ?_) (fun t => ?_)⟩
      · rcases List.mem_append.1 hb with hb | hb
        · rw [beq_iff_eq.1 (hdot b hb)]
          rfl
        · simp [isLabelByte, hname.continues b hb]
      · rw [List.append_assoc]
        exact read?_nested (by simpa using hdots) hdot hname t
    · split at h
      · rename_i hblank
        cases h
        exact .inl hblank
      · cases h
  · cases h

theorem opens_of_anonymous? {direction : Direction} (h : anonymous? direction s = some (head, r)) :
    Text.isBlank r ∨ ∃ word gap, s = word ++ (gap ++ r) ∧ Opens head word gap := by
  unfold anonymous? at h
  simp only at h
  split at h
  · cases h
  · rename_i hne
    have hne : s.takeWhile (· == direction.sign) ≠ [] := by simpa using hne
    have hsigns : ∀ b ∈ s.takeWhile (· == direction.sign), b == direction.sign := fun b hb =>
      List.all_eq_true.1 List.all_takeWhile b hb
    split at h
    · cases h
      left
      rw [Text.isBlank, Text.trim_nil]
      rfl
    · rename_i g r' hrest
      split at h
      · rename_i hg
        cases h
        right
        obtain ⟨colon, hcolon, hafter⟩ : ∃ colon, (colon = [] ∨ colon = [58]) ∧
            s.dropWhile (· == direction.sign) = colon ++ g :: r := by
          cases ha : Text.after? [58] (s.dropWhile (· == direction.sign)) with
          | none =>
            rw [ha] at hrest
            exact ⟨[], .inl rfl, hrest⟩
          | some t =>
            rw [ha] at hrest
            exact ⟨[58], .inr rfl, by rw [Text.after?_eq_some.1 ha, ← hrest]; rfl⟩
        have hs := List.takeWhile_append_dropWhile (p := (· == direction.sign)) (l := s)
        rw [hafter] at hs
        refine ⟨s.takeWhile (· == direction.sign) ++ colon, [g], by simpa using hs.symm,
          opens_of_gap (by simp [hne]) (fun b hb => ?_) hg ?_ (fun t => ?_)⟩
        · rcases List.mem_append.1 hb with hb | hb
          · rw [beq_iff_eq.1 (hsigns b hb)]
            cases direction <;> rfl
          · rcases hcolon with rfl | rfl
            · cases hb
            · rw [List.mem_singleton.1 hb]
              rfl
        · have := read?_anonymous (t := []) hne hsigns hcolon (.inl ⟨rfl, rfl⟩)
          rwa [List.append_nil] at this
        · rw [List.append_assoc]
          exact read?_anonymous hne hsigns hcolon (.inr ⟨g, hg, rfl⟩)
      · cases h

/-- A label is a word and perhaps a gap, or the line ends with it. -/
theorem opens_of_read? (h : read? s = some (head, r)) :
    Text.isBlank r ∨ ∃ word gap, s = word ++ (gap ++ r) ∧ Opens head word gap := by
  simp only [read?, Option.or_eq_some_iff] at h
  rcases h with h | ⟨_, h | ⟨_, h | ⟨_, h⟩⟩⟩
  · obtain ⟨word, hs, hopens⟩ := opens_of_top? h
    exact .inr ⟨word, [], hs, hopens⟩
  · rcases opens_of_nested? h with hblank | ⟨word, hs, hopens⟩
    · exact .inl hblank
    · exact .inr ⟨word, [], hs, hopens⟩
  · exact opens_of_anonymous? h
  · exact opens_of_anonymous? h

end

end LabelHead
end Assembler65816
