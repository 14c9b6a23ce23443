import Assembler65816.Proofs.Source.Erasure
import Assembler65816.Proofs.Source.Lines
import Assembler65816.Proofs.Statement.Values

/-!
# A line with one string literal

A text in double quotes, with a backslash before each of its double quotes and backslashes, is the
argument that a data directive reads back as the text. The line that holds the directive loses its
comment first, and what looks for comments knows no escapes: to it the string ends at the first
double quote, escaped or not, and a semicolon behind can start a comment. The main statement says
that this is the one thing that can go wrong, and for which texts it does.
-/
namespace Assembler65816

namespace Text

theorem trimEnd_isPrefix (s : Text) : trimEnd s <+: s := by
  obtain ⟨trail, -, hs⟩ := exists_trimEnd s
  exact ⟨trail, hs.symm⟩

theorem trim_space_quote (v : Text) : trim (32 :: 34 :: v) = 34 :: trimEnd v := by
  have hword : IsWord [34] := ⟨List.cons_ne_nil _ _, List.forall_mem_singleton.2 rfl⟩
  have hspace : Blank [32] := blank_of_isGap rfl
  exact (trim_blank_append hspace (34 :: v)).trans (hword.trim_append v)

end Text

namespace DataItem

def literal (b : Text) : Text := 34 :: (escaped b ++ [34])

theorem split_literal (b : Text) : split (literal b) = [{value := b, quoted := true}] := by
  rw [literal, split_quote, inside_escaped, inside_close, outside, flush_nil, List.append_nil,
    List.reverse_reverse]

theorem escaped_append (b r : Text) : escaped (b ++ r) = escaped b ++ escaped r :=
  List.flatMap_append

theorem mem_escaped {c : UInt8} {b : Text} (hslash : c ≠ 92) : c ∈ escaped b ↔ c ∈ b := by
  simp only [escaped, List.mem_flatMap]
  constructor
  · rintro ⟨a, ha, hc⟩
    split at hc
    · rcases List.mem_cons.1 hc with rfl | hc
      · exact absurd rfl hslash
      · exact List.mem_singleton.1 hc ▸ ha
    · exact List.mem_singleton.1 hc ▸ ha
  · intro hc
    refine ⟨c, hc, ?_⟩
    split <;> simp

/-- No part of a text closes its own literal. -/
theorem exists_inside_of_isPrefix {b v : Text} (h : v <+: escaped b) (d : Int) (read : Text) :
    ∃ kept, inside d read v = flush kept := by
  have hnil : ∀ kept, inside d kept [] = flush kept := fun kept => by rw [inside]
  induction b generalizing v read with
  | nil =>
    cases List.prefix_nil.1 h
    exact ⟨read, hnil read⟩
  | cons c b ih =>
    cases v with
    | nil => exact ⟨read, hnil read⟩
    | cons a v =>
      rw [escaped_cons] at h
      split at h
      · rw [List.cons_append, List.singleton_append] at h
        obtain ⟨rfl, hv⟩ := List.cons_prefix_cons.1 h
        cases v with
        | nil =>
          have hlast : inside d read [92] = inside d (92 :: read) [] := by
            rw [inside.eq_def]
            rfl
          exact ⟨92 :: read, hlast.trans (hnil _)⟩
        | cons e v =>
          obtain ⟨rfl, htail⟩ := List.cons_prefix_cons.1 hv
          rw [inside_escape]
          exact ih htail _
      · next hplain =>
        obtain ⟨rfl, hv⟩ := List.cons_prefix_cons.1 h
        rw [not_or] at hplain
        rw [inside_cons hplain.1 hplain.2]
        exact ih hv _

end DataItem

namespace Line

def AllCode (line : Text) : Prop := codeLength none 0 line = line.length

theorem codeLength_of_notMem {s : Text} (h : 59 ∉ s) (quote : Option UInt8) (n : Nat) :
    codeLength quote n s = n + s.length := by
  obtain ⟨body, comment, rfl, hlength, hcomment⟩ := exists_comment quote n s
  cases comment with
  | nil => rw [hlength, List.append_nil]
  | cons c comment =>
    have hc : c = 59 := by simpa using hcomment
    exact absurd (List.mem_append_right body (hc ▸ List.mem_cons_self)) h

theorem codeLength_quoted {q : UInt8} {s : Text} (h : q ∉ s) (n : Nat) (rest : Text) :
    codeLength (some q) n (s ++ rest) = codeLength (some q) (n + s.length) rest := by
  induction s generalizing n with
  | nil => rfl
  | cons c s ih =>
    rw [List.mem_cons, not_or] at h
    have hopen : (c == q) = false := beq_eq_false_iff_ne.2 (Ne.symm h.1)
    rw [List.cons_append, codeLength, hopen, if_neg Bool.false_ne_true, ih h.2, List.length_cons,
      Nat.add_assoc, Nat.add_comm 1]

/-- The mark that closes the string at hand if there are `k` double quotes since one was opened. -/
def mark (k : Nat) : Option UInt8 := if k % 2 = 0 then some 34 else none

theorem codeLength_mark_cons {c : UInt8} {k : Nat} (hapostrophe : c ≠ 39)
    (hopen : c = 59 → k % 2 = 0) (n : Nat) (s : Text) :
    codeLength (mark k) n (c :: s) = codeLength (mark (k + List.count 34 [c])) (n + 1) s := by
  rw [List.count_singleton, mark, mark]
  by_cases hk : k % 2 = 0
  · rw [if_pos hk, codeLength]
    by_cases hc : c = 34
    · have hodd : (k + 1) % 2 ≠ 0 := by omega
      simp [hc, hodd]
    · simp [hc, hk]
  · rw [if_neg hk, codeLength]
    · have hsemi : c ≠ 59 := fun hc => hk (hopen hc)
      by_cases hc : c = 34
      · have heven : (k + 1) % 2 = 0 := by omega
        simp [hc, heven]
      · simp [hc, hapostrophe, hsemi, hk]
    · exact fun _ _ h => absurd h hapostrophe

/-- A byte of a text moves the scan on by what is written for it. -/
theorem codeLength_mark_escaped {c : UInt8} {k : Nat} (hapostrophe : c ≠ 39)
    (hopen : c = 59 → k % 2 = 0) (n : Nat) (s : Text) :
    codeLength (mark k) n (DataItem.escaped [c] ++ s) =
      codeLength (mark (k + List.count 34 [c])) (n + (DataItem.escaped [c]).length) s := by
  have hslash : codeLength (mark k) n (92 :: c :: s) = codeLength (mark k) (n + 1) (c :: s) :=
    codeLength_mark_cons (by decide) (fun h => absurd h (by decide)) n (c :: s)
  have hc := fun n => codeLength_mark_cons hapostrophe hopen n s
  by_cases hspecial : c = 34 ∨ c = 92
  · have hescaped : DataItem.escaped [c] = [92, c] := by
      rw [DataItem.escaped_cons, if_pos hspecial]
      rfl
    rw [hescaped]
    exact hslash.trans (hc (n + 1))
  · have hescaped : DataItem.escaped [c] = [c] := by
      rw [DataItem.escaped_cons, if_neg hspecial]
      rfl
    rw [hescaped]
    exact hc n

theorem forall_break_cons {c : UInt8} {b : Text} {P : Text → Prop} :
    (∀ p q, c :: b = p ++ 59 :: q → P p) ↔
      (c = 59 → P []) ∧ ∀ p q, b = p ++ 59 :: q → P (c :: p) := by
  constructor
  · refine fun h => ⟨?_, fun p q hb => h (c :: p) q (by rw [hb, List.cons_append])⟩
    rintro rfl
    exact h [] b rfl
  · rintro ⟨hfirst, hrest⟩ p q hb
    rcases List.cons_eq_append_iff.1 hb with ⟨rfl, hq⟩ | ⟨p, rfl, hq⟩
    · exact hfirst (List.cons.inj hq).1.symm
    · exact hrest p q hq

/-- In a literal without apostrophes, a semicolon starts a comment exactly if an odd number of
double quotes stands before it in the text. -/
theorem codeLength_literal_iff {b : Text} (hb : 39 ∉ b) (k n : Nat) :
    codeLength (mark k) n (DataItem.escaped b ++ [34]) =
        n + (DataItem.escaped b ++ [34]).length ↔
      ∀ p q, b = p ++ 59 :: q → (k + p.count 34) % 2 = 0 := by
  induction b generalizing k n with
  | nil =>
    refine ⟨fun _ p q hp => ?_, fun _ => codeLength_of_notMem (by decide) _ _⟩
    exact absurd hp.symm (List.append_ne_nil_of_right_ne_nil p (List.cons_ne_nil 59 q))
  | cons c b ih =>
    rw [List.mem_cons, not_or] at hb
    have hlist : DataItem.escaped (c :: b) ++ [34] =
        DataItem.escaped [c] ++ (DataItem.escaped b ++ [34]) := by
      rw [← List.append_assoc, ← DataItem.escaped_append]
      rfl
    have hrest : ∀ m, (∀ p q, b = p ++ 59 :: q → (k + (c :: p).count 34) % 2 = 0) ↔
        codeLength (mark (k + List.count 34 [c])) m (DataItem.escaped b ++ [34]) =
          m + (DataItem.escaped b ++ [34]).length := by
      intro m
      rw [ih hb.2]
      refine forall_congr' fun p => forall_congr' fun q => imp_congr_right fun _ => ?_
      rw [← List.singleton_append, List.count_append, Nat.add_assoc]
    rw [forall_break_cons, hlist]
    by_cases hopen : c = 59 → k % 2 = 0
    · rw [codeLength_mark_escaped (Ne.symm hb.1) hopen, hrest, List.length_append, Nat.add_assoc]
      exact (and_iff_right hopen).symm
    · -- The comment starts here, and the quote that closes the literal is lost.
      obtain ⟨rfl, hodd⟩ := Classical.not_imp.1 hopen
      have hcut : codeLength (mark k) n (59 :: (DataItem.escaped b ++ [34])) = n := by
        rw [mark, if_neg hodd, codeLength]
        · rfl
        · exact fun _ _ h => absurd h (by decide)
      refine iff_of_false ?_ fun h => hopen h.1
      change codeLength (mark k) n (59 :: (DataItem.escaped b ++ [34])) ≠ _
      rw [hcut, List.length_append, List.length_append, List.length_singleton]
      omega

def withLiteral (b : Text) : Text := ascii ".db " ++ DataItem.literal b

theorem allCode_withLiteral {b : Text} :
    AllCode (withLiteral b) ↔ codeLength (mark 0) 5 (DataItem.escaped b ++ [34]) =
      5 + (DataItem.escaped b ++ [34]).length := by
  have hlength : (withLiteral b).length = 5 + (DataItem.escaped b ++ [34]).length := by
    rw [withLiteral, DataItem.literal, List.length_append, List.length_cons, ← Nat.add_assoc,
      Nat.add_right_comm]
    rfl
  rw [AllCode, hlength]
  rfl

theorem allCode_iff_even {b : Text} (hb : 39 ∉ b) :
    AllCode (withLiteral b) ↔ ∀ p q, b = p ++ 59 :: q → p.count 34 % 2 = 0 := by
  rw [allCode_withLiteral, codeLength_literal_iff hb]
  simp only [Nat.zero_add]

/-- A text with no semicolon behind a double quote is safe, whatever its apostrophes do. -/
theorem allCode_of_first {b : Text} (hb : ∀ p q, b = p ++ 59 :: q → 34 ∉ p) :
    AllCode (withLiteral b) := by
  rw [allCode_withLiteral]
  by_cases hquote : 34 ∈ b
  · obtain ⟨p, q, rfl, hp⟩ := List.eq_append_cons_of_mem hquote
    have hq : 59 ∉ DataItem.escaped (34 :: q) ++ [34] := by
      rw [List.mem_append, DataItem.mem_escaped (by decide), not_or]
      refine ⟨fun hmem => ?_, by decide⟩
      rcases List.mem_cons.1 hmem with hfirst | hmem
      · cases hfirst
      · obtain ⟨r, t, rfl⟩ := List.append_of_mem hmem
        exact hb (p ++ 34 :: r) t (by simp) (by simp)
    have hp' : 34 ∉ DataItem.escaped p := fun hmem =>
      hp ((DataItem.mem_escaped (by decide)).1 hmem)
    rw [DataItem.escaped_append, List.append_assoc, mark, if_pos (Nat.zero_mod 2),
      codeLength_quoted hp', codeLength_of_notMem hq, Nat.add_assoc, ← List.length_append]
  · have hquote' : 34 ∉ DataItem.escaped b := fun hmem =>
      hquote ((DataItem.mem_escaped (by decide)).1 hmem)
    rw [mark, if_pos (Nat.zero_mod 2), codeLength_quoted hquote', List.length_append,
      codeLength_of_notMem (by decide), Nat.add_assoc]

theorem code_directive {line u comment : Text} (hline : line = ascii ".db \"" ++ (u ++ comment))
    (hcode : codeLength none 0 line = 5 + u.length) :
    code line = ascii ".db \"" ++ Text.trimEnd u := by
  have htake : line.take (5 + u.length) = ascii ".db " ++ 34 :: u := by
    rw [hline, ← List.append_assoc]
    exact List.take_left' (by rw [List.length_append]; rfl)
  rw [code, hcode, htake, Text.trim]
  have hstart : Text.trimStart (ascii ".db " ++ 34 :: u) = ascii ".db " ++ 34 :: u :=
    Text.trimStart_ink rfl _
  rw [hstart, Text.trimEnd_append_ink rfl]
  rfl

theorem parts?_directive (v : Text) : Define.parts? (ascii ".db \"" ++ v) = none := rfl

/-- The name of the directive is no label, since a string follows it. -/
theorem read?_directive (v : Text) : LabelHead.read? (ascii ".db \"" ++ v) = none := by
  have hblank : Text.isBlank (32 :: 34 :: v) = false := by
    rw [Text.isBlank, Text.trim_space_quote]
    rfl
  have hnested : LabelHead.nested? (ascii ".db \"" ++ v) = none := by
    change (if Text.isBlank (32 :: 34 :: v) then
      some (LabelHead.nested 1 (ascii "db"), 32 :: 34 :: v) else none) = none
    rw [hblank, if_neg Bool.false_ne_true]
  have hsign : ∀ direction : Direction,
      (ascii ".db \"" ++ v).head? ≠ some direction.sign := by
    intro direction
    change some 46 ≠ _
    cases direction <;> decide
  rw [LabelHead.read?, LabelHead.top?_of_not_name rfl, hnested,
    LabelHead.anonymous?_of_head (hsign .backward), LabelHead.anonymous?_of_head (hsign .forward)]
  rfl

theorem items_directive {line v : Text} (h : code line = ascii ".db \"" ++ v) (pos : Position)
    (attributes : List Attribute) :
    items pos attributes line = .ok ([.written (ascii ".db \"" ++ v) pos], attributes) := by
  have hcons : code line = 46 :: (ascii "db \"" ++ v) := h
  rw [items_of_code _ _ _ hcons (by decide), h, parts?_directive,
    labelled_of_none (read?_directive v)]
  rfl

end Line

theorem Statement.read_directive (labels : Labels) (v : Text) (pos : Position) :
    Statement.read labels (ascii ".db \"" ++ v) pos =
      Directive.values labels .byte (34 :: Text.trimEnd v) pos := by
  have hhead : splitHead (ascii ".db \"" ++ v) = (ascii ".db", 34 :: Text.trimEnd v) := by
    rw [← Text.trim_space_quote]
    rfl
  rw [Statement.read, Line.parts?_directive]
  simp only [hhead]
  rfl

theorem statements_singleton (labels : Labels) (item : Line.Item) :
    statements labels [item] = [item.statement labels] := by
  simp only [statements, reads, ite_self, List.map_cons, List.map_nil]

/-- What a line reads as that holds the directive and `u` before its comment. -/
theorem statements_directive (labels : Labels) (file : Text) {line u comment ending : Text}
    (hline : line = ascii ".db \"" ++ (u ++ comment))
    (hcode : Line.codeLength none 0 line = 5 + u.length)
    (hending : ending ∈ [[], [10], [13, 10]]) (hlf : 10 ∉ line)
    (hlen : line.length + 1 < Lines.tooLong) :
    statements labels (Reader.ofText file (line ++ ending) none).items =
      [(Line.Item.written (ascii ".db \"" ++ Text.trimEnd u) ⟨file, 1⟩).statement labels] := by
  have hitems := Line.items_directive (Line.code_directive hline hcode) ⟨file, 1⟩ []
  rw [Reader.items_single file hending hlf hlen, Reader.handed, hitems]
  exact statements_singleton labels _

namespace Directive

theorem values_literal (labels : Labels) (b : Text) (pos : Position) :
    values labels .byte (DataItem.literal b) pos = .ok (.data b [] pos) := by
  rw [values_of_split (DataItem.split_literal b) (List.cons_ne_nil _ _)]
  change Except.ok (Statement.data (b ++ []) ([] ++ []) pos) = _
  rw [List.append_nil, List.append_nil]

/-- A string that is never closed counts as an expression, and so takes up one byte at most. -/
theorem length_of_open {labels : Labels} {b v : Text} (hv : v <+: DataItem.escaped b)
    {pos pos' : Position} {bytes : List UInt8} {refs : List DataRef}
    (h : values labels .byte (34 :: v) pos = .ok (.data bytes refs pos')) : bytes.length = 1 := by
  obtain ⟨kept, hkept⟩ := DataItem.exists_inside_of_isPrefix hv 0 []
  have hsplit := (DataItem.split_quote v).trans hkept
  rw [DataItem.flush] at hsplit
  split at hsplit
  · rw [values, hsplit] at h
    cases h
  · rw [values_of_split hsplit (List.cons_ne_nil _ _), images] at h
    cases himage : image labels .byte 0 {value := Text.trim kept.reverse} with
    | error cause =>
      rw [himage] at h
      cases h
    | ok p =>
      obtain ⟨field, fieldRefs⟩ := p
      rw [himage] at h
      cases h
      obtain ⟨t, -, ⟨v, -, hfield, -⟩ | ⟨-, rfl, -⟩⟩ := image_of_term Bool.false_ne_true himage
      · obtain ⟨-, -, rfl⟩ := Field.plain_eq_ok hfield
        rw [List.append_nil, Field.length_bytes]
        rfl
      · rfl

end Directive

theorem Line.notMem_withLiteral {b : Text} (hlf : 10 ∉ b) : 10 ∉ withLiteral b := by
  have hbody : 10 ∉ DataItem.escaped b := fun hmem =>
    hlf ((DataItem.mem_escaped (by decide)).1 hmem)
  rw [withLiteral, DataItem.literal, List.mem_append, List.mem_cons, List.mem_append]
  rintro (h | h | h | h)
  · exact absurd h (by decide)
  · exact absurd h (by decide)
  · exact hbody h
  · exact absurd h (by decide)

/-- A literal is read as its text exactly if the line has no comment. Where it has one, the
directive is left with a string that is not closed, and what becomes of that is too short. -/
theorem statements_withLiteral_iff (labels : Labels) (file : Text) {b ending : Text}
    (hending : ending ∈ [[], [10], [13, 10]]) (hlf : 10 ∉ b)
    (hlen : (Line.withLiteral b).length + 1 < Lines.tooLong) :
    statements labels (Reader.ofText file (Line.withLiteral b ++ ending) none).items =
        [.data b [] ⟨file, 1⟩] ↔
      Line.AllCode (Line.withLiteral b) := by
  obtain ⟨u, comment, hu, hlength, hcomment⟩ :=
    Line.exists_comment (some 34) 5 (DataItem.escaped b ++ [34])
  have hline : Line.withLiteral b = ascii ".db \"" ++ (u ++ comment) := by
    rw [← hu]
    rfl
  have hstatement :
      statements labels (Reader.ofText file (Line.withLiteral b ++ ending) none).items =
        [(Line.Item.written (ascii ".db \"" ++ Text.trimEnd u) ⟨file, 1⟩).statement labels] :=
    statements_directive labels file hline hlength hending (Line.notMem_withLiteral hlf) hlen
  rw [hstatement, List.singleton_inj, Line.Item.statement, Statement.read_directive]
  constructor
  · intro hdata
    by_contra hall
    -- What is left of the literal is not closed, so the data are one byte long.
    have hcut : comment ≠ [] := by
      rintro rfl
      rw [List.append_nil] at hu
      exact hall (Line.allCode_withLiteral.2 (hu ▸ hlength))
    have hopen : u <+: DataItem.escaped b := by
      have hle : u.length ≤ (DataItem.escaped b).length := by
        have hsum := congrArg List.length hu
        rw [List.length_append, List.length_append, List.length_singleton] at hsum
        have hpos := List.length_pos_iff.2 hcut
        omega
      exact List.prefix_of_prefix_length_le ⟨comment, hu.symm⟩ (List.prefix_append _ _) hle
    have hshort : b.length = 1 := by
      split at hdata
      · next st hst =>
        rw [hdata] at hst
        refine Directive.length_of_open (.trans ?_ hopen) hst
        exact (Text.trimEnd_isPrefix _).trans (Text.trimEnd_isPrefix u)
      · cases hdata
    -- The text itself has a double quote and a semicolon.
    have hlong : ∃ p q, b = p ++ 59 :: q ∧ 34 ∈ p := by
      by_contra hnone
      exact hall (Line.allCode_of_first fun p q hb hmem => hnone ⟨p, q, hb, hmem⟩)
    obtain ⟨p, q, rfl, hquote⟩ := hlong
    have hpos := List.length_pos_of_mem hquote
    rw [List.length_append, List.length_cons] at hshort
    omega
  · intro hall
    have hnil : comment = [] := by
      have hfull := hlength.symm.trans (Line.allCode_withLiteral.1 hall)
      rw [hu, List.length_append] at hfull
      exact List.length_eq_zero_iff.1 (by omega)
    have hend : Text.trimEnd (DataItem.escaped b ++ [34]) = DataItem.escaped b ++ [34] := by
      rw [Text.trimEnd_append_ink rfl, List.prefix_nil.1 (Text.trimEnd_isPrefix [])]
    rw [hnil, List.append_nil] at hu
    have hvalues := Directive.values_literal labels b ⟨file, 1⟩
    rw [DataItem.literal] at hvalues
    rw [← hu, hend, hend, hvalues]

/-- A string literal survives its line exactly if no semicolon of it starts a comment. Without
apostrophes in the text, that is so exactly if an even number of double quotes stands before each
semicolon; with apostrophes, it is so if no semicolon stands behind a double quote. -/
theorem statements_literal_iff (labels : Labels) (file : Text) {b ending : Text}
    (hending : ending ∈ [[], [10], [13, 10]]) (hlf : 10 ∉ b)
    (hlen : (Line.withLiteral b).length + 1 < Lines.tooLong) :
    (statements labels (Reader.ofText file (Line.withLiteral b ++ ending) none).items =
        [.data b [] ⟨file, 1⟩] ↔
      Line.codeLength none 0 (Line.withLiteral b) = (Line.withLiteral b).length) ∧
    (39 ∉ b →
      (statements labels (Reader.ofText file (Line.withLiteral b ++ ending) none).items =
          [.data b [] ⟨file, 1⟩] ↔
        ∀ p q, b = p ++ 59 :: q → p.count 34 % 2 = 0)) ∧
    ((∀ p q, b = p ++ 59 :: q → 34 ∉ p) →
      statements labels (Reader.ofText file (Line.withLiteral b ++ ending) none).items =
        [.data b [] ⟨file, 1⟩]) := by
  have hiff := statements_withLiteral_iff labels file hending hlf hlen
  refine ⟨hiff, fun hb => ?_, fun hb => ?_⟩
  · rw [hiff, Line.allCode_iff_even hb]
  · exact hiff.2 (Line.allCode_of_first hb)

/-- An apostrophe, a semicolon, a double quote and a backslash. -/
theorem statements_literal_iff_of_marks :
    let b := ascii "';\"\\"
    10 ∉ b ∧ (Line.withLiteral b).length + 1 < Lines.tooLong ∧
      Line.withLiteral b = ascii ".db \"';\\\"\\\\\"" ∧
      statements {} (Reader.ofText [] (Line.withLiteral b ++ [13, 10]) none).items =
        [.data b [] ⟨[], 1⟩] := by
  intro b
  have hlf : 10 ∉ b := by decide
  have hlen : (Line.withLiteral b).length + 1 < Lines.tooLong := by decide
  refine ⟨hlf, hlen, by decide, ?_⟩
  exact (statements_literal_iff {} [] (by decide) hlf hlen).1.2 (by decide)

/-- A double quote and a semicolon: the rest of the line is lost. -/
theorem exists_literal_lost :
    ∃ (labels : Labels) (file b : Text), 10 ∉ b ∧
      (Line.withLiteral b).length + 1 < Lines.tooLong ∧
      statements labels (Reader.ofText file (Line.withLiteral b) none).items ≠
        [.data b [] ⟨file, 1⟩] := by
  have hlf : 10 ∉ ascii "\";" := by decide
  have hlen : (Line.withLiteral (ascii "\";")).length + 1 < Lines.tooLong := by decide
  refine ⟨{}, [], ascii "\";", hlf, hlen, ?_⟩
  have hiff := statements_withLiteral_iff {} [] (List.mem_cons_self) hlf hlen
  rw [List.append_nil] at hiff
  rw [Ne, hiff, Line.AllCode]
  decide

end Assembler65816
