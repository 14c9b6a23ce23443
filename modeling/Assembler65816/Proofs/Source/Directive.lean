import Assembler65816.Proofs.Source.Erasure
import Assembler65816.Proofs.Statement.Parts

/-!
# Lines that start with a directive

A dot and a name start a directive as well as a local label that is written without a colon. The two
are told apart by what is left of the line: with anything behind the name it is a directive, and
without it is a label, whatever the name is. So the name of a data directive that stands alone, or
with nothing but a comment behind it, is a local label. On every other line that starts with such a
name there is one data statement, or one error at the line.
-/
namespace Assembler65816

def Directive.names : List Text :=
  [".db", ".byte", ".dw", ".word", ".dl", ".long", ".ds", ".text"].map ascii

namespace Line

theorem codeLength_add (quote : Option UInt8) (n m : Nat) (s : Text) :
    codeLength quote (m + n) s = m + codeLength quote n s := by
  fun_induction codeLength quote n s with
  | case1 quote n => rw [codeLength]
  | case2 n q c s ih => rw [codeLength, Nat.add_assoc, ih]
  | case3 n c s ih => rw [codeLength, Nat.add_assoc, ih]
  | case4 n c s hconstant hc ih =>
    rw [codeLength, if_pos hc, Nat.add_assoc, ih]
    exact hconstant
  | case5 n c s hconstant hc hsemi =>
    rw [codeLength, if_neg hc, if_pos hsemi]
    exact hconstant
  | case6 n c s hconstant hc hsemi ih =>
    rw [codeLength, if_neg hc, if_neg hsemi, Nat.add_assoc, ih]
    exact hconstant

theorem codeLength_plain_append {front : Text} (h : ∀ b ∈ front, isPlain b) (n : Nat) (s : Text) :
    codeLength none n (front ++ s) = codeLength none (n + front.length) s := by
  induction front generalizing n with
  | nil => rfl
  | cons b front ih =>
    obtain ⟨h34, h39, h59⟩ := isPlain_iff.1 (h b List.mem_cons_self)
    rw [List.cons_append, codeLength]
    · simp only [h34, h39, h59, beq_iff_eq, Bool.or_eq_true, or_self, if_false]
      rw [ih (fun c hc => h c (List.mem_cons_of_mem _ hc)), List.length_cons, Nat.add_assoc,
        Nat.add_comm 1]
    · exact fun c t hb => absurd hb h39

theorem head?_of_isPrefix {s t : Text} (h : s <+: t) {b : UInt8} (hb : b ∈ s.head?) :
    b ∈ t.head? := by
  obtain ⟨rest, rfl⟩ := h
  cases s with
  | nil => cases hb
  | cons c s => exact hb

/-- The code of a line that starts with a word: the word, and then code. -/
theorem code_word_append {lead word : Text} (hlead : Text.Blank lead) (hword : Text.IsWord word)
    (hplain : ∀ b ∈ word, isPlain b) (rest : Text) :
    ∃ args, code (lead ++ (word ++ rest)) = word ++ args ∧ args <+: rest ∧
      Text.trim args = code rest := by
  have hfront : ∀ b ∈ lead ++ word, isPlain b := by
    intro b hb
    rcases List.mem_append.1 hb with hb | hb
    · exact isPlain_of_blank hlead b hb
    · exact hplain b hb
  have hlength : codeLength none 0 ((lead ++ word) ++ rest) =
      (lead ++ word).length + codeLength none 0 rest := by
    rw [codeLength_plain_append hfront, Nat.zero_add, ← codeLength_add, Nat.add_zero]
  have hcode : code ((lead ++ word) ++ rest) =
      word ++ Text.trimEnd (rest.take (codeLength none 0 rest)) := by
    rw [code, hlength, List.take_length_add_append, List.append_assoc,
      Text.trim_blank_append hlead, hword.trim_append]
  obtain ⟨trail, -, htrail⟩ := Text.exists_trimEnd (rest.take (codeLength none 0 rest))
  refine ⟨_, by rw [← List.append_assoc, hcode], ?_, by rw [Text.trim_trimEnd, code]⟩
  exact List.IsPrefix.trans ⟨trail, htrail.symm⟩ (List.take_prefix _ rest)

end Line

namespace LabelHead

theorem IsName.isWord_dot {name : Text} (h : IsName name) :
    Text.IsWord (46 :: name) ∧ ∀ b ∈ 46 :: name, Line.isPlain b := by
  have hvisible : ∀ b ∈ 46 :: name, Text.isInk b ∧ Line.isPlain b := by
    refine List.forall_mem_cons.2 ⟨visible_of_isLabelByte rfl, fun b hb => ?_⟩
    exact visible_of_isLabelByte (by simp [isLabelByte, h.continues b hb])
  exact ⟨⟨List.cons_ne_nil 46 name, fun b hb => (hvisible b hb).1⟩, fun b hb => (hvisible b hb).2⟩

theorem read?_dot {name r : Text} (h : IsName name)
    (hr : ∀ b ∈ r.head?, isNameByte b = false ∧ b ≠ 58) :
    read? (46 :: (name ++ r)) = if Text.isBlank r then some (.nested 1 name, r) else none := by
  have hname := h.head?_append r
  have hdot : (name ++ r).head?.all fun b => !(b == 46) := by
    cases hb : (name ++ r).head? with
    | none => rfl
    | some b =>
      rw [hb] at hname
      have hne : b ≠ 46 := by
        rintro rfl
        cases hname
      simpa using hne
  have hstop : r.head?.all fun b => !isNameByte b := by
    cases hb : r.head? with
    | none => rfl
    | some b => simp [(hr b hb).1]
  have hrun : ∀ b ∈ ([46] : Text), b == 46 := by simp
  obtain ⟨hdots, hstart⟩ := Text.span_append (p := (· == 46)) hrun hdot
  obtain ⟨htake, hdrop⟩ := Text.span_append h.continues hstop
  have hnested : nested? ([46] ++ (name ++ r)) =
      if Text.isBlank r then some (.nested 1 name, r) else none := by
    simp only [nested?, hdots, hstart, htake, hdrop, hname]
    cases r with
    | nil => rfl
    | cons b r =>
      have hb : b ≠ 58 := (hr b rfl).2
      simp [hb]
  rw [List.singleton_append] at hnested
  have htop : top? (46 :: (name ++ r)) = none := top?_of_not_name rfl
  rw [read?, htop, hnested, anonymous?_of_head (by simp [Direction.sign]),
    anonymous?_of_head (by simp [Direction.sign])]
  split <;> rfl

end LabelHead

namespace Directive

theorem eq_dot_of_lowerByte {b : UInt8} (h : Case.lowerByte b = 46) : b = 46 := by
  unfold Case.lowerByte at h
  split at h
  · rename_i hb
    simp only [isUpperLetter, Bool.and_eq_true, decide_eq_true_eq] at hb
    grind
  · exact h

theorem isNameStart_of_lowerByte {b : UInt8} (h : isLowerLetter (Case.lowerByte b)) :
    isNameStart b ∧ b < 0x80 := by
  unfold Case.lowerByte at h
  split at h
  · rename_i hb
    refine ⟨by rw [isNameStart, hb, Bool.or_true], ?_⟩
    simp only [isUpperLetter, Bool.and_eq_true, decide_eq_true_eq] at hb
    grind
  · refine ⟨by rw [isNameStart, h, Bool.or_true, Bool.true_or], ?_⟩
    simp only [isLowerLetter, Bool.and_eq_true, decide_eq_true_eq] at h
    grind

/-- A directive in any letter case is a dot and a name, and its small letters are its bytes in small
letters. -/
theorem exists_name {word : Text} (h : word.map Case.lowerByte ∈ names) :
    ∃ name, word = 46 :: name ∧ LabelHead.IsName name ∧ word.lower = word.map Case.lowerByte := by
  have hnames : (names.all fun n =>
      n.head? == some 46 && !n.tail.isEmpty && n.tail.all isLowerLetter) = true := rfl
  have hword := List.all_eq_true.1 hnames _ h
  cases word with
  | nil => cases hword
  | cons b name =>
    simp only [List.map_cons, List.head?_cons, List.tail_cons, Bool.and_eq_true, List.all_map,
      List.all_eq_true, Function.comp_apply, Option.some_beq_some] at hword
    obtain ⟨⟨hb, hne⟩, hletters⟩ := hword
    have hb : b = 46 := eq_dot_of_lowerByte (beq_iff_eq.1 hb)
    have hbytes := fun c hc => isNameStart_of_lowerByte (hletters c hc)
    subst hb
    refine ⟨name, rfl, ⟨?_, fun c hc => ?_⟩, ?_⟩
    · cases name with
      | nil => cases hne
      | cons c name => exact (hbytes c List.mem_cons_self).1
    · rw [isNameByte, (hbytes c hc).1, Bool.true_or]
    · have hascii : Text.isAscii (46 :: name) = true :=
        List.all_eq_true.2 (List.forall_mem_cons.2 ⟨rfl, fun c hc => decide_eq_true (hbytes c hc).2⟩)
      rw [Text.lower, if_pos hascii]

theorem read_eq_ok {labels : Labels} {name args : Text} {pos : Position} {st : Statement}
    (h : Directive.read labels name args pos = .ok st) : ∃ bytes refs, st = .data bytes refs pos := by
  unfold Directive.read at h
  split at h
  · obtain ⟨bytes, refs, -, rfl⟩ := values_eq_ok h
    exact ⟨bytes, refs, rfl⟩
  · simp only at h
    split at h
    · cases h
      exact ⟨_, [], rfl⟩
    · cases h

end Directive

namespace Statement

theorem read_dot (labels : Labels) (s : Text) (pos : Position) :
    Statement.read labels (46 :: s) pos =
      Directive.read labels (splitHead (46 :: s)).1.lower (splitHead (46 :: s)).2 pos := by
  have hdefine : Define.parts? (46 :: s) = none := rfl
  have hhead : (splitHead (46 :: s)).1.head? = some 46 := rfl
  rw [Statement.read, hdefine]
  simp only [hhead, if_true]

end Statement

/-- What is written behind a dot is data or an error at its place. -/
theorem Line.Item.statement_dot (labels : Labels) (s : Text) (pos : Position) :
    (∃ bytes refs, (written (46 :: s) pos).statement labels = .data bytes refs pos) ∨
      ∃ cause, (written (46 :: s) pos).statement labels = .unreadable cause false pos := by
  rw [statement]
  cases hread : Statement.read labels (46 :: s) pos with
  | error cause => exact .inr ⟨cause, rfl⟩
  | ok st =>
    rw [Statement.read_dot] at hread
    obtain ⟨bytes, refs, rfl⟩ := Directive.read_eq_ok hread
    exact .inl ⟨bytes, refs, rfl⟩

/-- A line with one item is handed out as this item. -/
theorem Reader.next_of_items {r : Reader} (hpending : r.pending = []) {line : Text}
    {lines : List Text} (hlines : r.lines = line :: lines) {item : Line.Item}
    (hitems : Line.items ⟨r.file, (r.line + 1 : Nat)⟩ r.attributes line =
      .ok ([item], r.attributes)) (labels : Labels) :
    r.next labels = some (item.statement labels, {r with lines, line := r.line + 1}) := by
  rw [Reader.next, hpending]
  simp only [hlines, Reader.advance, hitems]

section
variable {lead name rest : Text} (hlead : Text.Blank lead) (hname : LabelHead.IsName name)
  (hrest : ∀ b ∈ rest.head?, isNameByte b = false ∧ b ≠ 58)
include hlead hname hrest

/-- A dot and a name are a label of the line, or the start of what is written on it. -/
theorem Line.items_dot (pos : Position) (attributes : List Attribute) :
    ∃ args, Text.trim args = Line.code rest ∧ args <+: rest ∧
      Line.items pos attributes (lead ++ (46 :: name ++ rest)) =
        .ok ([if Line.code rest = [] then .ready (.localLabel 1 name)
          else .written (46 :: (name ++ args)) pos], attributes) := by
  obtain ⟨args, hcode, hargs, htrim⟩ :=
    code_word_append hlead hname.isWord_dot.1 hname.isWord_dot.2 rest
  refine ⟨args, htrim, hargs, ?_⟩
  have hdefine : Define.parts? (46 :: (name ++ args)) = none := rfl
  have hitems : items pos attributes (lead ++ (46 :: name ++ rest)) =
      .ok (labelled pos attributes (46 :: (name ++ args))) := by
    rw [items, hcode, List.cons_append]
    simp [hdefine]
  have hread := LabelHead.read?_dot hname fun b hb => hrest b (head?_of_isPrefix hargs hb)
  have hblank : Text.isBlank args = (Line.code rest).isEmpty := by rw [Text.isBlank, htrim]
  rw [hitems]
  by_cases hnil : Line.code rest = []
  · rw [hblank, hnil] at hread
    have hlabelled : labelled pos attributes (Text.trim args) = ([], attributes) := by
      rw [htrim, hnil, labelled_of_none rfl]
      rfl
    rw [labelled_of_some hread, if_pos hnil]
    simp only [LabelHead.waiting, hlabelled]
    rfl
  · rw [hblank, if_neg (by simpa using hnil)] at hread
    rw [labelled_of_none hread, if_neg hnil]
    rfl

end

namespace Reader

/-- A line that starts with the name of a data directive, in any letter case, gives one statement.
If there is code behind the name, this is data or an error at the line that is not fatal, as the
directive is read with this code as its arguments. If there is none, it is a local label with the
name of the directive. -/
theorem next_directive_iff {r : Reader} (hpending : r.pending = [])
    {lead word rest : Text} {lines : List Text} (hlines : r.lines = (lead ++ (word ++ rest)) :: lines)
    (hlead : Text.Blank lead) (hword : word.map Case.lowerByte ∈ Directive.names)
    (hrest : ∀ b ∈ rest.head?, isNameByte b = false ∧ b ≠ 58) (labels : Labels) :
    let pos : Position := ⟨r.file, (r.line + 1 : Nat)⟩
    ∃ st, r.next labels = some (st, {r with lines, line := r.line + 1}) ∧
      (st = .localLabel 1 word.tail ↔ Line.code rest = []) ∧
      (((∃ bytes refs, st = .data bytes refs pos) ∨ ∃ cause, st = .unreadable cause false pos) ↔
        Line.code rest ≠ []) ∧
      (rest.head?.any isSpaceOrTab → Line.code rest ≠ [] →
        let read := Directive.read labels (word.map Case.lowerByte) (Line.code rest) pos
        (∀ st', read = .ok st' → st = st') ∧
          ∀ cause, read = .error cause → st = .unreadable cause false pos) := by
  intro pos
  obtain ⟨name, rfl, hname, hlower⟩ := Directive.exists_name hword
  obtain ⟨args, htrim, hargs, hitems⟩ := Line.items_dot hlead hname hrest pos r.attributes
  refine ⟨_, next_of_items hpending hlines hitems labels, ?_⟩
  by_cases hnil : Line.code rest = []
  · rw [if_pos hnil]
    refine ⟨iff_of_true rfl hnil, iff_of_false ?_ (not_not.2 hnil), fun _ hne => absurd hnil hne⟩
    rintro (⟨bytes, refs, h⟩ | ⟨cause, h⟩) <;> cases h
  · rw [if_neg hnil]
    have hst := Line.Item.statement_dot labels (name ++ args) pos
    refine ⟨iff_of_false (fun h => ?_) hnil, iff_of_true hst hnil, fun hspace _ => ?_⟩
    · rw [h] at hst
      rcases hst with ⟨bytes, refs, h⟩ | ⟨cause, h⟩ <;> cases h
    · have hargs' : args.head?.all isSpaceOrTab := by
        cases args with
        | nil => rfl
        | cons b args => rwa [Line.head?_of_isPrefix hargs rfl] at hspace
      have hsplit := Statement.splitHead_append hname.isWord_dot.1 hargs'
      rw [List.cons_append, htrim] at hsplit
      have hread : Statement.read labels (46 :: (name ++ args)) pos =
          Directive.read labels ((46 :: name).map Case.lowerByte) (Line.code rest) pos := by
        simp only [Statement.read_dot, hsplit, hlower]
      constructor
      · intro st' hok
        simp only [Line.Item.statement, hread, hok]
      · intro cause herror
        simp only [Line.Item.statement, hread, herror]

/-- A directive in capital letters, with an argument and a comment. -/
theorem next_directive_iff_of_argument :
    let r : Reader := {file := ascii "t.s", lines := [ascii "\t.DW 1 ; x"], failure := none}
    r.pending = [] ∧ r.lines = [[9] ++ (ascii ".DW" ++ ascii " 1 ; x")] ∧ Text.Blank [9] ∧
      (ascii ".DW").map Case.lowerByte ∈ Directive.names ∧
      (∀ b ∈ (ascii " 1 ; x").head?, isNameByte b = false ∧ b ≠ 58) ∧
      ∃ st, r.next {} = some (st, {r with lines := [], line := 1}) ∧
        ((∃ bytes refs, st = .data bytes refs ⟨ascii "t.s", 1⟩) ∨
          ∃ cause, st = .unreadable cause false ⟨ascii "t.s", 1⟩) := by
  intro r
  have hlead : Text.Blank [9] := Text.blank_of_isGap rfl
  have hword : (ascii ".DW").map Case.lowerByte ∈ Directive.names := by decide
  have hrest : ∀ b ∈ (ascii " 1 ; x").head?, isNameByte b = false ∧ b ≠ 58 := by
    rintro b ⟨⟩
    exact ⟨rfl, by decide⟩
  have hcode : Line.code (ascii " 1 ; x") ≠ [] := by
    have hspace : Text.Blank [32] := Text.blank_of_isGap rfl
    have hone : Text.IsWord [49] := ⟨List.cons_ne_nil _ _, List.forall_mem_singleton.2 rfl⟩
    have hplain : Line.code (([32] ++ ([49] ++ [32])) ++ ascii "; x") =
        Text.trim ([32] ++ ([49] ++ [32])) := Line.code_plain (List.all_eq_true.1 rfl) (.inr rfl)
    rw [Text.trim_blank_append hspace, hone.trim_append] at hplain
    exact fun hnil => List.cons_ne_nil 49 _ (hplain.symm.trans hnil)
  have hlines : r.lines = ([9] ++ (ascii ".DW" ++ ascii " 1 ; x")) :: [] := rfl
  obtain ⟨st, hnext, -, hdata, -⟩ := next_directive_iff rfl hlines hlead hword hrest {}
  exact ⟨rfl, hlines, hlead, hword, hrest, st, hnext, hdata.2 hcode⟩

/-- A directive that stands alone is a local label. -/
theorem exists_next_directive_label :
    ∃ (r : Reader) (word : Text), r.pending = [] ∧ r.lines = [word] ∧
      word.map Case.lowerByte ∈ Directive.names ∧
      ∃ r', r.next {} = some (.localLabel 1 word.tail, r') := by
  let r : Reader := {file := ascii "t.s", lines := [ascii ".db"], failure := none}
  have hname : LabelHead.IsName (ascii "db") := ⟨rfl, List.all_eq_true.1 rfl⟩
  have hrest : ∀ b ∈ ([] : Text).head?, isNameByte b = false ∧ b ≠ 58 := by simp
  have hlines : r.lines = ascii ".db" :: [] := rfl
  obtain ⟨args, -, -, hitems⟩ := Line.items_dot .nil hname hrest ⟨r.file, (r.line + 1 : Nat)⟩
    r.attributes
  rw [if_pos Line.code_nil] at hitems
  exact ⟨r, ascii ".db", rfl, hlines, by decide, _, next_of_items rfl hlines hitems {}⟩

end Reader
end Assembler65816
