import Assembler65816.Proofs.Source.Line

/-!
# Erasing the clause of a line

The clause of a line is what can go wrong in it: an attribute, a define, or the statement after the
labels. It can be cut out of the line without touching anything else. What is left reads as the same
labels, and as many attributes wait after it, so that `Line.erase` takes away one item of the line
and nothing more.
-/
namespace Assembler65816

namespace LabelHead

/-- A label starts with a byte of its own kind. -/
theorem exists_head_of_read? {s : Text} {p : LabelHead × Text} (h : read? s = some p) :
    ∃ b tail, s = b :: tail ∧ isLabelByte b := by
  cases s with
  | nil => cases h
  | cons b tail =>
    refine ⟨b, tail, rfl, ?_⟩
    cases hb : isLabelByte b with
    | true => rfl
    | false =>
      simp only [isLabelByte, Bool.or_eq_false_iff, beq_eq_false_iff_ne] at hb
      obtain ⟨⟨⟨⟨hname, -⟩, h46⟩, h43⟩, h45⟩ := hb
      have hstart : isNameStart b = false := (Bool.or_eq_false_iff.1 hname).1
      have hnone : read? (b :: tail) = none := by
        rw [read?, top?_of_not_name (by simpa using hstart), nested?_of_head (by simpa using h46),
          anonymous?_of_head (by simpa [Direction.sign] using h45),
          anonymous?_of_head (by simpa [Direction.sign] using h43)]
        rfl
      cases hnone.symm.trans h

end LabelHead

namespace Define

/-- What starts with a label is no define. -/
theorem parts?_of_label {s : Text} {p : LabelHead × Text} (h : LabelHead.read? s = some p) :
    parts? s = none := by
  cases htop : LabelHead.top? s with
  | some q =>
    unfold LabelHead.top? at htop
    split at htop
    · rename_i hstart
      split at htop
      · rename_i r hdrop
        have hname := LabelHead.isName_takeWhile hstart
        have hs := List.takeWhile_append_dropWhile (p := isNameByte) (l := s)
        rw [hdrop] at hs
        have hrest : dropName s = 58 :: r := by
          conv => lhs; rw [← hs]
          exact dropName_append hname.continues rfl
        have hsign : afterSign? (58 :: r) = none := rfl
        simp only [parts?, hrest, hsign, ite_self]
      · cases htop
    · cases htop
  | none =>
    have hstart : startsName s = false := by
      obtain ⟨b, tail, rfl, hb⟩ := LabelHead.exists_head_of_read? h
      have hb' : b = 46 ∨ b = 45 ∨ b = 43 := by
        rw [LabelHead.read?, htop, Option.none_or] at h
        by_cases h46 : b = 46
        · exact .inl h46
        · rw [LabelHead.nested?_of_head (by simpa using h46), Option.none_or] at h
          by_cases h45 : b = 45
          · exact .inr (.inl h45)
          · rw [LabelHead.anonymous?_of_head (by simpa [Direction.sign] using h45),
              Option.none_or] at h
            by_cases h43 : b = 43
            · exact .inr (.inr h43)
            · rw [LabelHead.anonymous?_of_head (by simpa [Direction.sign] using h43)] at h
              cases h
      rcases hb' with rfl | rfl | rfl <;> rfl
    rw [parts?, hstart]
    rfl

end Define

namespace Line

def afterLabels (s : Text) : Text :=
  match _h : LabelHead.read? s with
  | some (_, r) => afterLabels (Text.trim r)
  | none => s
termination_by s.length
decreasing_by
  have := LabelHead.read?_length _h
  have := Text.length_trim r
  omega

section
variable {pos : Position} {attributes : List Attribute} {s : Text}

theorem labelled_of_some {head : LabelHead} {r : Text} (h : LabelHead.read? s = some (head, r)) :
    labelled pos attributes s =
      (labelled pos (head.waiting attributes) (Text.trim r)).map
        (.ready (head.statement attributes pos) :: ·) id := by
  rw [labelled]
  split
  · rename_i h'
    cases h.symm.trans h'
    rfl
  · rename_i h'
    cases h.symm.trans h'

theorem labelled_of_none (h : LabelHead.read? s = none) :
    labelled pos attributes s = (if s.isEmpty then [] else [.written s pos], attributes) := by
  rw [labelled]
  split
  · rename_i h'
    cases h.symm.trans h'
  · rfl

theorem afterLabels_of_some {head : LabelHead} {r : Text}
    (h : LabelHead.read? s = some (head, r)) : afterLabels s = afterLabels (Text.trim r) := by
  rw [afterLabels]
  split
  · rename_i h'
    cases h.symm.trans h'
    rfl
  · rename_i h'
    cases h.symm.trans h'

theorem afterLabels_of_none (h : LabelHead.read? s = none) : afterLabels s = s := by
  rw [afterLabels]
  split
  · rename_i h'
    cases h.symm.trans h'
  · rfl

/-- Without a statement there are labels only. -/
theorem labelled_of_afterLabels_nil (h : afterLabels s = []) :
    ∀ item ∈ (labelled pos attributes s).1, ∃ (head : LabelHead) (waiting : List Attribute),
      item = .ready (head.statement waiting pos) := by
  fun_induction afterLabels s generalizing attributes with
  | case1 s head r hr ih =>
    intro item hitem
    rw [labelled_of_some hr] at hitem
    rcases List.mem_cons.1 hitem with rfl | hitem
    · exact ⟨head, attributes, rfl⟩
    · exact ih h item hitem
  | case2 s hr =>
    subst h
    intro item hitem
    rw [labelled_of_none hr] at hitem
    cases hitem

end

/-- `front` holds the labels of `s` and nothing else: taken alone it gives the same labels, and the
same attributes wait after them. -/
structure Fronts (s front : Text) : Prop where
  append : s = front ++ afterLabels s
  plain : ∀ b ∈ front, isPlain b
  isLabel : Text.trim front = [] ∨ (LabelHead.read? (Text.trim front)).isSome
  only : afterLabels (Text.trim front) = []
  labelled : ∀ pos attributes, labelled pos attributes s =
    ((labelled pos attributes (Text.trim front)).1 ++ [.written (afterLabels s) pos],
      (labelled pos attributes (Text.trim front)).2)

theorem exists_fronts {s : Text} (hs : Text.trimEnd s = s) (hne : afterLabels s ≠ []) :
    ∃ front, Fronts s front := by
  induction s using afterLabels.induct with
  | case1 s head r hr ih =>
    have hafter := afterLabels_of_some hr
    rcases LabelHead.opens_of_read? hr with hblank | ⟨word, gap, hword, hopens⟩
    · -- A label without a colon ends the line.
      rw [hafter, List.isEmpty_iff.1 hblank] at hne
      exact absurd (afterLabels_of_none rfl) hne
    · have hend : Text.trimEnd r = r := by
        rw [hword, ← List.append_assoc] at hs
        exact Text.trimEnd_of_append hs
      obtain ⟨lead, hlead, hstart⟩ := Text.exists_trimStart r
      have htrim : Text.trim r = Text.trimStart r := by
        rw [hstart] at hend
        exact Text.trimEnd_of_append hend
      obtain ⟨front, hfront⟩ := ih (Text.trimEnd_trim r) (hafter ▸ hne)
      obtain ⟨t, hread, ht⟩ := hopens.read? (lead ++ front)
      rw [← hopens.isWord.trim_append] at hread
      rw [Text.trim_blank_append hlead] at ht
      have happend : s = word ++ (gap ++ (lead ++ (front ++ afterLabels s))) := by
        rw [hafter, ← hfront.append, htrim, ← hstart]
        exact hword
      refine ⟨word ++ (gap ++ (lead ++ front)), by simpa using happend, ?_,
        .inr (by rw [hread]; rfl), ?_, ?_⟩
      · intro b hb
        simp only [List.mem_append] at hb
        rcases hb with hb | hb | hb | hb
        · exact (LabelHead.visible_of_isLabelByte (hopens.bytes b hb)).2
        · exact isPlain_of_blank hopens.blank b hb
        · exact isPlain_of_blank hlead b hb
        · exact hfront.plain b hb
      · rw [afterLabels_of_some hread, ht]
        exact hfront.only
      · intro pos attributes
        rw [labelled_of_some hr, labelled_of_some hread, ht, hfront.labelled, hafter]
        rfl
  | case2 s hr =>
    have hnil : LabelHead.read? [] = none := rfl
    have hafter := afterLabels_of_none hr
    refine ⟨[], by rw [hafter]; rfl, fun b hb => (nomatch hb), .inl Text.trim_nil, ?_,
      fun pos attributes => ?_⟩
    · rw [Text.trim_nil, afterLabels_of_none hnil]
    · rw [hafter] at hne ⊢
      rw [Text.trim_nil, labelled_of_none hr, labelled_of_none hnil]
      simp [hne]

/-- What can go wrong in a line: an attribute or a define, which take up all of it, or the statement
after the labels. -/
def clause (line : Text) : Text :=
  match code line with
  | 64 :: s => 64 :: s
  | s => if (Define.parts? s).isSome then s else afterLabels s

def erase (line : Text) : Text :=
  let body := line.take (codeLength none 0 line)
  let stop := body.length - (Text.trimStart body).length + (code line).length
  line.take (stop - (clause line).length) ++ line.drop stop

/-- Of a line whose code ends in its clause, the code before the clause is left. -/
theorem code_erase {line front : Text} (h : code line = front ++ clause line)
    (hfront : ∀ b ∈ front, isPlain b) : code (erase line) = Text.trim front := by
  obtain ⟨body, comment, hline, hlen, hcomment⟩ := exists_comment none 0 line
  have hbody : line.take (codeLength none 0 line) = body := by
    rw [hlen, Nat.zero_add, hline, List.take_left]
  obtain ⟨lead, trail, hlead, htrail, hcut, hstart⟩ := Text.exists_trim body
  have hcode : Text.trim body = front ++ clause line := by rw [← h, code, hbody]
  rw [hcode] at hcut hstart
  have hstop : body.length - (Text.trimStart body).length = lead.length := by
    rw [hstart]
    conv => lhs; lhs; rw [hcut]
    simp only [List.length_append]
    omega
  have herase : erase line = (lead ++ (front ++ trail)) ++ comment := by
    have hwhole : line = (lead ++ front) ++ (clause line ++ (trail ++ comment)) := by
      conv => lhs; rw [hline, hcut]
      simp
    have htake : line.take (lead.length + (front ++ clause line).length - (clause line).length) =
        lead ++ front := by
      conv => lhs; rhs; rw [hwhole]
      refine List.take_left' ?_
      simp only [List.length_append]
      omega
    have hdrop : line.drop (lead.length + (front ++ clause line).length) = trail ++ comment := by
      conv => lhs; rhs; rw [hwhole, ← List.append_assoc]
      refine List.drop_left' ?_
      simp only [List.length_append]
      omega
    simp only [erase, hbody, hstop, h]
    rw [htake, hdrop]
    simp
  have hplain : ∀ b ∈ lead ++ (front ++ trail), isPlain b := by
    intro b hb
    simp only [List.mem_append] at hb
    rcases hb with hb | hb | hb
    · exact isPlain_of_blank hlead b hb
    · exact hfront b hb
    · exact isPlain_of_blank htrail b hb
  rw [herase, code_plain hplain hcomment, Text.trim_blank_append hlead,
    Text.trim_append_blank htrail]

/-- Nothing is added to the line. -/
theorem mem_of_mem_erase {line : Text} {b : UInt8} (h : b ∈ erase line) : b ∈ line := by
  rcases List.mem_append.1 h with h | h
  · exact List.mem_of_mem_take h
  · exact List.mem_of_mem_drop h

theorem length_erase (line : Text) : (erase line).length ≤ line.length := by
  simp only [erase, List.length_append, List.length_take, List.length_drop]
  omega

section
variable (pos : Position) (attributes : List Attribute) (line : Text)

theorem items_of_attribute {s : Text} (h : code line = 64 :: s) :
    items pos attributes line = match Attribute.read s with
      | .ok a => .ok ([], attributes ++ [a])
      | .error e => .error e := by
  rw [items, h]
  rfl

theorem items_of_code {c : UInt8} {s : Text} (h : code line = c :: s) (hc : c ≠ 64) :
    items pos attributes line =
      if (Define.parts? (code line)).isSome then .ok ([.written (code line) pos], attributes)
      else .ok (labelled pos attributes (code line)) := by
  unfold items
  split
  · rename_i hnil
    cases h.symm.trans hnil
  · rename_i hat
    cases h.symm.trans hat
    exact absurd rfl hc
  · rfl

/-- A line of labels. -/
theorem items_of_labels
    (h : code line = [] ∨ (LabelHead.read? (code line)).isSome) :
    items pos attributes line = .ok (labelled pos attributes (code line)) := by
  rcases h with h | h
  · have hnil : LabelHead.read? [] = none := rfl
    rw [items, h, labelled_of_none hnil]
    rfl
  · obtain ⟨p, hp⟩ := Option.isSome_iff_exists.1 h
    obtain ⟨b, tail, hb, hlabel⟩ := LabelHead.exists_head_of_read? hp
    have hat : b ≠ 64 := by
      rintro rfl
      cases hlabel
    rw [items_of_code _ _ _ hb hat, Define.parts?_of_label hp]
    rfl

/-- What a line can hold, and what is left of it without its clause. -/
inductive Erased : Prop
  /-- A malformed attribute. -/
  | malformed (e : SyntaxError) (hitems : items pos attributes line = .error e)
      (herase : items pos attributes (erase line) = .ok ([], attributes))
  /-- No statement but labels. -/
  | labels (labels : List Item) (waiting : List Attribute)
      (hitems : items pos attributes line = .ok (labels, waiting))
      (hlabels : ∀ item ∈ labels, ∃ (head : LabelHead) (waiting : List Attribute),
        item = .ready (head.statement waiting pos))
  /-- A statement, perhaps after labels. -/
  | statement (labels : List Item) (s : Text) (waiting : List Attribute)
      (hitems : items pos attributes line = .ok (labels ++ [.written s pos], waiting))
      (herase : items pos attributes (erase line) = .ok (labels, waiting))
      (hlabels : ∀ item ∈ labels, ∃ (head : LabelHead) (waiting : List Attribute),
        item = .ready (head.statement waiting pos))

theorem erased : Erased pos attributes line := by
  have htrim : Text.trimEnd (code line) = code line := Text.trimEnd_trim _
  -- A clause that is all of the code leaves an empty line.
  have hwhole (h : clause line = code line) :
      items pos attributes (erase line) = .ok ([], attributes) := by
    have hfront : code line = [] ++ clause line := h.symm
    have hcode : code (erase line) = [] :=
      (code_erase hfront (fun b hb => nomatch hb)).trans Text.trim_nil
    have hnil : LabelHead.read? [] = none := rfl
    rw [items_of_labels _ _ _ (.inl hcode), hcode, labelled_of_none hnil]
    rfl
  cases hcode : code line with
  | nil =>
    refine .labels [] attributes ?_ (fun item hitem => nomatch hitem)
    rw [items, hcode]
  | cons c s =>
    by_cases hat : c = 64
    · subst hat
      have hclause : clause line = code line := by
        rw [clause, hcode]
        rfl
      have hitems := items_of_attribute pos attributes line hcode
      cases hread : Attribute.read s with
      | ok a =>
        rw [hread] at hitems
        exact .labels [] _ hitems (fun item hitem => nomatch hitem)
      | error e =>
        rw [hread] at hitems
        exact .malformed e hitems (hwhole hclause)
    · have hitems := items_of_code pos attributes line hcode hat
      have hclause : clause line =
          if (Define.parts? (code line)).isSome then code line else afterLabels (code line) := by
        unfold clause
        split
        · rename_i h
          cases hcode.symm.trans h
          exact absurd rfl hat
        · rfl
      by_cases hdefine : (Define.parts? (code line)).isSome
      · rw [if_pos hdefine] at hitems hclause
        exact .statement [] _ _ hitems (hwhole hclause) (fun item hitem => nomatch hitem)
      · rw [if_neg hdefine] at hitems hclause
        by_cases hnil : afterLabels (code line) = []
        · exact .labels _ _ hitems (labelled_of_afterLabels_nil hnil)
        · obtain ⟨front, hfront⟩ := exists_fronts htrim hnil
          have herase : code (erase line) = Text.trim front :=
            code_erase (by rw [hclause]; exact hfront.append) hfront.plain
          rw [hfront.labelled] at hitems
          refine .statement _ _ _ hitems ?_ (labelled_of_afterLabels_nil hfront.only)
          rw [items_of_labels _ _ _ (by rw [herase]; exact hfront.isLabel), herase]

end
end Line
end Assembler65816
