import Assembler65816.Proofs.Source.Items
import Assembler65816.Proofs.Source.Line

/-!
# Lines of a text

Reading lines is the same as splitting the text at its line feeds, as long as no line is too long: a
carriage return at the end of a line means nothing, and an empty last line, which the reader does
not see, would not hold anything. So a text can be taken apart at its line feeds, changed line by
line and put together again, and what the reader sees changes line by line.
-/
namespace Assembler65816

/-- The pieces of a split are free of what was split at. -/
theorem notMem_of_mem_splitOn {c : UInt8} {s piece : Text} (h : piece ∈ s.splitOn c) :
    c ∉ piece := by
  induction s generalizing piece with
  | nil =>
    rw [List.splitOn_nil, List.mem_singleton] at h
    simp [h]
  | cons b s ih =>
    rw [List.splitOn, List.splitOnP_cons_eq_if_modifyHead] at h
    split at h
    · rcases List.mem_cons.1 h with rfl | h
      · exact List.not_mem_nil
      · exact ih h
    · rename_i hb
      obtain ⟨first, others, hs⟩ := List.exists_cons_of_ne_nil (List.splitOn_ne_nil c s)
      have hs' : List.splitOnP (· == c) s = first :: others := hs
      rw [hs', List.modifyHead_cons] at h
      rcases List.mem_cons.1 h with rfl | h
      · have hfirst : c ∉ first := ih (by rw [hs]; exact List.mem_cons_self)
        rw [List.mem_cons, not_or]
        exact ⟨fun he => hb (by simp [he]), hfirst⟩
      · exact ih (by rw [hs]; exact List.mem_cons_of_mem _ h)

namespace Lines

section
variable {failure : Option Text} {l : Text} (hlf : 10 ∉ l)
include hlf

theorem takeWhile_line {t : Text} (ht : t.head? = none ∨ t.head? = some 10) :
    (l ++ t).takeWhile (· != 10) = l ∧ (l ++ t).dropWhile (· != 10) = t := by
  have hl : ∀ b ∈ l, (b != 10) = true := by
    intro b hb
    have : b ≠ 10 := fun he => hlf (he ▸ hb)
    simpa using this
  rw [List.takeWhile_append_of_pos hl, List.dropWhile_append_of_pos hl]
  cases t with
  | nil => simp
  | cons b t =>
    have hb : b = 10 := by simpa using ht
    simp [hb]

/-- A line that is closed by a line feed. -/
theorem ofText_line (hlen : l.length < tooLong) (t : Text) :
    ofText failure (l ++ 10 :: t) =
      {ofText failure t with lines := dropReturn l :: (ofText failure t).lines} := by
  obtain ⟨htake, hdrop⟩ := takeWhile_line hlf (t := 10 :: t) (.inr rfl)
  have hne : l ++ 10 :: t ≠ [] := by simp
  obtain ⟨b, s, hs⟩ := List.exists_cons_of_ne_nil hne
  rw [hs] at htake hdrop ⊢
  rw [ofText]
  simp only [htake]
  rw [if_neg (Nat.not_le.2 hlen)]
  split
  · rename_i h
    cases hdrop.symm.trans h
  · rename_i h
    cases hdrop.symm.trans h
    rfl

/-- A last line that is not closed. -/
theorem ofText_last (hne : l ≠ []) (hlen : l.length < tooLong) :
    ofText failure l = {lines := [dropReturn l], failure} := by
  obtain ⟨htake, hdrop⟩ := takeWhile_line hlf (t := []) (.inl rfl)
  rw [List.append_nil] at htake hdrop
  obtain ⟨b, s, hs⟩ := List.exists_cons_of_ne_nil hne
  rw [hs] at htake hdrop hlen ⊢
  rw [ofText]
  simp only [htake]
  rw [if_neg (Nat.not_le.2 hlen)]
  split
  · rfl
  · rename_i h
    cases hdrop.symm.trans h

theorem failure_of_tooLong (hlen : tooLong ≤ l.length) {t : Text}
    (ht : t.head? = none ∨ t.head? = some 10) : (ofText failure (l ++ t)).failure ≠ none := by
  obtain ⟨htake, -⟩ := takeWhile_line hlf ht
  have hne : l ++ t ≠ [] := by
    intro h
    rw [(List.append_eq_nil_iff.1 h).1] at hlen
    cases hlen
  obtain ⟨b, s, hs⟩ := List.exists_cons_of_ne_nil hne
  rw [hs] at htake ⊢
  rw [ofText]
  simp only [htake]
  rw [if_pos hlen]
  simp

end

theorem ofText_nil (failure : Option Text) : ofText failure [] = {failure} := by
  rw [ofText]

/-- All the lines can be read if none of them is too long. -/
theorem failure_eq_none_iff {s : Text} :
    (ofText none s).failure = none ↔ ∀ l ∈ s.splitOn 10, l.length < tooLong := by
  have hpieces : ∀ raw : List Text, raw ≠ [] → (∀ l ∈ raw, 10 ∉ l) →
      ((ofText none ([10].intercalate raw)).failure = none ↔ ∀ l ∈ raw, l.length < tooLong) := by
    intro raw hne hlf
    induction raw with
    | nil => exact absurd rfl hne
    | cons l raw ih =>
      have hl := hlf l List.mem_cons_self
      by_cases hlen : l.length < tooLong
      · cases raw with
        | nil =>
          rw [List.intercalate_singleton]
          by_cases hnil : l = []
          · subst hnil
            simpa [ofText_nil] using hlen
          · simp [ofText_last hl hnil hlen, hlen]
        | cons l' raw =>
          have := ih (by simp) fun k hk => hlf k (List.mem_cons_of_mem _ hk)
          rw [List.intercalate_cons_cons, List.append_assoc, List.singleton_append,
            ofText_line hl hlen, this]
          simp [hlen]
      · have hlong := Nat.not_lt.1 hlen
        have hfail : (ofText none ([10].intercalate (l :: raw))).failure ≠ none := by
          cases raw with
          | nil =>
            have hlast : (ofText none (l ++ [])).failure ≠ none :=
              failure_of_tooLong hl hlong (.inl rfl)
            simpa using hlast
          | cons l' raw =>
            rw [List.intercalate_cons_cons, List.append_assoc, List.singleton_append]
            exact failure_of_tooLong hl hlong (.inr rfl)
        simp [hfail, hlen]
  have := hpieces (s.splitOn 10) (List.splitOn_ne_nil 10 s) fun _ => notMem_of_mem_splitOn
  rwa [List.intercalate_splitOn] at this

/-- After complete lines, a text is read as it is on its own. -/
theorem lines_append {p : Text} (hp : p = [] ∨ p.getLast? = some 10) {q : Text}
    (h : (ofText none (p ++ q)).failure = none) :
    (ofText none (p ++ q)).lines = (ofText none p).lines ++ (ofText none q).lines ∧
      (ofText none p).failure = none ∧ (ofText none q).failure = none := by
  generalize hn : p.length = n
  induction n using Nat.strongRecOn generalizing p with
  | ind n ih =>
    by_cases hnil : p = []
    · subst hnil
      rw [List.nil_append] at h
      exact ⟨by simp [ofText_nil], by simp [ofText_nil], h⟩
    obtain ⟨l, p', rfl, hlf⟩ :=
      List.eq_append_cons_of_mem (List.mem_of_getLast? (hp.resolve_left hnil))
    have hlast : p' = [] ∨ p'.getLast? = some 10 := by
      cases p' with
      | nil => exact .inl rfl
      | cons b t => simpa using hp.resolve_left hnil
    rw [List.append_assoc, List.cons_append] at h ⊢
    have hlen : l.length < tooLong :=
      Nat.not_le.1 fun hlong => failure_of_tooLong hlf hlong (.inr rfl) h
    rw [ofText_line hlf hlen] at h
    have hshorter : p'.length < n := by
      rw [← hn, List.length_append, List.length_cons]
      omega
    obtain ⟨hlines, hfirst, hrest⟩ := ih _ hshorter hlast h rfl
    simp only [ofText_line hlf hlen, hlines, List.cons_append]
    exact ⟨trivial, hfirst, hrest⟩

end Lines

namespace Reader

theorem itemsFrom_intercalate (file : Text) (n : Nat) (attributes : List Attribute)
    {raw : List Text} (hne : raw ≠ []) (hlf : ∀ l ∈ raw, 10 ∉ l)
    (hlen : ∀ l ∈ raw, l.length < Lines.tooLong) :
    itemsFrom file none n attributes (Lines.ofText none ([10].intercalate raw)).lines =
      itemsFrom file none n attributes raw := by
  induction raw generalizing n attributes with
  | nil => exact absurd rfl hne
  | cons l raw ih =>
    have hl := hlf l List.mem_cons_self
    have hll := hlen l List.mem_cons_self
    cases raw with
    | nil =>
      rw [List.intercalate_singleton]
      by_cases hnil : l = []
      · subst hnil
        simp [Lines.ofText_nil, itemsFrom, Line.items_nil]
      · rw [Lines.ofText_last hl hnil hll]
        simp only [itemsFrom, Line.items_dropReturn]
    | cons l' raw =>
      have ih := fun n attributes => ih n attributes (by simp)
        (fun k hk => hlf k (List.mem_cons_of_mem _ hk))
        (fun k hk => hlen k (List.mem_cons_of_mem _ hk))
      rw [List.intercalate_cons_cons, List.append_assoc, List.singleton_append,
        Lines.ofText_line hl hll]
      simp only [itemsFrom, Line.items_dropReturn, ih]

/-- The items of a text are those of its pieces between line feeds. -/
theorem items_ofText (file : Text) {s : Text} (h : (Lines.ofText none s).failure = none) :
    (Reader.ofText file s none).items = itemsFrom file none 0 [] (s.splitOn 10) := by
  have := itemsFrom_intercalate file 0 [] (List.splitOn_ne_nil 10 s)
    (fun _ => notMem_of_mem_splitOn) (Lines.failure_eq_none_iff.1 h)
  rw [List.intercalate_splitOn] at this
  rw [← this]
  simp [items, ofText, h]

/-- The items of a text of one line, however the line ends. -/
theorem items_single (file : Text) {line ending : Text} (hending : ending ∈ [[], [10], [13, 10]])
    (hlf : 10 ∉ line) (hlen : line.length + 1 < Lines.tooLong) :
    (Reader.ofText file (line ++ ending) none).items = (handed ⟨file, 1⟩ [] line).1 := by
  have hreturn : 10 ∉ line ++ [13] := by simpa using hlf
  have hitems : ∀ l : Text, Line.items ⟨file, 1⟩ [] l = Line.items ⟨file, 1⟩ [] line →
      itemsFrom file none 0 [] [l, []] = (handed ⟨file, 1⟩ [] line).1 := by
    intro l hl
    rw [itemsFrom_cons, itemsFrom_cons]
    simp only [handed, Nat.zero_add, Int.cast_ofNat_Int, hl, Line.items_nil]
    exact List.append_nil _
  have hread : ∀ l : Text, 10 ∉ l → l.length < Lines.tooLong →
      Line.items ⟨file, 1⟩ [] l = Line.items ⟨file, 1⟩ [] line →
      (Reader.ofText file (l ++ [10]) none).items = (handed ⟨file, 1⟩ [] line).1 := by
    intro l hl hshort heq
    have hsplit : (l ++ [10]).splitOn 10 = [l, []] := by
      rw [List.splitOn_append_cons_self, List.splitOn_eq_singleton hl]
      rfl
    rw [items_ofText, hsplit, hitems l heq]
    rw [Lines.failure_eq_none_iff, hsplit]
    simpa using ⟨hshort, Nat.lt_of_le_of_lt (Nat.zero_le _) hshort⟩
  simp only [List.mem_cons, List.not_mem_nil, or_false] at hending
  rcases hending with rfl | rfl | rfl
  · have hsplit : line.splitOn 10 = [line] := List.splitOn_eq_singleton hlf
    rw [List.append_nil, items_ofText, hsplit, itemsFrom_cons]
    · exact List.append_nil _
    · rw [Lines.failure_eq_none_iff, hsplit]
      simpa using Nat.lt_of_succ_lt hlen
  · exact hread line hlf (Nat.lt_of_succ_lt hlen) rfl
  · have heq : Line.items ⟨file, 1⟩ [] (line ++ [13]) = Line.items ⟨file, 1⟩ [] line := by
      rw [Line.items, Line.code_append_return, Line.items]
    have := hread (line ++ [13]) hreturn (by simpa using hlen) heq
    rwa [List.append_assoc] at this

end Reader
end Assembler65816
