import Assembler65816.Text.Basic

/-!
# Blank characters

The characters with the White_Space property, as the bytes that write them. A lead byte never occurs
inside another character, so looking for these forms in the bytes finds exactly the blank
characters, from either end, whatever stray bytes stand around them.
-/
namespace Assembler65816.Text

/-- Every White_Space character: the ASCII ones, U+0085, U+00A0, U+1680, U+2000 to U+200A, U+2028,
U+2029, U+202F, U+205F and U+3000. -/
def blankForms : List Text :=
  [[0x20], [0x09], [0x0A], [0x0B], [0x0C], [0x0D], [0xC2, 0x85], [0xC2, 0xA0], [0xE1, 0x9A, 0x80],
   [0xE2, 0x80, 0x80], [0xE2, 0x80, 0x81], [0xE2, 0x80, 0x82], [0xE2, 0x80, 0x83],
   [0xE2, 0x80, 0x84], [0xE2, 0x80, 0x85], [0xE2, 0x80, 0x86], [0xE2, 0x80, 0x87],
   [0xE2, 0x80, 0x88], [0xE2, 0x80, 0x89], [0xE2, 0x80, 0x8A], [0xE2, 0x80, 0xA8],
   [0xE2, 0x80, 0xA9], [0xE2, 0x80, 0xAF], [0xE2, 0x81, 0x9F], [0xE3, 0x80, 0x80]]

/-- The text after one of `forms`, if it starts with one. -/
def afterForm? (forms : List Text) (s : Text) : Option Text :=
  forms.findSome? (after? · s)

/-- Forms that take up room. -/
def Solid (forms : List Text) : Prop := ∀ f ∈ forms, f ≠ []

theorem blankForms_solid : Solid blankForms := by
  unfold Solid
  decide

theorem Solid.reversed {forms : List Text} (h : Solid forms) : Solid (forms.map List.reverse) := by
  intro f hf
  obtain ⟨g, hg, rfl⟩ := List.mem_map.1 hf
  simpa using h g hg

theorem Solid.afterForm?_length {forms : List Text} (h : Solid forms) {s r : Text}
    (hs : afterForm? forms s = some r) : r.length < s.length := by
  obtain ⟨f, hf, hr⟩ := List.exists_of_findSome?_eq_some hs
  rw [after?_eq_some] at hr
  have := List.length_pos_iff.2 (h f hf)
  subst hr
  simp only [List.length_append]
  omega

/-- Drops every one of `forms` that `s` starts with. -/
def dropForms (forms : List Text) (h : Solid forms) (s : Text) : Text :=
  match _hs : afterForm? forms s with
  | some r => dropForms forms h r
  | none => s
termination_by s.length
decreasing_by exact h.afterForm?_length _hs

theorem dropForms_length {forms : List Text} (h : Solid forms) (s : Text) :
    (dropForms forms h s).length ≤ s.length := by
  fun_induction dropForms forms h s with
  | case1 s r hs ih => exact Nat.le_trans ih (Nat.le_of_lt (h.afterForm?_length hs))
  | case2 => exact Nat.le_refl _

def trimStart (s : Text) : Text := dropForms blankForms blankForms_solid s

def trimEnd (s : Text) : Text :=
  (dropForms (blankForms.map List.reverse) blankForms_solid.reversed s.reverse).reverse

/-- The text without blanks at either end. -/
def trim (s : Text) : Text := trimEnd (trimStart s)

theorem length_trim (s : Text) : (trim s).length ≤ s.length := by
  have h₁ := dropForms_length blankForms_solid s
  have h₂ := dropForms_length blankForms_solid.reversed (trimStart s).reverse
  simp only [trim, trimEnd, trimStart, List.length_reverse] at *
  omega

/-- Whether nothing but blanks is there. -/
def isBlank (s : Text) : Bool := (trim s).isEmpty

/-- Cuts at blanks; `word` holds the bytes of the current word, last first. -/
def wordsFrom (word : Text) (s : Text) : List Text :=
  match s with
  | [] => if word.isEmpty then [] else [word.reverse]
  | b :: r =>
    match _hs : afterForm? blankForms (b :: r) with
    | some t => if word.isEmpty then wordsFrom [] t else word.reverse :: wordsFrom [] t
    | none => wordsFrom (b :: word) r
termination_by s.length
decreasing_by
  · exact blankForms_solid.afterForm?_length _hs
  · exact blankForms_solid.afterForm?_length _hs
  · simp

/-- The maximal runs without blanks. -/
def words (s : Text) : List Text := wordsFrom [] s

end Assembler65816.Text
