import Assembler65816.Proofs.Source.Erasure

/-!
# A line with one instruction

A mnemonic, perhaps a suffix after a dot, perhaps a space and an operand of one word: such a line is
no define and holds no label, and what it holds falls apart at the space.
-/
namespace Assembler65816

/-- What follows a mnemonic on its line: a suffix, and perhaps a space and an operand. -/
structure IsTail (suffix gap args : Text) : Prop where
  dot : suffix = [] ∨ ∃ r, suffix = 46 :: r
  visible : ∀ b ∈ suffix, Text.isInk b ∧ Line.isPlain b
  parted : gap = [] ∧ args = [] ∨ gap = [32] ∧ Text.IsWord args
  plain : ∀ b ∈ args, Line.isPlain b
  /-- It does not make the mnemonic the name of a define. -/
  sign : Define.afterSign? (suffix ++ (gap ++ args)) = none

namespace IsTail

variable {name suffix gap args : Text} (hname : LabelHead.IsName name)
  (h : IsTail suffix gap args)
include h

theorem head?_tail :
    (suffix ++ (gap ++ args)).head? = none ∨ (suffix ++ (gap ++ args)).head? = some 46 ∨
      (suffix ++ (gap ++ args)).head? = some 32 := by
  rcases h.dot with rfl | ⟨r, rfl⟩
  · rcases h.parted with ⟨rfl, rfl⟩ | ⟨rfl, -⟩
    · exact .inl rfl
    · exact .inr (.inr rfl)
  · exact .inr (.inl rfl)

include hname

theorem isWord_head : Text.IsWord (name ++ suffix) := by
  refine ⟨by simp [hname.ne_nil], fun b hb => ?_⟩
  rcases List.mem_append.1 hb with hb | hb
  · exact Text.isInk_of_isNameByte (hname.continues b hb)
  · exact (h.visible b hb).1

/-- The line is all code. -/
theorem code_eq : Line.code (name ++ (suffix ++ (gap ++ args))) =
    name ++ (suffix ++ (gap ++ args)) := by
  have hplain : ∀ b ∈ name ++ (suffix ++ (gap ++ args)), Line.isPlain b := by
    intro b hb
    simp only [List.mem_append] at hb
    rcases hb with hb | hb | hb | hb
    · have hlabel : LabelHead.isLabelByte b := by
        simp [LabelHead.isLabelByte, hname.continues b hb]
      exact (LabelHead.visible_of_isLabelByte hlabel).2
    · exact (h.visible b hb).2
    · rcases h.parted with ⟨rfl, -⟩ | ⟨rfl, -⟩
      · cases hb
      · rw [List.mem_singleton.1 hb]
        rfl
    · exact h.plain b hb
  have hend : Text.trimEnd (gap ++ args) = gap ++ args := by
    rcases h.parted with ⟨rfl, rfl⟩ | ⟨rfl, hargs⟩
    · exact Text.trimEnd_nil
    · have hlast : args.dropLast ++ [args.getLast hargs.ne_nil] = args :=
        List.dropLast_concat_getLast _
      have hink := hargs.ink _ (List.getLast_mem hargs.ne_nil)
      rw [← hlast, ← List.append_assoc, Text.trimEnd_append_ink hink, Text.trimEnd_nil]
  have hcode : Line.code (name ++ (suffix ++ (gap ++ args)) ++ []) = _ :=
    Line.code_plain hplain (.inl rfl)
  rw [List.append_nil] at hcode
  rw [hcode, ← List.append_assoc, (h.isWord_head hname).trim_append, hend]

theorem read?_eq_none : LabelHead.read? (name ++ (suffix ++ (gap ++ args))) = none := by
  have hstop : (suffix ++ (gap ++ args)).head?.all fun b => !isNameByte b := by
    rcases h.head?_tail with he | he | he <;> rw [he] <;> rfl
  obtain ⟨-, hdrop⟩ := Text.span_append hname.continues hstop
  have htop : LabelHead.top? (name ++ (suffix ++ (gap ++ args))) = none := by
    rw [LabelHead.top?, if_pos (hname.head?_append _), hdrop]
    split
    · rename_i hcolon
      rcases h.head?_tail with he | he | he <;> rw [hcolon] at he <;> simp at he
    · rfl
  have hhead : ∀ b : UInt8, isNameStart b = false →
      (name ++ (suffix ++ (gap ++ args))).head? ≠ some b := by
    intro b hb he
    have := hname.head?_append (suffix ++ (gap ++ args))
    rw [he] at this
    exact Bool.false_ne_true (hb.symm.trans this)
  rw [LabelHead.read?, htop, LabelHead.nested?_of_head (hhead 46 rfl),
    LabelHead.anonymous?_of_head (hhead 45 rfl), LabelHead.anonymous?_of_head (hhead 43 rfl)]
  rfl

theorem parts?_eq_none : Define.parts? (name ++ (suffix ++ (gap ++ args))) = none := by
  have hstop : (suffix ++ (gap ++ args)).head?.all fun b => !isNameByte b && b < 0x80 := by
    rcases h.head?_tail with he | he | he <;> rw [he] <;> rfl
  simp only [Define.parts?, Define.dropName_append hname.continues hstop, h.sign, ite_self]

/-- The line holds one statement and no label. -/
theorem items_eq (pos : Position) (attributes : List Attribute) :
    Line.items pos attributes (name ++ (suffix ++ (gap ++ args))) =
      .ok ([.written (name ++ (suffix ++ (gap ++ args))) pos], attributes) := by
  have hcode := h.code_eq hname
  obtain ⟨c, tail, hc⟩ := List.exists_cons_of_ne_nil hname.ne_nil
  have hstart : isNameStart c := by
    have := hname.starts
    rw [hc] at this
    exact this
  have hat : c ≠ 64 := by
    rintro rfl
    cases hstart
  have hcons : Line.code (name ++ (suffix ++ (gap ++ args))) =
      c :: (tail ++ (suffix ++ (gap ++ args))) := by
    rw [hcode, hc]
    rfl
  rw [Line.items_of_code _ _ _ hcons hat, hcode, h.parts?_eq_none hname,
    Line.labelled_of_none (h.read?_eq_none hname)]
  simp [hname.ne_nil]

/-- The statement is an instruction. -/
theorem splitHead_eq : Statement.splitHead (name ++ (suffix ++ (gap ++ args))) =
    (name ++ suffix, args) := by
  have hstop : (gap ++ args).head?.all isSpaceOrTab := by
    rcases h.parted with ⟨rfl, rfl⟩ | ⟨rfl, -⟩ <;> rfl
  have htrim : Text.trim (gap ++ args) = args := by
    rcases h.parted with ⟨rfl, rfl⟩ | ⟨rfl, hargs⟩
    · exact Text.trim_nil
    · rw [Text.trim_blank_append (Text.blank_of_isGap rfl), hargs.trim_eq]
  rw [← List.append_assoc, Statement.splitHead_append (h.isWord_head hname) hstop, htrim]

end IsTail

end Assembler65816
