import Mathlib.Data.List.Find
import Assembler65816.Proofs.Assembly.Kinds

/-!
# Inferred sizes

An operand whose size nothing settles gets the first size that the mnemonic can encode: a constant
tries the fields it fits from the narrowest up, a byte selector tries a byte first and everything
else a word. This looks at modes and opcodes only and comes before the instruction is assembled. The
main statement is that it is as good as trying: an instruction can be assembled without a size if
and only if it can be with one of the sizes declared, and it is then assembled as with the first of
these that works.
-/
namespace Assembler65816

/-- The sizes that can be declared beside a mnemonic, narrowest first. -/
def Size.declarable : List Size := [.byte, .word, .long]

theorem Size.plain_of_declarable {s : Size} (h : s ∈ declarable) :
    s ≠ .any ∧ s.isRelative = false ∧ 0 < s.width := by
  simp only [declarable, List.mem_cons, List.not_mem_nil, or_false] at h
  rcases h with rfl | rfl | rfl <;> decide

/-- An instruction can be assembled if it has an opcode, its operand has a value if it is made of
constants, and the value fits. -/
theorem Segment.isOk_assemble_iff {label : Text} {i : Instruction} :
    (assemble label i).isOk ↔ (∃ p, i.encoding? = some p) ∧ ¬i.Unfoldable ∧ ¬i.Misfit := by
  constructor
  · intro h
    obtain ⟨a, ha⟩ : ∃ a, i.assembled? = some a := by
      rw [← toOption_assemble label i]
      cases hassemble : assemble label i with
      | ok a => exact ⟨a, rfl⟩
      | error d =>
        rw [hassemble] at h
        cases h
    obtain ⟨size, mode, mode', b, field, hsize, hmode, hchoose, hfield, -, -, hfolds⟩ :=
      Instruction.assembled?_eq_some ha
    have hencoding := Instruction.encoding?_eq_some hsize hmode hchoose
    refine ⟨⟨_, hencoding⟩, ?_, ?_⟩
    · rintro ⟨-, himplicit, hempty, hconstant, hnone⟩
      have hsome := hfolds himplicit hempty hconstant
      rw [hnone] at hsome
      cases hsome
    · rintro ⟨mode'', b', v, hencoding', hwidth, hv, hadmits⟩
      cases hencoding.symm.trans hencoding'
      have hconstant : (Term.constant v).isConstant := rfl
      have hholds := (Mode.operandField_of_some hfield hv).2 hwidth _ hconstant
      unfold Size.Holds at hholds
      unfold Size.Admits at hadmits
      split at hholds
      · rename_i hrel
        rw [if_pos hrel] at hadmits
        exact hadmits hholds.2
      · rename_i hrel
        rw [if_neg hrel] at hadmits
        exact hadmits hholds
  · rintro ⟨⟨p, hp⟩, hfoldable, hfits⟩
    cases hassemble : assemble label i with
    | ok a => rfl
    | error d =>
      rcases assemble_eq_error hassemble with ⟨-, hnone, -⟩ | ⟨-, hunfoldable, -⟩ | ⟨-, hmisfit, -⟩
      · cases hp.symm.trans hnone
      · exact absurd hunfoldable hfoldable
      · exact absurd hmisfit hfits

/-- Beyond the size that is settled, assembling does not look at what was declared. -/
theorem Segment.assemble_declared (label : Text) {i : Instruction} {s size : Size}
    (h : settleSize i = some size) (hs : settleSize {i with size := s} = some size) :
    assemble label {i with size := s} = assemble label i := by
  unfold assemble
  simp only [h, hs]

theorem Form.size_of_mode? {form : Form} {size : Size} {mode : Mode}
    (h : form.mode? size = some mode) : mode.size = size := by
  unfold Form.mode? at h
  split at h <;> cases h <;> rfl

/-- A form with an expression takes its modes from the table. -/
theorem Operand.mode_eq_ok_iff {o : Operand} {size : Size} {mode : Mode}
    (hbare : o.form.isBare = false) :
    o.mode size = .ok mode ↔
      ∃ s, size.meet? o.form.size = some s ∧ ¬(o.expr.isEmpty = false ∧ s = .implicit) ∧
        o.form.mode? s = some mode := by
  have hform : ¬(o.form = .none ∨ o.form = .accumulator) := by
    rw [← Form.isBare_eq_true, hbare]
    exact Bool.false_ne_true
  rw [not_or] at hform
  unfold Operand.mode
  cases hmeet : size.meet? o.form.size with
  | none => simp
  | some s =>
    simp only [Option.some.injEq, exists_eq_left']
    split
    · rename_i hnone
      exact absurd hnone hform.1
    · rename_i haccumulator
      exact absurd haccumulator hform.2
    · split
      · rename_i himplicit
        simp_all
      · rename_i himplicit
        cases hmode : o.form.mode? s <;> simp_all

theorem Size.meet?_of_ne_any {s t u : Size} (hs : s ≠ .any) (h : s.meet? t = some u) : u = s := by
  simp only [meet?, if_neg hs] at h
  split at h
  · cases h
    rfl
  · cases h

theorem Operand.size_of_mode {o : Operand} {s : Size} {mode : Mode} (hbare : o.form.isBare = false)
    (hs : s ≠ .any) (h : o.mode s = .ok mode) : mode.size = s := by
  obtain ⟨t, hmeet, -, hmode⟩ := (mode_eq_ok_iff hbare).1 h
  rw [Form.size_of_mode? hmode, Size.meet?_of_ne_any hs hmeet]

/-- Without any size, a form that is always one byte wide keeps its mode and no other has one. -/
theorem Operand.mode_byte_of_any {o : Operand} {mode : Mode} (hbare : o.form.isBare = false)
    (h : o.mode .any = .ok mode) : o.mode .byte = .ok mode := by
  obtain ⟨s, hmeet, himplicit, hmode⟩ := (mode_eq_ok_iff hbare).1 h
  have hsize : s = o.form.size := by
    unfold Size.meet? at hmeet
    split at hmeet
    · rename_i hany
      cases hmeet
      rcases hany with hany | hany <;> exact hany.symm
    · rw [if_pos rfl] at hmeet
      cases hmeet
      rfl
  subst hsize
  rw [mode_eq_ok_iff hbare]
  cases hform : o.form <;> rw [hform] at hmode himplicit <;> first
    | exact ⟨_, rfl, himplicit, hmode⟩
    | cases hmode

theorem Operand.isEncodable_iff {o : Operand} {written : Text} {s : Size} :
    o.isEncodable written s ↔ ∃ mode b, o.mode s = .ok mode ∧ Opcode.find written mode = .ok b := by
  unfold isEncodable
  cases hmode : o.mode s with
  | error e => simp
  | ok mode => cases hfind : Opcode.find written mode <;> simp [Except.isOk, Except.toBool, hfind]

/-- A mode with an operand field has no stand-in. -/
theorem Opcode.choose_eq_ok_iff {written : Text} {mode : Mode} (hwidth : 0 < mode.width)
    {p : Mode × UInt8} :
    choose written mode = .ok p ↔ p.1 = mode ∧ find written mode = .ok p.2 := by
  constructor
  · intro h
    obtain ⟨hfind, hmode | ⟨rfl, -⟩⟩ := choose_eq_ok (b := p.2) h
    · exact ⟨hmode, hmode ▸ hfind⟩
    · cases hwidth
  · rintro ⟨rfl, hfind⟩
    rw [choose, hfind]

/-- The encoding of an instruction with an operand, once its size is settled. -/
theorem Instruction.encoding?_eq_some_iff {i : Instruction} {size : Size}
    (hbare : i.arg.form.isBare = false) (hsize : Segment.settleSize i = some size)
    {p : Mode × UInt8} :
    i.encoding? = some p ↔
      i.arg.mode size = .ok p.1 ∧ Opcode.find i.mnemonic p.1 = .ok p.2 := by
  have hwidth : ∀ mode, i.arg.mode size = .ok mode → 0 < mode.width := by
    intro mode hmode
    rcases Operand.mode_eq_ok hmode with ⟨hform, -⟩ | ⟨-, hpos, -⟩
    · cases hform.symm.trans hbare
    · exact hpos
  constructor
  · intro h
    obtain ⟨size', hsize', h⟩ := Option.bind_eq_some_iff.1 h
    cases hsize.symm.trans hsize'
    obtain ⟨mode, hmode, h⟩ := Option.bind_eq_some_iff.1 h
    rw [Except.toOption_eq_some] at hmode h
    obtain ⟨rfl, hfind⟩ := (Opcode.choose_eq_ok_iff (hwidth mode hmode)).1 h
    exact ⟨hmode, hfind⟩
  · rintro ⟨hmode, hfind⟩
    refine encoding?_eq_some hsize hmode ?_
    exact (Opcode.choose_eq_ok_iff (hwidth p.1 hmode)).2 ⟨rfl, hfind⟩

/-- Whether only a declaration can say how wide the operand is: there is one, and neither the
mnemonic nor the expression has a size. -/
structure Instruction.LeavesSize (i : Instruction) : Prop where
  known : (Mnemonic.ofText? i.mnemonic).isSome
  hint : sizeOfText i.mnemonic = .any
  form : i.arg.form ≠ .none ∧ i.arg.form ≠ .accumulator
  expr : i.arg.expr.size = .any

def Instruction.worksWith (label : Text) (i : Instruction) (s : Size) : Bool :=
  (Segment.assemble label {i with size := s}).isOk

namespace Instruction
variable {i : Instruction} (h : i.LeavesSize)
include h

theorem LeavesSize.isBare : i.arg.form.isBare = false := by
  rw [← Bool.not_eq_true, Form.isBare_eq_true, not_or]
  exact h.form

theorem LeavesSize.settleSize_declared {s : Size} (hs : s ≠ .any) :
    Segment.settleSize {i with size := s} = some s := by
  simp [Segment.settleSize, h.hint, h.expr, Size.meet?, hs]

theorem LeavesSize.settleSize_any :
    Segment.settleSize {i with size := .any} = some (i.arg.inferSize i.mnemonic) := by
  simp [Segment.settleSize, h.hint, h.expr, Size.meet?, h.form]

/-- A declared size works if the mnemonic has an opcode for it and the value fits. -/
theorem LeavesSize.worksWith_iff (label : Text) {s : Size} (hs : s ∈ Size.declarable) :
    i.worksWith label s ↔
      ¬i.Unfoldable ∧ i.arg.isEncodable i.mnemonic s ∧
        i.arg.expr.value?.all (Field.fits s.width) := by
  obtain ⟨hany, hplain, hwidth⟩ := Size.plain_of_declarable hs
  have hencoding := fun p => encoding?_eq_some_iff (i := {i with size := s}) (p := p) h.isBare
    (h.settleSize_declared hany)
  have hsize : ∀ mode, i.arg.mode s = .ok mode → mode.size = s :=
    fun mode => Operand.size_of_mode h.isBare hany
  have hadmits : ∀ v, s.Admits v ↔ Field.fits s.width v := by
    intro v
    rw [Size.Admits, hplain, if_neg Bool.false_ne_true]
  rw [worksWith, Segment.isOk_assemble_iff, Operand.isEncodable_iff]
  constructor
  · rintro ⟨⟨p, hp⟩, hfoldable, hfits⟩
    obtain ⟨hmode, hfind⟩ := (hencoding p).1 hp
    refine ⟨hfoldable, ⟨p.1, p.2, hmode, hfind⟩, ?_⟩
    cases hv : i.arg.expr.value? with
    | none => rfl
    | some v =>
      rw [Option.all_some, ← hadmits]
      by_contra hnot
      refine hfits ⟨p.1, p.2, v, hp, ?_, hv, ?_⟩
      · rwa [Mode.width, hsize _ hmode]
      · rwa [hsize _ hmode]
  · rintro ⟨hfoldable, ⟨mode, b, hmode, hfind⟩, hfits⟩
    refine ⟨⟨(mode, b), (hencoding _).2 ⟨hmode, hfind⟩⟩, hfoldable, ?_⟩
    rintro ⟨mode', b', v, hp, -, hv, hnot⟩
    rw [hsize _ ((hencoding _).1 hp).1, hadmits] at hnot
    rw [show i.arg.expr.value? = some v from hv, Option.all_some] at hfits
    exact hnot hfits

end Instruction

/-- The sizes in the order in which they are tried for an operand: the narrowest first for a
constant and for a byte selector, a word first for everything else. -/
def Operand.sizeOrder (o : Operand) : List Size :=
  if o.expr.value?.isSome || o.expr.term.isSelector then Size.declarable else [.word, .long, .byte]

theorem Operand.mem_sizeOrder {o : Operand} {s : Size} :
    s ∈ o.sizeOrder ↔ s ∈ Size.declarable := by
  unfold sizeOrder
  split
  · rfl
  · simp only [Size.declarable, List.mem_cons, List.not_mem_nil, or_false]
    rw [← or_assoc, or_comm]

/-- The candidates are the sizes that a value fits, in the order of trying. -/
theorem Operand.find?_candidates (o : Operand) (p : Size → Bool) :
    o.candidates.find? p =
      o.sizeOrder.find? fun s => o.expr.value?.all (Field.fits s.width) && p s := by
  unfold candidates sizeOrder
  cases hv : o.expr.value? with
  | some v =>
    rw [List.find?_filter, Option.isSome_some, Bool.true_or, if_pos rfl]
    refine List.find?_congr fun s _ => ?_
    rw [Option.all_some, Bool.decide_and, Bool.decide_eq_true, Bool.decide_eq_true]
  | none =>
    simp only [Option.all_none, Bool.true_and, Option.isSome_none, Bool.false_or]
    split <;> rfl

namespace Instruction
variable {i : Instruction} (h : i.LeavesSize) (label : Text)
include h

/-- The first size that works is the first candidate with an opcode. -/
theorem LeavesSize.find?_worksWith (hfoldable : ¬i.Unfoldable) :
    i.arg.sizeOrder.find? (i.worksWith label) =
      i.arg.candidates.find? (i.arg.isEncodable i.mnemonic) := by
  rw [Operand.find?_candidates]
  refine List.find?_congr fun s hs => ?_
  rw [Bool.eq_iff_iff, h.worksWith_iff label (Operand.mem_sizeOrder.1 hs), Bool.and_eq_true]
  simp only [hfoldable, not_false_iff, true_and]
  exact And.comm

theorem LeavesSize.assemble_any_of_some {s : Size}
    (hs : i.arg.sizeOrder.find? (i.worksWith label) = some s) :
    i.arg.inferSize i.mnemonic = s ∧
      Segment.assemble label {i with size := .any} = Segment.assemble label {i with size := s} := by
  have hmem := Operand.mem_sizeOrder.1 (List.mem_of_find?_eq_some hs)
  have hfoldable := ((h.worksWith_iff label hmem).1 (List.find?_some hs)).1
  have hinfer : i.arg.inferSize i.mnemonic = s := by
    rw [Operand.inferSize, ← h.find?_worksWith label hfoldable, hs]
    rfl
  refine ⟨hinfer, (Segment.assemble_declared label h.settleSize_any ?_).symm⟩
  rw [hinfer]
  exact h.settleSize_declared (Size.plain_of_declarable hmem).1

/-- Where no size works, none is no better: forms with a size of their own are the only ones that
have a mode without any, and it is their mode for a byte. -/
theorem LeavesSize.not_worksWith_any
    (hnone : i.arg.sizeOrder.find? (i.worksWith label) = none) : ¬i.worksWith label .any := by
  intro hany
  obtain ⟨⟨p, hp⟩, hfoldable, hfits⟩ := Segment.isOk_assemble_iff.1 hany
  have hinfer : i.arg.inferSize i.mnemonic = .any := by
    rw [Operand.inferSize, ← h.find?_worksWith label hfoldable, hnone]
    rfl
  have hsettled := h.settleSize_any
  rw [hinfer] at hsettled
  have hsame : encoding? {i with size := .byte} = encoding? {i with size := .any} := by
    obtain ⟨hmode, hfind⟩ :=
      (encoding?_eq_some_iff (i := {i with size := .any}) h.isBare hsettled).1 hp
    rw [hp]
    exact (encoding?_eq_some_iff (i := {i with size := .byte}) h.isBare
      (h.settleSize_declared (by decide))).2 ⟨Operand.mode_byte_of_any h.isBare hmode, hfind⟩
  have hbyte : i.worksWith label .byte := by
    refine Segment.isOk_assemble_iff.2 ⟨⟨p, hsame.trans hp⟩, hfoldable, ?_⟩
    rintro ⟨mode, b, v, hencoding, hrest⟩
    exact hfits ⟨mode, b, v, hsame.symm.trans hencoding, hrest⟩
  have hmem : Size.byte ∈ i.arg.sizeOrder := Operand.mem_sizeOrder.2 (by decide)
  exact absurd hbyte (List.find?_eq_none.1 hnone _ hmem)

end Instruction

/-- In a list that goes from narrow to wide, the first size that works is the narrowest. -/
theorem Size.width_le_of_find? {sizes : List Size} (h : sizes.Pairwise (·.width ≤ ·.width))
    {p : Size → Bool} {best : Size} (hbest : sizes.find? p = some best) :
    ∀ s ∈ sizes, p s → best.width ≤ s.width := by
  obtain ⟨-, before, after, rfl, hbefore⟩ := List.find?_eq_some_iff_append.1 hbest
  intro s hs hp
  rcases List.mem_append.1 hs with hs | hs
  · have hnot := hbefore s hs
    rw [hp] at hnot
    cases hnot
  rcases List.mem_cons.1 hs with rfl | hs
  · exact Nat.le_refl _
  · exact (List.pairwise_cons.1 (List.pairwise_append.1 h).2.1).1 s hs

/-- An instruction that leaves its size open can be assembled if and only if it can be with one of
the sizes declared. It is then assembled as with the inferred size declared, which is the narrowest
that works for a constant, the first that works from a byte up for a byte selector, and for any
other operand the first that works of word, long and byte. -/
theorem Instruction.assemble_inferred {i : Instruction} (h : i.LeavesSize) (label : Text) :
    let works := i.worksWith label
    let inferred := i.arg.inferSize i.mnemonic
    (works .any ↔ works .byte ∨ works .word ∨ works .long) ∧
      (works .any →
        Segment.assemble label {i with size := .any} =
          Segment.assemble label {i with size := inferred} ∧
        inferred ∈ [Size.byte, .word, .long] ∧
        (i.arg.expr.value?.isSome →
          ∀ s ∈ [Size.byte, .word, .long], works s → inferred.width ≤ s.width) ∧
        (i.arg.expr.value? = none → i.arg.expr.term.isSelector →
          [Size.byte, .word, .long].find? works = some inferred) ∧
        (i.arg.expr.value? = none → i.arg.expr.term.isSelector = false →
          [Size.word, .long, .byte].find? works = some inferred)) := by
  intro works inferred
  cases hfind : i.arg.sizeOrder.find? works with
  | none =>
    have hfails := h.not_worksWith_any label hfind
    have hnone : ∀ s ∈ Size.declarable, ¬works s := fun s hs =>
      List.find?_eq_none.1 hfind s (Operand.mem_sizeOrder.2 hs)
    refine ⟨⟨fun hany => absurd hany hfails, ?_⟩, fun hany => absurd hany hfails⟩
    rintro (hs | hs | hs)
    · exact absurd hs (hnone .byte (by decide))
    · exact absurd hs (hnone .word (by decide))
    · exact absurd hs (hnone .long (by decide))
  | some best =>
    obtain ⟨hinfer, hsame⟩ := h.assemble_any_of_some label hfind
    have hmem := Operand.mem_sizeOrder.1 (List.mem_of_find?_eq_some hfind)
    have hbest : works best := List.find?_some hfind
    have hany : works .any := (congrArg Except.isOk hsame).trans hbest
    have hinferred : inferred = best := hinfer
    rw [hinferred]
    refine ⟨⟨fun _ => ?_, fun _ => hany⟩, fun _ => ⟨hsame, hmem, ?_, ?_, ?_⟩⟩
    · simp only [Size.declarable, List.mem_cons, List.not_mem_nil, or_false] at hmem
      rcases hmem with rfl | rfl | rfl
      · exact .inl hbest
      · exact .inr (.inl hbest)
      · exact .inr (.inr hbest)
    · intro hvalue
      rw [Operand.sizeOrder, hvalue, Bool.true_or, if_pos rfl] at hfind
      exact Size.width_le_of_find? (by decide) hfind
    · intro hvalue hselector
      rw [Operand.sizeOrder, hselector, Bool.or_true, if_pos rfl] at hfind
      exact hfind
    · intro hvalue hselector
      rwa [Operand.sizeOrder, hvalue, hselector] at hfind

/-- A jump has no mode for a byte, so a small constant takes a word, as if it were declared. -/
theorem Instruction.assemble_inferred_jump :
    let i : Instruction := {mnemonic := ascii "jmp", arg := ⟨.plain, .ofTerm (.constant 0x12)⟩}
    let jump : Segment.Assembled := ⟨⟨[0x4C, 0x12, 0x00], true⟩, none⟩
    i.LeavesSize ∧ Segment.assemble [] {i with size := .word} = .ok jump ∧
      Segment.assemble [] {i with size := .any} = Segment.assemble [] {i with size := .word} ∧
      ∀ s ∈ [Size.byte, .word, .long], i.worksWith [] s → Size.word.width ≤ s.width := by
  intro i jump
  have hleaves : i.LeavesSize :=
    ⟨by decide +kernel, by decide +kernel, by decide, by decide⟩
  have hinferred : i.arg.inferSize i.mnemonic = .word := by decide +kernel
  have hword : Segment.assemble [] {i with size := .word} = .ok jump := by decide +kernel
  obtain ⟨hworks, hrest⟩ := assemble_inferred hleaves []
  rw [hinferred] at hrest
  obtain ⟨hsame, -, hleast, -⟩ := hrest (hworks.2 (.inr (.inl (congrArg Except.isOk hword))))
  exact ⟨hleaves, hword, hsame, hleast rfl⟩

end Assembler65816
