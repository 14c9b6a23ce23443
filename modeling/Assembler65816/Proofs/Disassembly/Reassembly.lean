import Assembler65816.Proofs.Assembly.Sections
import Assembler65816.Proofs.Disassembly.RoundTrip
import Assembler65816.Proofs.Expression.Rendering
import Assembler65816.Proofs.Operand.Shapes
import Assembler65816.Proofs.Source.Instruction
import Assembler65816.Proofs.Source.Lines
import Assembler65816.Proofs.Text.Numeral

/-!
# Disassembly text assembles

The text of a decoded instruction does not say how wide its operand is, so a size suffix is put
after the mnemonic. With it the text reads as the instruction it was decoded from: the mnemonic has
that size in the mode, the frame around the operand is read as the form of the mode, and the numeral
denotes the operand. A branch is left out, since its text names a target and not a displacement.

Main statement: `assemble_sizedText`.
-/
namespace Assembler65816

namespace Field

theorem littleEndian_read (bs : List UInt8) : littleEndian bs.length (read bs) = bs := by
  induction bs with
  | nil => rfl
  | cons b bs ih =>
    have hb := b.toNat_lt
    have hlow : UInt8.ofNat (b.toNat + 256 * read bs) = b := by
      refine UInt8.toNat_inj.1 ?_
      rw [UInt8.toNat_ofNat']
      omega
    have hhigh : (b.toNat + 256 * read bs) / 256 = read bs := by omega
    rw [List.length_cons, read, littleEndian, hlow, hhigh, ih]

theorem read_lt (bs : List UInt8) : read bs < 256 ^ bs.length := by
  induction bs with
  | nil => decide
  | cons b bs ih =>
    have hb := b.toNat_lt
    rw [read, List.length_cons, Nat.pow_succ]
    omega

/-- A field that was read is written back. -/
theorem plain_read {size : Size} {bs : List UInt8} (hlength : bs.length = size.width)
    (hwidth : 0 < size.width) (hrelative : size.isRelative = false) :
    plain size (Int64.ofNat (read bs)) = .ok bs := by
  have hle := size.width_le
  have hlt := read_lt bs
  rw [hlength] at hlt
  have hbound : read bs < 2 ^ 24 := Nat.lt_of_lt_of_le hlt
    (Nat.pow_le_pow_right (by decide) hle : 256 ^ size.width ≤ 256 ^ 3)
  have hint : (Int64.ofNat (read bs)).toInt = read bs := Int64.toInt_ofNat_of_lt (by omega)
  have hword : (Int64.ofNat (read bs)).toUInt64.toNat = read bs := by
    have : (Int64.ofNat (read bs)).toUInt64 = UInt64.ofNat (read bs) := rfl
    rw [this, UInt64.toNat_ofNat_of_lt' (by simp [UInt64.size]; omega)]
  have hfits : fits size.width (Int64.ofNat (read bs)) := by
    have hhigh : read bs < Nat.pow 2 (8 * size.width) :=
      Nat.lt_of_lt_of_eq hlt (Nat.pow_mul 2 8 size.width).symm
    rw [fits, hint]
    generalize Nat.pow 2 (8 * size.width) = high at hhigh ⊢
    generalize Nat.pow 2 (8 * size.width - 1) = low
    simp only [hwidth, hle, decide_true, Bool.true_and, Bool.and_eq_true, decide_eq_true_eq]
    omega
  rw [plain, if_neg (by simp [hrelative]; omega), if_pos hfits, bytes, hword, ← hlength,
    littleEndian_read]

end Field

def Size.suffix : Size → Text
  | byte => ascii ".b"
  | word => ascii ".w"
  | long => ascii ".l"
  | _ => []

def Size.declared : Size → Size
  | byte => .byte
  | word => .word
  | long => .long
  | _ => .any

def Mode.form : Mode → Form
  | implied => .none
  | accumulator => .accumulator
  | immediate8 | immediate16 => .immediate
  | direct | absolute | long | relative8 | relative16 | unlisted => .plain
  | directX | absoluteX | longX => .x
  | directY | absoluteY => .y
  | directIndirect | absoluteIndirect => .indirect
  | directXIndirect | absoluteXIndirect => .xIndirect
  | directIndirectY => .indirectY
  | directIndirectLong | absoluteIndirectLong => .indirectLong
  | directIndirectLongY => .indirectLongY
  | stackRelative => .stack
  | stackRelativeIndirectY => .stackIndirectY

theorem Mode.frame_form (mode : Mode) : mode.form.frame = mode.frame := by
  cases mode <;> rfl

namespace Mnemonic

/-- A mnemonic that has a mode takes the size of the mode, if that is declared. -/
structure Takes (m : Mnemonic) (mode : Mode) (b : UInt8) : Prop where
  opcode : m.opcode? mode = some b
  size : mode.width ≠ 0 → m.size.meet? mode.size.declared = some mode.size
  implicit : mode.width = 0 → m.size = .any ∨ m.size = .implicit
  listed : mode ≠ .unlisted

theorem takes_of_mem {m : Mnemonic} {mode : Mode} {b : UInt8} (h : (mode, b) ∈ m.encodings)
    (hrelative : mode.size.isRelative = false) : m.Takes mode b := by
  have htable : ∀ m ∈ all, ∀ p ∈ m.encodings, p.1.size.isRelative = false →
      m.opcode? p.1 = some p.2 ∧
        (p.1.width ≠ 0 → m.size.meet? p.1.size.declared = some p.1.size) ∧
        (p.1.width = 0 → m.size = .any ∨ m.size = .implicit) ∧ p.1 ≠ .unlisted := by
    decide +kernel
  obtain ⟨hopcode, hsize, himplicit, hlisted⟩ := htable m m.mem_all (mode, b) h hrelative
  exact ⟨hopcode, hsize, himplicit, hlisted⟩

/-- A mnemonic with a narrow immediate operand has a wide one as well, where registers can be wide.
-/
theorem wide_mem_encodings {m : Mnemonic} {b : UInt8} {w : Widths}
    (h : (.immediate8, b) ∈ m.encodings) (hwide : w.isWide m) :
    (.immediate16, b) ∈ m.encodings := by
  have htable : ∀ m ∈ all, ∀ p ∈ m.encodings, p.1 = .immediate8 →
      (m = .rep ∨ m = .sep ∨ m = .cop ∨ m = .wdm ∨ m = .brk) ∨
        (.immediate16, p.2) ∈ m.encodings := by
    decide +kernel
  rcases htable m m.mem_all _ h rfl with hnarrow | hmem
  · rcases hnarrow with rfl | rfl | rfl | rfl | rfl <;> cases hwide
  · exact hmem

end Mnemonic

/-- A known instruction stands in the table, and its operand was cut off the code. -/
theorem takes_of_decode {code : List UInt8} {offset : Int64} {w : Widths} {d : Decoded}
    {m : Mnemonic} {mode : Mode} (h : decode code offset w = .ok d)
    (hknown : d.meaning = some (m, mode)) (hrelative : mode.size.isRelative = false) :
    m.Takes mode d.opcode ∧ d.operand.length = mode.width ∧
      code.take d.size = d.opcode :: d.operand := by
  unfold decode at h
  split at h
  · cases h
  · rename_i b rest
    split at h
    · cases h
      cases hknown
    · rename_i e he
      simp only at h
      split at h
      · cases h
      · rename_i hlength
        cases h
        cases hknown
        have hlength : (rest.take (e.modeUnder w).width).length = (e.modeUnder w).width := by
          have := List.length_take_le (e.modeUnder w).width rest
          omega
        have hentry : e ∈ Opcode.table := List.mem_of_find?_eq_some he
        have hb : e.opcode = b := by simpa using List.find?_some he
        have hmem : (e.mode, b) ∈ e.mnemonic.encodings := by
          obtain ⟨m, -, hm⟩ := List.mem_flatMap.1 hentry
          obtain ⟨p, hp, rfl⟩ := List.mem_map.1 hm
          subst hb
          exact hp
        have hunder : (e.modeUnder w, b) ∈ e.mnemonic.encodings := by
          unfold Opcode.Entry.modeUnder
          split
          · rename_i hwide
            rw [hwide.1] at hmem
            exact Mnemonic.wide_mem_encodings hmem hwide.2
          · exact hmem
        refine ⟨Mnemonic.takes_of_mem hunder hrelative, hlength, ?_⟩
        rw [Decoded.size, Nat.add_comm, List.take_succ_cons]
        simp only [hlength]

/-- A row of hexadecimal digits after a dollar sign is a number. -/
theorem Term.read_hex (labels : Labels) {digits : Text} (hne : digits ≠ [])
    (hdigits : ∀ b ∈ digits, Radix.hex.isDigitOf b)
    (hvalue : numeralValue .hex digits < 2 ^ 63) :
    Term.read labels (36 :: digits) =
      .ok (.constant (Int64.ofNat (numeralValue .hex digits))) := by
  have hspells := Formula.Spells.hex (Radix.denotes_numeralValue hne hdigits)
  have hend : ExprReader.endsName [] := rfl
  have hunary := ExprReader.unary?_spells labels hspells hvalue hend
  rw [List.append_nil] at hunary
  exact ExprReader.read_of_unary? hunary

namespace Decoded

/-- The numeral of an operand, without the dollar sign. -/
def digits (d : Decoded) : Text := zeroFill (2 * d.operand.length) (numeral .hex d.value)

theorem isDigitOf_digits (d : Decoded) : ∀ b ∈ d.digits, Radix.hex.isDigitOf b :=
  isDigitOf_of_mem_zeroFill fun _ => isDigitOf_of_mem_numeral

theorem digits_ne_nil (d : Decoded) : d.digits ≠ [] := by
  simp [digits, zeroFill, numeral_ne_nil]

theorem numeralValue_digits (d : Decoded) : numeralValue .hex d.digits = d.value := by
  rw [digits, numeralValue_zeroFill, numeralValue_numeral]

theorem operandText_eq (d : Decoded) {mode : Mode} (h : mode.size.isRelative = false) :
    d.operandText mode = mode.form.frame.fill (36 :: d.digits) := by
  rw [operandText, h, if_neg Bool.false_ne_true, hexWide_ofNat, mode.frame_form]
  rfl

end Decoded

/-- The bytes of a number can be seen, and none of them belongs to a frame. -/
theorem isBody_number {digits : Text} (hdigits : ∀ b ∈ digits, Radix.hex.isDigitOf b) :
    Shape.IsBody (36 :: digits) ∧ (∀ s depth, Shape.wrapsWhole depth (36 :: digits ++ s) =
      Shape.wrapsWhole depth s) ∧
      ∀ b ∈ 36 :: digits, Text.isInk b ∧ Line.isPlain b := by
  have hall : ∀ b ∈ 36 :: digits, b ≠ 44 ∧ b ≠ 10 ∧ Shape.isOpening b = false ∧
      Shape.isClosing b = false ∧ Text.isInk b ∧ Line.isPlain b := by
    intro b hb
    rcases List.mem_cons.1 hb with rfl | hb
    · exact ⟨by decide, by decide, rfl, rfl, rfl, rfl⟩
    · have hpart : ExprReader.isNumberPart .hex b := by
        rw [ExprReader.isNumberPart, hdigits b hb, Bool.true_or]
      have hname : isNameByte b := ExprReader.isNameByte_of_isNumberPart hpart
      have hlabel : LabelHead.isLabelByte b := by simp [LabelHead.isLabelByte, hname]
      have hne : ∀ c, isNameByte c = false → b ≠ c := by
        rintro c hc rfl
        cases hc.symm.trans hname
      refine ⟨hne 44 rfl, hne 10 rfl, ?_, ?_, LabelHead.visible_of_isLabelByte hlabel⟩
      · simp [Shape.isOpening, hne 40 rfl, hne 91 rfl]
      · simp [Shape.isClosing, hne 41 rfl, hne 93 rfl]
  have hwraps := Shape.wrapsWhole_append fun b hb => ⟨(hall b hb).2.2.1, (hall b hb).2.2.2.1⟩
  refine ⟨⟨by simp, by simp, fun h => (hall 44 h).1 rfl, fun h => (hall 10 h).2.1 rfl,
    fun depth _ s => hwraps depth s⟩, fun s depth => hwraps depth s,
    fun b hb => (hall b hb).2.2.2.2⟩

/-- A byte of a framed operand belongs to the operand or to the frame. -/
theorem Frame.mem_fill {frame : Frame} {s : Text} {b : UInt8} (h : b ∈ frame.fill s) :
    b ∈ frame.fill [] ∨ b ∈ s := by
  cases frame with
  | fixed written => exact .inl h
  | around before after =>
    simp only [fill, List.append_nil, List.mem_append] at h ⊢
    grind

/-- A frame that is not fixed holds the whole operand. -/
theorem Form.mem_fill {form : Form} (h : form ∈ Form.all.drop 2) {s : Text} {b : UInt8}
    (hb : b ∈ s) : b ∈ form.frame.fill s := by
  cases form with
  | none | accumulator => exact absurd h (by decide)
  | _ =>
    simp only [Form.frame, Frame.fill, List.mem_append]
    exact .inl (.inr hb)

/-- Without brackets, a number does not pass for one in brackets. -/
theorem Form.wrapsWhole_fill {form : Form} (h : form ∈ [Form.plain, .x, .y, .stack]) {e : Text}
    (he : ∀ s depth, Shape.wrapsWhole depth (e ++ s) = Shape.wrapsWhole depth s) :
    Shape.wrapsWhole 0 (form.frame.fill e) = false := by
  have hnil : ascii "" = [] := by decide
  simp only [List.mem_cons, List.not_mem_nil, or_false] at h
  rcases h with rfl | rfl | rfl | rfl <;>
    · rw [Form.frame, Frame.fill, hnil, List.nil_append, he]
      rfl

/-- A number in the frame of a form is one word, and it is read as a number in that form. -/
theorem Operand.read_number (labels : Labels) {form : Form} (hform : form ∈ Form.all.drop 2)
    {digits : Text} (hne : digits ≠ []) (hdigits : ∀ b ∈ digits, Radix.hex.isDigitOf b)
    (hvalue : numeralValue .hex digits < 2 ^ 63) :
    let written := form.frame.fill (36 :: digits)
    Text.IsWord written ∧ (∀ b ∈ written, Line.isPlain b) ∧
      Operand.read labels written =
        .ok ⟨form, .ofTerm (.constant (Int64.ofNat (numeralValue .hex digits)))⟩ := by
  intro written
  obtain ⟨hbody, hwraps, hseen⟩ := isBody_number hdigits
  have hframe : (Form.all.all fun form =>
      (form.frame.fill []).all fun b => Text.isInk b && Line.isPlain b) = true := rfl
  have hbytes : ∀ b ∈ written, Text.isInk b ∧ Line.isPlain b := by
    intro b hb
    rcases Frame.mem_fill hb with hb | hb
    · have hform := List.all_eq_true.1 hframe _ (List.mem_of_mem_drop hform)
      simpa using List.all_eq_true.1 hform b hb
    · exact hseen b hb
  have hdollar : 36 ∈ written := Form.mem_fill hform List.mem_cons_self
  have hword : Text.IsWord written := ⟨List.ne_nil_of_mem hdollar, fun b hb => (hbytes b hb).1⟩
  refine ⟨hword, fun b hb => (hbytes b hb).2, ?_⟩
  have hshape : Shape.of written = (form, 36 :: digits) := by
    refine Shape.of_fill hbody hform fun hbare hwhole => ?_
    cases (Form.wrapsWhole_fill hbare hwraps).symm.trans hwhole
  have hletter : ¬(written = [97] ∨ written = [65]) := by
    rintro (h | h) <;> rw [h] at hdollar <;> revert hdollar <;> decide
  have hempty : written.isEmpty = false := by simpa using hword.ne_nil
  simp only [Operand.read, hword.trim_eq, hempty, hletter, hshape, Bool.false_eq_true, if_false,
    Term.read_hex labels hne hdigits hvalue]
  rfl

namespace Mnemonic

/-- A name of three small letters. -/
theorem lowerName_eq (m : Mnemonic) : ∃ a b c : UInt8,
    m.lowerName = [a, b, c] ∧ isLowerLetter a ∧ isLowerLetter b ∧ isLowerLetter c := by
  cases m <;> exact ⟨_, _, _, rfl, rfl, rfl, rfl⟩

theorem isName_lowerName (m : Mnemonic) : LabelHead.IsName m.lowerName := by
  obtain ⟨a, b, c, hname, ha, hb, hc⟩ := m.lowerName_eq
  rw [hname]
  exact ⟨by simp [isNameStart, ha], by simp [isNameByte, isNameStart, ha, hb, hc]⟩

theorem readMnemonic_suffix (m : Mnemonic) (size : Size) :
    Statement.readMnemonic (m.lowerName ++ size.suffix) = (m.lowerName, .ok size.declared) := by
  obtain ⟨a, b, c, hname, ha, hb, hc⟩ := m.lowerName_eq
  have hletter : ∀ d, isLowerLetter d → d < 0x80 ∧ Case.lowerByte d = d ∧ d ≠ 46 := by
    intro d hd
    simp only [isLowerLetter, Bool.and_eq_true, decide_eq_true_eq] at hd
    grind [Case.lowerByte, isUpperLetter]
  have hnone : (m.lowerName ++ []).lower.splitFirst 46 = (m.lowerName, none) := by
    simp [hname, Text.lower, Text.isAscii, Text.splitFirst, hletter a ha, hletter b hb,
      hletter c hc]
  have hsuffix : ∀ d, isLowerLetter d →
      (m.lowerName ++ [46, d]).lower.splitFirst 46 = (m.lowerName, some [d]) := by
    intro d hd
    have hdot : Case.lowerByte 46 = 46 := rfl
    simp [hname, Text.lower, Text.isAscii, Text.splitFirst, hletter a ha, hletter b hb,
      hletter c hc, hletter d hd, hdot]
  have hbyte : (m.lowerName ++ ascii ".b").lower.splitFirst 46 = _ := hsuffix 98 rfl
  have hword : (m.lowerName ++ ascii ".w").lower.splitFirst 46 = _ := hsuffix 119 rfl
  have hlong : (m.lowerName ++ ascii ".l").lower.splitFirst 46 = _ := hsuffix 108 rfl
  cases size <;> simp only [Statement.readMnemonic, Size.suffix, hnone, hbyte, hword, hlong] <;> rfl

end Mnemonic

theorem Statement.read_line {m : Mnemonic} {size : Size} {gap args : Text}
    (h : IsTail size.suffix gap args) {labels : Labels} {o : Operand}
    (ho : Operand.read labels args = .ok o) (pos : Position) :
    Statement.read labels (m.lowerName ++ (size.suffix ++ (gap ++ args))) pos =
      .ok (.instruction {mnemonic := m.lowerName, size := size.declared, arg := o, pos}) := by
  have hname := m.isName_lowerName
  have hhead : (m.lowerName ++ size.suffix).head? ≠ some 46 := by
    intro he
    have := hname.head?_append size.suffix
    rw [he] at this
    cases this
  rw [Statement.read, h.parts?_eq_none hname]
  simp only [h.splitHead_eq hname]
  rw [if_neg hhead, readInstruction, m.readMnemonic_suffix, ho]
  rfl

/-- An instruction whose operand has a value, or that has no operand, leaves no field open. -/
theorem Instruction.assembled?_of_settled {i : Instruction} {m : Mnemonic} {size : Size}
    {mode : Mode} {encoded : Encoded} (hm : Mnemonic.ofText? i.mnemonic = some m)
    (hsettled : i.arg.expr.isEmpty = true ∨
      i.arg.expr.isConstant = true ∧ i.arg.expr.value?.isSome = true)
    (hsize : Segment.settleSize i = some size) (hmode : i.arg.mode size = .ok mode)
    (hencoded : Encoded.of i.mnemonic mode i.arg.expr = .ok encoded) :
    i.assembled? = some ⟨encoded, none⟩ := by
  rcases hsettled with hempty | ⟨hconstant, hvalue⟩
  · simp [assembled?, Segment.assemble, Except.toOption, hm, hempty, hsize, hmode, hencoded]
  · obtain ⟨v, hv⟩ := Option.isSome_iff_exists.1 hvalue
    simp [assembled?, Segment.assemble, Except.toOption, hm, hconstant, hv, hsize, hmode, hencoded]

namespace Mnemonic.Takes

variable {m : Mnemonic} {mode : Mode} {b : UInt8} (h : m.Takes mode b) (pos : Position)
include h

theorem encoded_eq {e : Expression} {field : List UInt8}
    (hfield : mode.operandField e = .ok field) :
    Encoded.of m.lowerName mode e = .ok ⟨b :: field, m.isDiverging⟩ := by
  have hfind : Opcode.find m.lowerName mode = .ok b := by
    rw [Opcode.find, m.ofText?_lowerName]
    simp only [h.opcode]
  simp only [Encoded.of, Opcode.choose, hfind, hfield, isDivergingText, m.ofText?_lowerName,
    Option.any_some]

/-- An operand in a field of its mode. -/
theorem assembled?_constant (hwidth : mode.width ≠ 0) (hrelative : mode.size.isRelative = false)
    {v : Int64} {field : List UInt8} (hfield : Field.plain mode.size v = .ok field) :
    (⟨m.lowerName, mode.size.declared, ⟨mode.form, .ofTerm (.constant v)⟩, pos⟩ :
      Instruction).assembled? = some ⟨⟨b :: field, m.isDiverging⟩, none⟩ := by
  have hoperand : mode.operandField (.ofTerm (.constant v)) = .ok field := by
    have hvalue : (Expression.ofTerm (.constant v)).value? = some v := rfl
    simp only [Mode.operandField, hvalue, if_neg hwidth, Mode.field, hrelative]
    exact hfield
  have hmode : (⟨mode.form, .ofTerm (.constant v)⟩ : Operand).mode mode.size = .ok mode := by
    have := h.listed
    cases mode <;> first | rfl | contradiction
  have hsize : Segment.settleSize
      ⟨m.lowerName, mode.size.declared, ⟨mode.form, .ofTerm (.constant v)⟩, pos⟩ =
        some mode.size := by
    have hany : mode.size ≠ .any := by
      intro he
      rw [Mode.width, he] at hwidth
      exact hwidth rfl
    have hhint : m.size.meet? (Expression.ofTerm (.constant v)).size = some m.size :=
      if_pos (.inl rfl)
    simp [Segment.settleSize, sizeOfText, m.ofText?_lowerName, hhint, h.size hwidth, hany]
  exact Instruction.assembled?_of_settled m.ofText?_lowerName (.inr ⟨rfl, rfl⟩) hsize hmode
    (h.encoded_eq hoperand)

theorem implied_or_accumulator (hwidth : mode.width = 0) :
    mode = .implied ∨ mode = .accumulator := by
  have hlisted := h.listed
  cases mode <;> first | exact .inl rfl | exact .inr rfl | contradiction

/-- No operand, or the accumulator for one. -/
theorem assembled?_bare (hwidth : mode.width = 0) :
    (⟨m.lowerName, .any, ⟨mode.form, .ofTerm .empty⟩, pos⟩ : Instruction).assembled? =
      some ⟨⟨[b], m.isDiverging⟩, none⟩ := by
  have hoperand : mode.operandField (.ofTerm .empty) = .ok [] := by
    have hvalue : (Expression.ofTerm .empty).value? = none := rfl
    simp only [Mode.operandField, hvalue, hwidth, List.replicate_zero]
  have hform : mode.form = .none ∨ mode.form = .accumulator := by
    rcases h.implied_or_accumulator hwidth with rfl | rfl
    · exact .inl rfl
    · exact .inr rfl
  have hmode : (⟨mode.form, .ofTerm .empty⟩ : Operand).mode m.size = .ok mode := by
    rcases h.implicit hwidth with he | he <;> rw [he] <;>
      rcases h.implied_or_accumulator hwidth with rfl | rfl <;> rfl
  have hsize : Segment.settleSize ⟨m.lowerName, .any, ⟨mode.form, .ofTerm .empty⟩, pos⟩ =
      some m.size := by
    have hany : m.size.meet? .any = some m.size := if_pos (.inl rfl)
    have hhint : m.size.meet? (Expression.ofTerm .empty).size = some m.size := hany
    rcases hform with he | he <;>
      simp [Segment.settleSize, sizeOfText, m.ofText?_lowerName, hhint, hany, he]
  exact Instruction.assembled?_of_settled m.ofText?_lowerName (.inl rfl) hsize hmode
    (h.encoded_eq hoperand)

end Mnemonic.Takes

/-- An instruction without open fields, all by itself, is one chunk. -/
theorem sectionOutputs_instruction (labels : Labels) (root : Text) {i : Instruction}
    {encoded : Encoded} (h : i.assembled? = some ⟨encoded, none⟩) :
    sectionOutputs labels root [.instruction i] =
      [.chunk (if root.isEmpty then Assembly.rootLabel else root)
        {bytes := encoded.bytes, diverging := encoded.diverging}] := by
  have hassemble : ∀ label, Segment.assemble label i = .ok ⟨encoded, none⟩ := by
    intro label
    have := Segment.toOption_assemble label i
    rw [h] at this
    cases ha : Segment.assemble label i with
    | error d => rw [ha] at this; cases this
    | ok a => rw [ha] at this; cases this; rfl
  let s : Section := {Section.root labels root with body := [.instruction i]}
  have hfields : s.fixups = [] := by simp [Section.fixups, Section.places, places, s,
    Statement.openFields, h]
  have hfaults : s.faults = [] := by simp [Section.faults, s, Statement.faults, hassemble]
  have hlate : s.fixupFaults = [] := by rw [Section.fixupFaults, hfields]; rfl
  have hchunk : s.segment.chunk = {bytes := encoded.bytes, diverging := encoded.diverging} := by
    have hresolutions : s.segment.resolutions = [] := by
      simp only [Segment.resolutions, Section.segment, hfields, List.map_nil]
    rw [Segment.chunk, hresolutions]
    simp [Section.segment, Section.bytes, s, Statement.image, Statement.diverges, h, Section.root,
      Segment.bank?]
  have htotal : sectionOutputs labels root [.instruction i] = s.outputs :=
    Section.total_of_plain _ (by simp [Statement.isTop, Statement.isFatal])
  rw [htotal, Section.outputs, Section.verdict, if_pos ⟨hfaults, hlate⟩, hchunk]
  rfl

/-- A mnemonic with its suffix and a space takes at most six bytes. -/
theorem IsTail.length_le {size : Size} {gap args : Text} (h : IsTail size.suffix gap args)
    (m : Mnemonic) : (m.lowerName ++ (size.suffix ++ (gap ++ args))).length ≤ 6 + args.length := by
  have hm : m.lowerName.length = 3 := by
    obtain ⟨a, b, c, hname, -⟩ := m.lowerName_eq
    rw [hname]
    rfl
  have hsuffix : size.suffix.length ≤ 2 := by
    cases size with
    | byte | word | long => decide
    | _ => exact Nat.zero_le 2
  have hgap : gap.length ≤ 1 := by
    rcases h.parted with ⟨rfl, -⟩ | ⟨rfl, -⟩ <;> decide
  simp only [List.length_append, hm]
  omega

/-- A line of one instruction without open fields assembles to the code of the instruction. -/
theorem assemble_line (file : Text) (labels : Labels) (root : Text) {m : Mnemonic} {size : Size}
    {gap args ending : Text} (htail : IsTail size.suffix gap args)
    (hshort : (m.lowerName ++ (size.suffix ++ (gap ++ args))).length + 1 < Lines.tooLong)
    (hending : ending ∈ [[], [10], [13, 10]]) {o : Operand} {encoded : Encoded}
    (ho : Operand.read labels args = .ok o)
    (hencoded : (⟨m.lowerName, size.declared, o, ⟨file, 1⟩⟩ : Instruction).assembled? =
      some ⟨encoded, none⟩) :
    assemble (.text (Reader.ofText file (m.lowerName ++ (size.suffix ++ (gap ++ args)) ++ ending)
      none)) labels root =
      [.chunk (if root.isEmpty then Assembly.rootLabel else root)
        {bytes := encoded.bytes, diverging := encoded.diverging}] := by
  have hname := m.isName_lowerName
  have hlf : 10 ∉ m.lowerName ++ (size.suffix ++ (gap ++ args)) := by
    intro hmem
    have hink : Text.isInk 10 = false := by decide
    rw [← List.append_assoc] at hmem
    rcases List.mem_append.1 hmem with hmem | hmem
    · exact Bool.false_ne_true (hink.symm.trans ((htail.isWord_head hname).ink 10 hmem))
    · rcases htail.parted with ⟨rfl, rfl⟩ | ⟨rfl, hword⟩
      · cases hmem
      · rcases List.mem_cons.1 hmem with hmem | hmem
        · cases hmem
        · exact Bool.false_ne_true (hink.symm.trans (hword.ink 10 hmem))
  have hitems : (Reader.ofText file (m.lowerName ++ (size.suffix ++ (gap ++ args)) ++ ending)
      none).items = [.written (m.lowerName ++ (size.suffix ++ (gap ++ args))) ⟨file, 1⟩] := by
    rw [Reader.items_single file hending hlf hshort, Reader.handed, htail.items_eq hname]
  have hlawful := Reader.lawful_items_ofText file
    (m.lowerName ++ (size.suffix ++ (gap ++ args)) ++ ending) none
  rw [assemble, run_start hlawful, Reader.pulls_start hlawful, hitems]
  simp only [reads, Line.Item.statement, Statement.read_line htail ho]
  exact sectionOutputs_instruction labels root hencoded

/-- A suffix keeps a line from being a define. -/
theorem isTail_sized {size : Size} (hsize : size.suffix ≠ []) {args : Text}
    (hword : Text.IsWord args) (hplain : ∀ b ∈ args, Line.isPlain b) :
    IsTail size.suffix [32] args := by
  have hsuffix : size.suffix ∈ [ascii ".b", ascii ".w", ascii ".l"] := by
    cases size <;> first | exact absurd rfl hsize | simp [Size.suffix]
  have hvisible : ∀ suffix ∈ [ascii ".b", ascii ".w", ascii ".l"], suffix.head? = some 46 ∧
      ∀ b ∈ suffix, LabelHead.isLabelByte b :=
    List.forall_mem_cons.2 ⟨⟨rfl, List.all_eq_true.1 rfl⟩,
      List.forall_mem_cons.2 ⟨⟨rfl, List.all_eq_true.1 rfl⟩,
        List.forall_mem_singleton.2 ⟨rfl, List.all_eq_true.1 rfl⟩⟩⟩
  obtain ⟨hhead, hlabel⟩ := hvisible _ hsuffix
  have hbytes : ∀ b ∈ size.suffix, Text.isInk b ∧ Line.isPlain b :=
    fun b hb => LabelHead.visible_of_isLabelByte (hlabel b hb)
  obtain ⟨r, hr⟩ := List.head?_eq_some_iff.1 hhead
  exact ⟨.inr ⟨r, hr⟩, hbytes, .inr ⟨rfl, hword⟩, hplain, by rw [hr]; rfl⟩

namespace Decoded

def sizedText (d : Decoded) : Text :=
  d.mnemonicText ++ d.mode.size.suffix ++ d.text.drop d.mnemonicText.length

theorem sizedText_eq {d : Decoded} {m : Mnemonic} {mode : Mode} (h : d.meaning = some (m, mode))
    {tail : Text} (htext : d.text = m.lowerName ++ tail) :
    d.sizedText = m.lowerName ++ (mode.size.suffix ++ tail) := by
  have hmnemonic : d.mnemonicText = m.lowerName := by rw [mnemonicText, h]; rfl
  have hmode : d.mode = mode := by rw [Decoded.mode, h]; rfl
  rw [sizedText, hmnemonic, hmode, htext, List.drop_left, List.append_assoc]

theorem length_digits_le (d : Decoded) (h : d.operand.length ≤ 3) : d.digits.length ≤ 6 := by
  have hvalue : d.value < 16 ^ 6 := Nat.lt_of_lt_of_le (Field.read_lt d.operand)
    (Nat.pow_le_pow_right (by decide) h : 256 ^ d.operand.length ≤ 256 ^ 3)
  exact length_zeroFill_le (by omega) (length_numeral_le (r := .hex) (k := 5) hvalue)

end Decoded

theorem Frame.length_fill_le (frame : Frame) (s : Text) :
    (frame.fill s).length ≤ (frame.fill []).length + s.length := by
  cases frame with
  | fixed written => exact Nat.le_add_right ..
  | around before after =>
    simp only [fill, List.length_append, List.length_nil]
    omega

section
variable {d : Decoded} {m : Mnemonic} {mode : Mode} (hknown : d.meaning = some (m, mode))
  (htakes : m.Takes mode d.opcode) (hlength : d.operand.length = mode.width)
  (file : Text) (labels : Labels) (root : Text) {ending : Text}
  (hending : ending ∈ [[], [10], [13, 10]])
include hknown htakes hlength hending

theorem assemble_sizedText_bare (hwidth : mode.width = 0) :
    assemble (.text (Reader.ofText file (d.sizedText ++ ending) none)) labels root =
      [.chunk (if root.isEmpty then Assembly.rootLabel else root)
        {bytes := d.opcode :: d.operand, diverging := m.isDiverging}] := by
  have hoperand : d.operand = [] := List.length_eq_zero_iff.1 (hlength.trans hwidth)
  have hcode := htakes.assembled?_bare ⟨file, 1⟩ hwidth
  rw [hoperand]
  rcases htakes.implied_or_accumulator hwidth with rfl | rfl
  · have htext : d.text = m.lowerName ++ ([] ++ []) := by simp [Decoded.text, hknown, hoperand]
    have htail : IsTail (Size.suffix Mode.implied.size) [] [] :=
      ⟨.inl rfl, nofun, .inl ⟨rfl, rfl⟩, nofun, rfl⟩
    have hread : Operand.read labels [] = .ok ⟨.none, .ofTerm .empty⟩ := by
      rw [Operand.read, Text.trim_nil]
      rfl
    rw [Decoded.sizedText_eq hknown htext]
    refine assemble_line file labels root htail ?_ hending hread hcode
    exact Nat.lt_of_le_of_lt (Nat.succ_le_succ (htail.length_le m)) (by decide)
  · have htext : d.text = m.lowerName ++ ([32] ++ [97]) := by
      have ha : ascii " a" = [32] ++ [97] := by decide
      simp [Decoded.text, hknown, hoperand, ha]
    have hword : Text.IsWord [97] := ⟨by simp, List.forall_mem_singleton.2 rfl⟩
    have htail : IsTail (Size.suffix Mode.accumulator.size) [32] [97] :=
      ⟨.inl rfl, nofun, .inr ⟨rfl, hword⟩, List.all_eq_true.1 rfl, rfl⟩
    have hread : Operand.read labels [97] = .ok ⟨.accumulator, .ofTerm .empty⟩ := by
      rw [Operand.read, hword.trim_eq]
      rfl
    rw [Decoded.sizedText_eq hknown htext]
    refine assemble_line file labels root htail ?_ hending hread hcode
    exact Nat.lt_of_le_of_lt (Nat.succ_le_succ (htail.length_le m)) (by decide)

theorem assemble_sizedText_operand (hwidth : mode.width ≠ 0)
    (hrelative : mode.size.isRelative = false) :
    assemble (.text (Reader.ofText file (d.sizedText ++ ending) none)) labels root =
      [.chunk (if root.isEmpty then Assembly.rootLabel else root)
        {bytes := d.opcode :: d.operand, diverging := m.isDiverging}] := by
  have hlisted := htakes.listed
  have hform : mode.form ∈ Form.all.drop 2 := by
    cases mode <;> first | decide | contradiction
  have hsuffix : mode.size.suffix ≠ [] := by
    cases mode <;> first | decide | contradiction
  have hthree : d.operand.length ≤ 3 := hlength ▸ mode.size.width_le
  have hvalue : numeralValue .hex d.digits < 2 ^ 63 := by
    have := (Field.read_lt d.operand).trans_le
      (Nat.pow_le_pow_right (by decide) hthree : 256 ^ d.operand.length ≤ 256 ^ 3)
    rw [d.numeralValue_digits]
    exact this.trans (by decide)
  obtain ⟨hword, hplain, hread⟩ :=
    Operand.read_number labels hform d.digits_ne_nil d.isDigitOf_digits hvalue
  have htext : d.text = m.lowerName ++ ([32] ++ mode.form.frame.fill (36 :: d.digits)) := by
    have hne : d.operand.isEmpty = false := by
      have : d.operand ≠ [] := fun he => hwidth (by rw [← hlength, he]; rfl)
      simpa using this
    rw [Decoded.text, hknown, ← d.operandText_eq hrelative]
    simp only [hne, Bool.not_false, if_true]
    rfl
  have htail := isTail_sized hsuffix hword hplain
  have hshort : (m.lowerName ++ (mode.size.suffix ++ ([32] ++
      mode.form.frame.fill (36 :: d.digits)))).length + 1 < Lines.tooLong := by
    have hline := htail.length_le m
    have hframes : (Form.all.all fun form => (form.frame.fill []).length ≤ 10) = true := rfl
    have hframe : (mode.form.frame.fill []).length ≤ 10 :=
      of_decide_eq_true (List.all_eq_true.1 hframes _ (List.mem_of_mem_drop hform))
    have hfill := mode.form.frame.length_fill_le (36 :: d.digits)
    have hdigits := d.length_digits_le hthree
    rw [List.length_cons] at hfill
    rw [Lines.tooLong]
    omega
  have hfield : Field.plain mode.size (Int64.ofNat (numeralValue .hex d.digits)) =
      .ok d.operand := by
    rw [d.numeralValue_digits]
    exact Field.plain_read hlength (Nat.pos_of_ne_zero hwidth) hrelative
  rw [Decoded.sizedText_eq hknown htext]
  exact assemble_line file labels root htail hshort hending hread
    (htakes.assembled?_constant ⟨file, 1⟩ hwidth hrelative hfield)

end

/-- The text of a known instruction that is no branch, with the size of its mode written after the
mnemonic, assembles all by itself to one chunk: the bytes it was decoded from, with no field left
open. -/
theorem assemble_sizedText (code : List UInt8) (offset : Int64) (w : Widths) {d : Decoded}
    (h : decode code offset w = .ok d) {m : Mnemonic} {mode : Mode}
    (hknown : d.meaning = some (m, mode)) (hrelative : mode.size.isRelative = false)
    (file : Text) (labels : Labels) (root : Text) {ending : Text}
    (hending : ending ∈ [[], [10], [13, 10]]) :
    assemble (.text (Reader.ofText file (d.sizedText ++ ending) none)) labels root =
      [.chunk (if root.isEmpty then Assembly.rootLabel else root)
        {bytes := code.take d.size, diverging := m.isDiverging}] := by
  obtain ⟨htakes, hlength, hbytes⟩ := takes_of_decode h hknown hrelative
  rw [hbytes]
  by_cases hwidth : mode.width = 0
  · exact assemble_sizedText_bare hknown htakes hlength file labels root hending hwidth
  · exact assemble_sizedText_operand hknown htakes hlength file labels root hending hwidth hrelative

/-- `lda ($12,s),y` takes a suffix for its operand and no bytes from the instruction after it. -/
theorem assemble_sizedText_stack :
    let d : Decoded := ⟨0, 0xB3, some (.lda, .stackRelativeIndirectY), [0x12]⟩
    decode [0xB3, 0x12, 0x60] 0 {} = .ok d ∧ d.text = ascii "lda ($12,s),y" ∧
      assemble (.text (Reader.ofText [] (ascii "lda.b ($12,s),y\n") none)) {} [] =
        [.chunk Assembly.rootLabel {bytes := [0xB3, 0x12], diverging := false}] := by
  intro d
  have hdecode : decode [0xB3, 0x12, 0x60] 0 {} = .ok d := by rfl
  have hsized : ascii "lda.b ($12,s),y\n" = d.sizedText ++ [10] := by decide +kernel
  refine ⟨hdecode, by decide +kernel, ?_⟩
  rw [hsized]
  exact assemble_sizedText _ 0 {} hdecode rfl rfl [] {} [] (by decide)

end Assembler65816
