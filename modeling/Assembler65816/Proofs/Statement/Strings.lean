import Assembler65816.Proofs.Statement.Parts
import Assembler65816.Proofs.Statement.Values

/-!
# Strings among the arguments of a directive

The arguments of a directive are made of strings in double quotes and of text outside of them. What
a string holds is data as it stands, and the fields and references come from the text outside. There
is one exception: a string that is not closed when the arguments end. It is taken for an expression,
after its escapes were replaced, and so it gives a field or a reference, or nothing at all if it is
blank, and a syntax error only if it does not read as an expression.
-/
namespace Assembler65816

namespace DataItem

/-- The inside of a string: a backslash takes the byte after it along, and no other byte is a double
quote. -/
inductive IsBody : Text → Prop
  | nil : IsBody []
  | escape (c : UInt8) {s : Text} : IsBody s → IsBody (92 :: c :: s)
  | byte {c : UInt8} {s : Text} : c ≠ 34 → c ≠ 92 → IsBody s → IsBody (c :: s)

/-- A part of the arguments: text outside of strings, the inside of a string, or that of a string
that is not closed. -/
inductive Passage
  | plain (s : Text)
  | string (body : Text)
  | unclosed (body : Text)
  deriving DecidableEq, Repr

/-- How arguments fall into passages. A string that is not closed can end with a backslash. -/
inductive Passages : Text → List Passage → Prop
  | plain {p : Text} : 34 ∉ p → Passages p [.plain p]
  | string {p body rest : Text} {ps : List Passage} : 34 ∉ p → IsBody body → Passages rest ps →
    Passages (p ++ 34 :: (body ++ 34 :: rest)) (.plain p :: .string body :: ps)
  | unclosed {p body slash : Text} : 34 ∉ p → IsBody body → slash = [] ∨ slash = [92] →
    Passages (p ++ 34 :: (body ++ slash)) [.plain p, .unclosed (body ++ slash)]

def Passage.text : Passage → Text
  | plain s => s
  | string body => 34 :: (body ++ [34])
  | unclosed body => 34 :: body

def unescaped : Text → Text
  | [] => []
  | 92 :: c :: s => unescape c :: unescaped s
  | c :: s => c :: unescaped s

/-- A text that follows an opening quote has the quote that closes the string, or is all inside. -/
theorem exists_body (t : Text) :
    (∃ body rest, IsBody body ∧ t = body ++ 34 :: rest) ∨
      ∃ body slash, IsBody body ∧ (slash = [] ∨ slash = [92]) ∧ t = body ++ slash := by
  induction t using unescaped.induct with
  | case1 => exact .inr ⟨[], [], .nil, .inl rfl, rfl⟩
  | case2 c t ih =>
    rcases ih with ⟨body, rest, hbody, rfl⟩ | ⟨body, slash, hbody, hslash, rfl⟩
    · exact .inl ⟨92 :: c :: body, rest, .escape c hbody, rfl⟩
    · exact .inr ⟨92 :: c :: body, slash, .escape c hbody, hslash, rfl⟩
  | case3 c t hescape ih =>
    by_cases hquote : c = 34
    · subst hquote
      exact .inl ⟨[], t, .nil, rfl⟩
    by_cases hslash : c = 92
    · subst hslash
      cases t with
      | nil => exact .inr ⟨[], [92], .nil, .inr rfl, rfl⟩
      | cons d t => exact absurd rfl (hescape d t rfl)
    rcases ih with ⟨body, rest, hbody, rfl⟩ | ⟨body, slash, hbody, hends, rfl⟩
    · exact .inl ⟨c :: body, rest, .byte hquote hslash hbody, rfl⟩
    · exact .inr ⟨c :: body, slash, .byte hquote hslash hbody, hends, rfl⟩

theorem exists_passages (s : Text) : ∃ ps, Passages s ps := by
  induction s using ExprReader.length_induction with
  | h s ih =>
    by_cases hquote : 34 ∈ s
    · obtain ⟨p, t, rfl, hp⟩ := List.eq_append_cons_of_mem hquote
      rcases exists_body t with ⟨body, rest, hbody, rfl⟩ | ⟨body, slash, hbody, hslash, rfl⟩
      · obtain ⟨ps, hps⟩ := ih rest (by simp only [List.length_append, List.length_cons]; omega)
        exact ⟨_, .string hp hbody hps⟩
      · exact ⟨_, .unclosed hp hbody hslash⟩
    · exact ⟨_, .plain hquote⟩

theorem Passages.text {s : Text} {ps : List Passage} (h : Passages s ps) :
    ps.flatMap Passage.text = s := by
  induction h with
  | plain => simp [Passage.text]
  | string _ _ _ ih => simp [Passage.text, ih]
  | unclosed => simp [Passage.text]

theorem unescaped_cons {c : UInt8} (h : c ≠ 92) (s : Text) :
    unescaped (c :: s) = c :: unescaped s := by
  rw [unescaped]
  exact fun d t hc => absurd hc h

theorem IsBody.unescaped_append {body : Text} (h : IsBody body) (t : Text) :
    unescaped (body ++ t) = unescaped body ++ unescaped t := by
  induction h with
  | nil => rfl
  | escape c _ ih => simp only [List.cons_append, unescaped, ih]
  | byte hquote hslash _ ih =>
    rw [List.cons_append, unescaped_cons hslash, unescaped_cons hslash, ih, List.cons_append]

theorem IsBody.inside_append {body : Text} (h : IsBody body) (d : Int) (read t : Text) :
    inside d read (body ++ t) = inside d ((unescaped body).reverse ++ read) t := by
  induction h generalizing read with
  | nil => rfl
  | escape c _ ih =>
    rw [List.cons_append, List.cons_append, inside_escape, ih, unescaped, List.reverse_cons,
      List.append_assoc, List.singleton_append]
  | byte hquote hslash _ ih =>
    rw [List.cons_append, inside_cons hquote hslash, ih, unescaped_cons hslash, List.reverse_cons,
      List.append_assoc, List.singleton_append]

theorem inside_string {body : Text} (h : IsBody body) (d : Int) (rest : Text) :
    inside d [] (body ++ 34 :: rest) =
      {value := unescaped body, quoted := true} :: outside d [] rest := by
  rw [h.inside_append, inside_close, List.append_nil, List.reverse_reverse]

theorem inside_unclosed {body slash : Text} (h : IsBody body) (hslash : slash = [] ∨ slash = [92])
    (d : Int) : inside d [] (body ++ slash) = flush (unescaped (body ++ slash)).reverse := by
  have hnil : ∀ read, inside d read [] = flush read := fun read => by rw [inside]
  have hlast : ∀ read, inside d read [92] = flush (92 :: read) := by
    intro read
    rw [inside.eq_def]
    exact hnil _
  rw [h.inside_append, h.unescaped_append, List.append_nil]
  rcases hslash with rfl | rfl
  · rw [hnil, unescaped, List.append_nil]
  · rw [hlast, List.reverse_append]
    rfl

/-- Up to a double quote the scan is as if the arguments ended there. -/
theorem outside_append_quote {p : Text} (hp : 34 ∉ p) (d : Int) (read t : Text) :
    outside d read (p ++ 34 :: t) = outside d read p ++ inside (d + Text.depth p) [] t := by
  induction p generalizing d read with
  | nil => rw [List.nil_append, outside_quote, outside, Text.depth_nil, Int.add_zero]
  | cons b p ih =>
    rw [List.mem_cons, not_or] at hp
    rw [List.cons_append, Text.depth_cons b p, ← Int.add_assoc]
    by_cases hcomma : b = 44 → d ≠ 0
    · rw [outside_cons (Ne.symm hp.1) hcomma, outside_cons (Ne.symm hp.1) hcomma, ih hp.2]
    · obtain ⟨rfl, hd⟩ := Classical.not_imp.1 hcomma
      rw [not_not] at hd
      subst hd
      rw [outside_comma, outside_comma, ih hp.2, List.append_assoc]
      rfl

theorem exists_flush_eq (read : Text) :
    ∃ es : List Text, flush read = es.map ({value := ·}) ∧ ∀ e ∈ es, e <:+: read.reverse := by
  by_cases hblank : Text.trim read.reverse = []
  · refine ⟨[], ?_, List.forall_mem_nil _⟩
    rw [← List.reverse_reverse read, flush_of_blank hblank, List.map_nil]
  · refine ⟨[Text.trim read.reverse], ?_, List.forall_mem_singleton.2 ?_⟩
    · conv => lhs; rw [← List.reverse_reverse read]
      rw [flush_of_ink hblank, List.map_singleton]
    · obtain ⟨lead, trail, -, -, hcut, -⟩ := Text.exists_trim read.reverse
      exact ⟨lead, trail, by rw [List.append_assoc, ← hcut]⟩

/-- Without double quotes the items are expressions out of the text. -/
theorem exists_outside_eq {p : Text} (hp : 34 ∉ p) (d : Int) (read : Text) :
    ∃ es : List Text, outside d read p = es.map ({value := ·}) ∧
      ∀ e ∈ es, e <:+: read.reverse ++ p := by
  induction p generalizing d read with
  | nil =>
    rw [outside, List.append_nil]
    exact exists_flush_eq read
  | cons b p ih =>
    rw [List.mem_cons, not_or] at hp
    by_cases hcomma : b = 44 → d ≠ 0
    · rw [outside_cons (Ne.symm hp.1) hcomma]
      obtain ⟨es, hes, hinfix⟩ := ih hp.2 (d + Text.depth [b]) (b :: read)
      refine ⟨es, hes, fun e he => ?_⟩
      have hpart := hinfix e he
      rwa [List.reverse_cons, List.append_assoc, List.singleton_append] at hpart
    · obtain ⟨rfl, hd⟩ := Classical.not_imp.1 hcomma
      rw [not_not] at hd
      subst hd
      obtain ⟨first, hfirst, hbefore⟩ := exists_flush_eq read
      obtain ⟨es, hes, hafter⟩ := ih hp.2 0 []
      refine ⟨first ++ es, by rw [outside_comma, hfirst, hes, List.map_append], fun e he => ?_⟩
      rcases List.mem_append.1 he with he | he
      · exact (hbefore e he).trans (List.prefix_append _ _).isInfix
      · have hsuffix : p <:+ read.reverse ++ 44 :: p := ⟨read.reverse ++ [44], by simp⟩
        exact (hafter e he).trans hsuffix.isInfix

def Passage.Yields : Passage → List DataItem → Prop
  | plain s, items => ∃ es : List Text, items = es.map ({value := ·}) ∧ ∀ e ∈ es, e <:+: s
  | string body, items => items = [{value := unescaped body, quoted := true}]
  | unclosed body, items => items = flush (unescaped body).reverse

theorem Passages.exists_groups {s : Text} {ps : List Passage} (h : Passages s ps) (d : Int) :
    ∃ groups, List.Forall₂ Passage.Yields ps groups ∧ outside d [] s = groups.flatten := by
  induction h generalizing d with
  | @plain p hp =>
    refine ⟨[outside d [] p], .cons (exists_outside_eq hp d []) .nil, ?_⟩
    rw [List.flatten_singleton]
  | @string p body rest ps hp hbody _ ih =>
    obtain ⟨groups, hgroups, hrest⟩ := ih (d + Text.depth p)
    refine ⟨outside d [] p :: [{value := unescaped body, quoted := true}] :: groups,
      .cons (exists_outside_eq hp d []) (.cons rfl hgroups), ?_⟩
    rw [outside_append_quote hp, inside_string hbody, hrest]
    rfl
  | @unclosed p body slash hp hbody hslash =>
    refine ⟨[outside d [] p, flush (unescaped (body ++ slash)).reverse],
      .cons (exists_outside_eq hp d []) (.cons rfl .nil), ?_⟩
    rw [outside_append_quote hp, inside_unclosed hbody hslash]
    simp

/-- A string that is not closed comes last. The items before it are those of the text before it, as
if the arguments ended there. -/
theorem Passages.exists_front {s : Text} {ps : List Passage} (h : Passages s ps) {body : Text}
    (hbody : .unclosed body ∈ ps) :
    ∃ front, ps = front ++ [.unclosed body] ∧
      ∀ d, outside d [] s =
        outside d [] (front.flatMap Passage.text) ++ flush (unescaped body).reverse := by
  induction h with
  | @plain p hp => simp at hbody
  | @string p body' rest ps hp hbody' _ ih =>
    obtain ⟨front, rfl, hrest⟩ := ih (by simpa using hbody)
    refine ⟨.plain p :: .string body' :: front, rfl, fun d => ?_⟩
    have htext : (Passage.plain p :: .string body' :: front).flatMap Passage.text =
        p ++ 34 :: (body' ++ 34 :: front.flatMap Passage.text) := by
      simp [Passage.text]
    rw [htext, outside_append_quote hp, inside_string hbody', outside_append_quote hp,
      inside_string hbody', hrest]
    simp
  | @unclosed p body' slash hp hbody' hslash =>
    have he : body = body' ++ slash := by simpa using hbody
    subst he
    refine ⟨[.plain p], rfl, fun d => ?_⟩
    rw [outside_append_quote hp, inside_unclosed hbody' hslash]
    simp [Passage.text]

end DataItem

namespace Directive
open DataItem

variable {labels : Labels} {size : Size}

theorem images_append (base : Nat) (items more : List DataItem) :
    images labels size base (items ++ more) =
      (images labels size base items).bind fun p =>
        (images labels size (base + p.1.length) more).map fun q => (p.1 ++ q.1, p.2 ++ q.2) := by
  induction items generalizing base with
  | nil =>
    simp only [List.nil_append, images, Except.bind, List.length_nil, Nat.add_zero]
    cases images labels size base more with
    | error cause => rfl
    | ok q => rfl
  | cons item items ih =>
    simp only [List.cons_append, images, bind, Except.bind, pure, Except.pure]
    cases image labels size base item with
    | error cause => rfl
    | ok first =>
      simp only [ih, Except.bind]
      cases images labels size (base + first.1.length) items with
      | error cause => rfl
      | ok p =>
        simp only [List.length_append, ← Nat.add_assoc]
        cases images labels size (base + first.1.length + p.1.length) more with
        | error cause => rfl
        | ok q => simp only [Except.map, List.append_assoc]

/-- The bytes and references that stand for a passage. Outside of strings they come from expressions
in the passage, a string gives the bytes that it holds, and one that is not closed is an expression
as well. -/
def Gives (labels : Labels) (size : Size) : Passage → List UInt8 × List DataRef → Prop
  | .plain s, part => ∃ (base : Nat) (es : List Text), (∀ e ∈ es, e <:+: s) ∧
      images labels size base (es.map ({value := ·})) = .ok part
  | .string body, part => part = (unescaped body, [])
  | .unclosed body, part =>
      ∃ base, images labels size base (flush (unescaped body).reverse) = .ok part

theorem gives_of_yields {p : Passage} {items : List DataItem} (h : p.Yields items) {base : Nat}
    {part : List UInt8 × List DataRef} (hpart : images labels size base items = .ok part) :
    Gives labels size p part := by
  cases p with
  | plain s =>
    obtain ⟨es, rfl, hes⟩ := h
    exact ⟨base, es, hes, hpart⟩
  | string body =>
    cases h
    cases hpart
    rw [Gives, List.append_nil, List.append_nil]
  | unclosed body =>
    cases h
    exact ⟨base, hpart⟩

theorem exists_parts {ps : List Passage} {groups : List (List DataItem)}
    (h : List.Forall₂ Passage.Yields ps groups) {base : Nat} {whole : List UInt8 × List DataRef}
    (hwhole : images labels size base groups.flatten = .ok whole) :
    ∃ parts, List.Forall₂ (Gives labels size) ps parts ∧
      whole = (parts.flatMap Prod.fst, parts.flatMap Prod.snd) := by
  induction h generalizing base whole with
  | nil =>
    cases hwhole
    exact ⟨[], .nil, rfl⟩
  | @cons p items ps groups hp _ ih =>
    rw [List.flatten_cons, images_append] at hwhole
    cases hitems : images labels size base items with
    | error cause =>
      rw [hitems] at hwhole
      cases hwhole
    | ok part =>
      rw [hitems] at hwhole
      cases hmore : images labels size (base + part.1.length) groups.flatten with
      | error cause =>
        simp only [Except.bind, hmore] at hwhole
        cases hwhole
      | ok rest =>
        simp only [Except.bind, hmore] at hwhole
        cases hwhole
        obtain ⟨parts, hparts, rfl⟩ := ih hmore
        exact ⟨part :: parts, .cons (gives_of_yields hp hitems) hparts, rfl⟩

def Malformed {α : Type} (x : Except Cause α) : Prop := ∃ e, x = .error (.malformed e)

theorem malformed_error {α : Type} (e : SyntaxError) :
    Malformed (.error (.malformed e) : Except Cause α) := ⟨e, rfl⟩

theorem malformed_bind_iff {α β : Type} {x : Except Cause α} {f : α → Except Cause β} :
    Malformed (x.bind f) ↔ Malformed x ∨ ∃ a, x = .ok a ∧ Malformed (f a) := by
  cases x with
  | error cause =>
    simp [Malformed, Except.bind]
  | ok a =>
    simp [Malformed, Except.bind]

theorem malformed_map_iff {α β : Type} {x : Except Cause α} {f : α → β} :
    Malformed (x.map f) ↔ Malformed x := by
  cases x with
  | error cause => simp [Malformed, Except.map]
  | ok a => simp [Malformed, Except.map]

theorem malformed_image_iff (base : Nat) (s : Text) :
    Malformed (image labels size base {value := s}) ↔ ∃ e, Term.read labels s = .error e := by
  cases hread : Term.read labels s with
  | error e =>
    have himage : image labels size base {value := s} = .error (.malformed (.expression e)) := by
      simp only [image, Bool.false_eq_true, if_false, readTerm_of_error hread]
      rfl
    rw [himage]
    exact iff_of_true (malformed_error _) ⟨e, rfl⟩
  | ok t =>
    refine iff_of_false ?_ (by rintro ⟨e, h⟩; cases h)
    rintro ⟨e, h⟩
    simp only [image, Bool.false_eq_true, if_false, readTerm_of_ok hread, bind, Except.bind] at h
    split at h
    · -- A value that does not fit is an error of another kind.
      rename_i v hv
      cases hfield : Field.plain size v with
      | error e =>
        rw [hfield] at h
        cases h
      | ok field =>
        rw [hfield] at h
        cases h
    · cases h

theorem malformed_images_singleton_iff (base : Nat) (s : Text) :
    Malformed (images labels size base [{value := s}]) ↔ ∃ e, Term.read labels s = .error e := by
  have hsingle : images labels size base [{value := s}] =
      (image labels size base {value := s}).map fun p => (p.1 ++ [], p.2 ++ []) := by
    rw [images]
    cases image labels size base {value := s} with
    | error cause => rfl
    | ok part => rfl
  rw [hsingle, malformed_map_iff, malformed_image_iff]

/-- Arguments with a string that is not closed are a syntax error exactly if there is one before the
string, or, with none of any kind before it, the string is not blank and is no expression, or there
is nothing but blanks. -/
theorem malformed_values_iff {args before body : Text}
    (h : split args = split before ++ flush (unescaped body).reverse) (pos : Position) :
    Malformed (values labels size args pos) ↔
      Malformed (images labels size 0 (split before)) ∨
        (∃ part, images labels size 0 (split before) = .ok part) ∧
          if Text.trim (unescaped body) = [] then split before = []
          else ∃ e, Term.read labels (Text.trim (unescaped body)) = .error e := by
  by_cases hblank : Text.trim (unescaped body) = []
  · rw [flush_of_blank hblank, List.append_nil] at h
    rw [if_pos hblank]
    by_cases hnil : split before = []
    · have hvalues : values labels size args pos = .error (.malformed .noValues) := by
        rw [values, h, hnil]
      rw [hvalues, hnil]
      exact iff_of_true (malformed_error _) (.inr ⟨⟨_, rfl⟩, rfl⟩)
    · rw [values_of_split h hnil, malformed_map_iff]
      simp [hnil]
  · rw [flush_of_ink hblank] at h
    rw [if_neg hblank, values_of_split h (by simp), malformed_map_iff, images_append,
      malformed_bind_iff]
    simp only [malformed_map_iff, malformed_images_singleton_iff, exists_and_right]

/-- Arguments fall into strings and text outside of strings, perhaps with a string at the end that
is not closed. The data is that of these passages one after the other: the fields and references
come from expressions in the text outside, and what stands in a closed string is kept as it is. A
string that is not closed is taken for an expression. The directive is a syntax error because of it
exactly if it does not read as one, or if it is blank and no item stands before it. -/
theorem values_passages (labels : Labels) (size : Size) (args : Text) (pos : Position) :
    (∃ ps, Passages args ps) ∧
      ∀ ps, Passages args ps →
        ps.flatMap Passage.text = args ∧
        (∀ st, values labels size args pos = .ok st →
          ∃ parts, List.Forall₂ (Gives labels size) ps parts ∧
            st = .data (parts.flatMap Prod.fst) (parts.flatMap Prod.snd) pos) ∧
        ∀ body, .unclosed body ∈ ps → ∃ front, ps = front ++ [.unclosed body] ∧
          (Malformed (values labels size args pos) ↔
            let before := split (front.flatMap Passage.text)
            Malformed (images labels size 0 before) ∨
              (∃ part, images labels size 0 before = .ok part) ∧
                if Text.trim (unescaped body) = [] then before = []
                else ∃ e, Term.read labels (Text.trim (unescaped body)) = .error e) := by
  refine ⟨exists_passages args, fun ps hps => ⟨hps.text, fun st hst => ?_, fun body hbody => ?_⟩⟩
  · obtain ⟨bytes, refs, himages, rfl⟩ := values_eq_ok hst
    obtain ⟨groups, hgroups, hsplit⟩ := hps.exists_groups 0
    rw [split, hsplit] at himages
    obtain ⟨parts, hparts, hwhole⟩ := exists_parts hgroups himages
    cases hwhole
    exact ⟨parts, hparts, rfl⟩
  · obtain ⟨front, hfront, hsplit⟩ := hps.exists_front hbody
    exact ⟨front, hfront, malformed_values_iff (hsplit 0) pos⟩

/-- A string that is closed, between a reference and a number. -/
theorem values_passages_of_string :
    let args := ascii "later,\"a\\\"b\",1"
    let ps := [Passage.plain (ascii "later,"), .string (ascii "a\\\"b"), .plain (ascii ",1")]
    let st := Statement.data [0, 0x61, 0x22, 0x62, 1]
      [⟨0, .sized (.ref (.global (ascii "later"))) .byte⟩] ⟨[], 1⟩
    Passages args ps ∧ ps.flatMap Passage.text = args ∧ values {} .byte args ⟨[], 1⟩ = .ok st ∧
      ∃ parts, List.Forall₂ (Gives {} .byte) ps parts ∧
        st = .data (parts.flatMap Prod.fst) (parts.flatMap Prod.snd) ⟨[], 1⟩ := by
  intro args ps st
  have hbody : IsBody (ascii "a\\\"b") :=
    .byte (by decide) (by decide) (.escape 34 (.byte (by decide) (by decide) .nil))
  have hbefore : 34 ∉ ascii "later," := by decide
  have hafter : 34 ∉ ascii ",1" := by decide
  have hps : Passages args ps := .string hbefore hbody (.plain hafter)
  have hst : values {} .byte args ⟨[], 1⟩ = .ok st := by decide +kernel
  obtain ⟨htext, hparts, -⟩ := (values_passages {} .byte args ⟨[], 1⟩).2 ps hps
  exact ⟨hps, htext, hst, hparts st hst⟩

/-- A string that is not closed can be read as a number. -/
theorem exists_unclosed_value :
    ∃ args body : Text, Passages args [.plain [], .unclosed body] ∧
      values {} .byte args ⟨[], 1⟩ = .ok (.data [12] [] ⟨[], 1⟩) := by
  have hbody : IsBody (ascii "12") :=
    .byte (by decide) (by decide) (.byte (by decide) (by decide) .nil)
  have hps : Passages (34 :: ascii "12") [.plain [], .unclosed (ascii "12")] :=
    .unclosed List.not_mem_nil hbody (.inl rfl)
  have htrim : Text.trim (ascii "12") = ascii "12" :=
    @Text.trim_of_isInk [] (ascii "12") [] .nil .nil rfl rfl
  have hsplit : split (34 :: ascii "12") = [{value := ascii "12"}] := by
    have hitem := flush_of_ink (s := ascii "12") (by rw [htrim]; exact List.cons_ne_nil _ _)
    rw [htrim] at hitem
    calc split (34 :: ascii "12")
      _ = inside 0 [] (ascii "12") := split_quote (ascii "12")
      _ = flush (ascii "12").reverse := inside_unclosed hbody (.inl rfl) 0
      _ = [{value := ascii "12"}] := hitem
  have hread : Term.read {} (ascii "12") = .ok (.constant 12) :=
    ExprReader.read_of_unary? (by rw [ExprReader.unary?_eq]; rfl)
  have himage : image {} .byte 0 {value := ascii "12"} = .ok ([12], []) := by
    rw [image, readTerm, hread]
    rfl
  have himages : images {} .byte 0 [{value := ascii "12"}] = .ok ([12], []) := by
    rw [images, himage]
    rfl
  refine ⟨34 :: ascii "12", ascii "12", hps, ?_⟩
  rw [values_of_split hsplit (List.cons_ne_nil _ _), himages]
  rfl

end Directive
end Assembler65816
