import Assembler65816.Proofs.Assembly.Bounds

/-!
# Assembling in two passes

The first pass over the items under a top-level label settles where everything stands: `spots` gives
each item the number of bytes before it. That fixes the offset of every label, and with the offsets
the second pass can lay out all the parts. The main statement is that every chunk comes out as if it
had been made that way.
-/
namespace Assembler65816

/-- An item under a top-level label, with the labels known before it and the number of bytes. -/
structure Spot where
  labels : Labels
  offset : Nat
  item : Line.Item

namespace Spot

def statement (p : Spot) : Statement := p.item.statement p.labels

def parts (p : Spot) : List Part := p.item.parts p.labels

def identity? (p : Spot) : Option Ident := p.labels.identity? p.statement

def place (p : Spot) : Place := ⟨p.labels, p.offset, p.statement⟩

end Spot

/-- The first pass: items one after the other, from `u` on. -/
def spots (labels : Labels) (u : Nat) : List Line.Item → List Spot
  | [] => []
  | item :: items =>
    ⟨labels, u, item⟩ ::
      spots (labels.after (item.statement labels))
        (u + ((item.parts labels).map Part.width).sum) items

/-- The offset of the last item that defines `id`. -/
def offset? (ps : List Spot) (id : Ident) : Option Nat :=
  (ps.reverse.find? (·.identity? = some id)).map Spot.offset

def Labels.through (labels : Labels) (items : List Line.Item) : Labels :=
  items.foldl (fun l item => l.after (item.statement l)) labels

def Line.Item.top? : Line.Item → Option Text
  | ready (.topLabel name _ _) => some name
  | _ => none

theorem Part.length_initial_flatMap (parts : List Part) :
    (parts.flatMap initial).length = (parts.map width).sum := by
  induction parts with
  | nil => rfl
  | cons p parts ih =>
    rw [List.flatMap_cons, List.length_append, length_initial, ih, List.map_cons, List.sum_cons]

theorem spots_append (labels : Labels) (u : Nat) (items : List Line.Item) (item : Line.Item) :
    ∃ v, spots labels u (items ++ [item]) =
      spots labels u items ++ [⟨labels.through items, v, item⟩] := by
  induction items generalizing labels u with
  | nil => exact ⟨u, rfl⟩
  | cons first items ih =>
    obtain ⟨v, hv⟩ := ih (labels.after (first.statement labels))
      (u + ((first.parts labels).map Part.width).sum)
    refine ⟨v, ?_⟩
    rw [List.cons_append, spots, hv]
    rfl

/-- Every spot of a section without faults is a row of parts. -/
theorem row_of_mem_spots (label : Text) {items : List Line.Item}
    (hitems : ∀ item ∈ items, item.Lawful) {labels : Labels} {u : Nat}
    (hfaults : ((spots labels u items).map Spot.statement).flatMap (Statement.faults label) = []) :
    ∀ p ∈ spots labels u items, p.statement.Row p.offset p.parts := by
  induction items generalizing labels u with
  | nil =>
    intro p hp
    cases hp
  | cons item items ih =>
    have hrest : ∀ it ∈ items, it.Lawful := fun it h => hitems it (List.mem_cons_of_mem item h)
    rw [spots, List.map_cons, List.flatMap_cons, List.append_eq_nil_iff] at hfaults
    intro p hp
    rcases List.mem_cons.1 hp with rfl | hp
    · exact Line.Item.row (hitems item List.mem_cons_self) labels hfaults.1 u
    · exact ih hrest hfaults.2 p hp

section Places
variable {labels : Labels} {u : Nat} {items : List Line.Item}
  (hrows : ∀ p ∈ spots labels u items, p.statement.Row p.offset p.parts)

include hrows

/-- The spots are the places of the statements. -/
theorem places_spots :
    places labels u ((spots labels u items).map Spot.statement) =
      (spots labels u items).map Spot.place := by
  induction items generalizing labels u with
  | nil => rfl
  | cons item items ih =>
    have hfirst := (hrows _ List.mem_cons_self).image
    have hlength : ((item.statement labels).image).length =
        ((item.parts labels).map Part.width).sum := by
      rw [← Part.length_initial_flatMap]
      exact congrArg List.length hfirst
    have hrest := ih fun p hp => hrows p (List.mem_cons_of_mem _ hp)
    rw [spots, List.map_cons, List.map_cons, ← hrest, ← hlength]
    rfl

theorem image_spots :
    ((spots labels u items).map Spot.statement).flatMap Statement.image =
      ((spots labels u items).flatMap Spot.parts).flatMap Part.initial := by
  induction items generalizing labels u with
  | nil => rfl
  | cons item items ih =>
    have hfirst := (hrows _ List.mem_cons_self).image
    have hrest := ih fun p hp => hrows p (List.mem_cons_of_mem _ hp)
    rw [spots, List.map_cons, List.flatMap_cons, List.flatMap_cons, List.flatMap_append, hrest,
      hfirst]

theorem openFields_spots :
    (spots labels u items).flatMap (fun p => p.statement.openFields p.offset) =
      Part.openFrom u ((spots labels u items).flatMap Spot.parts) := by
  induction items generalizing labels u with
  | nil => rfl
  | cons item items ih =>
    have hfirst := (hrows _ List.mem_cons_self).openFields
    have hrest := ih fun p hp => hrows p (List.mem_cons_of_mem _ hp)
    rw [spots, List.flatMap_cons, List.flatMap_cons, Part.openFrom_append, hrest, hfirst,
      Part.length_initial_flatMap]
    rfl

end Places

/-- The table of offsets holds the last definition of every label. -/
theorem lookup_marks (ps : List Spot) (id : Ident) :
    ((ps.map Spot.place).filterMap Place.mark?).reverse.lookup id = offset? ps id := by
  unfold offset?
  rw [← List.filterMap_reverse, ← List.map_reverse]
  induction ps.reverse with
  | nil => rfl
  | cons p ps ih =>
    have hmark : p.place.mark? = p.identity?.map (·, p.offset) := rfl
    rw [List.map_cons, List.filterMap_cons, hmark]
    cases hid : p.identity? with
    | none =>
      rw [List.find?_cons_of_neg (by simp [hid]), ← ih]
      rfl
    | some id' =>
      rw [Option.map_some, List.lookup_cons]
      by_cases he : id = id'
      · subst he
        rw [List.find?_cons_of_pos (by simp [hid])]
        simp
      · rw [List.find?_cons_of_neg (by simpa [hid] using Ne.symm he), ← ih,
          beq_eq_false_iff_ne.2 he]

/-- The bytes and the open fields of a section without faults are those of its parts, and its table
of offsets says where the labels are. -/
theorem Section.row_spots {s : Section} {items : List Line.Item}
    (hitems : ∀ item ∈ items, item.Lawful)
    (hbody : s.body = (spots s.labels 0 items).map Spot.statement) (hfaults : s.faults = []) :
    let ps := spots s.labels 0 items
    let parts := ps.flatMap Spot.parts
    s.bytes = parts.flatMap Part.initial ∧ s.fixups = Part.openFrom 0 parts ∧
      (fun id => s.offsets.lookup id) = offset? ps ∧ ∀ part ∈ parts, part.Valid := by
  intro ps parts
  have hrows : ∀ p ∈ ps, p.statement.Row p.offset p.parts := by
    apply row_of_mem_spots s.label hitems
    rw [← hbody]
    exact hfaults
  have hplaces : s.places = ps.map Spot.place := by
    rw [Section.places, hbody]
    exact places_spots hrows
  refine ⟨?_, ?_, ?_, fun part hpart => ?_⟩
  · rw [Section.bytes, hbody]
    exact image_spots hrows
  · rw [Section.fixups, hplaces, List.flatMap_map]
    exact openFields_spots hrows
  · funext id
    rw [Section.offsets, hplaces]
    exact lookup_marks ps id
  · obtain ⟨p, hp, hpart⟩ := List.mem_flatMap.1 hpart
    exact (hrows p hp).valid part hpart

/-- Assembling a section without faults lays out its parts. -/
theorem Section.laid_of_length_bytes {s : Section} {items : List Line.Item}
    (hitems : ∀ item ∈ items, item.Lawful)
    (hbody : s.body = (spots s.labels 0 items).map Spot.statement) (hfaults : s.faults = [])
    (hfixups : s.fixupFaults = []) (hL : s.bytes.length < 2 ^ 63) :
    let ps := spots s.labels 0 items
    Laid (offset? ps) 0 (ps.flatMap Spot.parts) s.segment.chunk.bytes s.segment.chunk.fixups := by
  intro ps
  let parts := ps.flatMap Spot.parts
  obtain ⟨hbytes, hopen, hoffsets, hvalid⟩ := Section.row_spots hitems hbody hfaults
  rw [Section.fixupFaults, hopen] at hfixups
  obtain ⟨bytes, hfold, hlaid⟩ : PatchedAfter s.label s.offsets s.bytes.length [] parts :=
    patchedAfter_of_outcomes hvalid (by rw [← hbytes, List.length_nil, Nat.zero_add]; exact hL)
      (by rw [← hbytes, List.length_nil, Nat.zero_add]) hfixups
  have hchunk : s.segment.chunk.bytes = bytes := by
    have h : s.segment.chunk.bytes =
        (s.fixups.map (Fixup.resolve s.label s.offsets s.bytes.length)).foldl Resolution.apply
          s.bytes := rfl
    rw [h, hopen]
    calc
      _ = ((Part.openFrom 0 parts).map (Fixup.resolve s.label s.offsets s.bytes.length)).foldl
            Resolution.apply ([] ++ parts.flatMap Part.initial) := by rw [List.nil_append, ← hbytes]
      _ = bytes := hfold
  have houtgoing : s.segment.chunk.fixups =
      ((Part.openFrom 0 parts).map (Fixup.resolve s.label s.offsets s.bytes.length)).filterMap
        Resolution.outgoing? := by
    rw [← hopen]
    rfl
  rw [hchunk, houtgoing, ← hoffsets]
  exact hlaid

theorem Section.laid {s : Section} {items : List Line.Item} (hitems : ∀ item ∈ items, item.Lawful)
    (hbody : s.body = (spots s.labels 0 items).map Spot.statement) (hfaults : s.faults = [])
    (hfixups : s.fixupFaults = []) (hlength : s.segment.chunk.bytes.length < 2 ^ 63) :
    let ps := spots s.labels 0 items
    Laid (offset? ps) 0 (ps.flatMap Spot.parts) s.segment.chunk.bytes s.segment.chunk.fixups :=
  Section.laid_of_length_bytes hitems hbody hfaults hfixups
    (Nat.lt_of_le_of_lt (length_le_foldl_apply _ _) hlength)

/-- Whether `body` is all that stands under one top-level label, where `root` is the name of what
stands under none. -/
structure Stretch (root : Text) (items : List Line.Item) (label : Text)
    (before body after : List Line.Item) : Prop where
  items_eq : items = before ++ body ++ after
  label_eq : before = [] ∧ label = root ∨
    ∃ earlier top, before = earlier ++ [top] ∧ top.top? = some label
  body_top : ∀ item ∈ body, item.top? = none
  after_top : ∀ item ∈ after.head?, item.top?.isSome

theorem Line.Item.isTop_statement {item : Line.Item} (h : item.Lawful) (labels : Labels) :
    (item.statement labels).isTop = item.top?.isSome := by
  cases h with
  | label attributes pos head =>
    cases head with
    | anonymous direction count => cases direction <;> rfl
    | _ => rfl
  | unreadable cause fatal pos => rfl
  | written s pos =>
    cases hread : Statement.read labels s pos with
    | error cause => simp only [statement, hread, Statement.isTop, top?, Option.isSome_none]
    | ok st =>
      simp only [statement, hread, top?, Option.isSome_none]
      rcases Statement.read_eq_ok hread with ⟨name, s', t, -, rfl⟩ |
        ⟨size, items, bytes, refs, -, -, rfl⟩ | ⟨bytes, -, rfl⟩ | ⟨i, rfl, -⟩ <;> rfl

theorem Line.Item.eq_of_top? {item : Line.Item} (h : item.top?.isSome) :
    ∃ name attributes pos, item = .ready (.topLabel name attributes pos) := by
  unfold top? at h
  split at h
  · exact ⟨_, _, _, rfl⟩
  · cases h

theorem foldl_after_spots (labels : Labels) (u : Nat) (items : List Line.Item) :
    ((spots labels u items).map Spot.statement).foldl Labels.after labels =
      labels.through items := by
  induction items generalizing labels u with
  | nil => rfl
  | cons item items ih => exact ih _ _

/-- Whether a chunk is what one of the stretches of some items assembles to, where `labels` are
known before the first item. -/
def FromStretch (labels : Labels) (root : Text) (items : List Line.Item) (label : Text)
    (c : Chunk) : Prop :=
  ∃ before body after, Stretch root items label before body after ∧
    ∃ s : Section, s.labels = labels.through before ∧
      s.body = (spots s.labels 0 body).map Spot.statement ∧
      s.faults = [] ∧ s.fixupFaults = [] ∧ c = s.segment.chunk

theorem FromStretch.of_outputs {s : Section} {body after : List Line.Item} {label : Text}
    {c : Chunk} (hbody : s.body = (spots s.labels 0 body).map Spot.statement)
    (htop : ∀ item ∈ body, item.top? = none) (hafter : ∀ item ∈ after.head?, item.top?.isSome)
    (h : .chunk label c ∈ s.outputs) : FromStretch s.labels s.label (body ++ after) label c := by
  obtain ⟨rfl, rfl, hfaults, hfixups⟩ := Section.chunk_mem_outputs h
  exact ⟨[], body, after, ⟨rfl, .inl ⟨rfl, rfl⟩, htop, hafter⟩, s, rfl, hbody, hfaults, hfixups,
    rfl⟩

/-- Items before a top-level label leave the stretches after it alone. -/
theorem FromStretch.of_top {labels : Labels} {root name label : Text} {c : Chunk}
    {sofar items : List Line.Item} {attributes : List Attribute} {pos : Position}
    (h : FromStretch (labels.through sofar).enterScope name items label c) :
    FromStretch labels root (sofar ++ .ready (.topLabel name attributes pos) :: items) label c := by
  obtain ⟨before, body, after, hstretch, s, hlabels, hs⟩ := h
  have hthrough : labels.through (sofar ++ .ready (.topLabel name attributes pos) :: before) =
      (labels.through sofar).enterScope.through before := by
    simp only [Labels.through, List.foldl_append, List.foldl_cons]
    rfl
  refine ⟨sofar ++ .ready (.topLabel name attributes pos) :: before, body, after, ?_, s,
    hlabels.trans hthrough.symm, hs⟩
  refine ⟨?_, .inr ?_, hstretch.body_top, hstretch.after_top⟩
  · rw [hstretch.items_eq]
    simp only [List.append_assoc, List.cons_append]
  · rcases hstretch.label_eq with ⟨rfl, rfl⟩ | ⟨earlier, top, rfl, htop⟩
    · exact ⟨sofar, _, rfl, rfl⟩
    · refine ⟨sofar ++ .ready (.topLabel name attributes pos) :: earlier, top, ?_, htop⟩
      simp only [List.append_assoc, List.cons_append]

/-- Every chunk comes from a stretch of the items. `sofar` holds the items of the open section. -/
theorem fromStretch_of_mem_total (s : Section) (sofar : List Line.Item)
    {items : List Line.Item} (hlawful : ∀ item ∈ items, item.Lawful)
    (hbody : s.body = (spots s.labels 0 sofar).map Spot.statement)
    (hsofar : ∀ item ∈ sofar, item.top? = none) {label : Text} {c : Chunk}
    (h : .chunk label c ∈ s.total ((reads s.exit items).map Pull.statement)) :
    FromStretch s.labels s.label (sofar ++ items) label c := by
  induction items generalizing s sofar with
  | nil => exact .of_outputs hbody hsofar (fun item hitem => by cases hitem) h
  | cons item items ih =>
    have hrest : ∀ it ∈ items, it.Lawful := fun it hit => hlawful it (List.mem_cons_of_mem item hit)
    have htop := Line.Item.isTop_statement (hlawful item List.mem_cons_self) s.exit
    have hexit : s.exit = s.labels.through sofar := by
      rw [Section.exit, hbody]
      exact foldl_after_spots s.labels 0 sofar
    rw [reads, List.map_cons] at h
    by_cases hfatal : (item.statement s.exit).isFatal
    · obtain ⟨cause, pos, hst⟩ := Statement.exists_of_isFatal hfatal
      rw [hst, Section.total_fatal] at h
      exact absurd h (s.chunk_notMem_abandoned label c cause pos)
    rw [if_neg hfatal] at h
    cases hname : item.top?.isSome with
    | true =>
      obtain ⟨name, attributes, pos, rfl⟩ := Line.Item.eq_of_top? hname
      have hst : (Line.Item.ready (.topLabel name attributes pos)).statement s.exit =
          .topLabel name attributes pos := rfl
      rw [hst, Section.total_top] at h
      rcases List.mem_append.1 h with h | h
      · exact .of_outputs hbody hsofar (fun it hit => by cases hit; rfl) h
      · apply FromStretch.of_top
        rw [← hexit]
        exact ih {labels := s.exit.enterScope, label := name, attributes} [] hrest rfl
          (fun it hit => by cases hit) h
    | false =>
      rw [hname] at htop
      rw [Section.total_add _ _ htop (Bool.not_eq_true _ ▸ hfatal), ← Section.exit_add] at h
      have hadd : (s.add (item.statement s.exit)).body =
          (spots s.labels 0 (sofar ++ [item])).map Spot.statement := by
        obtain ⟨v, hv⟩ := spots_append s.labels 0 sofar item
        rw [hv, List.map_append, ← hbody, hexit]
        rfl
      have hmem := ih (s.add (item.statement s.exit)) (sofar ++ [item]) hrest hadd
        (fun it hit => ?_) h
      · rwa [List.append_assoc] at hmem
      · rcases List.mem_append.1 hit with hit | hit
        · exact hsofar it hit
        · cases List.mem_singleton.1 hit
          exact Option.isSome_eq_false_iff.1 hname |> Option.isNone_iff_eq_none.1

/-- Assembling a text is a correct two-pass assembly. A chunk is made from the items under one
top-level label. Its bytes are the parts of these items one after the other, and each field in it
holds its value or a displacement that fits, or else zeros and a fixup of the chunk. -/
theorem chunk_laid {file source root label : Text} {failure : Option Text} {c : Chunk}
    (hc : .chunk label c ∈ assemble (.text (Reader.ofText file source failure)) {} root)
    (hlength : c.bytes.length < 2 ^ 63) :
    ∃ before body after,
      Stretch (if root.isEmpty then Assembly.rootLabel else root)
        (Reader.ofText file source failure).items label before body after ∧
      let ps := spots (Labels.through {} before) 0 body
      Laid (offset? ps) 0 (ps.flatMap Spot.parts) c.bytes c.fixups := by
  have hlawful := Reader.lawful_items_ofText file source failure
  rw [assemble, run_start hlawful, Reader.pulls_start hlawful] at hc
  obtain ⟨before, body, after, hstretch, s, hlabels, hbody, hfaults, hfixups, rfl⟩ :=
    fromStretch_of_mem_total (Section.root {} root) [] hlawful rfl
      (fun item hitem => by cases hitem) hc
  refine ⟨before, body, after, hstretch, ?_⟩
  have hbodyLawful : ∀ item ∈ body, item.Lawful := by
    intro item hitem
    apply hlawful
    rw [show (Reader.ofText file source failure).items = before ++ body ++ after from
      hstretch.items_eq]
    simp [hitem]
  have hlaid := Section.laid hbodyLawful hbody hfaults hfixups hlength
  rw [hlabels] at hlaid
  exact hlaid

/-- A branch to a label further on is patched, a jump to a symbol elsewhere is left open. -/
theorem chunk_laid_branch :
    let source := ascii "a: bne +\n jmp b\n+ nop\n"
    let fixup : Fixup := ⟨3, .sized (.ref (.global (ascii "b"))) .word, true⟩
    let c : Chunk := {bytes := [0xD0, 3, 0x4C, 0, 0, 0xEA], fixups := [fixup]}
    .chunk (ascii "a") c ∈ assemble (.text (Reader.ofText [] source none)) {} [] ∧
      c.bytes.length < 2 ^ 63 ∧
      ∃ before body after,
        Stretch Assembly.rootLabel (Reader.ofText [] source none).items (ascii "a") before body
          after ∧
        let ps := spots (Labels.through {} before) 0 body
        Laid (offset? ps) 0 (ps.flatMap Spot.parts) c.bytes c.fixups := by
  intro source fixup c
  have hmem : .chunk (ascii "a") c ∈ assemble (.text (Reader.ofText [] source none)) {} [] := by
    decide +kernel
  have hlength : c.bytes.length < 2 ^ 63 := by decide
  exact ⟨hmem, hlength, chunk_laid hmem hlength⟩

end Assembler65816
