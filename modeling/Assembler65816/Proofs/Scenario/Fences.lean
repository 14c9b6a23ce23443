import Mathlib.Data.List.Forall2
import Assembler65816.Proofs.Except
import Assembler65816.Scenario.Basic

/-!
# The fences of a document and its scenarios

A document falls into the blocks before its first test and the tests, each of them a heading and the
blocks up to the next such heading. This module says without any bookkeeping which documents can be
read, and what is read from them. The main statement is that the scenarios are those of the tests,
one for each and in order: each text of a scenario is the content of the last fence of its language,
and the other fences of that language, if there are any, are empty. Only a document in which some
test is not like that, or lacks a source, or in which a fence stands before the first test or has
another language, cannot be read.
-/
namespace Assembler65816

namespace Block

def isTest : Block → Bool
  | heading title _ => (ascii "Test: ").isPrefixOf title
  | fence .. => false

def language? : Block → Option Text
  | heading .. => none
  | fence language _ _ => if language.isEmpty then none else some language

def content? (role : Scenario.Role) : Block → Option Text
  | heading .. => none
  | fence language body _ =>
    if language = role.language then some (Scenario.content body) else none

theorem isTest_heading {title : Text} {line : Nat} :
    (heading title line).isTest ↔ ∃ rest, title = ascii "Test: " ++ rest := by
  rw [isTest, List.isPrefixOf_iff_prefix]
  constructor
  · rintro ⟨rest, hrest⟩
    exact ⟨rest, hrest.symm⟩
  · rintro ⟨rest, rfl⟩
    exact ⟨rest, rfl⟩

end Block

namespace Scenario

/-- A heading and the blocks up to the next test. -/
structure Test where
  /-- What follows the word in the heading. -/
  heading : Text
  line : Nat
  body : List Block

namespace Test

def blocks (t : Test) : List Block := .heading (ascii "Test: " ++ t.heading) t.line :: t.body

def contents (t : Test) (role : Role) : List Text := t.body.filterMap (Block.content? role)

end Test

/-- Whether the blocks are those before the first test and those of the tests. -/
structure Divides (blocks before : List Block) (tests : List Test) : Prop where
  eq_append : blocks = before ++ tests.flatMap Test.blocks
  before_plain : ∀ b ∈ before, b.isTest = false
  body_plain : ∀ t ∈ tests, ∀ b ∈ t.body, b.isTest = false

/-- Whether the scenario is what a test says. -/
structure Describes (t : Test) (s : Scenario) : Prop where
  name_eq : s.name = t.heading.trim
  line_eq : s.line = t.line
  known : ∀ b ∈ t.body, ∀ language ∈ b.language?, ∃ role : Role, language = role.language
  /-- Only the last fence of a language has content. -/
  rest_empty : ∀ role, ∀ text ∈ (t.contents role).dropLast, text = []
  get_eq : ∀ role, s.get role = (t.contents role).getLast?.getD []
  source_ne : s.source ≠ []

section Divides
variable {b : Block} {blocks before : List Block} {tests : List Test}

theorem divides_nil : Divides [] before tests ↔ before = [] ∧ tests = [] := by
  constructor
  · rintro ⟨heq, -, -⟩
    obtain ⟨rfl, htests⟩ := List.append_eq_nil_iff.1 heq.symm
    cases tests with
    | nil => exact ⟨rfl, rfl⟩
    | cons t tests => cases htests
  · rintro ⟨rfl, rfl⟩
    exact ⟨rfl, by simp, by simp⟩

/-- A block that is no test belongs to what stands before the first one. -/
theorem divides_cons_of_not_isTest (hb : b.isTest = false) :
    Divides (b :: blocks) before tests ↔
      ∃ before', before = b :: before' ∧ Divides blocks before' tests := by
  constructor
  · rintro ⟨heq, hbefore, hbody⟩
    cases before with
    | nil =>
      cases tests with
      | nil => cases heq
      | cons t tests =>
        obtain ⟨rfl, -⟩ := List.cons.inj heq
        rw [Block.isTest_heading.2 ⟨t.heading, rfl⟩] at hb
        cases hb
    | cons b' before' =>
      obtain ⟨rfl, hrest⟩ := List.cons.inj heq
      exact ⟨before', rfl, hrest, fun c hc => hbefore c (List.mem_cons_of_mem b hc), hbody⟩
  · rintro ⟨before', rfl, heq, hbefore, hbody⟩
    refine ⟨congrArg (b :: ·) heq, fun c hc => ?_, hbody⟩
    rcases List.mem_cons.1 hc with rfl | hc
    · exact hb
    · exact hbefore c hc

/-- A heading of a test starts one, and what stands before the next one is its body. -/
theorem divides_cons_test {heading : Text} {line : Nat} :
    Divides (.heading (ascii "Test: " ++ heading) line :: blocks) before tests ↔
      before = [] ∧ ∃ body tests', tests = ⟨heading, line, body⟩ :: tests' ∧
        Divides blocks body tests' := by
  have htest : (Block.heading (ascii "Test: " ++ heading) line).isTest :=
    Block.isTest_heading.2 ⟨heading, rfl⟩
  constructor
  · rintro ⟨heq, hbefore, hbody⟩
    cases before with
    | cons b before' =>
      obtain ⟨rfl, -⟩ := List.cons.inj heq
      rw [hbefore _ List.mem_cons_self] at htest
      cases htest
    | nil =>
      cases tests with
      | nil => cases heq
      | cons t tests' =>
        obtain ⟨hhead, htail⟩ := List.cons.inj heq
        obtain ⟨htitle, rfl⟩ := Block.heading.inj hhead
        cases List.append_cancel_left htitle
        exact ⟨rfl, t.body, tests', rfl, htail, hbody t List.mem_cons_self,
          fun t' ht' => hbody t' (List.mem_cons_of_mem t ht')⟩
  · rintro ⟨rfl, body, tests', rfl, heq, hbefore, hbody⟩
    refine ⟨congrArg (_ :: ·) heq, by simp, fun t ht => ?_⟩
    rcases List.mem_cons.1 ht with rfl | ht
    · exact hbefore
    · exact hbody t ht

end Divides

theorem Role.language_ne_nil (role : Role) : role.language ≠ [] := by
  cases role <;> decide

theorem Role.language_inj {role role' : Role} : role.language = role'.language ↔ role = role' := by
  cases role <;> cases role' <;> decide

theorem Role.ofLanguage?_eq_some {language : Text} {role : Role} :
    Role.ofLanguage? language = some role ↔ language = role.language := by
  constructor
  · intro h
    have hfound := List.find?_some h
    exact (eq_of_beq hfound).symm
  · rintro rfl
    cases role <;> decide

theorem nameOf?_eq_some {title name : Text} :
    nameOf? title = some name ↔ ∃ rest, title = ascii "Test: " ++ rest ∧ name = rest.trim := by
  rw [nameOf?, Option.map_eq_some_iff]
  simp only [Text.after?_eq_some, eq_comm (a := name)]

theorem name_set (s : Scenario) (body : Text) (role : Role) : (s.set body role).name = s.name := by
  cases role <;> rfl

theorem line_set (s : Scenario) (body : Text) (role : Role) : (s.set body role).line = s.line := by
  cases role <;> rfl

theorem get_set (s : Scenario) (body : Text) (role role' : Role) :
    (s.set body role).get role' = if role' = role then body else s.get role' := by
  cases role <;> cases role' <;> rfl

theorem ext_get {s s' : Scenario} (hname : s.name = s'.name) (hline : s.line = s'.line)
    (hget : ∀ role, s.get role = s'.get role) : s = s' := by
  cases s
  cases s'
  cases hname
  cases hline
  cases hget .source
  cases hget .chunks
  cases hget .errors
  rfl

/-- Whether one fence after the other, each allowed to replace an empty text only, turns a text into
another. -/
def Replaces (contents : List Text) (old new : Text) : Prop :=
  (∀ text ∈ (old :: contents).dropLast, text = []) ∧ new = contents.getLastD old

section Replaces
variable {c old new : Text} {contents : List Text}

theorem replaces_nil : Replaces [] old new ↔ new = old := by
  simp [Replaces]

theorem replaces_cons : Replaces (c :: contents) old new ↔ old = [] ∧ Replaces contents c new := by
  rw [Replaces, List.dropLast_cons_cons, List.forall_mem_cons, List.getLastD_cons, and_assoc]
  rfl

/-- From no text, it is the last fence that counts. -/
theorem replaces_empty :
    Replaces contents [] new ↔
      (∀ text ∈ contents.dropLast, text = []) ∧ new = contents.getLast?.getD [] := by
  cases contents with
  | nil => simp [Replaces]
  | cons c contents =>
    rw [replaces_cons, Replaces, List.getLastD_eq_getLast?, List.getLast?_cons, Option.getD_some]
    simp

end Replaces

/-- Whether `s'` is what becomes of `s` with the fences of more blocks. -/
structure Fills (body : List Block) (s s' : Scenario) : Prop where
  name_eq : s'.name = s.name
  line_eq : s'.line = s.line
  known : ∀ b ∈ body, ∀ language ∈ b.language?, ∃ role : Role, language = role.language
  replaces : ∀ role, Replaces (body.filterMap (Block.content? role)) (s.get role) (s'.get role)

section Fills
variable {s s' : Scenario} {b : Block} {body : List Block}

theorem fills_nil : Fills [] s s' ↔ s' = s := by
  constructor
  · rintro ⟨hname, hline, -, hreplaces⟩
    exact ext_get hname hline fun role => replaces_nil.1 (hreplaces role)
  · rintro rfl
    exact ⟨rfl, rfl, by simp, fun role => replaces_nil.2 rfl⟩

/-- Headings and fences without a language say nothing. -/
theorem content?_of_language? (hb : b.language? = none) (role : Role) : b.content? role = none := by
  cases b with
  | heading title line => rfl
  | fence language text line =>
    have hlanguage : language = [] := by
      by_contra hne
      simp [Block.language?, hne] at hb
    rw [Block.content?, if_neg]
    rw [hlanguage]
    exact role.language_ne_nil.symm

theorem fills_cons_of_language? (hb : b.language? = none) :
    Fills (b :: body) s s' ↔ Fills body s s' := by
  have hcontents : ∀ role, (b :: body).filterMap (Block.content? role) =
      body.filterMap (Block.content? role) :=
    fun role => List.filterMap_cons_none (content?_of_language? hb role)
  constructor
  · rintro ⟨hname, hline, hknown, hreplaces⟩
    simp only [hcontents] at hreplaces
    exact ⟨hname, hline, (List.forall_mem_cons.1 hknown).2, hreplaces⟩
  · rintro ⟨hname, hline, hknown, hreplaces⟩
    refine ⟨hname, hline, List.forall_mem_cons.2 ⟨?_, hknown⟩, by simpa only [hcontents]⟩
    rw [hb]
    exact fun language hnone => absurd hnone (Option.not_mem_none language)

theorem filterMap_content?_fence {role role' : Role} {text : Text} {line : Nat} :
    (Block.fence role.language text line :: body).filterMap (Block.content? role') =
      if role' = role then content text :: body.filterMap (Block.content? role')
      else body.filterMap (Block.content? role') := by
  split
  · next heq =>
    rw [heq]
    exact List.filterMap_cons_some (if_pos rfl)
  · next hne => exact List.filterMap_cons_none (if_neg fun h => hne (Role.language_inj.1 h).symm)

/-- The first fence replaces the text of its role and leaves the other texts alone. -/
theorem replaces_cons_fence {role : Role} {text : Text} {line : Nat} :
    (∀ role', Replaces ((Block.fence role.language text line :: body).filterMap
        (Block.content? role')) (s.get role') (s'.get role')) ↔
      s.get role = [] ∧ ∀ role', Replaces (body.filterMap (Block.content? role'))
        ((s.set (content text) role).get role') (s'.get role') := by
  simp only [filterMap_content?_fence, get_set]
  constructor
  · intro h
    have hrole := h role
    rw [if_pos rfl, replaces_cons] at hrole
    refine ⟨hrole.1, fun role' => ?_⟩
    by_cases heq : role' = role
    · rw [if_pos heq, heq]
      exact hrole.2
    · have hother := h role'
      rw [if_neg heq] at hother
      rwa [if_neg heq]
  · rintro ⟨hempty, h⟩ role'
    have hrole := h role'
    by_cases heq : role' = role
    · rw [if_pos heq, heq] at hrole
      rw [if_pos heq, heq, replaces_cons]
      exact ⟨hempty, hrole⟩
    · rw [if_neg heq] at hrole
      rwa [if_neg heq]

/-- A fence finds the text of its role empty and sets it. -/
theorem fills_cons_fence {role : Role} {text : Text} {line : Nat} :
    Fills (.fence role.language text line :: body) s s' ↔
      s.get role = [] ∧ Fills body (s.set (content text) role) s' := by
  have hknown : ∀ language ∈ (Block.fence role.language text line).language?,
      ∃ role : Role, language = role.language := by
    intro language hlanguage
    refine ⟨role, ?_⟩
    rw [Block.language?, List.isEmpty_eq_false_iff.2 role.language_ne_nil] at hlanguage
    exact (Option.some.inj hlanguage).symm
  constructor
  · rintro ⟨hname, hline, hall, h⟩
    obtain ⟨hempty, h⟩ := replaces_cons_fence.1 h
    exact ⟨hempty, hname.trans (name_set ..).symm, hline.trans (line_set ..).symm,
      (List.forall_mem_cons.1 hall).2, h⟩
  · rintro ⟨hempty, hname, hline, hall, h⟩
    exact ⟨hname.trans (name_set ..), hline.trans (line_set ..),
      List.forall_mem_cons.2 ⟨hknown, hall⟩, replaces_cons_fence.2 ⟨hempty, h⟩⟩

end Fills

/-- Whether the blocks before the next test leave these scenarios of the one at hand, if there is
one. -/
def Absorbs (current : Option Scenario) (body : List Block) (first : List Scenario) : Prop :=
  match current with
  | none => (∀ b ∈ body, b.language? = none) ∧ first = []
  | some s => ∃ s', Fills body s s' ∧ first = [s']

def Test.opening (t : Test) : Scenario := {name := t.heading.trim, line := t.line}

section Absorbs
variable {current : Option Scenario} {b : Block} {body : List Block} {first : List Scenario}

theorem absorbs_nil : Absorbs current [] first ↔ first = current.toList := by
  cases current with
  | none => simp [Absorbs]
  | some s => simp [Absorbs, fills_nil]

theorem absorbs_cons_of_language? (hb : b.language? = none) :
    Absorbs current (b :: body) first ↔ Absorbs current body first := by
  cases current with
  | none => simp [Absorbs, hb]
  | some s => simp only [Absorbs, fills_cons_of_language? hb]

theorem not_absorbs_unknown {language : Text} (hb : b.language? = some language)
    (h : ∀ role : Role, language ≠ role.language) : ¬Absorbs current (b :: body) first := by
  cases current with
  | none =>
    rintro ⟨hplain, -⟩
    rw [hplain b List.mem_cons_self] at hb
    cases hb
  | some s =>
    rintro ⟨s', hfills, -⟩
    obtain ⟨role, hrole⟩ := hfills.known b List.mem_cons_self language hb
    exact h role hrole

end Absorbs

/-- Whether blocks give these scenarios: first the one at hand, then one for each test. -/
def Collects (current : Option Scenario) (blocks : List Block) (scenarios : List Scenario) : Prop :=
  ∃ body tests first rest, Divides blocks body tests ∧ Absorbs current body first ∧
    List.Forall₂ (fun t s => Fills t.body t.opening s) tests rest ∧ scenarios = first ++ rest

section Collects
variable {current : Option Scenario} {b : Block} {blocks : List Block} {scenarios : List Scenario}

theorem collects_nil : Collects current [] scenarios ↔ scenarios = current.toList := by
  constructor
  · rintro ⟨body, tests, first, rest, hdivides, habsorbs, hrest, rfl⟩
    obtain ⟨rfl, rfl⟩ := divides_nil.1 hdivides
    cases hrest
    rw [absorbs_nil.1 habsorbs, List.append_nil]
  · rintro rfl
    exact ⟨[], [], current.toList, [], divides_nil.2 ⟨rfl, rfl⟩, absorbs_nil.2 rfl, .nil,
      (List.append_nil _).symm⟩

/-- A block that is no test matters only to the scenario at hand. -/
theorem collects_cons_iff (current' : Option Scenario) (hb : b.isTest = false)
    (h : ∀ body first, Absorbs current (b :: body) first ↔ Absorbs current' body first) :
    Collects current (b :: blocks) scenarios ↔ Collects current' blocks scenarios := by
  constructor
  · rintro ⟨body, tests, first, rest, hdivides, habsorbs, hrest, rfl⟩
    obtain ⟨body', rfl, hdivides'⟩ := (divides_cons_of_not_isTest hb).1 hdivides
    exact ⟨body', tests, first, rest, hdivides', (h body' first).1 habsorbs, hrest, rfl⟩
  · rintro ⟨body, tests, first, rest, hdivides, habsorbs, hrest, rfl⟩
    exact ⟨b :: body, tests, first, rest, (divides_cons_of_not_isTest hb).2 ⟨body, rfl, hdivides⟩,
      (h body first).2 habsorbs, hrest, rfl⟩

theorem not_collects_cons (hb : b.isTest = false)
    (h : ∀ body first, ¬Absorbs current (b :: body) first) :
    ¬Collects current (b :: blocks) scenarios := by
  rintro ⟨body, tests, first, rest, hdivides, habsorbs, -, -⟩
  obtain ⟨body', rfl, -⟩ := (divides_cons_of_not_isTest hb).1 hdivides
  exact h body' first habsorbs

theorem collects_cons_test {heading : Text} {line : Nat} :
    Collects current (.heading (ascii "Test: " ++ heading) line :: blocks) scenarios ↔
      ∃ rest, Collects (some {name := heading.trim, line}) blocks rest ∧
        current.toList ++ rest = scenarios := by
  constructor
  · rintro ⟨body, tests, first, rest, hdivides, habsorbs, hrest, rfl⟩
    obtain ⟨rfl, body', tests', rfl, hdivides'⟩ := divides_cons_test.1 hdivides
    cases hrest with
    | cons hs hrest =>
      rename_i s rest
      rw [absorbs_nil.1 habsorbs]
      exact ⟨s :: rest, ⟨body', tests', [s], rest, hdivides', ⟨s, hs, rfl⟩, hrest, rfl⟩, rfl⟩
  · rintro ⟨rest, ⟨body, tests, first, rest', hdivides, ⟨s, hs, rfl⟩, hrest, rfl⟩, rfl⟩
    exact ⟨[], ⟨heading, line, body⟩ :: tests, current.toList, s :: rest',
      divides_cons_test.2 ⟨rfl, body, tests, rfl, hdivides⟩, absorbs_nil.2 rfl, .cons hs hrest, rfl⟩

end Collects

section Collect
variable {blocks : List Block} (ih : ∀ {current scenarios},
  collect current blocks = .ok scenarios ↔ Collects current blocks scenarios)
  {current : Option Scenario} {scenarios : List Scenario} {line : Nat}
include ih

theorem collect_heading_iff {title : Text} :
    collect current (.heading title line :: blocks) = .ok scenarios ↔
      Collects current (.heading title line :: blocks) scenarios := by
  rw [collect]
  cases hname : nameOf? title with
  | none =>
    have hplain : (Block.heading title line).isTest = false := by
      rw [← Bool.not_eq_true, Block.isTest_heading]
      rintro ⟨rest, hrest⟩
      rw [nameOf?_eq_some.2 ⟨rest, hrest, rfl⟩] at hname
      cases hname
    rw [collects_cons_iff current hplain fun _ _ => absorbs_cons_of_language? rfl]
    exact ih
  | some name =>
    obtain ⟨rest, rfl, rfl⟩ := nameOf?_eq_some.1 hname
    simp only [collects_cons_test, Except.map_eq_ok_iff, ih]

theorem collect_fence_iff {language text : Text} :
    collect current (.fence language text line :: blocks) = .ok scenarios ↔
      Collects current (.fence language text line :: blocks) scenarios := by
  have hplain : (Block.fence language text line).isTest = false := rfl
  by_cases hempty : language.isEmpty
  · have hnone : (Block.fence language text line).language? = none := if_pos hempty
    rw [collects_cons_iff current hplain fun _ _ => absorbs_cons_of_language? hnone, ← ih]
    simp only [collect, hempty, if_true]
  have hsome : (Block.fence language text line).language? = some language := if_neg hempty
  cases hrole : Role.ofLanguage? language with
  | none =>
    have hunknown : ∀ role : Role, language ≠ role.language := by
      intro role heq
      rw [Role.ofLanguage?_eq_some.2 heq] at hrole
      cases hrole
    refine iff_of_false ?_ (not_collects_cons hplain fun _ _ => ?_)
    · simp [collect, hempty, hrole]
    · exact not_absorbs_unknown hsome hunknown
  | some role =>
    obtain rfl := Role.ofLanguage?_eq_some.1 hrole
    cases current with
    | none =>
      refine iff_of_false ?_ (not_collects_cons hplain ?_)
      · simp [collect, hempty, hrole]
      · rintro body first ⟨hnone, -⟩
        rw [hnone _ List.mem_cons_self] at hsome
        cases hsome
    | some s =>
      -- Whether there was such a fence before is told from its content alone.
      by_cases hget : s.get role = []
      · rw [collects_cons_iff (some (s.set (content text) role)) hplain, ← ih]
        · simp [collect, hempty, hrole, hget]
        · simp only [Absorbs, fills_cons_fence, hget, true_and, implies_true]
      · refine iff_of_false ?_ (not_collects_cons hplain ?_)
        · simp [collect, hempty, hrole, hget]
        · rintro body first ⟨s', hfills, -⟩
          exact hget (fills_cons_fence.1 hfills).1

end Collect

theorem collect_eq_ok_iff {blocks : List Block} {current : Option Scenario}
    {scenarios : List Scenario} :
    collect current blocks = .ok scenarios ↔ Collects current blocks scenarios := by
  induction blocks generalizing current scenarios with
  | nil =>
    rw [collects_nil, collect]
    exact ⟨fun h => (Except.ok.inj h).symm, fun h => congrArg _ h.symm⟩
  | cons b blocks ih =>
    cases b with
    | heading title line => exact collect_heading_iff ih
    | fence language text line => exact collect_fence_iff ih

theorem describes_iff {t : Test} {s : Scenario} :
    Describes t s ↔ Fills t.body t.opening s ∧ s.source ≠ [] := by
  have hget : ∀ role, t.opening.get role = [] := by
    intro role
    cases role <;> rfl
  constructor
  · rintro ⟨hname, hline, hknown, hrest, hlast, hsource⟩
    refine ⟨⟨hname, hline, hknown, fun role => ?_⟩, hsource⟩
    rw [hget, replaces_empty]
    exact ⟨hrest role, hlast role⟩
  · rintro ⟨⟨hname, hline, hknown, hreplaces⟩, hsource⟩
    simp only [hget, replaces_empty] at hreplaces
    exact ⟨hname, hline, hknown, fun role => (hreplaces role).1, fun role => (hreplaces role).2,
      hsource⟩

theorem forall₂_describes_iff {tests : List Test} {scenarios : List Scenario} :
    List.Forall₂ Describes tests scenarios ↔
      List.Forall₂ (fun t s => Fills t.body t.opening s) tests scenarios ∧
        ∀ s ∈ scenarios, s.source ≠ [] := by
  constructor
  · intro h
    induction h with
    | nil => exact ⟨.nil, by simp⟩
    | cons hfirst _ ih =>
      obtain ⟨hfills, hsource⟩ := describes_iff.1 hfirst
      exact ⟨.cons hfills ih.1, List.forall_mem_cons.2 ⟨hsource, ih.2⟩⟩
  · rintro ⟨h, hsources⟩
    induction h with
    | nil => exact .nil
    | cons hfirst _ ih =>
      obtain ⟨hsource, hrest⟩ := List.forall_mem_cons.1 hsources
      exact .cons (describes_iff.2 ⟨hfirst, hsource⟩) (ih hrest)

/-- A test has one fence of a language at most, unless an empty one stands before another. -/
theorem Describes.length_contents_le_iff {t : Test} {s : Scenario} (h : Describes t s)
    (role : Role) : (t.contents role).length ≤ 1 ↔ [] ∉ (t.contents role).dropLast := by
  have hlength : (t.contents role).dropLast.length = (t.contents role).length - 1 :=
    List.length_dropLast
  constructor
  · intro hle
    have hnil : (t.contents role).dropLast = [] := List.length_eq_zero_iff.1 (by omega)
    rw [hnil]
    exact List.not_mem_nil
  · intro hnone
    have hnil : (t.contents role).dropLast = [] := by
      apply List.eq_nil_iff_forall_not_mem.2
      intro text htext
      rw [h.rest_empty role text htext] at htext
      exact hnone htext
    rw [hnil, List.length_nil] at hlength
    omega

theorem ofBlocks_eq_ok {blocks : List Block} {scenarios : List Scenario} :
    ofBlocks blocks = .ok scenarios ↔
      collect none blocks = .ok scenarios ∧ ∀ s ∈ scenarios, s.source ≠ [] := by
  unfold ofBlocks
  cases collect none blocks with
  | error e => simp [bind, Except.bind]
  | ok found =>
    simp only [bind, Except.bind]
    split
    · next s hs =>
      have hempty : s.source = [] := by simpa using List.find?_some hs
      constructor
      · intro h
        cases h
      · rintro ⟨h, hall⟩
        cases h
        exact absurd hempty (hall s (List.mem_of_find?_eq_some hs))
    · next hnone =>
      have hall : ∀ s ∈ found, s.source ≠ [] := by simpa using hnone
      constructor
      · intro h
        cases h
        exact ⟨rfl, hall⟩
      · rintro ⟨h, -⟩
        exact h

/-- A document can be read exactly if every fence with a language stands in a test and has a known
one, and each test has a source and no fence behind one of the same language that has content. The
scenarios then say what the tests say. So there may be several fences of a language in a test, but
no more than one if none of them is empty unless it is the last. -/
theorem ofBlocks_eq_ok_iff (blocks : List Block) (scenarios : List Scenario) :
    (ofBlocks blocks = .ok scenarios ↔
      ∃ before tests, Divides blocks before tests ∧ (∀ b ∈ before, b.language? = none) ∧
        List.Forall₂ Describes tests scenarios) ∧
    ∀ t s, Describes t s → ∀ role,
      ((t.contents role).length ≤ 1 ↔ [] ∉ (t.contents role).dropLast) := by
  refine ⟨?_, fun t s h => h.length_contents_le_iff⟩
  rw [ofBlocks_eq_ok, collect_eq_ok_iff]
  constructor
  · rintro ⟨⟨before, tests, first, rest, hdivides, ⟨hplain, rfl⟩, hrest, rfl⟩, hsources⟩
    exact ⟨before, tests, hdivides, hplain, forall₂_describes_iff.2 ⟨hrest, hsources⟩⟩
  · rintro ⟨before, tests, hdivides, hplain, hdescribes⟩
    obtain ⟨hfills, hsources⟩ := forall₂_describes_iff.1 hdescribes
    exact ⟨⟨before, tests, [], scenarios, hdivides, ⟨hplain, rfl⟩, hfills, rfl⟩, hsources⟩

/-- A fence without a language, one with line feeds at its end and one that is empty, over two
tests. -/
theorem ofBlocks_eq_ok_iff_of_two_tests :
    let blocks : List Block :=
      [.fence [] (ascii "ignored\n") 2, .heading (ascii "Test: first ") 5,
        .fence (ascii "asm") (ascii "nop\n\n") 7, .fence (ascii "chunks") [] 1,
        .fence (ascii "chunks") (ascii "chunk\n") 14, .heading (ascii "Notes") 17,
        .heading (ascii "Test: second") 19, .fence (ascii "errors") (ascii "mode\n") 21,
        .fence (ascii "asm") (ascii "bad\n") 25]
    let scenarios : List Scenario :=
      [{name := ascii "first", line := 5, source := ascii "nop", chunks := ascii "chunk"},
        {name := ascii "second", line := 19, source := ascii "bad", errors := ascii "mode"}]
    ofBlocks blocks = .ok scenarios ∧
      ∃ before tests, Divides blocks before tests ∧ (∀ b ∈ before, b.language? = none) ∧
        List.Forall₂ (fun t s => Describes t s ∧ ∀ role,
          ((t.contents role).length ≤ 1 ↔ [] ∉ (t.contents role).dropLast)) tests scenarios := by
  intro blocks scenarios
  have hread : ofBlocks blocks = .ok scenarios := by decide +kernel
  obtain ⟨hiff, hsingle⟩ := ofBlocks_eq_ok_iff blocks scenarios
  obtain ⟨before, tests, hdivides, hplain, hdescribes⟩ := hiff.1 hread
  exact ⟨hread, before, tests, hdivides, hplain, hdescribes.imp fun t s h => ⟨h, hsingle t s h⟩⟩

/-- An empty fence does not count as one: the test has two fences for its source, and it can be
read. -/
theorem exists_two_sources :
    let t : Test :=
      ⟨ascii "x", 1, [.fence (ascii "asm") [] 1, .fence (ascii "asm") (ascii "nop\n") 7]⟩
    ofBlocks t.blocks = .ok [{name := ascii "x", line := 1, source := ascii "nop"}] ∧
      Divides t.blocks [] [t] ∧ (t.contents .source).length = 2 := by
  intro t
  have hread : ofBlocks t.blocks = .ok [{name := ascii "x", line := 1, source := ascii "nop"}] := by
    decide +kernel
  exact ⟨hread, ⟨rfl, by simp, by decide⟩, rfl⟩

end Scenario
end Assembler65816
