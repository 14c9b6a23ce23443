import Assembler65816.Scenario.Block
import Assembler65816.Text.Blank
import Assembler65816.Text.Numeral

/-!
# Scenarios

A scenario starts at a heading `Test: name` and takes the fenced blocks up to the next such heading,
by their language: the source, the chunks it is to give and the errors it is to report. Fences
without a language are text. Each language occurs at most once with content, and the source cannot
be missing.
-/
namespace Assembler65816

structure Scenario where
  name : Text
  line : Nat
  source : Text := []
  chunks : Text := []
  errors : Text := []
  deriving DecidableEq, Repr

namespace Scenario

/-- What a fence of a scenario holds. -/
inductive Role
  | source
  | chunks
  | errors
  deriving DecidableEq, Repr

def Role.language : Role → Text
  | source => ascii "asm"
  | chunks => ascii "chunks"
  | errors => ascii "errors"

def Role.ofLanguage? (language : Text) : Option Role :=
  [Role.source, .chunks, .errors].find? (·.language == language)

inductive Error
  | unknownLanguage (line : Nat) (language : Text)
  | outside (line : Nat) (role : Role)
  | duplicate (line : Nat) (role : Role) (name : Text)
  | noSource (line : Nat) (name : Text)
  deriving DecidableEq, Repr

def Error.message : Error → Text
  | unknownLanguage line language =>
    ascii "line " ++ decimal line ++ ascii ": unknown fence language '" ++ language ++ ascii "'"
  | outside line role =>
    ascii "line " ++ decimal line ++ ascii ": " ++ role.language ++ ascii " fence outside of a test"
  | duplicate line role name =>
    ascii "line " ++ decimal line ++ ascii ": duplicate " ++ role.language ++
      ascii " fence in test '" ++ name ++ ascii "'"
  | noSource line name =>
    ascii "line " ++ decimal line ++ ascii ": test '" ++ name ++ ascii "' has no " ++
      Role.source.language ++ ascii " fence"

def get (s : Scenario) : Role → Text
  | .source => s.source
  | .chunks => s.chunks
  | .errors => s.errors

def set (s : Scenario) (body : Text) : Role → Scenario
  | .source => {s with source := body}
  | .chunks => {s with chunks := body}
  | .errors => {s with errors := body}

/-- The name in a heading that starts a scenario. -/
def nameOf? (title : Text) : Option Text := (Text.after? (ascii "Test: ") title).map Text.trim

/-- The content of a fence without the line feeds at its end. -/
def content (body : Text) : Text := body.dropEnd (· == 10)

/-- Collects scenarios; `current` is the one at hand. -/
def collect (current : Option Scenario) : List Block → Except Error (List Scenario)
  | [] => .ok current.toList
  | .heading title line :: blocks =>
    match nameOf? title with
    | none => collect current blocks
    | some name => (collect (some {name, line}) blocks).map (current.toList ++ ·)
  | .fence language body line :: blocks =>
    if language.isEmpty then collect current blocks
    else
      match Role.ofLanguage? language, current with
      | none, _ => .error (.unknownLanguage line language)
      | some role, none => .error (.outside line role)
      | some role, some s =>
        if (s.get role).isEmpty then collect (some (s.set (content body) role)) blocks
        else .error (.duplicate line role s.name)

/-- The scenarios of a block sequence. -/
def ofBlocks (blocks : List Block) : Except Error (List Scenario) := do
  let scenarios ← collect none blocks
  match scenarios.find? (·.source.isEmpty) with
  | some s => .error (.noSource s.line s.name)
  | none => return scenarios

/-- The scenarios of a document. -/
def ofDocument (document : Text) : Except Error (List Scenario) :=
  ofBlocks (Document.blocks document)

end Scenario
end Assembler65816
