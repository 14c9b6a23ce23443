import Assembler65816.Assembly.Basic
import Assembler65816.Disassembly.Basic
import Assembler65816.Scenario.Basic

/-!
# Commands

What the commands do once their input is there: the texts they print on either channel, the file
they write, and the exit code. Reading and writing itself is left to the program.
-/
namespace Assembler65816.Command

structure Outcome where
  exit : Nat := 0
  stdout : Text := []
  stderr : Text := []
  deriving DecidableEq, Repr

/-- Why a file that is not there cannot be opened. -/
def noSuchFile (file : Text) : Text :=
  ascii "open " ++ file ++ ascii ": no such file or directory"

def unreadable (reason : Text) : Outcome :=
  {exit := 1, stderr := ascii "Error reading input file: " ++ reason ++ ascii "\n"}

/-- What is said of an item of output in passing. -/
def progress : Output → Text
  | .chunk label c =>
    ascii "compiled " ++ label ++ ascii ": " ++ decimal c.bytes.length ++ ascii " bytes, " ++
      decimal c.fixups.length ++ ascii " fixups\n"
  | .define label _ => ascii "defined " ++ label ++ ascii "\n"
  | .error _ => []

def report (verbose : Bool) : Output → Text
  | .error d => d.message ++ ascii "\n"
  | out => if verbose then progress out else []

def isError : Output → Bool
  | .error _ => true
  | _ => false

/-- Assembles a source and lists what comes out. Errors go to the other channel and are counted. -/
def assemble (file source root : Text) (verbose : Bool) : Outcome :=
  let out := Assembler65816.assemble (.text (Reader.ofText file source none)) {} root
  let failures := out.countP isError
  let total := if failures = 0 then [] else decimal failures ++ ascii " error(s)\n"
  { exit := if failures = 0 then 0 else 1
    stdout := (out.filter (!isError ·)).flatMap Output.listing
    stderr := out.flatMap (report verbose) ++ total }

/-- Disassembles code. The listing comes beside the outcome, which says only what went wrong. -/
def disassemble (code : List UInt8) (w : Widths) : Text × Outcome :=
  let (listing, truncation) := Assembler65816.disassemble code w
  let stderr := match truncation with
    | some t => ascii "Disassembly error: " ++ t.message ++ ascii "\n"
    | none => []
  (listing, {stderr})

/-- The listing goes to standard output. -/
def disassembleToOutput (code : List UInt8) (w : Widths) : Outcome :=
  let (listing, outcome) := disassemble code w
  {outcome with stdout := listing}

/-- The listing goes to a file, which is the first component. -/
def disassembleToFile (file : Text) (code : List UInt8) (w : Widths) : Text × Outcome :=
  let (listing, outcome) := disassemble code w
  (listing, {outcome with stdout := ascii "Disassembly written to " ++ file ++ ascii "\n"})

/-- The file for the listing could not be written. -/
def unwritable (o : Outcome) (reason : Text) : Outcome :=
  { exit := 1
    stderr := o.stderr ++ ascii "Error writing output file: " ++ reason ++ ascii "\n" }

/-- The scenarios of a file; what is wrong in it is told with its name. -/
def loadScenarios (file : Text) (document : Option Text) : Except Text (List Scenario) :=
  match document with
  | none => .error (noSuchFile file)
  | some s =>
    match Scenario.ofDocument s with
    | .ok scenarios => .ok scenarios
    | .error e => .error (file ++ ascii ": " ++ e.message)

end Assembler65816.Command
