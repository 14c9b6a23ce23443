import Assembler65816.Command

/-!
# The command line

`asm [-v] [-r ROOT] FILE` assembles a file, or standard input for `-`, and prints the listing.
`dis [-m] [-x] [-o OUT] FILE` disassembles a file. `-m` and `-x` make the accumulator and the index
registers 16 bits wide at the start, and `-o` names a file for the listing.
-/
namespace Assembler65816.CommandLine

structure Options where
  verbose : Bool := false
  root : String := ""
  wideA : Bool := false
  wideXY : Bool := false
  output : String := ""
  file : String := ""

def Options.read (o : Options) : List String → Options
  | [] => o
  | "-v" :: args | "--verbose" :: args => {o with verbose := true}.read args
  | "-r" :: root :: args | "--root" :: root :: args => {o with root}.read args
  | "-m" :: args | "--wide-a" :: args => {o with wideA := true}.read args
  | "-x" :: args | "--wide-xy" :: args => {o with wideXY := true}.read args
  | "-o" :: output :: args | "--output" :: output :: args => {o with output}.read args
  | file :: args => {o with file}.read args

def ofString (s : String) : Text := s.toUTF8.toList

def bytesOf (t : Text) : ByteArray := ⟨t.toArray⟩

def printOutcome (o : Command.Outcome) : IO UInt32 := do
  (← IO.getStdout).write (bytesOf o.stdout)
  (← IO.getStderr).write (bytesOf o.stderr)
  return UInt32.ofNat o.exit

/-- The bytes of a file, or why it cannot be read. -/
def readFile (file : String) : IO (Except Text (List UInt8)) := do
  try
    return .ok (← IO.FS.readBinFile file).toList
  catch
    | .noFileOrDirectory .. => return .error (Command.noSuchFile (ofString file))
    | e => return .error (ofString (toString e))

def readSource (file : String) : IO (Except Text (List UInt8)) := do
  if file = "-" then
    return .ok (← (← IO.getStdin).readBinToEnd).toList
  else readFile file

def assemble (o : Options) : IO UInt32 := do
  match ← readSource o.file with
  | .error reason => printOutcome (Command.unreadable reason)
  | .ok source =>
    printOutcome (Command.assemble (ofString o.file) source (ofString o.root) o.verbose)

def disassemble (o : Options) : IO UInt32 := do
  let w : Widths := ⟨o.wideA, o.wideXY⟩
  match ← readFile o.file with
  | .error reason => printOutcome (Command.unreadable reason)
  | .ok code =>
    if o.output.isEmpty then printOutcome (Command.disassembleToOutput code w)
    else
      let (listing, outcome) := Command.disassembleToFile (ofString o.output) code w
      try
        IO.FS.writeBinFile o.output (bytesOf listing)
        printOutcome outcome
      catch e => printOutcome (Command.unwritable outcome (ofString (toString e)))

end Assembler65816.CommandLine

def main (args : List String) : IO UInt32 := do
  match args with
  | "asm" :: args =>
    Assembler65816.CommandLine.assemble (Assembler65816.CommandLine.Options.read {} args)
  | "dis" :: args =>
    Assembler65816.CommandLine.disassemble (Assembler65816.CommandLine.Options.read {} args)
  | _ =>
    IO.eprintln "usage: asm [-v] [-r ROOT] FILE | dis [-m] [-x] [-o OUT] FILE"
    return 2
