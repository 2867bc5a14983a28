import Multitrack.Reduction
import Multitrack.TwoTape.Determinism
import Multitrack.TwoTape.Listing

/-! # The command line

The program reads a two-tape listing and writes the rows of the emulating machine. What it does is a
value: the exit code, the two output texts and the file to be written. Reading a file and opening one
for writing each succeed or fail as a whole. -/
namespace Multitrack.CommandLine

/-- The help text of a program that was called by the given name. -/
def usage (program : String) : String :=
  "TMR - two-tape to single-tape Turing machine reducer\n\n" ++
  "Usage: " ++ program ++ " [options] <two-tape machine file>\n" ++
  "\nOptions:\n" ++
  "  -o <file>     Output file for the single-tape table (default: stdout)\n" ++
  "  -v            Verbose output\n" ++
  "  --check       Verify the produced table is deterministic\n" ++
  "  -h, --help    Show this message\n"

/-- What the arguments ask for. An empty name stands for a file that was not named. -/
structure Options where
  input : String
  output : String
  verbose : Bool
  check : Bool
deriving DecidableEq, Repr

def Options.default : Options := ⟨"", "", false, false⟩

inductive Command where
  /-- There are no arguments. -/
  | noArguments
  | help
  /-- The first argument that is no option and no input name. -/
  | unknown (arg : String)
  | noInput
  | reduce (options : Options)
deriving DecidableEq, Repr

/-- Reads the arguments from left to right and stops at a call for help and at the first bad one.
Only the first input name is taken, and `-o` needs a name after it. -/
def Command.scan (o : Options) : List String → Command
  | [] => if o.input = "" then .noInput else .reduce o
  | arg :: rest =>
    if arg = "-o" then
      match rest with
      | [] => .unknown arg
      | name :: rest => scan { o with output := name } rest
    else if arg = "-v" then scan { o with verbose := true } rest
    else if arg = "--check" then scan { o with check := true } rest
    else if arg = "-h" ∨ arg = "--help" then .help
    else if arg.toList.head? ≠ some '-' ∧ o.input = "" then scan { o with input := arg } rest
    else .unknown arg

def Command.ofArgs : List String → Command
  | [] => .noArguments
  | args => scan .default args

structure Report where
  exitCode : Nat
  /-- The text on standard output. -/
  output : String
  /-- The text on standard error. -/
  log : String
  /-- The file that is written, by name and contents. -/
  file : Option (String × String)
deriving DecidableEq, Repr

/-- Stops with a message and writes nothing. -/
def Report.failure (log : String) : Report := ⟨1, "", log, none⟩

/-- A table that is ready to be written. -/
structure Job where
  options : Options
  reduction : Reduction
  /-- What has been logged so far. -/
  log : String
deriving DecidableEq, Repr

def Options.whenVerbose (o : Options) (text : String) : String := if o.verbose then text else ""

def statisticsLog (r : Reduction) : String :=
  let s := r.statistics
  let entry (label : String) (n : Nat) : String := "  " ++ label ++ ": " ++ toString n ++ "\n"
  "Stats:\n" ++
  entry "Working alphabet" s.alphabetSize ++
  entry "States" s.stateCount ++
  entry "Init rows" s.layoutRules ++
  entry "Locate rows" s.locateRules ++
  entry "Fire rows" s.fireRules ++
  entry "Move rows" s.moveRules ++
  entry "Duplicates removed" s.duplicates ++
  (if 0 < s.skipped then entry "Transitions out of halting states" s.skipped else "") ++
  entry "Total rows" r.rows.length

/-- Checks the rows of a reduction if that is asked for and the source was deterministic. Gives what
is logged. -/
def checkRows (o : Options) (conflict : Option TwoTape.Conflict) (rows : List Row) :
    Except Table.Fault String :=
  if o.check && conflict.isNone then
    match (Table.ofRows rows).fault? with
    | some fault => .error fault
    | none => .ok (o.whenVerbose "Check passed: output is deterministic\n")
  else .ok ""

/-- Reads and reduces the contents of the input file. A failure is the whole log. -/
def prepare (o : Options) (contents : Option String) : Except String Job :=
  match contents with
  | none => .error ("Error: Cannot open input file: " ++ o.input ++ "\n")
  | some text =>
    let log := o.whenVerbose ("Parsing " ++ o.input ++ "...\n")
    match TwoTape.parse text with
    | .error e => .error (log ++ "Error: " ++ e.message ++ "\n")
    | .ok ts =>
      let conflict := TwoTape.conflict? ts
      let warning := match conflict with
        | some c => if o.check || o.verbose then "Warning: " ++ c.message ++ "\n" else ""
        | none => ""
      let log := log ++ warning ++
        o.whenVerbose ("Reducing " ++ toString ts.length ++ " transitions...\n")
      let reduction := Reduction.ofTransitions ts
      match checkRows o conflict reduction.rows with
      | .error fault =>
        .error (log ++ "Error: Invalid single-tape table: " ++ fault.message ++ "\n")
      | .ok passed => .ok ⟨o, reduction, log ++ passed⟩

/-- Writes the table. `opened` tells whether the output file, if there is one, could be opened. -/
def Job.finish (job : Job) (opened : Bool) : Report :=
  let o := job.options
  let table := Row.listing job.reduction.rows
  let statistics := o.whenVerbose (statisticsLog job.reduction)
  if o.output = "" then ⟨0, table, job.log ++ statistics, none⟩
  else if opened then
    let wrote := o.whenVerbose ("Wrote " ++ o.output ++ "\n")
    ⟨0, "", job.log ++ wrote ++ statistics, some (o.output, table)⟩
  else .failure (job.log ++ "Error: Cannot open output file: " ++ o.output ++ "\n")

/-- What a run of the program meets beside its arguments. -/
structure Files where
  /-- The name by which the program was called. -/
  program : String
  /-- The contents of a file that can be opened for reading. -/
  read? : String → Option String
  /-- The name can be opened for writing. -/
  writable : String → Bool

/-- A directory without subdirectories that holds the given files, where the program is called by its
own name. A name with a slash in it leads nowhere, and the directory itself cannot be written. -/
def Files.flat (files : List (String × String)) : Files :=
  let leadsNowhere (name : String) : Bool := name.isEmpty || name.toList.contains '/'
  { program := "tmr"
    read? := fun name => if leadsNowhere name then none else files.lookup name
    writable := fun name =>
      !leadsNowhere name && name != "." && name != ".." && name.utf8ByteSize ≤ 255 }

/-- What the program does with an argument list. -/
def run (files : Files) (args : List String) : Report :=
  match Command.ofArgs args with
  | .noArguments => .failure (usage files.program)
  | .help => ⟨0, "", usage files.program, none⟩
  | .unknown arg => .failure ("Unknown option: " ++ arg ++ "\n" ++ usage files.program)
  | .noInput => .failure ("Error: No input file specified\n" ++ usage files.program)
  | .reduce o =>
    match prepare o (files.read? o.input) with
    | .error log => .failure log
    | .ok job => job.finish (files.writable o.output)

end Multitrack.CommandLine
