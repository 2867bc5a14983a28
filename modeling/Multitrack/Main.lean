import Multitrack.CommandLine

/-! # The program

Reads the named file, and carries out what the command line decides. -/
namespace Multitrack.CommandLine

def readFile? (name : String) : IO (Option String) := do
  try
    return some (← IO.FS.readFile name)
  catch _ =>
    return none

/-- Writes a file, and tells whether it could be opened. -/
def tryWrite (name contents : String) : IO Bool := do
  try
    IO.FS.writeFile name contents
    return true
  catch _ =>
    return false

def Report.print (r : Report) : IO UInt32 := do
  IO.eprint r.log
  IO.print r.output
  return r.exitCode.toUInt32

def execute (program : String) (args : List String) : IO UInt32 := do
  match Command.ofArgs args with
  | .reduce o =>
    match prepare o (← readFile? o.input) with
    | .error log => (Report.failure log).print
    | .ok job =>
      match (job.finish true).file with
      | none => (job.finish true).print
      | some (name, contents) => (job.finish (← tryWrite name contents)).print
  | _ => (run { Files.flat [] with program } args).print

end Multitrack.CommandLine

def main (args : List String) : IO UInt32 := Multitrack.CommandLine.execute "tmr" args
