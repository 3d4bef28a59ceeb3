import StrictJson.CommandLine.Help
import StrictJson.CommandLine.Run
import StrictJson.Runtime

/-!
# The command

The command line program, which reads and writes the files of the system it runs on.
-/

open StrictJson.CommandLine

/-- The world of the running system. -/
def systemWorld : World IO where
  readInput := do
    return (← (← IO.getStdin).readBinToEnd).toList
  readFile path := do
    try
      return some (← IO.FS.readBinFile path).toList
    catch _ => return none
  writeFile path text := do
    try
      IO.FS.writeFile path text
      return true
    catch _ => return false

/-- Run the command and hand its text to the right channel. -/
def main (args : List String) : IO UInt32 := do
  let ending ← run systemWorld args
  match ending with
  | .accepted text => IO.print text
  | .rejected diagnosis => IO.eprint diagnosis
  | .help => IO.print helpText
  | .misused => IO.eprintln "error: the arguments, the options or the files do not work out"
  | .aborted _ => IO.eprintln "error: the run was broken off"
  return UInt32.ofNat ending.exitCode
