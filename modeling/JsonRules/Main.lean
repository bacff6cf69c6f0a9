import JsonRules.CommandLine

/-!
# The program and its process

Runs `CommandLine.run` with the files, the environment and the standard input of the process.
-/

namespace JsonRules
namespace CommandLine

/-- The text that an action reads, if it can. -/
def attempt (read : IO String) : IO (Option String) :=
  try some <$> read catch _ => return none

/-- The variables of the process. Where the system does not list them there are none. -/
def processEnvironment : IO Environment :=
  try Environment.ofBlock <$> IO.FS.readBinFile "/proc/self/environ" catch _ => return []

/-- What the program finds around it when it runs as a process. -/
def processSurroundings : IO (Surroundings IO) :=
  return {
    environment := ← processEnvironment
    readFile := fun path => attempt (IO.FS.readFile path)
    readInput := attempt do (← IO.getStdin).readToEnd }

end CommandLine
end JsonRules

open JsonRules in
/-- Runs the program on the arguments of the process. -/
def main (args : List String) : IO UInt32 := do
  let report ← CommandLine.run (← CommandLine.processSurroundings) args
  if report.settingsFailed then
    IO.eprintln "Failed to load config, using defaults"
  IO.print report.output
  if let some error := report.error then
    IO.eprintln ("Error: " ++ error)
  return report.exitCode.toUInt32
