import YamlQuery.Command.Run
/-!
The command line: the command run on the files and streams of the machine.
-/
namespace YamlQuery

def readFile? (name : String) : IO (Option (List UInt8)) := do
  try
    let bytes ← IO.FS.readBinFile name
    return some bytes.toList
  catch _ => return none

def readInput : IO (List UInt8) := do
  let bytes ← (← IO.getStdin).readBinToEnd
  return bytes.toList

def machine : Command.Host IO where
  file := readFile?
  homeSettings := do
    match ← IO.getEnv "HOME" with
    | some home => readFile? (home ++ "/.config/ypath/config.toml")
    | none => return none
  atTerminal := do
    (← IO.getStdin).isTty
  input := readInput

end YamlQuery

open YamlQuery in
def main (args : List String) : IO UInt32 := do
  let outcome ← Command.run machine args
  match outcome with
  | .printed text => IO.print text
  | .failed message cause =>
    let detail := (cause.map ("\n\nCaused by:\n    " ++ ·)).getD ""
    IO.eprintln ("Error: " ++ message ++ detail)
  | .rejected => IO.eprint Command.usage
  return UInt32.ofNat outcome.exitCode
