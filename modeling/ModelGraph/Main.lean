import ModelGraph.CommandLine
import ModelGraph.Report

namespace ModelGraph.CommandLine

def systemFiles : FileAccess IO where
  isThere name := do
    match ← (IO.FS.realPath name).toBaseIO with
    | .ok _ => return true
    | .error _ => return false
  read name := do
    match ← (IO.FS.readFile name).toBaseIO with
    | .ok text => return some text
    | .error _ => return none
  write name text := do
    match ← (IO.FS.writeFile name text).toBaseIO with
    | .ok _ => return true
    | .error _ => return false

def takeOption (flags : List String) : List String → Option String × List String
  | flag :: value :: rest =>
    if flags.contains flag then (some value, rest)
    else
      let (found, others) := takeOption flags (value :: rest)
      (found, flag :: others)
  | rest => (none, rest)

def command? (output : Option String) : List String → Option Command
  | ["check", input] => some (.check input)
  | ["hash", input] => some (.hash input output)
  | ["roundtrip", input] => some (.roundTrip input output)
  | ["diff", before, after] => some (.diff before after)
  | _ => none

def usage : String :=
  "usage: model-graph [--config FILE] check INPUT\n" ++
    "       model-graph [--config FILE] hash INPUT [--output FILE]\n" ++
    "       model-graph [--config FILE] roundtrip INPUT [--output FILE]\n" ++
    "       model-graph [--config FILE] diff BEFORE AFTER"

def platformSettings : IO (Option String) := do
  match ← IO.getEnv "XDG_CONFIG_HOME", ← IO.getEnv "HOME" with
  | some directory, _ => return some (directory ++ "/" ++ localSettings)
  | none, some home => return some (home ++ "/.config/" ++ localSettings)
  | none, none => return none

def printReport (r : Report) : IO Unit := do
  let head := match r.code with | some code => "[" ++ code ++ "]" | none => ""
  IO.eprintln ((r.severity.getD .error).text ++ head ++ ": " ++ r.message)
  for m in r.marks do
    IO.eprintln ("  at byte " ++ toString m.span.offset ++ ": " ++ m.message)
  match r.help with
  | some help => IO.eprintln ("  help: " ++ help)
  | none => pure ()

end ModelGraph.CommandLine

open ModelGraph CommandLine in
def main (args : List String) : IO UInt32 := do
  let (asked, args) := takeOption ["--config", "-c"] args
  let (output, args) := takeOption ["--output", "-o"] args
  match command? output args with
  | none =>
    IO.eprintln usage
    return 2
  | some c =>
    match ← (run systemFiles asked (← platformSettings) c).run with
    | .ok text =>
      IO.print text
      return 0
    | .error failure =>
      (Report.ofFailure failure).forM printReport
      return 1
