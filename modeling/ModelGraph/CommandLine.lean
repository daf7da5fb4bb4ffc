import ModelGraph.Files
import ModelGraph.Toml.Reader
import ModelGraph.Workspace

namespace ModelGraph

inductive Command where
  | check (input : String)
  | hash (input : String) (output : Option String)
  | roundTrip (input : String) (output : Option String)
  | diff (before after : String)
  deriving DecidableEq, Repr

namespace CommandLine

def localSettings : String := "meridian/config.toml"

variable {m : Type → Type} [Monad m]

abbrev Run (m : Type → Type) (α : Type) := ExceptT Failure m α

def readFile (files : FileAccess m) (name : String) : Run m String := do
  match ← (files.read name : m _) with
  | some text => return text
  | none => throw (.file (.unreadable name))

def writeFile (files : FileAccess m) (name text : String) : Run m Unit := do
  if !(← (files.write name text : m _)) then throw (.file (.unwritable name))

def readSettings (files : FileAccess m) (name : String) : Run m Settings := do
  let text ← readFile files name
  match (Toml.parse? text).bind Settings.ofToml? with
  | some s => return s
  | none => throw (.file (.malformedSettings name))

/-- The settings of the first file there is among the given ones. -/
def firstSettings (files : FileAccess m) : List String → Run m Settings
  | [] => return {}
  | name :: rest => do
    if ← (files.isThere name : m _) then readSettings files name else firstSettings files rest

/-- The settings in the file that is asked for, which must be there; or else those beside the
models, those of the platform, or the default ones. -/
def settings (files : FileAccess m) (asked platform : Option String) : Run m Settings := do
  match asked with
  | some name =>
    if ← (files.isThere name : m _) then readSettings files name
    else throw (.file (.missingSettings name))
  | none => firstSettings files (localSettings :: platform.toList)

def check (w : Workspace) (files : FileAccess m) (input : String) : Run m String := do
  let source ← readFile files input
  let g ← w.buildText source
  return input ++ ": " ++ toString g.size ++ " elements, no errors\n"

def hashReport (index : Index Digest) : String :=
  (Json.arr (index.entries.map fun e =>
    .obj [("path", .str e.1.text), ("hash", .str e.2.text)])).pretty ++ "\n"

def hash (w : Workspace) (files : FileAccess m) (input : String) (output : Option String) :
    Run m String := do
  let source ← readFile files input
  let g ← w.buildText source
  let report := hashReport (← Workspace.hashIndex g)
  match output with
  | some name => do
    writeFile files name report
    return ""
  | none => return report

def roundTrip (w : Workspace) (files : FileAccess m) (input : String) (output : Option String) :
    Run m String := do
  let source ← readFile files input
  let model ← Model.load source
  let g ← w.buildFrom source model
  let written ← Workspace.write g
  match output with
  | some name => writeFile files name written.text
  | none => pure ()
  match model.mismatches written with
  | [] => return input ++ ": " ++ toString model.length ++ " entities round trip\n"
  | mismatches => throw (.roundTrip (mismatches.map Mismatch.path))

def readModel (files : FileAccess m) (name : String) : Run m Model := do
  let source ← readFile files name
  Model.load source

def diff (w : Workspace) (files : FileAccess m) (before after : String) : Run m String := do
  let before ← readModel files before
  let after ← readModel files after
  return (← w.diff before after).text

def run (files : FileAccess m) (asked platform : Option String) (c : Command) : Run m String := do
  let s ← settings files asked platform
  let w ← Workspace.new s
  match c with
  | .check input => check w files input
  | .hash input output => hash w files input output
  | .roundTrip input output => roundTrip w files input output
  | .diff before after => diff w files before after

end CommandLine
end ModelGraph
