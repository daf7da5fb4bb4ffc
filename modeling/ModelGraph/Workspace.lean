import ModelGraph.Build.Basic
import ModelGraph.Diff
import ModelGraph.Graph.Written
import ModelGraph.Mismatch
import ModelGraph.Settings

namespace ModelGraph

inductive FileError where
  | missingSettings (name : String)
  | malformedSettings (name : String)
  | unreadable (name : String)
  | unwritable (name : String)
  deriving DecidableEq, Repr

namespace FileError

def message : FileError → String
  | .missingSettings name => "Missing configuration file: " ++ name
  | .malformedSettings name =>
    "Failed to parse TOML configuration: " ++ name ++ " does not hold settings"
  | .unreadable name => "can't read " ++ name
  | .unwritable name => "can't write " ++ name

end FileError

inductive Failure where
  | file (e : FileError)
  /-- Diagnostics, with the text of the model they are about. -/
  | build (diagnostics : List Diagnostic) (source : String)
  | write (e : WriteError)
  | graph (e : GraphError)
  | serviceStore (e : ServiceStoreError)
  | roundTrip (paths : List Path)
  deriving Repr

namespace Failure

def message : Failure → String
  | .file e => "I/O error: " ++ e.message
  | .build diagnostics _ => Diagnostic.summary diagnostics
  | .write e => "Serialization error: " ++ e.message
  | .graph e => "Graph error: " ++ e.message
  | .serviceStore e => "Service store error: " ++ e.message
  | .roundTrip paths =>
    "Round trip changed " ++ toString paths.length ++ " entities: " ++
      Text.join ", " (paths.map Path.text)

end Failure

def Diagnostic.malformedCollection : Diagnostic where
  code := some .malformedCollection
  message := "invalid entity collection: the text is not a list of entities"
  help := some "expected a JSON array of entities or an object with an `entities` array"

def Model.read (text : String) : Except Diagnostic Model :=
  match Model.parse? text with
  | some m => .ok m
  | none => .error .malformedCollection

def Model.load (text : String) : Except Failure Model :=
  (Model.read text).mapError fun d => .build [d] text

structure Workspace where
  settings : Settings
  registry : Registry

namespace Workspace

def new (settings : Settings) : Except Failure Workspace :=
  match settings.registry with
  | .ok registry => .ok { settings, registry }
  | .error e => .error (.graph e)

def buildFrom (w : Workspace) (source : String) (m : Model) : Except Failure Graph :=
  (Graph.build w.registry w.settings.freeze m).mapError fun ds => .build ds source

/-- Builds the graph of a model; a failure keeps the text that the model has when it is written. -/
def build (w : Workspace) (m : Model) : Except Failure Graph := w.buildFrom m.text m

def buildText (w : Workspace) (source : String) : Except Failure Graph := do
  w.buildFrom source (← Model.load source)

def write (g : Graph) : Except Failure Model := g.toModel.mapError .write

def hashIndex (g : Graph) : Except Failure (Index Digest) := g.hashIndex.2.mapError .graph

def roundTrip (w : Workspace) (m : Model) : Except Failure (List Mismatch) := do
  let g ← w.build m
  return m.mismatches (← write g)

def diff (w : Workspace) (before after : Model) : Except Failure Diff := do
  let before ← w.build before
  let after ← w.build after
  (Diff.ofGraphs before after).mapError .graph

end Workspace
end ModelGraph
