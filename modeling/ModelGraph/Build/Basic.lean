import ModelGraph.Build.Entry
import ModelGraph.Build.Validation
import ModelGraph.Graph.Lifecycle
import ModelGraph.Graph.Mappings

/-!
Building the graph of a model.

The build goes on in phases: the entities are checked, their elements registered, references bound,
mappings wired, and the whole validated. A phase reports all that is wrong, and the next one begins
only when nothing is.
-/

namespace ModelGraph.Graph

def diagnostic? {α : Type} : Except Diagnostic α → Option Diagnostic
  | .ok _ => none
  | .error d => some d

def checkModel (r : Registry) (m : Model) : Checked (List Entry) :=
  let checks := Entry.ofModel r [] m
  Checked.unless (checks.filterMap diagnostic?) (checks.filterMap Except.toOption)

def registerEntry (e : Entry) (g : Graph) : Graph × Option Diagnostic :=
  match e.body g.registry with
  | .error d => (g, some d)
  | .ok body =>
    match g.create e.entity.path body with
    | (g, .ok _) => (g, none)
    | (g, .error fault) => (g, some (.ofError fault none))

def register : List Entry → Graph → Graph × List Diagnostic
  | [], g => (g, [])
  | e :: rest, g =>
    let (g, d) := registerEntry e g
    let (g, ds) := register rest g
    (g, d.toList ++ ds)

/-- The references that can't be resolved, with the elements that hold them. -/
def resolutionFaults (g : Graph) : List Diagnostic :=
  g.live.flatMap fun l => (g.resolveFaults l.2.body).map fun e => .ofError e (some l.2.path)

def duplicateId (path : Path) (id : String) : Diagnostic where
  code := some .duplicateClassMappingId
  message := "class mapping id `" ++ id ++ "` is used more than once in `" ++ path.text ++ "`"
  labels := [{ path, message := "duplicate class mapping id" }]
  help := some "give each class mapping of the same class an explicit `id`"

def repeated : (seen ids : List String) → List String
  | _, [] => []
  | seen, id :: rest =>
    if seen.contains id then id :: repeated seen rest else repeated (id :: seen) rest

def wiringFaults (g : Graph) (h : Handle) (e : Element) : List Diagnostic :=
  match e.body with
  | .mapping m =>
    (repeated [] (m.slots.map (·.id.value))).map (duplicateId e.path) ++
      (g.wireFaults h).map fun fault => .ofError fault (some e.path)
  | _ => []

def build (r : Registry) (freeze : Bool) (m : Model) : Checked Graph := do
  let entries ← checkModel r m
  let (g, faults) := register entries (.new r)
  let g ← Checked.unless faults g
  let g ← Checked.unless g.resolutionFaults g.resolveAll.1
  let g ← Checked.unless ((g.ofKind .mapping).flatMap fun l => g.wiringFaults l.1 l.2) g.wireAll.1
  let g ← Checked.unless g.validate g
  return if freeze then g.freeze else g

end ModelGraph.Graph
