import ModelGraph.Workspace

/-!
Reports of failures, with labels at places of the text of a model.

A label names an element by path. It is put where the text gives this path as that of an entity, or
else where the path is first quoted.
-/

namespace ModelGraph

structure Span where
  offset : Nat
  length : Nat
  deriving DecidableEq, Repr

namespace Span

def byteLength (s : List Char) : Nat := s.foldl (fun n c => n + c.utf8Size) 0

/-- The text before each occurrence of a needle, last character first. An occurrence begins where
the one before it has ended, or later; `skip` characters belong to the one before. -/
def occurrences (needle : List Char) :
    (skip : Nat) → (before : List Char) → List Char → List (List Char)
  | _, _, [] => []
  | skip + 1, before, c :: rest => occurrences needle skip (c :: before) rest
  | 0, before, c :: rest =>
    if needle.isPrefixOf (c :: rest) then
      before :: occurrences needle (needle.length - 1) (c :: before) rest
    else occurrences needle 0 (c :: before) rest

/-- What precedes a text makes it the value of a member `path`; it is given last character first. -/
def followsPathKey (before : List Char) : Bool :=
  match before.dropWhile Text.isBlank with
  | ':' :: before => "\"htap\"".toList.isPrefixOf (before.dropWhile Text.isBlank)
  | _ => false

/-- Where a text gives a path as that of an entity, or else where it first quotes the path. -/
def locate? (source : String) (path : Path) : Option Span :=
  let needle := '"' :: (path.text.toList ++ ['"'])
  let found := occurrences needle 0 [] source.toList
  ((found.find? followsPathKey).or found.head?).map fun before =>
    ⟨byteLength before, byteLength needle⟩

end Span

structure Mark where
  span : Span
  message : String
  primary : Bool
  deriving DecidableEq, Repr

/-- A failure, or one diagnostic of a failed build, as it is shown. -/
structure Report where
  message : String
  code : Option String := none
  severity : Option Severity := none
  help : Option String := none
  /-- The text that the marks point into. -/
  source : Option String := none
  marks : List Mark := []
  deriving DecidableEq, Repr

namespace Report

/-- The report of a diagnostic. Labels of paths that the text doesn't hold are left out. -/
def ofDiagnostic (source : String) (d : Diagnostic) : Report where
  message := d.message
  code := d.code.map DiagnosticCode.text
  severity := some d.severity
  help := d.help
  source := some source
  marks := d.labels.filterMap fun l =>
    (Span.locate? source l.path).map fun span => ⟨span, l.message, l.primary⟩

def failureCode : Failure → Option String
  | .file _ => some "meridian::io"
  | .build _ _ => none
  | .write _ => some "meridian::serialize"
  | .graph _ => some "meridian::graph"
  | .serviceStore _ => some "meridian::service_store"
  | .roundTrip _ => some "meridian::roundtrip"

def failureHelp : Failure → Option String
  | .roundTrip _ => some "run with --output to inspect the serialized entities"
  | _ => none

/-- The reports of a failure: one for each diagnostic of a build, one for any other failure. -/
def ofFailure (f : Failure) : List Report :=
  match f with
  | .build diagnostics source => diagnostics.map (ofDiagnostic source)
  | f => [{ message := f.message, code := failureCode f, help := failureHelp f }]

end Report
end ModelGraph
