import ModelGraph.Entity

namespace ModelGraph

inductive Mismatch where
  | missing (path : Path)
  | unexpected (path : Path)
  | changed (path : Path) (expected actual : Entity)
  deriving Repr

namespace Mismatch

def path : Mismatch → Path
  | .missing path => path
  | .unexpected path => path
  | .changed path _ _ => path

/-- What is wrong with an expected entity, given those that are there; of equal paths the last one
counts. -/
def ofExpected? (actual : Model) (e : Entity) : Option Mismatch :=
  match actual.reverse.find? (·.path == e.path) with
  | none => some (.missing e.path)
  | some a => if a.agrees e then none else some (.changed e.path e a)

def ofActual? (expected : Model) (a : Entity) : Option Mismatch :=
  if expected.any (·.path == a.path) then none else some (.unexpected a.path)

end Mismatch

/-- The missing and changed entities by ascending path, then the unexpected ones likewise. -/
def Model.mismatches (expected actual : Model) : List Mismatch :=
  expected.canonical.filterMap (Mismatch.ofExpected? actual.canonical) ++
    actual.canonical.filterMap (Mismatch.ofActual? expected.canonical)

end ModelGraph
