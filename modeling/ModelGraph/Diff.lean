import ModelGraph.Graph.Lifecycle

namespace ModelGraph

structure Diff where
  added : List Path := []
  removed : List Path := []
  modified : List Path := []
  deriving DecidableEq, Repr

namespace Diff

def between (before after : Index Digest) : Diff where
  added := Path.sort (after.paths.filter fun p => !before.contains p)
  removed := Path.sort (before.paths.filter fun p => !after.contains p)
  modified :=
    Path.sort ((after.entries.filter fun e => (before.get? e.1).any (· ≠ e.2)).map Prod.fst)

/-- Compares two graphs. A graph without digests is reported, the former one first. -/
def ofGraphs (before after : Graph) : Except GraphError Diff := do
  return between (← before.hashIndex.2) (← after.hashIndex.2)

def size (d : Diff) : Nat := d.added.length + d.removed.length + d.modified.length

def isEmpty (d : Diff) : Bool := d.added.isEmpty && d.removed.isEmpty && d.modified.isEmpty

def text (d : Diff) : String :=
  let lines (mark : String) (paths : List Path) : String :=
    String.join (paths.map fun p => mark ++ " " ++ p.text ++ "\n")
  lines "+" d.added ++ lines "-" d.removed ++ lines "~" d.modified

end Diff
end ModelGraph
