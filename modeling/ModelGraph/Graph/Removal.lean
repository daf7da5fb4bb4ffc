import ModelGraph.Graph.Basic

/-!
Deletion and renaming.

Deleting a package deletes what it owns. Renaming an element moves what it owns along with it, and
the references to all of these follow.
-/

namespace ModelGraph.Graph

def leave (h : Handle) (package : Option Handle) (g : Graph) : Graph :=
  match package with
  | some o => g.update (fun e => { e with body := e.body.mapChildren (·.filter (· ≠ h)) }) o
  | none => g

/-- Takes one element from the index, the roster and its package, and marks it deleted. -/
def retire (h : Handle) (e : Element) (g : Graph) : Graph :=
  let marked := g.update (fun e => { e with deleted := true }) h
  { marked with
    index := marked.index.erase e.path
    roster := marked.roster.filter (· ≠ (e.kind, h)) }.leave h e.package

def retireTree : (fuel : Nat) → Handle → Graph → Graph
  | 0, _, g => g
  | fuel + 1, h, g =>
    match g.element? h with
    | none => g
    | some e =>
      if e.deleted then g
      else (e.body.children.foldl (fun g child => retireTree fuel child g) g).retire h e

def delete (h : Handle) (g : Graph) : Except GraphError Graph :=
  match g.element? h with
  | none => .ok g
  | some e =>
    if e.deleted then .ok g
    else if g.frozen then .error (.immutableElementMutation e.path)
    else .ok (g.retireTree g.fuel h)

abbrev Moves := List (Handle × Path)

def reindex (old new : Path) (h : Handle) (g : Graph) : Graph :=
  { g with index := (g.index.erase old).insert new h }

def relocateTree : (fuel : Nat) → Handle → Path → Graph × Moves → Graph × Moves
  | 0, _, _, state => state
  | fuel + 1, h, path, (g, moves) =>
    match g.body? h with
    | none => (g, moves)
    | some body =>
      body.children.foldl
        (fun (g, moves) child =>
          match g.element? child with
          | none => (g, moves)
          | some e =>
            let new := path.nest e.name
            relocateTree fuel child new
              ((g.update (·.relocate new) child).reindex e.path new child, moves ++ [(child, new)]))
        (g, moves)

def Moves.path? (moves : Moves) (target : Option Handle) : Option Path :=
  target.bind fun h => List.lookup h moves

def Moves.follow (moves : Moves) : Rebinding := fun _ r =>
  match moves.path? r.target with
  | some path => { r with path }
  | none => r

def Moves.concern (moves : Moves) (b : Body) : Bool :=
  b.links.any fun l => (moves.path? l.target).isSome

/-- Lets references follow moved elements; this edits the elements that hold them. -/
def repoint (moves : Moves) (g : Graph) : Graph :=
  g.updateLive fun e => if moves.concern e.body then e.edit (·.rebind moves.follow) else e

/-- Gives an element a new name. Elements that share its package or are owned by it keep theirs. -/
def rename (h : Handle) (name : String) (g : Graph) : Except GraphError Graph :=
  match g.element? h with
  | none => .ok g
  | some e => do
    let path := Path.join e.path.package? name
    if g.frozen then throw (.immutableElementMutation e.path)
    if !Path.isSimpleName name then throw (.invalidPath path (notSimple name))
    if path = e.path then return g
    if g.index.contains path then throw (.duplicatePath path)
    let renamed := (g.reindex e.path path h).update (·.rename name path) h
    let (relocated, moves) := relocateTree renamed.fuel h path (renamed, [(h, path)])
    return relocated.repoint moves

end ModelGraph.Graph
