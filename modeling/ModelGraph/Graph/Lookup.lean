import ModelGraph.Graph.Basic

/-!
Look-ups along references: the stores that a store includes, the services that are pointed to, and
the properties that a class has by itself, by its super types and by associations.
-/

namespace ModelGraph.Graph

def includedStores (g : Graph) (h : Handle) : List Handle :=
  (((g.body? h).bind Body.storeIncludes?).getD []).filterMap Reference.target

def appendNew (found : List Handle) (items : List Handle) : List Handle :=
  items.foldl (fun found h => if found.contains h then found else found ++ [h]) found

/-- Walks over `found` from a position on, breadth first; what is reached for the first time joins
the end. -/
def closeStores (g : Graph) : (fuel : Nat) → (position : Nat) → (found : List Handle) → List Handle
  | 0, _, found => found
  | fuel + 1, position, found =>
    match found[position]? with
    | none => found
    | some h => closeStores g fuel (position + 1) (appendNew found (g.includedStores h))

def storeClosure (g : Graph) (h : Handle) : List Handle := g.closeStores g.fuel 0 [h]

def service (g : Graph) (p : ServicePointer) : Except ServiceStoreError HttpService :=
  match p.store.target.bind g.body? with
  | some (.extension (.serviceStore s)) => s.service p.service
  | _ => .error (.notAServiceStore (g.referencePath p.store.link))

/-- A property that an association gives to a class: the end opposite to the one of its type. -/
def associationProperty (g : Graph) (h : Handle) (name : String) : Option Property :=
  (g.ofKind .association).findSome? fun a =>
    match a.2.body with
    | .association a => do
      let property ← a.findProperty name
      let opposite ← a.opposite name
      if opposite.type.pointsTo h then some property else none
    | _ => none

/-- The property of a class: its own, or that of a super type, or one given by an association. The
second part holds the classes seen so far, none of which is searched again. -/
def searchProperty (g : Graph) (name : String) :
    (fuel : Nat) → Handle → List Handle → Option Property × List Handle
  | 0, _, visited => (none, visited)
  | fuel + 1, h, visited =>
    if visited.contains h then (none, visited)
    else
      match g.body? h with
      | some (.class c) =>
        match c.findProperty name with
        | some property => (some property, visited ++ [h])
        | none =>
          let inherited := (c.superTypes.filterMap Reference.target).foldl
            (fun state superType =>
              match state with
              | (some property, visited) => (some property, visited)
              | (none, visited) => searchProperty g name fuel superType visited)
            (none, visited ++ [h])
          match inherited with
          | (some property, visited) => (some property, visited)
          | (none, visited) => (g.associationProperty h name, visited)
      | _ => (none, visited ++ [h])

def findProperty (g : Graph) (h : Handle) (name : String) : Except GraphError Property :=
  let found : Option Property :=
    match g.body? h with
    | some (.class _) => (g.searchProperty name g.fuel h []).1
    | some (.association a) => a.findProperty name
    | _ => none
  match found with
  | some property => .ok property
  | none => .error (.propertyNotFound (g.pathOf h) name)

end ModelGraph.Graph
