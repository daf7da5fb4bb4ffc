import ModelGraph.Diagnostic
import ModelGraph.Graph.Lookup

/-!
Validation of a graph whose references are bound: annotations name what their profile declares, and
tables and joins are found in their database or in a store that it includes.
-/

namespace ModelGraph.Graph

def annotations : Body → List Annotations
  | .class c =>
    c.annotations :: (c.properties.map Property.annotations ++
      c.derivedProperties.map DerivedProperty.annotations)
  | .association a =>
    a.annotations :: (a.properties.map Property.annotations ++
      a.derivedProperties.map DerivedProperty.annotations)
  | .enumeration e => e.annotations :: e.values.map EnumValue.annotations
  | .function f => [f.annotations]
  | .service s => [s.annotations]
  | _ => []

def mainTables : Body → List TablePointer
  | .mapping m => m.slots.filterMap SetImplementation.mainTable?
  | _ => []

def slotOperations (s : SetImplementation) : List RelationalOperation :=
  s.primaryKey ++ s.properties.filterMap PropertyMapping.operation?

def operations : Body → List RelationalOperation
  | .database d => d.joins.map Join.operation
  | .mapping m => m.slots.flatMap slotOperations
  | _ => []

def profile? (g : Graph) (r : Reference .profile) : Option Profile :=
  match r.target.bind g.body? with
  | some (.profile p) => some p
  | _ => none

/-- The databases among the stores that a database includes, itself among them; none while the
reference is unbound. -/
def databases? (g : Graph) (r : Reference .database) : Option (List Database) :=
  r.target.map fun h => (g.storeClosure h).filterMap fun s =>
    match g.body? s with
    | some (.database d) => some d
    | _ => none

def pointerFault (code : DiagnosticCode) (message : String) (path : Path) (remark : String)
    (other : Path) (otherRemark : String) : Diagnostic where
  code := some code
  message := message
  labels :=
    [{ path, message := remark }, { path := other, message := otherRemark, primary := false }]

def stereotypeFault? (g : Graph) (path : Path) (s : Stereotype) : Option Diagnostic :=
  match g.profile? s.profile with
  | none => none
  | some p =>
    if p.hasStereotype s.name then none
    else
      let profile := g.referencePath s.profile.link
      some (pointerFault .unknownStereotype
        ("profile `" ++ profile.text ++ "` has no stereotype `" ++ s.name ++ "`")
        path "annotated here" profile "profile declared here")

def tagFault? (g : Graph) (path : Path) (t : TaggedValue) : Option Diagnostic :=
  match g.profile? t.profile with
  | none => none
  | some p =>
    if p.hasTag t.tag then none
    else
      let profile := g.referencePath t.profile.link
      some (pointerFault .unknownTag
        ("profile `" ++ profile.text ++ "` has no tag `" ++ t.tag ++ "`")
        path "tagged here" profile "profile declared here")

def tableFault? (g : Graph) (path : Path) (t : TablePointer) : Option Diagnostic :=
  match g.databases? t.database with
  | none => none
  | some databases =>
    if databases.any fun d => (d.table? t.schema t.table).isSome then none
    else
      let database := g.referencePath t.database.link
      some (pointerFault .unknownTable
        ("can't find table `" ++ t.schema ++ "." ++ t.table ++ "` in database `" ++
          database.text ++ "`")
        path "table used here" database "database")

def joinFault? (g : Graph) (path : Path) (j : JoinPointer) : Option Diagnostic :=
  match g.databases? j.database with
  | none => none
  | some databases =>
    if databases.any fun d => d.hasJoin j.name then none
    else
      let database := g.referencePath j.database.link
      some (pointerFault .unknownJoin
        ("can't find join `" ++ j.name ++ "` in database `" ++ database.text ++ "`")
        path "join used here" database "database")

def annotationFaults (g : Graph) (path : Path) (a : Annotations) : List Diagnostic :=
  a.stereotypes.filterMap (g.stereotypeFault? path) ++ a.taggedValues.filterMap (g.tagFault? path)

def operationFaults (g : Graph) (path : Path) (o : RelationalOperation) : List Diagnostic :=
  o.tables.filterMap (g.tableFault? path) ++ o.joins.filterMap (g.joinFault? path)

def bodyFaults (g : Graph) (path : Path) (b : Body) : List Diagnostic :=
  (annotations b).flatMap (g.annotationFaults path) ++
    (mainTables b).filterMap (g.tableFault? path) ++ (operations b).flatMap (g.operationFaults path)

def validate (g : Graph) : List Diagnostic := g.live.flatMap fun l => g.bodyFaults l.2.path l.2.body

end ModelGraph.Graph
