import ModelGraph.Reference
import ModelGraph.Document

namespace ModelGraph

structure TablePointer where
  database : Reference .database
  schema : String
  table : String
  deriving DecidableEq, Repr

namespace TablePointer

def rebind (f : Rebinding) (t : TablePointer) : TablePointer :=
  { t with database := f _ t.database }

def hashInput (t : TablePointer) : HashInput :=
  .tag .tablePointer ++ .text t.database.path.text ++ .text t.schema ++ .text t.table

def digest (t : TablePointer) : Digest := t.hashInput.digest

/-- The tag of a pointer may be any text and is not kept. -/
def ofJson? (j : Json) : Option TablePointer := do
  let r ← Record.ofJson? ["_type", "table", "schema", "database"] j
  let _ ← r.withDefault "_type" "Table" Json.text?
  return {
    table := ← r.text "table"
    schema := ← r.text "schema"
    database := ← r.required "database" Reference.ofJson? }

def toJson (names : Naming) (t : TablePointer) : Json :=
  Record.tagged "Table" (.field "table" (.str t.table) ++ .field "schema" (.str t.schema) ++
    .field "database" (t.database.toJson names))

end TablePointer

structure JoinPointer where
  database : Reference .database
  name : String
  joinType : Option String
  deriving DecidableEq, Repr

namespace JoinPointer

def rebind (f : Rebinding) (p : JoinPointer) : JoinPointer := { p with database := f _ p.database }

def hashInput (p : JoinPointer) : HashInput :=
  .text p.database.path.text ++ .text p.name ++ .optText p.joinType

def ofJson? (j : Json) : Option JoinPointer := do
  let r ← Record.ofJson? ["db", "name", "joinType"] j
  return {
    database := ← r.required "db" Reference.ofJson?
    name := ← r.text "name"
    joinType := ← r.optText "joinType" }

def toJson (names : Naming) (p : JoinPointer) : Json :=
  Record.toJson (.field "db" (p.database.toJson names) ++ .field "name" (.str p.name) ++
    .optField "joinType" (p.joinType.map .str))

end JoinPointer

inductive RelationalOperation where
  | column (table : TablePointer) (tableAlias : String) (name : String)
  | call (name : String) (parameters : List RelationalOperation)
  | literal (value : Json)
  | joined (joins : List JoinPointer) (element : Option RelationalOperation)
  deriving Repr

namespace RelationalOperation

mutual

def links : RelationalOperation → List Link
  | .column table _ _ => [table.database.link]
  | .call _ parameters => linksOf parameters
  | .literal _ => []
  | .joined joins none => joins.map (·.database.link)
  | .joined joins (some element) => joins.map (·.database.link) ++ element.links

def linksOf : List RelationalOperation → List Link
  | [] => []
  | o :: rest => o.links ++ linksOf rest

end

mutual

def rebind (f : Rebinding) : RelationalOperation → RelationalOperation
  | .column table tableAlias name => .column (table.rebind f) tableAlias name
  | .call name parameters => .call name (rebindAll f parameters)
  | .literal value => .literal value
  | .joined joins none => .joined (joins.map (·.rebind f)) none
  | .joined joins (some element) => .joined (joins.map (·.rebind f)) (some (element.rebind f))

def rebindAll (f : Rebinding) : List RelationalOperation → List RelationalOperation
  | [] => []
  | o :: rest => o.rebind f :: rebindAll f rest

end

mutual

def tables : RelationalOperation → List TablePointer
  | .column table _ _ => [table]
  | .call _ parameters => tablesOf parameters
  | .literal _ => []
  | .joined _ none => []
  | .joined _ (some element) => element.tables

def tablesOf : List RelationalOperation → List TablePointer
  | [] => []
  | o :: rest => o.tables ++ tablesOf rest

end

mutual

def joins : RelationalOperation → List JoinPointer
  | .column _ _ _ => []
  | .call _ parameters => joinsOf parameters
  | .literal _ => []
  | .joined joins none => joins
  | .joined joins (some element) => joins ++ element.joins

def joinsOf : List RelationalOperation → List JoinPointer
  | [] => []
  | o :: rest => o.joins ++ joinsOf rest

end

mutual

/-- Joins are not counted; the optional element after them closes their list. -/
def hashInput : RelationalOperation → HashInput
  | .column table tableAlias name =>
    .tag .relationalOperation ++ .text "column" ++ .code table.digest ++ .text tableAlias ++
      .text name
  | .call name parameters =>
    .tag .relationalOperation ++ .text "dynaFunc" ++ .text name ++ .codes (digests parameters)
  | .literal value => .tag .relationalOperation ++ .text "literal" ++ .json value
  | .joined joins none =>
    .tag .relationalOperation ++ .text "elemtWithJoins" ++ joins.flatMap JoinPointer.hashInput ++
      .optCode none
  | .joined joins (some element) =>
    .tag .relationalOperation ++ .text "elemtWithJoins" ++ joins.flatMap JoinPointer.hashInput ++
      .optCode (some element.hashInput.digest)

def digests : List RelationalOperation → List Digest
  | [] => []
  | o :: rest => o.hashInput.digest :: digests rest

end

def digest (o : RelationalOperation) : Digest := o.hashInput.digest

mutual

def toJson (names : Naming) : RelationalOperation → Json
  | .column table tableAlias name =>
    Record.tagged "column" (.field "table" (table.toJson names) ++
      .field "tableAlias" (.str tableAlias) ++ .field "column" (.str name))
  | .call name parameters =>
    Record.tagged "dynaFunc" (.field "funcName" (.str name) ++
      .listField "parameters" (toJsons names parameters))
  | .literal value => Record.tagged "literal" (.field "value" value)
  | .joined joins none =>
    Record.tagged "elemtWithJoins" (.listField "joins" (joins.map (·.toJson names)))
  | .joined joins (some element) =>
    Record.tagged "elemtWithJoins" (.listField "joins" (joins.map (·.toJson names)) ++
      .field "relationalElement" (element.toJson names))

def toJsons (names : Naming) : List RelationalOperation → List Json
  | [] => []
  | o :: rest => o.toJson names :: toJsons names rest

end

def tags : List String := ["column", "dynaFunc", "literal", "elemtWithJoins"]

def read : (fuel : Nat) → (nested : Bool) → Json → Option RelationalOperation
  | 0, _, _ => none
  | fuel + 1, nested, j => do
    let (tag, j) ← Json.tagged? tags nested j
    match tag with
    | "column" =>
      let r ← Record.ofJson? ["table", "tableAlias", "column"] j
      return .column (← r.required "table" TablePointer.ofJson?) (← r.text "tableAlias")
        (← r.text "column")
    | "dynaFunc" =>
      let r ← Record.ofJson? ["funcName", "parameters"] j
      return .call (← r.text "funcName") (← r.list "parameters" (read fuel true))
    | "literal" =>
      let r ← Record.ofJson? ["value"] j
      return .literal (← r.requiredValue "value")
    | "elemtWithJoins" =>
      let r ← Record.ofJson? ["joins", "relationalElement"] j
      return .joined (← r.list "joins" JoinPointer.ofJson?)
        (← r.optional "relationalElement" (read fuel true))
    | _ => none

/-- Reads an expression; `nested` holds inside another tagged document. -/
def ofJson? (nested : Bool) (j : Json) : Option RelationalOperation := read (j.depth + 1) nested j

end RelationalOperation
end ModelGraph
