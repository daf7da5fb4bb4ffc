import ModelGraph.Store.ColumnType
import ModelGraph.Store.RelationalOperation

namespace ModelGraph

/-- A column; its type is kept as text. -/
structure Column where
  name : String
  dataType : String
  nullable : Bool
  deriving DecidableEq, Repr

structure BadColumnType where
  dataType : String
  deriving DecidableEq, Repr

namespace Column

def hashInput (c : Column) : HashInput :=
  .tag .column ++ .text c.name ++ .text c.dataType ++ .flag c.nullable

def digest (c : Column) : Digest := c.hashInput.digest

def ofJson? (j : Json) : Option Column := do
  let r ← Record.ofJson? ["name", "type", "nullable"] j
  return {
    name := ← r.text "name"
    dataType := (← r.required "type" ColumnType.ofJson?).text
    nullable := ← r.required "nullable" Json.bool? }

def toJson (c : Column) : Except BadColumnType Json :=
  match ColumnType.ofText? c.dataType with
  | some t =>
    .ok (Record.toJson (.field "name" (.str c.name) ++ .field "type" t.toJson ++
      .field "nullable" (.bool c.nullable)))
  | none => .error ⟨c.dataType⟩

end Column

structure Table where
  name : String
  columns : List Column := []
  primaryKey : List String := []
  deriving DecidableEq, Repr

namespace Table

def hasColumn (t : Table) (name : String) : Bool := t.columns.any (·.name == name)

def hashInput (t : Table) : HashInput :=
  .tag .table ++ .text t.name ++ .codes (t.columns.map Column.digest) ++ .texts t.primaryKey

def digest (t : Table) : Digest := t.hashInput.digest

def ofJson? (j : Json) : Option Table := do
  let r ← Record.ofJson? ["name", "columns", "primaryKey"] j
  return {
    name := ← r.text "name"
    columns := ← r.list "columns" Column.ofJson?
    primaryKey := ← r.texts "primaryKey" }

def toJson (t : Table) : Except BadColumnType Json := do
  let columns ← t.columns.mapM Column.toJson
  return Record.toJson (.field "name" (.str t.name) ++ .listField "columns" columns ++
    .listField "primaryKey" (t.primaryKey.map .str))

end Table

structure Schema where
  name : String
  tables : List Table := []
  deriving DecidableEq, Repr

namespace Schema

def hashInput (s : Schema) : HashInput :=
  .tag .schema ++ .text s.name ++ .codes (s.tables.map Table.digest)

def digest (s : Schema) : Digest := s.hashInput.digest

def ofJson? (j : Json) : Option Schema := do
  let r ← Record.ofJson? ["name", "tables"] j
  return { name := ← r.text "name", tables := ← r.list "tables" Table.ofJson? }

def toJson (s : Schema) : Except BadColumnType Json := do
  let tables ← s.tables.mapM Table.toJson
  return Record.toJson (.field "name" (.str s.name) ++ .listField "tables" tables)

end Schema

structure Join where
  name : String
  operation : RelationalOperation
  deriving Repr

namespace Join

def rebind (f : Rebinding) (j : Join) : Join := { j with operation := j.operation.rebind f }

def hashInput (j : Join) : HashInput := .tag .join ++ .text j.name ++ .code j.operation.digest

def digest (j : Join) : Digest := j.hashInput.digest

def ofJson? (j : Json) : Option Join := do
  let r ← Record.ofJson? ["name", "operation"] j
  return {
    name := ← r.text "name"
    operation := ← r.required "operation" (RelationalOperation.ofJson? false) }

def toJson (names : Naming) (j : Join) : Json :=
  Record.toJson (.field "name" (.str j.name) ++ .field "operation" (j.operation.toJson names))

end Join

structure Database where
  includes : List (Reference .store) := []
  schemas : List Schema := []
  joins : List Join := []
  deriving Repr

namespace Database

def schema? (d : Database) (name : String) : Option Schema := d.schemas.find? (·.name == name)

def table? (d : Database) (schema table : String) : Option Table :=
  (d.schema? schema).bind fun s => s.tables.find? (·.name == table)

def hasJoin (d : Database) (name : String) : Bool := d.joins.any (·.name == name)

def links (d : Database) : List Link :=
  d.includes.map Reference.link ++ d.joins.flatMap (·.operation.links)

def rebind (f : Rebinding) (d : Database) : Database where
  includes := d.includes.map (f _)
  schemas := d.schemas
  joins := d.joins.map (·.rebind f)

def hashInput (path : Path) (d : Database) : HashInput :=
  .tag .database ++ .text path.text ++ .codes (d.includes.map Reference.digest) ++
    .codes (d.schemas.map Schema.digest) ++ .codes (d.joins.map Join.digest)

def ofJson? (j : Json) : Option Database := do
  let r ← Record.ofJson? ["includedStores", "schemas", "joins"] j
  return {
    includes := ← r.list "includedStores" Reference.ofJson?
    schemas := ← r.list "schemas" Schema.ofJson?
    joins := ← r.list "joins" Join.ofJson? }

def toJson (names : Naming) (d : Database) : Except BadColumnType Json := do
  let schemas ← d.schemas.mapM Schema.toJson
  return Record.toJson (.listField "includedStores" (d.includes.map (·.toJson names)) ++
    .listField "schemas" schemas ++ .listField "joins" (d.joins.map (·.toJson names)))

end Database
end ModelGraph
