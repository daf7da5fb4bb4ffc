import ModelGraph.Extension.Presets
import ModelGraph.Toml.Value

namespace ModelGraph

structure Settings where
  freeze : Bool := false
  presets : List Preset := Preset.all
  deriving DecidableEq, Repr

namespace Settings

/-- The members of a document of settings; those of other names are ignored. -/
def record? (names : List String) : Json → Option Record
  | .obj members => some members
  | .arr items => Record.ofJson? names (.arr items)
  | _ => none

def presetOfJson? (j : Json) : Option Preset :=
  (Json.choice? (Preset.all.map Preset.name) false j).bind Preset.ofName?

def ofJson? (j : Json) : Option Settings := do
  let r ← record? ["build", "extensions"] j
  let freeze ← r.withDefault "build" false fun j => do
    let r ← record? ["freeze"] j
    r.flag "freeze"
  let presets ← r.withDefault "extensions" Preset.all fun j => do
    let r ← record? ["enabled"] j
    r.withDefault "enabled" Preset.all (Json.list? presetOfJson?)
  return { freeze, presets }

/-- The members of a TOML table, or of an array that holds them in order; a date has none. Members
of other names are ignored if their numbers are within range, and so are further items of an array.
-/
def members? (names : List String) : Toml.Value → Option Toml.Members
  | .table _ members =>
    if members.all fun m => names.contains m.1 || m.2.inRange then some members else none
  | .datetime _ => some []
  | v => v.items?.map names.zip

/-- A preset by its name, or by a table whose one member has that name and holds nothing. -/
def presetOfToml? : Toml.Value → Option Preset
  | .text name => Preset.ofName? name
  | .table _ [(name, .table _ [])] => Preset.ofName? name
  | .table _ [(name, .array [])] => Preset.ofName? name
  | _ => none

def ofToml? (v : Toml.Value) : Option Settings := do
  let sections ← members? ["build", "extensions"] v
  let freeze ←
    match sections.lookup "build" with
    | none => some false
    | some v => do
      match (← members? ["freeze"] v).lookup "freeze" with
      | none => some false
      | some v => v.bool?
  let presets ←
    match sections.lookup "extensions" with
    | none => some Preset.all
    | some v => do
      match (← members? ["enabled"] v).lookup "enabled" with
      | none => some Preset.all
      | some v => v.items?.bind fun items => items.mapM presetOfToml?
  return { freeze, presets }

def isEnabled (s : Settings) (p : Preset) : Bool := s.presets.contains p

def registry (s : Settings) : Except GraphError Registry := Preset.registry s.presets

end Settings
end ModelGraph
