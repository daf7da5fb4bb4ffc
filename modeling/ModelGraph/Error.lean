import ModelGraph.Path

namespace ModelGraph

inductive GraphError where
  | duplicatePath (path : Path)
  | invalidPath (path : Path) (reason : String)
  | elementNotFound (path : Path) (expected : String)
  | unresolvedReference (path : Path)
  | referenceResolution (path : Path) (expected : String) (found : Option String)
  | classMappingNotFound (id : String) (mapping : Path)
  | enumerationMappingNotFound (id : String) (mapping : Path)
  | propertyMappingNotFound (property : String) (classMapping : String)
  | propertyNotFound (owner : Path) (property : String)
  | disposedElementAccess (path : Path)
  | immutableElementMutation (path : Path)
  | duplicateExtension (name : String)
  deriving DecidableEq, Repr

namespace GraphError

def name : GraphError → String
  | .duplicatePath _ => "DuplicatePath"
  | .invalidPath _ _ => "InvalidPath"
  | .elementNotFound _ _ => "ElementNotFound"
  | .unresolvedReference _ => "UnresolvedReference"
  | .referenceResolution _ _ _ => "ReferenceResolution"
  | .classMappingNotFound _ _ => "ClassMappingNotFound"
  | .enumerationMappingNotFound _ _ => "EnumerationMappingNotFound"
  | .propertyMappingNotFound _ _ => "PropertyMappingNotFound"
  | .propertyNotFound _ _ => "PropertyNotFound"
  | .disposedElementAccess _ => "DisposedElementAccess"
  | .immutableElementMutation _ => "ImmutableElementMutation"
  | .duplicateExtension _ => "DuplicateExtension"

def message : GraphError → String
  | .duplicatePath path => "element `" ++ path.text ++ "` already exists in the graph"
  | .invalidPath path reason => "invalid element path `" ++ path.text ++ "`: " ++ reason
  | .elementNotFound path expected => "can't find " ++ expected ++ " `" ++ path.text ++ "`"
  | .unresolvedReference path => "reference to `" ++ path.text ++ "` has not been resolved"
  | .referenceResolution path expected _ =>
    "can't resolve reference `" ++ path.text ++ "` as " ++ expected
  | .classMappingNotFound id mapping =>
    "can't find class mapping with ID `" ++ id ++ "` in mapping `" ++ mapping.text ++ "`"
  | .enumerationMappingNotFound id mapping =>
    "can't find enumeration mapping with ID `" ++ id ++ "` in mapping `" ++ mapping.text ++ "`"
  | .propertyMappingNotFound property classMapping =>
    "can't find property mapping for property `" ++ property ++ "` in class mapping `" ++
      classMapping ++ "`"
  | .propertyNotFound owner property =>
    "can't find property `" ++ property ++ "` on `" ++ owner.text ++ "`"
  | .disposedElementAccess path => "element `" ++ path.text ++ "` is already disposed"
  | .immutableElementMutation path => "read-only element `" ++ path.text ++ "` is modified"
  | .duplicateExtension name => "extension `" ++ name ++ "` is already registered"

def path? : GraphError → Option Path
  | .duplicatePath path => some path
  | .invalidPath path _ => some path
  | .elementNotFound path _ => some path
  | .unresolvedReference path => some path
  | .referenceResolution path _ _ => some path
  | .classMappingNotFound _ mapping => some mapping
  | .enumerationMappingNotFound _ mapping => some mapping
  | .propertyMappingNotFound _ _ => none
  | .propertyNotFound owner _ => some owner
  | .disposedElementAccess path => some path
  | .immutableElementMutation path => some path
  | .duplicateExtension _ => none

end GraphError
end ModelGraph
