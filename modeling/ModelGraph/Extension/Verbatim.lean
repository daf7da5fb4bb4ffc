import ModelGraph.Reference

namespace ModelGraph

structure Verbatim where
  /-- The name of the element kind, or the type of the class mapping. -/
  kind : String
  /-- The tag under which the content is hashed. -/
  hashTag : String
  content : Json
  classes : List (Reference .class) := []
  deriving Repr

namespace Verbatim

def links (v : Verbatim) : List Link := v.classes.map Reference.link

def rebind (f : Rebinding) (v : Verbatim) : Verbatim := { v with classes := v.classes.map (f _) }

def hashInput (v : Verbatim) : HashInput := .extensionTag v.hashTag ++ .json v.content

def elementHashInput (path : Path) (v : Verbatim) : HashInput :=
  .extensionTag v.hashTag ++ .text path.text ++ .json v.content

end Verbatim
end ModelGraph
