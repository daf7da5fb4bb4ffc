import ModelGraph.Reference
import ModelGraph.Document

namespace ModelGraph

structure TextElement where
  format : String := ""
  content : String := ""
  deriving DecidableEq, Repr

namespace TextElement

def hashInput (path : Path) (t : TextElement) : HashInput :=
  .extensionTag "TEXT" ++ .text path.text ++ .text t.format ++ .text t.content

def ofJson? (j : Json) : Option TextElement := do
  let r ← Record.ofJson? ["type", "content"] j
  return {
    format := ← r.withDefault "type" "" Json.text?
    content := ← r.withDefault "content" "" Json.text? }

def toJson (t : TextElement) : Json :=
  Record.toJson (.field "type" (.str t.format) ++ .field "content" (.str t.content))

end TextElement
end ModelGraph
