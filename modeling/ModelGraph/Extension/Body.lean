import ModelGraph.Extension.Text
import ModelGraph.Extension.Diagram
import ModelGraph.Extension.ServiceStore
import ModelGraph.Extension.SerializerSchema
import ModelGraph.Extension.Verbatim

namespace ModelGraph

inductive Extension where
  | text (t : TextElement)
  | diagram (d : Diagram)
  | serviceStore (s : ServiceStore)
  | schema (s : SerializerSchema)
  | verbatim (v : Verbatim)
  deriving Repr

namespace Extension

def kind : Extension → String
  | .text _ => "Text"
  | .diagram _ => "Diagram"
  | .serviceStore _ => "ServiceStore"
  | .schema _ => "SerializerSchema"
  | .verbatim v => v.kind

def links : Extension → List Link
  | .text _ => []
  | .diagram d => d.links
  | .serviceStore s => s.links
  | .schema s => s.links
  | .verbatim v => v.links

def rebind (f : Rebinding) : Extension → Extension
  | .text t => .text t
  | .diagram d => .diagram (d.rebind f)
  | .serviceStore s => .serviceStore (s.rebind f)
  | .schema s => .schema (s.rebind f)
  | .verbatim v => .verbatim (v.rebind f)

/-- The stores a store includes; other kinds are no stores. -/
def storeIncludes? : Extension → Option (List (Reference .store))
  | .serviceStore s => some s.includes
  | _ => none

def hashInput (path : Path) : Extension → HashInput
  | .text t => t.hashInput path
  | .diagram d => d.hashInput path
  | .serviceStore s => s.hashInput path
  | .schema s => s.hashInput path
  | .verbatim v => v.elementHashInput path

end Extension

/-- The content of a class mapping of an extension type. -/
inductive ClassMappingExtension where
  | services (pointers : List ServicePointer)
  | verbatim (v : Verbatim)
  deriving Repr

namespace ClassMappingExtension

def servicesType : String := "serviceStore"

def type : ClassMappingExtension → String
  | .services _ => servicesType
  | .verbatim v => v.kind

def links : ClassMappingExtension → List Link
  | .services pointers => pointers.map (·.store.link)
  | .verbatim v => v.links

def rebind (f : Rebinding) : ClassMappingExtension → ClassMappingExtension
  | .services pointers => .services (pointers.map fun p => { p with store := f _ p.store })
  | .verbatim v => .verbatim (v.rebind f)

def hashInput : ClassMappingExtension → HashInput
  | .services pointers =>
    .extensionTag "SERVICE_STORE_MAPPING" ++ pointers.flatMap ServicePointer.hashInput
  | .verbatim v => v.hashInput

def digest (e : ClassMappingExtension) : Digest := e.hashInput.digest

def servicesOfJson? (j : Json) : Option ClassMappingExtension := do
  let r ← Record.ofJson? ["servicesMapping"] j
  return .services (← r.list "servicesMapping" ServicePointer.ofJson?)

def servicesToJson (names : Naming) (pointers : List ServicePointer) : Json :=
  Record.toJson (.listField "servicesMapping" (pointers.map (·.toJson names)))

end ClassMappingExtension
end ModelGraph
