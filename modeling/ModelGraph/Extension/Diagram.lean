import ModelGraph.Reference
import ModelGraph.Document

namespace ModelGraph

structure ClassView where
  id : String
  shown : Reference .class
  x : Double
  y : Double
  width : Double
  height : Double
  deriving DecidableEq, Repr

structure GeneralizationView where
  source : String
  target : String
  deriving DecidableEq, Repr

namespace GeneralizationView

def touches (l : GeneralizationView) (id : String) : Bool := l.source == id || l.target == id

def hashInput (l : GeneralizationView) : HashInput := .text l.source ++ .text l.target

def ofJson? (j : Json) : Option GeneralizationView := do
  let r ← Record.ofJson? ["sourceView", "targetView"] j
  return ⟨← r.text "sourceView", ← r.text "targetView"⟩

def toJson (l : GeneralizationView) : Json :=
  Record.toJson (.field "sourceView" (.str l.source) ++ .field "targetView" (.str l.target))

end GeneralizationView

namespace ClassView

def isDead (isDead : Handle → Bool) (v : ClassView) : Bool := v.shown.target.any isDead

def hashInput (v : ClassView) : HashInput :=
  .text v.id ++ .code v.shown.digest ++ .word v.x.bits.toNat ++ .word v.y.bits.toNat ++
    .word v.width.bits.toNat ++ .word v.height.bits.toNat

def pair? (first second : String) (j : Json) : Option (Double × Double) := do
  let r ← Record.ofJson? [first, second] j
  return (← r.required first Json.double?, ← r.required second Json.double?)

def pairJson (first second : String) (a b : Double) : Json :=
  Record.toJson (.field first (.num (.double a)) ++ .field second (.num (.double b)))

def ofJson? (j : Json) : Option ClassView := do
  let r ← Record.ofJson? ["id", "class", "position", "rectangle"] j
  let id ← r.text "id"
  let shown ← r.required "class" Reference.ofJson?
  let (x, y) ← r.required "position" (pair? "x" "y")
  let (width, height) ← r.required "rectangle" (pair? "width" "height")
  return { id, shown, x, y, width, height }

def toJson (names : Naming) (v : ClassView) : Json :=
  Record.toJson (.field "id" (.str v.id) ++ .field "class" (v.shown.toJson names) ++
    .field "position" (pairJson "x" "y" v.x v.y) ++
    .field "rectangle" (pairJson "width" "height" v.width v.height))

end ClassView

structure Diagram where
  views : List ClassView := []
  lines : List GeneralizationView := []
  deriving DecidableEq, Repr

namespace Diagram

def view? (d : Diagram) (id : String) : Option ClassView := d.views.find? (·.id == id)

/-- The diagram without the boxes of the given ids and the lines that touch such a box. -/
def removeViews (ids : List String) (d : Diagram) : Diagram where
  views := d.views.filter fun v => !ids.contains v.id
  lines := d.lines.filter fun l => !ids.any l.touches

def entries (d : Diagram) : Nat := d.views.length + d.lines.length

def deadViews (isDead : Handle → Bool) (d : Diagram) : List String :=
  (d.views.filter (·.isDead isDead)).map (·.id)

def links (d : Diagram) : List Link := d.views.map (·.shown.link)

def rebind (f : Rebinding) (d : Diagram) : Diagram :=
  { d with views := d.views.map fun v => { v with shown := f _ v.shown } }

def hashInput (path : Path) (d : Diagram) : HashInput :=
  .extensionTag "DIAGRAM" ++ .text path.text ++ d.views.flatMap ClassView.hashInput ++
    d.lines.flatMap GeneralizationView.hashInput

def ofJson? (j : Json) : Option Diagram := do
  let r ← Record.ofJson? ["classViews", "generalizationViews"] j
  return {
    views := ← r.list "classViews" ClassView.ofJson?
    lines := ← r.list "generalizationViews" GeneralizationView.ofJson? }

def toJson (names : Naming) (d : Diagram) : Json :=
  Record.toJson (.listField "classViews" (d.views.map (·.toJson names)) ++
    .listField "generalizationViews" (d.lines.map GeneralizationView.toJson))

end Diagram
end ModelGraph
