import ModelGraph.Digest.Input
import ModelGraph.Document

namespace ModelGraph

/-- Bounds of a number of values; without an upper bound any number from the lower bound on. -/
structure Multiplicity where
  lower : Nat
  upper : Option Nat
  deriving DecidableEq, Repr

namespace Multiplicity

def one : Multiplicity := ⟨1, some 1⟩

def isMany (m : Multiplicity) : Bool :=
  match m.upper with
  | some upper => upper > 1
  | none => true

def text (m : Multiplicity) : String :=
  match m.upper with
  | some upper =>
    if upper = m.lower then "[" ++ toString upper ++ "]"
    else "[" ++ toString m.lower ++ ".." ++ toString upper ++ "]"
  | none => if m.lower = 0 then "[*]" else "[" ++ toString m.lower ++ "..*]"

def hashInput (m : Multiplicity) : HashInput :=
  .tag .multiplicity ++ .word m.lower ++
    .text (match m.upper with | some upper => toString upper | none => "*")

def digest (m : Multiplicity) : Digest := m.hashInput.digest

def ofJson? (j : Json) : Option Multiplicity := do
  let r ← Record.ofJson? ["lowerBound", "upperBound"] j
  return ⟨← r.required "lowerBound" Json.nat32?, ← r.optional "upperBound" Json.nat32?⟩

def toJson (m : Multiplicity) : Json :=
  Record.toJson (.field "lowerBound" (.ofNat m.lower) ++
    .optField "upperBound" (m.upper.map .ofNat))

end Multiplicity
end ModelGraph
