import ModelGraph.Text.Blank

/-!
Element paths: names separated by `::`, outermost package first.

Any text is a path; `Path.fault?` says which texts are paths of elements. The name of a path is what
follows its last `::` and the package path is what precedes it.
-/

namespace ModelGraph

/-- A text read as names separated by `::`. -/
structure Path where
  text : String
  deriving DecidableEq, Repr, Inhabited

namespace Path

instance : ToString Path := ⟨Path.text⟩

def ofChars (s : List Char) : Path := ⟨String.ofList s⟩

def cut : List Char → List (List Char)
  | ':' :: ':' :: rest => [] :: cut rest
  | c :: rest =>
    match cut rest with
    | [] => [[c]]
    | segment :: segments => (c :: segment) :: segments
  | [] => [[]]

def cutLast : List Char → Option (List Char × List Char)
  | [] => none
  | c :: rest =>
    match cutLast rest with
    | some (before, after) => some (c :: before, after)
    | none =>
      match c, rest with
      | ':', ':' :: after => some ([], after)
      | _, _ => none

def segments (p : Path) : List String := (cut p.text.toList).map String.ofList

def name (p : Path) : String :=
  match cutLast p.text.toList with
  | some (_, name) => String.ofList name
  | none => p.text

/-- The path of the owning package; a top-level path has none. -/
def package? (p : Path) : Option Path :=
  (cutLast p.text.toList).map fun (package, _) => ofChars package

def nest (p : Path) (child : String) : Path := ⟨p.text ++ "::" ++ child⟩

def join (package : Option Path) (name : String) : Path :=
  match package with
  | some p => p.nest name
  | none => ⟨name⟩

/-- The path with `_` for each `::`, as mapping ids are formed from class paths. -/
def flattened (p : Path) : String :=
  String.ofList (Text.joinWith ['_'] (cut p.text.toList))

def isSimpleName (name : String) : Bool := !name.isEmpty && (cutLast name.toList).isNone

def sort (ps : List Path) : List Path := ps.mergeSort fun p q => decide (p.text ≤ q.text)

/-- Why a text is not the path of an element. -/
inductive Fault where
  | empty
  | emptySegment
  | strayColon (segment : String)
  | blank (segment : String)
  deriving DecidableEq, Repr

def Fault.message : Fault → String
  | .empty => "path is empty"
  | .emptySegment => "path contains an empty segment"
  | .strayColon segment => "segment `" ++ segment ++ "` contains a stray `:`"
  | .blank segment => "segment `" ++ segment ++ "` contains whitespace"

def segmentFault? (segment : List Char) : Option Fault :=
  if segment.isEmpty then some .emptySegment
  else if segment.contains ':' then some (.strayColon (String.ofList segment))
  else if segment.any Text.isBlank then some (.blank (String.ofList segment))
  else none

/-- The first fault of a path, segment by segment; none for the path of an element. -/
def fault? (p : Path) : Option Fault :=
  if p.text.isEmpty then some .empty else (cut p.text.toList).findSome? segmentFault?

theorem cutLast_length {s before after : List Char} (h : cutLast s = some (before, after)) :
    before.length < s.length := by
  induction s generalizing before after with
  | nil => simp [cutLast] at h
  | cons c rest ih =>
    unfold cutLast at h
    split at h
    · next b a hr =>
      simp only [Option.some.injEq, Prod.mk.injEq] at h
      have := ih hr
      rw [← h.1]
      simpa using this
    · split at h
      · simp only [Option.some.injEq, Prod.mk.injEq] at h
        rw [← h.1]
        simp
      · simp at h

theorem package?_length {p q : Path} (h : p.package? = some q) :
    q.text.toList.length < p.text.toList.length := by
  simp only [package?, Option.map_eq_some_iff] at h
  obtain ⟨⟨before, after⟩, hc, rfl⟩ := h
  simpa [ofChars] using cutLast_length hc

def ancestors (p : Path) : List Path :=
  match _h : p.package? with
  | some q => q :: q.ancestors
  | none => []
termination_by p.text.toList.length
decreasing_by exact package?_length _h

end Path
end ModelGraph
