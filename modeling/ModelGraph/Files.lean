import ModelGraph.Text.Blank

/-!
What the command line asks of files, and a directory tree in memory that answers it.

A name is a list of steps between slashes. It is followed from directory to directory: `.` and an
empty step stay, `..` goes up, and every step leaves a directory that is there. So `d/../a` names a
file only if `d` is a directory, and `a/` names no file at all.
-/

namespace ModelGraph

structure FileAccess (m : Type → Type) where
  isThere : String → m Bool
  /-- The text of a file, if it can be read. -/
  read : String → m (Option String)
  /-- Writes a file anew, and tells whether this was possible. -/
  write : String → String → m Bool

/-- A place in a directory tree: the names on the way down from the root. -/
abbrev Place := List String

/-- The place that a step leads to; the root lies above itself. -/
def Place.step (p : Place) (s : String) : Place :=
  if s = "" || s = "." then p else if s = ".." then p.dropLast else p ++ [s]

/-- A directory tree: the texts of its files by place, and the directory where names without a
leading slash start. Only the directories on the way to these places are there. -/
structure FileTree where
  files : List (Place × String) := []
  working : Place := []
  deriving DecidableEq, Repr

namespace FileTree

def steps (name : String) : List String := (Text.splitAt '/' name.toList).map String.ofList

def start (t : FileTree) (name : String) : Place :=
  if name.toList.head? = some '/' then [] else t.working

def isDirectory (t : FileTree) (p : Place) : Bool :=
  p.isPrefixOf t.working || t.files.any fun f => p.isPrefixOf f.1 && f.1 ≠ p

def stepLimit : Nat := 255

def nameLimit : Nat := 4095

def isStep (s : String) : Bool := s.utf8ByteSize ≤ stepLimit && !s.toList.contains (Char.ofNat 0)

def enter? (t : FileTree) (p : Place) (s : String) : Option Place :=
  if t.isDirectory p && isStep s then some (p.step s) else none

/-- The place of a name, at which a file or directory is or may come to be. -/
def place? (t : FileTree) (name : String) : Option Place :=
  if name.isEmpty || nameLimit < name.utf8ByteSize then none
  else (steps name).foldlM t.enter? (t.start name)

def read? (t : FileTree) (name : String) : Option String :=
  (t.place? name).bind fun p => t.files.lookup p

def isThere (t : FileTree) (name : String) : Bool :=
  (t.place? name).any fun p => t.isDirectory p || (t.files.lookup p).isSome

def put (t : FileTree) (p : Place) (text : String) : FileTree :=
  { t with files := t.files.filter (·.1 ≠ p) ++ [(p, text)] }

/-- Writes a file, unless its name is that of a directory or leads nowhere. -/
def write? (t : FileTree) (name text : String) : Option FileTree :=
  (t.place? name).bind fun p => if t.isDirectory p then none else some (t.put p text)

/-- The tree of the given files and of the directories on the way to them. -/
def ofList (working : Place) (files : List (String × String)) : FileTree :=
  files.foldl (fun t f => t.put ((steps f.1).foldl Place.step (t.start f.1)) f.2) { working }

def access : FileAccess (StateM FileTree) where
  isThere name := return (← get).isThere name
  read name := return (← get).read? name
  write name text := do
    match (← get).write? name text with
    | some t => set t; return true
    | none => return false

end FileTree
end ModelGraph
