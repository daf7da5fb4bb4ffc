import ModelGraph.Path

namespace ModelGraph

structure Index (α : Type) where
  entries : List (Path × α) := []
  nodup : (entries.map Prod.fst).Nodup := by simp

namespace Index

variable {α : Type}

def empty : Index α := {}

instance : Inhabited (Index α) := ⟨empty⟩

def size (x : Index α) : Nat := x.entries.length

def paths (x : Index α) : List Path := x.entries.map Prod.fst

def values (x : Index α) : List α := x.entries.map Prod.snd

def get? (x : Index α) (p : Path) : Option α := x.entries.lookup p

def contains (x : Index α) (p : Path) : Bool := (x.get? p).isSome

def put (p : Path) (a : α) : List (Path × α) → List (Path × α)
  | [] => [(p, a)]
  | (q, b) :: rest => if q = p then (p, a) :: rest else (q, b) :: put p a rest

theorem map_fst_put (p : Path) (a : α) (entries : List (Path × α)) :
    (put p a entries).map Prod.fst =
      if p ∈ entries.map Prod.fst then entries.map Prod.fst else entries.map Prod.fst ++ [p] := by
  induction entries with
  | nil => simp [put]
  | cons e rest ih =>
    obtain ⟨q, b⟩ := e
    by_cases h : q = p
    · simp [put, h]
    · have h' : ¬p = q := fun e => h e.symm
      simp only [put, if_neg h, List.map_cons, ih, List.mem_cons, h', false_or]
      split <;> simp

def insert (p : Path) (a : α) (x : Index α) : Index α where
  entries := put p a x.entries
  nodup := by
    rw [map_fst_put]
    split
    · exact x.nodup
    · next h =>
      rw [List.nodup_append]
      refine ⟨x.nodup, by simp, ?_⟩
      intro a ha b hb
      rw [List.mem_singleton] at hb
      subst hb
      exact fun e => h (e ▸ ha)

def erase (p : Path) (x : Index α) : Index α where
  entries := x.entries.filter fun e => e.1 ≠ p
  nodup := x.nodup.sublist (List.filter_sublist.map _)

def ofList (entries : List (Path × α)) : Index α :=
  entries.foldl (fun x e => x.insert e.1 e.2) empty

def sorted (x : Index α) : Index α where
  entries := x.entries.mergeSort fun a b => decide (a.1.text ≤ b.1.text)
  nodup := ((List.mergeSort_perm _ _).map _).nodup_iff.2 x.nodup

end Index
end ModelGraph
