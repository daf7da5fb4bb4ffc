import ModelGraph.Error

namespace ModelGraph

/-- A computation in steps on a state. -/
abbrev Steps (σ : Type) := ExceptT GraphError (StateM σ)

namespace Steps

variable {σ α β : Type} {s : σ}

def outcome (x : Steps σ α) (s : σ) : Except GraphError α × σ := x.run.run s

/-- The outcome of steps that succeed with a new state, or fail and change nothing. -/
def settled (s : σ) : Except GraphError σ → Except GraphError Unit × σ
  | .ok s' => (.ok (), s')
  | .error fault => (.error fault, s)

@[simp]
theorem outcome_pure (a : α) : outcome (pure a) s = (.ok a, s) := rfl

@[simp]
theorem outcome_throw (fault : GraphError) :
    outcome (throw fault : Steps σ α) s = (.error fault, s) := rfl

@[simp]
theorem outcome_modify (f : σ → σ) : outcome (modify f) s = (.ok (), f s) := rfl

@[simp]
theorem outcome_get_bind (f : σ → Steps σ β) : outcome (get >>= f) s = outcome (f s) s := rfl

@[simp]
theorem outcome_modify_bind (f : σ → σ) (x : Unit → Steps σ β) :
    outcome (modify f >>= x) s = outcome (x ()) (f s) := rfl

theorem outcome_bind (x : Steps σ α) (f : α → Steps σ β) :
    outcome (x >>= f) s = match outcome x s with
      | (.ok a, s') => outcome (f a) s'
      | (.error fault, s') => (.error fault, s') := by
  simp only [outcome, ExceptT.run_bind, StateT.run_bind]
  generalize x.run.run s = o
  obtain ⟨a | fault, s'⟩ := o <;> rfl

/-- Steps for one item after the other succeed if they do so from every state that has a property
which they keep. -/
theorem outcome_forM {I : σ → Prop} {f : α → Steps σ Unit} {run : σ → α → σ}
    (h : ∀ s a, I s → outcome (f a) s = (.ok (), run s a) ∧ I (run s a)) (items : List α)
    (hs : I s) : outcome (forM items f) s = (.ok (), items.foldl run s) ∧ I (items.foldl run s) := by
  induction items generalizing s with
  | nil => exact ⟨rfl, hs⟩
  | cons a items ih =>
    obtain ⟨ha, hs'⟩ := h s a hs
    rw [List.forM_cons, outcome_bind, ha]
    exact ih hs'

end Steps
end ModelGraph
