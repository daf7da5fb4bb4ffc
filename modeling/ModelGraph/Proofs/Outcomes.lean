
namespace ModelGraph

variable {ε α β : Type}

theorem bind_eq_ok {x : Except ε α} {f : α → Except ε β} {b : β} :
    (x >>= f) = .ok b ↔ ∃ a, x = .ok a ∧ f a = .ok b := by
  cases x <;> simp [bind, Except.bind]

theorem bind_eq_error {x : Except ε α} {f : α → Except ε β} {fault : ε} :
    (x >>= f) = .error fault ↔ x = .error fault ∨ ∃ a, x = .ok a ∧ f a = .error fault := by
  cases x <;> simp [bind, Except.bind]

theorem map_eq_ok {x : Except ε α} {f : α → β} {b : β} :
    x.map f = .ok b ↔ ∃ a, x = .ok a ∧ f a = b := by
  cases x <;> simp [Except.map]

theorem map_eq_error {x : Except ε α} {f : α → β} {fault : ε} :
    x.map f = .error fault ↔ x = .error fault := by
  cases x <;> simp [Except.map]

@[simp]
theorem ok_bind (a : α) (f : α → Except ε β) : (Except.ok a >>= f) = f a := rfl

@[simp]
theorem error_bind (fault : ε) (f : α → Except ε β) :
    ((Except.error fault : Except ε α) >>= f) = .error fault := rfl

theorem bind_eq_some {x : Option α} {f : α → Option β} {b : β} :
    (x >>= f) = some b ↔ ∃ a, x = some a ∧ f a = some b :=
  Option.bind_eq_some_iff

theorem pure_eq_ok {a b : α} : (pure a : Except ε α) = .ok b ↔ a = b := by
  simp [pure, Except.pure]

theorem pure_eq_some {a b : α} : (pure a : Option α) = some b ↔ a = b := by
  simp [pure]

theorem mapM_eq_some {read : β → Option α} {items : List β} {as : List α}
    (h : items.mapM read = some as) :
    ∀ a ∈ as, ∃ j ∈ items, read j = some a := by
  induction items generalizing as with
  | nil =>
    cases h
    exact fun a ha => absurd ha List.not_mem_nil
  | cons j items ih =>
    rw [List.mapM_cons] at h
    obtain ⟨b, hb, h⟩ := bind_eq_some.mp h
    obtain ⟨bs, hbs, h⟩ := bind_eq_some.mp h
    cases h
    intro a ha
    cases List.mem_cons.mp ha with
    | inl he => exact ⟨j, List.mem_cons_self, he ▸ hb⟩
    | inr ha =>
      obtain ⟨i, hi, hr⟩ := ih hbs a ha
      exact ⟨i, List.mem_cons_of_mem _ hi, hr⟩

theorem mem_of_mapM_ok {f : α → Except ε β} {items : List α} {bs : List β}
    (h : items.mapM f = .ok bs) {b : β} : b ∈ bs ↔ ∃ a ∈ items, f a = .ok b := by
  induction items generalizing bs with
  | nil =>
    cases h
    simp
  | cons a items ih =>
    rw [List.mapM_cons] at h
    obtain ⟨c, hc, h⟩ := bind_eq_ok.mp h
    obtain ⟨cs, hcs, h⟩ := bind_eq_ok.mp h
    cases h
    simp only [List.mem_cons, exists_eq_or_imp, hc, ih hcs, Except.ok.injEq]
    exact or_congr_left eq_comm

theorem exists_of_mapM_ok {f : α → Except ε β} {items : List α} {bs : List β}
    (h : items.mapM f = .ok bs) : ∀ a ∈ items, ∃ b, f a = .ok b := by
  induction items generalizing bs with
  | nil => simp
  | cons a items ih =>
    rw [List.mapM_cons] at h
    obtain ⟨b, hb, h⟩ := bind_eq_ok.mp h
    obtain ⟨bs, hbs, -⟩ := bind_eq_ok.mp h
    exact List.forall_mem_cons.mpr ⟨⟨b, hb⟩, ih hbs⟩

theorem map_eq_of_mapM_ok {γ : Type} {f : α → Except ε β} {items : List α} {bs : List β}
    {k : β → γ} {k' : α → γ} (h : items.mapM f = .ok bs) (hk : ∀ a b, f a = .ok b → k b = k' a) :
    bs.map k = items.map k' := by
  induction items generalizing bs with
  | nil =>
    cases h
    rfl
  | cons a items ih =>
    rw [List.mapM_cons] at h
    obtain ⟨b, hb, h⟩ := bind_eq_ok.mp h
    obtain ⟨bs, hbs, h⟩ := bind_eq_ok.mp h
    cases h
    rw [List.map_cons, List.map_cons, hk a b hb, ih hbs]

theorem pairwise_of_mapM_ok {f : α → Except ε β} {items : List α} {bs : List β}
    {R : α → α → Prop} {S : β → β → Prop} (h : items.mapM f = .ok bs) (hR : items.Pairwise R)
    (hS : ∀ a a' b b', R a a' → f a = .ok b → f a' = .ok b' → S b b') : bs.Pairwise S := by
  induction items generalizing bs with
  | nil =>
    cases h
    exact .nil
  | cons a items ih =>
    rw [List.mapM_cons] at h
    obtain ⟨b, hb, h⟩ := bind_eq_ok.mp h
    obtain ⟨bs, hbs, h⟩ := bind_eq_ok.mp h
    cases h
    rw [List.pairwise_cons] at hR
    refine .cons ?_ (ih hbs hR.2)
    intro b' hb'
    obtain ⟨a', ha', hf⟩ := (mem_of_mapM_ok hbs).mp hb'
    exact hS a a' b b' (hR.1 a' ha') hb hf

theorem mapM_ok {f : α → Except ε β} {items : List α} (h : ∀ a ∈ items, ∃ b, f a = .ok b) :
    ∃ bs, items.mapM f = .ok bs := by
  induction items with
  | nil => exact ⟨[], rfl⟩
  | cons a items ih =>
    obtain ⟨b, hb⟩ := h a List.mem_cons_self
    obtain ⟨bs, hbs⟩ := ih fun c hc => h c (List.mem_cons_of_mem a hc)
    exact ⟨b :: bs, by rw [List.mapM_cons, hb, hbs]; rfl⟩

theorem mapM_eq_ok {f : α → Except ε β} {items : List α} {bs : List β} :
    items.mapM f = .ok bs ↔ items.map f = bs.map .ok := by
  induction items generalizing bs with
  | nil => cases bs <;> simp [pure, Except.pure]
  | cons a items ih =>
    rw [List.mapM_cons, List.map_cons, bind_eq_ok]
    simp only [bind_eq_ok, ih, pure_eq_ok]
    constructor
    · rintro ⟨b, hb, bs, hbs, rfl⟩
      rw [hb, hbs, List.map_cons]
    · intro h
      cases bs with
      | nil => cases h
      | cons b bs =>
        rw [List.map_cons, List.cons.injEq] at h
        exact ⟨b, h.1, bs, h.2, rfl⟩

section Perm

variable {γ : Type} {f : α → Except ε β} {f' : γ → Except ε β} {items : List α} {items' : List γ}
  {bs bs' : List β}

theorem perm_of_mapM_ok (hp : (items.map f).Perm (items'.map f')) (h : items.mapM f = .ok bs)
    (h' : items'.mapM f' = .ok bs') : bs.Perm bs' := by
  rw [mapM_eq_ok.mp h, mapM_eq_ok.mp h'] at hp
  have hresults : ∀ bs : List β, (bs.map (Except.ok (ε := ε))).filterMap Except.toOption = bs := by
    intro bs
    rw [List.filterMap_map]
    exact List.filterMap_some
  have hp := hp.filterMap Except.toOption
  rwa [hresults, hresults] at hp

theorem mapM_ok_of_perm (hp : (items.map f).Perm (items'.map f')) (h : items.mapM f = .ok bs) :
    ∃ bs', items'.mapM f' = .ok bs' ∧ bs.Perm bs' := by
  have hok : ∀ c ∈ items', ∃ b, f' c = .ok b := by
    intro c hc
    have hm := hp.mem_iff.mpr (List.mem_map_of_mem hc)
    rw [mapM_eq_ok.mp h] at hm
    obtain ⟨b, -, hb⟩ := List.mem_map.mp hm
    exact ⟨b, hb.symm⟩
  obtain ⟨bs', h'⟩ := mapM_ok hok
  exact ⟨bs', h', perm_of_mapM_ok hp h h'⟩

end Perm

def errorOf? : Except ε α → Option ε
  | .ok _ => none
  | .error fault => some fault

theorem mapM_eq_error {f : α → Except ε β} {items : List α} {fault : ε} :
    items.mapM f = .error fault ↔ ((items.map f).filterMap errorOf?).head? = some fault := by
  induction items with
  | nil => simp [pure, Except.pure]
  | cons a items ih =>
    rw [List.mapM_cons, List.map_cons]
    cases hf : f a with
    | error fault' => simp [errorOf?]
    | ok b =>
      rw [ok_bind, List.filterMap_cons_none (by rfl), ← ih, bind_eq_error]
      simp [pure, Except.pure]

@[simp]
theorem mapError_ok {ε' : Type} (f : ε → ε') (a : α) :
    (Except.ok a : Except ε α).mapError f = .ok a := rfl

theorem mapError_eq_error {ε' : Type} {f : ε → ε'} {x : Except ε α} {fault : ε'} :
    x.mapError f = .error fault ↔ ∃ cause, x = .error cause ∧ f cause = fault := by
  constructor
  · intro h
    cases x with
    | ok a => cases h
    | error cause =>
      cases h
      exact ⟨cause, rfl, rfl⟩
  · rintro ⟨cause, rfl, rfl⟩
    rfl

theorem ok_of_mapError {ε' : Type} {f : ε → ε'} {x : Except ε α} {a : α}
    (h : x.mapError f = .ok a) : x = .ok a := by
  cases x with
  | ok b =>
    cases h
    rfl
  | error fault => cases h

theorem check_eq_ok {p : Prop} [Decidable p] {fault : ε} {f : α → Except ε β}
    {rest : Except ε β} {b : β} :
    (if p then (throw fault >>= f) else rest) = .ok b ↔ ¬p ∧ rest = .ok b := by
  by_cases hp : p
  · simp [hp, throw, throwThe, MonadExceptOf.throw]
  · simp [hp]

end ModelGraph
