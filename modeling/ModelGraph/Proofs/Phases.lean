import ModelGraph.Proofs.Registration

namespace ModelGraph

theorem Checked.unless_nil {α : Type} (a : α) : Checked.unless [] a = .ok a := rfl

theorem Checked.unless_eq_ok {α : Type} {ds : List Diagnostic} {a b : α}
    (h : ∀ d ∈ ds, d.isError = true) : Checked.unless ds a = .ok b ↔ ds = [] ∧ a = b := by
  cases ds with
  | nil => simp [Checked.unless]
  | cons d ds => simp [Checked.unless, h d List.mem_cons_self]

theorem Checked.unless_eq_error {α : Type} {ds : List Diagnostic} {a : α}
    (h : ∀ d ∈ ds, d.isError = true) (hds : ds ≠ []) : Checked.unless ds a = .error ds := by
  obtain ⟨d, ds, rfl⟩ := List.exists_cons_of_ne_nil hds
  simp [Checked.unless, h d List.mem_cons_self]

theorem Checked.error_of_unless {α : Type} {ds es : List Diagnostic} {a : α}
    (h : Checked.unless ds a = .error es) : es = ds := by
  rw [Checked.unless] at h
  split at h
  · exact (Except.error.inj h).symm
  · cases h

namespace Entry

variable {r : Registry} {d : Diagnostic}

theorem isError_ofEntity {seen : List Path} {e : Entity} (h : ofEntity r seen e = .error d) :
    d.isError = true := by
  rw [ofEntity] at h
  split at h
  · cases h
    rfl
  · split at h
    · cases h
      rfl
    · split at h
      · cases h
        rfl
      · split at h
        · next k hk d' hd =>
          cases h
          rw [headerFault?] at hd
          split at hd
          · cases hd
            rfl
          · split at hd
            · cases hd
              rfl
            · split at hd
              · cases hd
                rfl
              · cases hd
        · cases h

theorem isError_require {α : Type} {path : Path} {o : Option α} (h : require path o = .error d) :
    d.isError = true := by
  cases o with
  | some a => cases h
  | none =>
    cases h
    rfl

theorem isError_classMapping {path : Path} {j : Json} {m : Mapping}
    (h : classMapping r path j m = .error d) : d.isError = true := by
  simp only [classMapping] at h
  split at h
  · cases bind_eq_error.mp h with
    | inl h => exact isError_require h
    | inr h =>
      obtain ⟨c, _, h⟩ := h
      obtain ⟨name, -, rfl⟩ := mapError_eq_error.mp h
      rfl
  · split at h
    · cases h
      rfl
    · cases bind_eq_error.mp h with
      | inl h => exact isError_require h
      | inr h =>
        obtain ⟨header, _, h⟩ := h
        cases bind_eq_error.mp h with
        | inl h => exact isError_require h
        | inr h =>
          obtain ⟨content, _, h⟩ := h
          cases h

theorem isError_addClassMappings {path : Path} {js : List Json} {m : Mapping}
    (h : addClassMappings r path js m = .error d) : d.isError = true := by
  induction js generalizing m with
  | nil => cases h
  | cons j js ih =>
    cases bind_eq_error.mp h with
    | inl h => exact isError_classMapping h
    | inr h =>
      obtain ⟨⟨s, m'⟩, _, h⟩ := h
      exact ih h

theorem isError_mapping {path : Path} {j : Json} (h : mapping r path j = .error d) :
    d.isError = true := by
  cases bind_eq_error.mp h with
  | inl h => exact isError_require h
  | inr h =>
    obtain ⟨document, _, h⟩ := h
    cases bind_eq_error.mp h with
    | inl h => exact isError_addClassMappings h
    | inr h =>
      obtain ⟨m, _, h⟩ := h
      cases h

theorem isError_body {e : Entry} (h : e.body r = .error d) : d.isError = true := by
  rw [body] at h
  cases hk : e.kind with
  | extension k =>
    rw [hk] at h
    exact isError_require h
  | core c =>
    rw [hk] at h
    cases c with
    | mapping => exact isError_mapping (map_eq_error.mp h)
    | _ => exact isError_require h

end Entry

/-- An entry that has passed its checks. -/
structure Entry.Passes (r : Registry) (e : Entry) : Prop where
  kind : EntryKind.ofPath? r e.entity.classifier = some e.kind
  path : e.entity.path.fault? = none
  header : headerFault? e.entity e.kind = none

theorem Entry.ofEntity_eq_ok {r : Registry} {seen : List Path} {w : Entity} {e : Entry} :
    ofEntity r seen w = .ok e ↔ w.path ∉ seen ∧ e.entity = w ∧ e.Passes r := by
  rw [ofEntity]
  constructor
  · intro h
    split at h
    · cases h
    · next hs =>
      split at h
      · cases h
      · next hp =>
        split at h
        · cases h
        · next kind hk =>
          split at h
          · cases h
          · next hh =>
            cases h
            exact ⟨by simpa using hs, rfl, hk, hp, hh⟩
  · rintro ⟨hs, rfl, h⟩
    rw [if_neg (by simpa using hs), h.path, h.kind]
    simp only [h.header]

namespace Graph

variable {r : Registry}

theorem ofModel_eq_map_ok {seen : List Path} {m : Model} {entries : List Entry} :
    Entry.ofModel r seen m = entries.map .ok ↔ entries.map Entry.entity = m ∧
      (m.map Entity.path).Nodup ∧ (∀ w ∈ m, w.path ∉ seen) ∧ ∀ e ∈ entries, e.Passes r := by
  induction m generalizing seen entries with
  | nil => cases entries <;> simp [Entry.ofModel]
  | cons w m ih =>
    cases entries with
    | nil => simp [Entry.ofModel]
    | cons e entries =>
      simp only [Entry.ofModel, List.map_cons, List.cons.injEq, Entry.ofEntity_eq_ok, ih,
        List.nodup_cons, List.mem_cons, forall_eq_or_imp, not_or, List.mem_map]
      constructor
      · rintro ⟨⟨hw, rfl, he⟩, rfl, hn, hseen, hpasses⟩
        refine ⟨⟨rfl, rfl⟩, ⟨?_, hn⟩, ⟨hw, fun v hv => (hseen v hv).2⟩, he, hpasses⟩
        rintro ⟨v, hv, hp⟩
        exact (hseen v hv).1 hp
      · rintro ⟨⟨rfl, rfl⟩, ⟨hw, hn⟩, ⟨hseen, hrest⟩, he, hpasses⟩
        exact ⟨⟨hseen, rfl, he⟩, rfl, hn,
          fun v hv => ⟨fun hp => hw ⟨v, hv, hp⟩, hrest v hv⟩, hpasses⟩

theorem eq_map_ok_iff {α : Type} {checks : List (Except Diagnostic α)} {as : List α} :
    checks.filterMap diagnostic? = [] ∧ checks.filterMap Except.toOption = as ↔
      checks = as.map .ok := by
  induction checks generalizing as with
  | nil => cases as <;> simp
  | cons c checks ih =>
    cases c with
    | error d => cases as <;> simp [diagnostic?]
    | ok a =>
      cases as with
      | nil => simp [diagnostic?, Except.toOption]
      | cons b as =>
        simp only [List.filterMap_cons, diagnostic?, Except.toOption, List.cons.injEq,
          List.map_cons, Except.ok.injEq, ← ih]
        exact and_left_comm

theorem isError_checks {seen : List Path} {m : Model} {d : Diagnostic}
    (h : d ∈ (Entry.ofModel r seen m).filterMap diagnostic?) : d.isError = true := by
  obtain ⟨c, hc, hd⟩ := List.mem_filterMap.mp h
  cases c with
  | ok e => cases hd
  | error d' =>
    cases hd
    induction m generalizing seen with
    | nil => cases hc
    | cons w m ih =>
      rcases List.mem_cons.mp hc with hc | hc
      · exact Entry.isError_ofEntity hc.symm
      · exact ih (List.mem_filterMap.mpr ⟨_, hc, rfl⟩) hc

/-- A model passes its checks as the entries of its entities when their paths differ and each of
them passes by itself. -/
theorem checkModel_eq_ok {m : Model} {entries : List Entry} :
    checkModel r m = .ok entries ↔ entries.map Entry.entity = m ∧
      (m.map Entity.path).Nodup ∧ ∀ e ∈ entries, e.Passes r := by
  rw [checkModel, Checked.unless_eq_ok fun d hd => isError_checks hd, eq_map_ok_iff,
    ofModel_eq_map_ok]
  simp

/-- A model passes its checks as the entries of its entities when their paths differ and each entity
passes as the only one. -/
theorem checkModel_eq_mapM {m : Model} {entries : List Entry} : checkModel r m = .ok entries ↔
    (m.map Entity.path).Nodup ∧ m.mapM (Entry.ofEntity r []) = .ok entries := by
  have hentries : m.mapM (Entry.ofEntity r []) = .ok entries ↔
      entries.map Entry.entity = m ∧ ∀ e ∈ entries, e.Passes r := by
    rw [mapM_eq_ok]
    induction m generalizing entries with
    | nil => cases entries <;> simp
    | cons w m ih =>
      cases entries with
      | nil => simp
      | cons e entries =>
        simp only [List.map_cons, List.cons.injEq, Entry.ofEntity_eq_ok, ih, List.mem_cons,
          forall_eq_or_imp, List.not_mem_nil, not_false_eq_true, true_and]
        exact and_and_and_comm
  rw [checkModel_eq_ok, hentries]
  exact and_left_comm

/-- Entries that pass their checks have compatible contents, unless one path is to hold different
things. -/
theorem compatible_of_passes {entries : List Entry} {contents : List (Path × Body)}
    (hpasses : ∀ e ∈ entries, e.Passes r) (hn : ((entries.map Entry.entity).map Entity.path).Nodup)
    (hc : entries.mapM (Entry.content r) = .ok contents)
    (hu : ∀ p b b', Stock contents p b → Stock contents p b' → b = b') : Compatible contents := by
  constructor
  case nodup =>
    rw [List.nodup_iff_pairwise_ne, List.pairwise_map] at hn ⊢
    rw [List.pairwise_map] at hn
    refine pairwise_of_mapM_ok hc hn ?_
    intro e e' c c' hne hcontent hcontent' heq
    rw [← (Entry.content_eq_ok.mp hcontent).2, ← (Entry.content_eq_ok.mp hcontent').2] at heq
    exact hne heq
  case fault =>
    intro c hm
    obtain ⟨e, he, hcontent⟩ := (mem_of_mapM_ok hc).mp hm
    rw [← (Entry.content_eq_ok.mp hcontent).2]
    exact (hpasses e he).path
  case isContent =>
    intro c hm
    obtain ⟨e, _, hcontent⟩ := (mem_of_mapM_ok hc).mp hm
    exact Entry.isContent_body (Entry.content_eq_ok.mp hcontent).1
  case unique => exact hu

theorem registry_new (r : Registry) : (new r).registry = r :=
  (grows_new (P := fun _ _ => True) (fun _ _ => trivial) r).registry_eq

/-- The registration of entries that pass their checks has no faults just when all of them have a
content and these are compatible. -/
theorem register_eq_nil {m : Model} {entries : List Entry} (hc : checkModel r m = .ok entries) :
    (register entries (new r)).2 = [] ↔
      ∃ contents, entries.mapM (Entry.content r) = .ok contents ∧ Compatible contents := by
  have s := stocked_new r
  constructor
  · intro hd
    obtain ⟨rfl, hn, hpasses⟩ := checkModel_eq_ok.mp hc
    obtain ⟨contents, hcontents, hstocked, -⟩ := s.register hd
    rw [registry_new] at hcontents
    exact ⟨contents, hcontents, compatible_of_passes hpasses hn hcontents fun _ _ _ hb hb' =>
      hstocked.unique hb hb'⟩
  · rintro ⟨contents, hcontents, hcompatible⟩
    rw [← registry_new r] at hcontents
    exact s.register_ok hcontents hcompatible

theorem isError_register {entries : List Entry} {g : Graph} {d : Diagnostic}
    (h : d ∈ (register entries g).2) : d.isError = true := by
  induction entries generalizing g with
  | nil => cases h
  | cons e entries ih =>
    simp only [register, List.mem_append, Option.mem_toList] at h
    rcases h with hd | h
    · rw [registerEntry] at hd
      split at hd
      · next d' hb =>
        cases hd
        exact Entry.isError_body hb
      · split at hd
        · cases hd
        · cases hd
          rfl
    · exact ih h

variable {g : Graph} {d : Diagnostic}

theorem isError_resolutionFaults (h : d ∈ g.resolutionFaults) : d.isError = true := by
  obtain ⟨l, _, h⟩ := List.mem_flatMap.mp h
  obtain ⟨fault, _, rfl⟩ := List.mem_map.mp h
  rfl

theorem isError_wiringFaults {h : Handle} {e : Element} (hd : d ∈ g.wiringFaults h e) :
    d.isError = true := by
  rw [wiringFaults] at hd
  split at hd
  · rcases List.mem_append.mp hd with hd | hd
    · obtain ⟨id, _, rfl⟩ := List.mem_map.mp hd
      rfl
    · obtain ⟨fault, _, rfl⟩ := List.mem_map.mp hd
      rfl
  · cases hd

theorem isError_stereotypeFault? {path : Path} {s : Stereotype}
    (h : g.stereotypeFault? path s = some d) : d.isError = true := by
  rw [stereotypeFault?] at h
  split at h
  · cases h
  · split at h
    · cases h
    · cases h
      rfl

theorem isError_tagFault? {path : Path} {t : TaggedValue}
    (h : g.tagFault? path t = some d) : d.isError = true := by
  rw [tagFault?] at h
  split at h
  · cases h
  · split at h
    · cases h
    · cases h
      rfl

theorem isError_tableFault? {path : Path} {t : TablePointer}
    (h : g.tableFault? path t = some d) : d.isError = true := by
  rw [tableFault?] at h
  split at h
  · cases h
  · split at h
    · cases h
    · cases h
      rfl

theorem isError_joinFault? {path : Path} {j : JoinPointer}
    (h : g.joinFault? path j = some d) : d.isError = true := by
  rw [joinFault?] at h
  split at h
  · cases h
  · split at h
    · cases h
    · cases h
      rfl

theorem isError_validate (h : d ∈ g.validate) : d.isError = true := by
  obtain ⟨l, _, h⟩ := List.mem_flatMap.mp h
  rw [bodyFaults] at h
  simp only [List.mem_append, List.mem_flatMap, List.mem_filterMap, annotationFaults,
    operationFaults] at h
  rcases h with (⟨_, _, ⟨_, _, h⟩ | ⟨_, _, h⟩⟩ | ⟨_, _, h⟩) | ⟨_, _, ⟨_, _, h⟩ | ⟨_, _, h⟩⟩
  · exact isError_stereotypeFault? h
  · exact isError_tagFault? h
  · exact isError_tableFault? h
  · exact isError_tableFault? h
  · exact isError_joinFault? h

def allWiringFaults (g : Graph) : List Diagnostic :=
  (g.ofKind .mapping).flatMap fun l => g.wiringFaults l.1 l.2

theorem isError_allWiringFaults (h : d ∈ g.allWiringFaults) : d.isError = true := by
  obtain ⟨l, _, h⟩ := List.mem_flatMap.mp h
  exact isError_wiringFaults h

/-- A model at which the phases of a build have come to the wiring: its entries pass their checks,
their contents are in a graph, and every reference can be resolved there. -/
structure Prepared (r : Registry) (m : Model) (entries : List Entry)
    (contents : List (Path × Body)) (g : Graph) : Prop where
  entities : entries.map Entry.entity = m
  nodup : (m.map Entity.path).Nodup
  passes : ∀ e ∈ entries, e.Passes r
  contents_eq : entries.mapM (Entry.content r) = .ok contents
  registered : register entries (new r) = (g, [])
  stocked : Stocked contents g
  resolved : g.resolutionFaults = []

/-- The last phases of a build, wiring and validation, for a graph with bound references. -/
def conclude (freeze : Bool) (g : Graph) : Checked Graph := do
  let g ← Checked.unless g.allWiringFaults g.wireAll.1
  let g ← Checked.unless g.validate g
  return if freeze then g.freeze else g

variable {m : Model} {entries : List Entry} {contents : List (Path × Body)}

theorem Prepared.build_eq (p : Prepared r m entries contents g) (freeze : Bool) :
    build r freeze m = conclude freeze g.resolveAll.1 := by
  have hchecked := checkModel_eq_ok.mpr ⟨p.entities, p.nodup, p.passes⟩
  rw [build, hchecked, ok_bind, p.registered]
  simp only [Checked.unless_nil, ok_bind, p.resolved]
  rfl

/-- The phases of a build before the wiring. -/
inductive Phase
  | check
  | registration
  | resolution

/-- A phase rejects a model, with diagnostics. The phases before it have found nothing wrong. -/
inductive Rejects (r : Registry) (m : Model) : Phase → List Diagnostic → Prop
  | check {ds : List Diagnostic} : checkModel r m = .error ds → Rejects r m .check ds
  | registration {entries : List Entry} : checkModel r m = .ok entries →
      (register entries (new r)).2 ≠ [] →
      Rejects r m .registration (register entries (new r)).2
  | resolution {entries : List Entry} {g : Graph} : checkModel r m = .ok entries →
      register entries (new r) = (g, []) → g.resolutionFaults ≠ [] →
      Rejects r m .resolution g.resolutionFaults

theorem Rejects.build_eq {phase : Phase} {ds : List Diagnostic} (h : Rejects r m phase ds)
    (freeze : Bool) : build r freeze m = .error ds := by
  cases h with
  | check hc =>
    rw [build, hc]
    rfl
  | registration hc hd =>
    rw [build, hc, ok_bind]
    simp only [Checked.unless_eq_error (fun d h => isError_register h) hd, error_bind]
  | resolution hc hr hd =>
    rw [build, hc, ok_bind, hr]
    simp only [Checked.unless_nil, ok_bind,
      Checked.unless_eq_error (fun d h => isError_resolutionFaults h) hd, error_bind]

theorem prepared_or_rejects (r : Registry) (m : Model) :
    (∃ entries contents g, Prepared r m entries contents g) ∨ ∃ phase ds, Rejects r m phase ds := by
  cases hc : checkModel r m with
  | error ds => exact .inr ⟨.check, ds, .check hc⟩
  | ok entries =>
    by_cases hd : (register entries (new r)).2 = []
    · by_cases hr : (register entries (new r)).1.resolutionFaults = []
      · obtain ⟨hentities, hnodup, hpasses⟩ := checkModel_eq_ok.mp hc
        obtain ⟨contents, hcontents, hstocked, -⟩ := (stocked_new r).register hd
        rw [registry_new] at hcontents
        exact .inl ⟨entries, contents, _, hentities, hnodup, hpasses, hcontents, Prod.ext rfl hd,
          hstocked, hr⟩
      · exact .inr ⟨.resolution, _, .resolution hc (Prod.ext rfl hd) hr⟩
    · exact .inr ⟨.registration, _, .registration hc hd⟩

theorem prepared_of_build {freeze : Bool} (h : build r freeze m = .ok g) :
    ∃ entries contents g₁, Prepared r m entries contents g₁ := by
  refine (prepared_or_rejects r m).resolve_right ?_
  rintro ⟨phase, ds, hr⟩
  rw [hr.build_eq] at h
  cases h

theorem conclude_eq_ok {freeze : Bool} {g' : Graph} :
    conclude freeze g = .ok g' ↔ g.allWiringFaults = [] ∧ g.wireAll.1.validate = [] ∧
      g' = if freeze then g.wireAll.1.freeze else g.wireAll.1 := by
  simp only [conclude, bind_eq_ok, Checked.unless_eq_ok fun d hd => isError_allWiringFaults hd,
    Checked.unless_eq_ok fun d hd => isError_validate hd, pure_eq_ok]
  constructor
  · rintro ⟨_, ⟨hw, rfl⟩, _, ⟨hv, rfl⟩, rfl⟩
    exact ⟨hw, hv, rfl⟩
  · rintro ⟨hw, hv, rfl⟩
    exact ⟨_, ⟨hw, rfl⟩, _, ⟨hv, rfl⟩, rfl⟩

/-- Of a graph in which nothing is found wrong by the validation, only the wiring can be reported. -/
theorem conclude_eq_error {freeze : Bool} {ds : List Diagnostic}
    (hv : g.wireAll.1.validate = []) (h : conclude freeze g = .error ds) :
    ds = g.allWiringFaults := by
  rw [conclude] at h
  cases bind_eq_error.mp h with
  | inl h => exact Checked.error_of_unless h
  | inr h =>
    obtain ⟨g₃, hw, h⟩ := h
    obtain ⟨-, rfl⟩ := (Checked.unless_eq_ok fun d hd => isError_allWiringFaults hd).mp hw
    rw [hv] at h
    cases h

end Graph
end ModelGraph
