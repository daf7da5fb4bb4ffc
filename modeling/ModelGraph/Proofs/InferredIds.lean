import Mathlib.Data.List.Duplicate
import ModelGraph.Proofs.MirroredIds
import ModelGraph.Proofs.NamedSlots
import ModelGraph.Proofs.PathSegments
import ModelGraph.Proofs.ReportedCodes

namespace ModelGraph

namespace Path

def unflatten (s : List Char) : List Char := s.flatMap fun c => if c = '_' then [':', ':'] else [c]

theorem unflatten_cons {c : Char} (h : '_' ≠ c) (s : List Char) :
    unflatten (c :: s) = c :: unflatten s := by
  rw [unflatten, List.flatMap_cons, if_neg h.symm]
  rfl

theorem joinWith_cons {sep piece : List Char} {pieces : List (List Char)} (h : pieces ≠ []) :
    Text.joinWith sep (piece :: pieces) = piece ++ sep ++ Text.joinWith sep pieces := by
  cases pieces with
  | nil => exact absurd rfl h
  | cons _ _ => rfl

theorem joinWith_cons_cons (sep : List Char) (c : Char) (piece : List Char)
    (pieces : List (List Char)) :
    Text.joinWith sep ((c :: piece) :: pieces) = c :: Text.joinWith sep (piece :: pieces) := by
  cases pieces <;> rfl

theorem unflatten_joinWith_cut {s : List Char} (h : '_' ∉ s) :
    unflatten (Text.joinWith ['_'] (cut s)) = s := by
  fun_induction cut s with
  | case1 rest ih =>
    rw [joinWith_cons (cut_ne_nil rest)]
    exact congrArg (':' :: ':' :: ·) (ih fun hr => h (by simp [hr]))
  | case2 c rest hc hcut ih => exact absurd hcut (cut_ne_nil rest)
  | case3 c rest hc piece pieces hcut ih =>
    rw [List.mem_cons, not_or] at h
    rw [joinWith_cons_cons, unflatten_cons h.1, ← hcut, ih h.2]
  | case4 => rfl

theorem eq_of_flattened_eq {p q : Path} (hp : '_' ∉ p.text.toList) (hq : '_' ∉ q.text.toList)
    (h : p.flattened = q.flattened) : p = q := by
  have hcut := congrArg unflatten (String.ofList_inj.mp h)
  rw [unflatten_joinWith_cut hp, unflatten_joinWith_cut hq] at hcut
  exact congrArg Path.mk (String.toList_inj.mp hcut)

end Path

namespace SetImplementation

/-- Two set implementations have one id: the same text is written for both, written for one and
formed from the class path of the other, or formed from both class paths, which are equal or become
so without `::`. -/
inductive Collides (s t : SetImplementation) : Prop
  | written {id : String} (hs : s.id = .explicit id) (ht : t.id = .explicit id)
  | writtenFormed (hs : s.id = .explicit t.target.path.flattened)
    (ht : t.id = .inferred t.target.path)
  | formedWritten (hs : s.id = .inferred s.target.path)
    (ht : t.id = .explicit s.target.path.flattened)
  | sameClass (hs : s.id = .inferred s.target.path) (ht : t.id = .inferred t.target.path)
    (hp : s.target.path = t.target.path)
  | otherClass (hs : s.id = .inferred s.target.path) (ht : t.id = .inferred t.target.path)
    (hp : s.target.path ≠ t.target.path)
    (hf : s.target.path.flattened = t.target.path.flattened)

variable {s t : SetImplementation}

theorem id_of_renewed (hs : s.renewed = s) :
    s.id = .explicit s.id.value ∨ s.id = .inferred s.target.path := by
  have hid : s.id.renewed s.target.path = s.id := congrArg SetImplementation.id hs
  obtain ⟨⟨value, inferred⟩, target, root, kind⟩ := s
  cases inferred with
  | false => exact .inl rfl
  | true => exact .inr hid.symm

theorem collides_iff (hs : s.renewed = s) (ht : t.renewed = t) :
    s.Collides t ↔ s.id.value = t.id.value := by
  constructor
  · intro h
    cases h with
    | written hs ht => rw [hs, ht]
    | writtenFormed hs ht => rw [hs, ht]; rfl
    | formedWritten hs ht => rw [hs, ht]; rfl
    | sameClass hs ht hp => rw [hs, ht, hp]
    | otherClass hs ht _ hf => rw [hs, ht]; exact hf
  · intro h
    rcases id_of_renewed hs with hs | hs <;> rcases id_of_renewed ht with ht | ht
    · exact .written hs (h ▸ ht)
    · rw [h, ht] at hs
      exact .writtenFormed hs ht
    · rw [← h, hs] at ht
      exact .formedWritten hs ht
    · rw [hs, ht] at h
      by_cases hp : s.target.path = t.target.path
      · exact .sameClass hs ht hp
      · exact .otherClass hs ht hp h

/-- Two that go without an id and map different classes collide where a class path has `_`. -/
theorem Collides.underscore (h : s.Collides t) (hs : s.id.isInferred = true)
    (ht : t.id.isInferred = true) (hp : s.target.path ≠ t.target.path) :
    '_' ∈ s.target.path.text.toList ∨ '_' ∈ t.target.path.text.toList := by
  have hf : s.target.path.flattened = t.target.path.flattened := by
    cases h with
    | written hs' _ => rw [hs'] at hs; cases hs
    | writtenFormed hs' _ => rw [hs'] at hs; cases hs
    | formedWritten _ ht' => rw [ht'] at ht; cases ht
    | sameClass _ _ hp' => exact absurd hp' hp
    | otherClass _ _ _ hf => exact hf
  by_contra hnone
  rw [not_or] at hnone
  exact hp (Path.eq_of_flattened_eq hnone.1 hnone.2 hf)

end SetImplementation

namespace Graph

theorem exists_duplicate_map_iff {α β : Type} {f : α → β} {l : List α} :
    (∃ b, List.Duplicate b (l.map f)) ↔ ∃ x y, [x, y].Sublist l ∧ f x = f y := by
  simp only [List.duplicate_iff_sublist, List.sublist_map_iff]
  constructor
  · rintro ⟨b, l', hl, heq⟩
    obtain ⟨x, rest, rfl, hx, heq⟩ := List.map_eq_cons_iff.mp heq.symm
    obtain ⟨y, rest, rfl, hy, heq⟩ := List.map_eq_cons_iff.mp heq
    obtain rfl := List.map_eq_nil_iff.mp heq
    exact ⟨x, y, hl, hx.trans hy.symm⟩
  · rintro ⟨x, y, hl, heq⟩
    exact ⟨f x, [x, y], hl, by rw [List.map_cons, List.map_cons, List.map_nil, heq]⟩

variable {r : Registry} {freeze : Bool} {model : Model} {entries : List Entry}
  {contents : List (Path × Body)} {g : Graph} {ds : List Diagnostic}

/-- It is reported that two class mappings of the mapping at a path have one id. -/
def ReportsDuplicateId (ds : List Diagnostic) (path : Path) : Prop :=
  ∃ d ∈ ds, d.code = some .duplicateClassMappingId ∧ ∃ l ∈ d.labels, l.path = path

theorem reportsDuplicateId_allWiringFaults (ro : g.Rostered) {path : Path} :
    ReportsDuplicateId g.allWiringFaults path ↔
      ∃ k e m, g.LiveAt k e ∧ e.path = path ∧ e.body = .mapping m ∧
        ∃ id, List.Duplicate id m.ids := by
  constructor
  · rintro ⟨d, hd, hcode, l, hl, rfl⟩
    obtain ⟨⟨k, e⟩, hm, hd⟩ := List.mem_flatMap.mp hd
    obtain ⟨hlive, -⟩ := (mem_ofKind ro).mp hm
    cases hb : e.body with
    | mapping m =>
      simp only [wiringFaults, hb] at hd
      rcases List.mem_append.mp hd with hd | hd
      · obtain ⟨id, hid, rfl⟩ := List.mem_map.mp hd
        obtain rfl := List.mem_singleton.mp hl
        exact ⟨k, e, m, hlive, rfl, hb, id, (mem_repeated.mp hid).resolve_right (by simp)⟩
      · obtain ⟨fault, -, rfl⟩ := List.mem_map.mp hd
        cases fault <;> cases hcode
    | _ =>
      simp only [wiringFaults, hb, List.not_mem_nil] at hd
  · rintro ⟨k, e, m, hl, rfl, hb, id, hid⟩
    refine ⟨duplicateId e.path id, ?_, rfl, _, List.mem_singleton_self _, rfl⟩
    refine List.mem_flatMap.mpr ⟨(k, e), (mem_ofKind ro).mpr ⟨hl, congrArg Body.kind hb⟩, ?_⟩
    simp only [wiringFaults, hb]
    exact List.mem_append_left _ (List.mem_map_of_mem (mem_repeated.mpr (.inl hid)))

theorem reportsDuplicateId_conclude {path : Path} :
    (∃ ds, conclude freeze g = .error ds ∧ ReportsDuplicateId ds path) ↔
      ReportsDuplicateId g.allWiringFaults path := by
  rw [conclude]
  constructor
  · rintro ⟨ds, hb, d, hd, hcode, hl⟩
    rcases bind_eq_error.mp hb with hb | ⟨g', -, hb⟩
    · cases Checked.error_of_unless hb
      exact ⟨d, hd, hcode, hl⟩
    · rcases bind_eq_error.mp hb with hb | ⟨g'', -, hb⟩
      · cases Checked.error_of_unless hb
        obtain ⟨c, hc, heq⟩ := code_validate hd
        cases heq.symm.trans hcode
        exact absurd hc (by decide)
      · cases hb
  · intro h
    have hne : g.allWiringFaults ≠ [] := by
      obtain ⟨d, hd, -⟩ := h
      exact List.ne_nil_of_mem hd
    rw [Checked.unless_eq_error (fun d hd => isError_allWiringFaults hd) hne]
    exact ⟨_, rfl, h⟩

end Graph

theorem Body.exists_mapping_of_ids? {b : Body} {ids : List String} (h : b.ids? = some ids) :
    ∃ m, b = .mapping m ∧ m.ids = ids := by
  cases b with
  | mapping m => exact ⟨m, rfl, Option.some.inj h⟩
  | _ => cases h

namespace Graph

section Prepared

variable (p : Prepared r model entries contents g)
include p

theorem Prepared.ids?_bound {h : Handle} {e e₁ : Element} (hl : g.resolveAll.1.LiveAt h e)
    (hl₁ : g.LiveAt h e₁) : e.body.ids? = e₁.body.hull.ids? := by
  rw [← Body.ids?_unwire, p.bound.unwire_body_eq hl hl₁, Body.ids?_unwire, Body.ids?_rebind,
    Body.ids?_hull]

theorem Prepared.exists_mapping_iff {path : Path} {ids : List String} :
    (∃ k e m, g.resolveAll.1.LiveAt k e ∧ e.path = path ∧ e.body = .mapping m ∧ m.ids = ids) ↔
      ∃ m, (path, .mapping m) ∈ contents ∧ m.ids = ids := by
  constructor
  · rintro ⟨k, e, m, hl, rfl, hb, rfl⟩
    obtain ⟨e₁, hl₁, hp, hs⟩ := p.bound.gained hl
    have hids : e₁.body.hull.ids? = some m.ids := by
      rw [← p.ids?_bound hl hl₁, hb]
      rfl
    obtain ⟨m₀, hm₀, heq⟩ := Body.exists_mapping_of_ids? hids
    rw [hm₀, hp] at hs
    exact ⟨m₀, hs.mem ⟨nofun, nofun⟩, heq⟩
  · rintro ⟨m₀, hm₀, rfl⟩
    obtain ⟨k, e, e₁, hl, hl₁, rfl, hb⟩ := p.bound.kept (.content hm₀)
    have hids : e.body.ids? = some m₀.ids := by
      rw [p.ids?_bound hl hl₁, hb]
      rfl
    obtain ⟨m, hm, heq⟩ := Body.exists_mapping_of_ids? hids
    exact ⟨k, e, m, hl, p.bound.path_eq hl hl₁, hm, heq⟩

theorem Prepared.renewed_slot {path : Path} {m : Mapping} (hm : (path, .mapping m) ∈ contents)
    {s : SetImplementation} (hs : s ∈ m.slots) : s.renewed = s := by
  obtain ⟨e, -, hcontent⟩ := (mem_of_mapM_ok p.contents_eq).mp hm
  exact SetImplementation.renewed_of_mem (Entry.renewed_body (Entry.content_eq_ok.mp hcontent).1) hs

/-- Among the ids of a mapping that is read, one comes again exactly if two slots collide. -/
theorem Prepared.duplicate_iff {path : Path} {m : Mapping} (hm : (path, .mapping m) ∈ contents) :
    (∃ id, List.Duplicate id m.ids) ↔ ∃ s t, [s, t].Sublist m.slots ∧ s.Collides t := by
  rw [Mapping.ids, exists_duplicate_map_iff]
  refine exists₂_congr fun s t => and_congr_right fun hst => ?_
  have hs := p.renewed_slot hm (hst.subset List.mem_cons_self)
  have ht := p.renewed_slot hm (hst.subset (List.mem_cons_of_mem s List.mem_cons_self))
  exact (SetImplementation.collides_iff hs ht).symm

end Prepared

/-- A build that comes to the wiring reports a mapping for its ids exactly if two of its set
implementations collide. Where both go without an id and map different classes, this takes a `_` in
the path of one of the classes. -/
theorem duplicateIds_reported_iff (p : Prepared r model entries contents g) (freeze : Bool) :
    (∀ path, (∃ ds, build r freeze model = .error ds ∧ ReportsDuplicateId ds path) ↔
      ∃ m, (path, .mapping m) ∈ contents ∧ ∃ s t, [s, t].Sublist m.slots ∧ s.Collides t) ∧
    ∀ s t : SetImplementation, s.Collides t → s.id.isInferred = true → t.id.isInferred = true →
      s.target.path ≠ t.target.path →
        '_' ∈ s.target.path.text.toList ∨ '_' ∈ t.target.path.text.toList := by
  constructor
  · intro path
    rw [p.build_eq, reportsDuplicateId_conclude,
      reportsDuplicateId_allWiringFaults p.bound.rostered]
    constructor
    · rintro ⟨k, e, m, hl, hp, hb, hid⟩
      obtain ⟨m₀, hm₀, hids⟩ := p.exists_mapping_iff.mp ⟨k, e, m, hl, hp, hb, rfl⟩
      exact ⟨m₀, hm₀, (p.duplicate_iff hm₀).mp (hids ▸ hid)⟩
    · rintro ⟨m₀, hm₀, hst⟩
      obtain ⟨k, e, m, hl, hp, hb, hids⟩ := p.exists_mapping_iff.mpr ⟨m₀, hm₀, rfl⟩
      exact ⟨k, e, m, hl, hp, hb, hids ▸ (p.duplicate_iff hm₀).mpr hst⟩
  · exact fun s t h => h.underscore

def bareClassEntity (path : Path) : Entity where
  path := path
  classifier := "meta::pure::metamodel::type::Class"
  content := .obj ([("_type", .str "class"), ("name", .str path.name)] ++
    (path.package?.map fun p => ("package", Json.str p.text)).toList)

def namelessEntity (classes : List Path) : Entity where
  path := ⟨"M"⟩
  classifier := "meta::pure::mapping::Mapping"
  content := .obj [("_type", .str "mapping"), ("classMappings", .arr (classes.map fun c =>
    .obj [("_type", .str "pureInstance"), ("class", .str c.text)])), ("name", .str "M")]

def alikeModel : Model :=
  [bareClassEntity ⟨"a::b"⟩, bareClassEntity ⟨"a_b"⟩, namelessEntity [⟨"a::b"⟩, ⟨"a_b"⟩]]

def alikeMapping : Mapping where
  slots := [
    { id := .inferred ⟨"a::b"⟩, target := { path := ⟨"a::b"⟩ }
      kind := .pureInstance none none [] },
    { id := .inferred ⟨"a_b"⟩, target := { path := ⟨"a_b"⟩ }
      kind := .pureInstance none none [] }]
  top := [0, 1]

theorem build_alike : build Preset.full false alikeModel = .error [duplicateId ⟨"M"⟩ "a_b"] := by
  with_unfolding_all rfl

theorem duplicateIds_reported_alike : ∃ entries contents g m,
    Prepared Preset.full alikeModel entries contents g ∧ (⟨"M"⟩, .mapping m) ∈ contents ∧
      ∃ s t, [s, t].Sublist m.slots ∧ s.Collides t := by
  have hreports : ReportsDuplicateId [duplicateId ⟨"M"⟩ "a_b"] ⟨"M"⟩ :=
    ⟨_, List.mem_singleton_self _, rfl, _, List.mem_singleton_self _, rfl⟩
  obtain ⟨entries, contents, g, p⟩ := prepared_of_wiringCode build_alike
    (List.mem_singleton_self _) ⟨_, by decide, rfl⟩
  obtain ⟨m, hm, hst⟩ := ((duplicateIds_reported_iff p false).1 ⟨"M"⟩).mp
    ⟨_, build_alike, hreports⟩
  exact ⟨entries, contents, g, m, p, hm, hst⟩

theorem build_error_differentClasses :
    Entry.mapping Preset.full ⟨"M"⟩ (namelessEntity [⟨"a::b"⟩, ⟨"a_b"⟩]).document =
        .ok alikeMapping ∧
      (∀ s ∈ alikeMapping.slots, s.id.isInferred = true) ∧
      alikeMapping.slots.Pairwise (fun s t => s.target.path ≠ t.target.path) ∧
      build Preset.full false alikeModel = .error [duplicateId ⟨"M"⟩ "a_b"] := by
  refine ⟨rfl, ?_, ?_, build_alike⟩
  · simp [alikeMapping, MappingId.inferred]
  · simp [alikeMapping]

end Graph

end ModelGraph
