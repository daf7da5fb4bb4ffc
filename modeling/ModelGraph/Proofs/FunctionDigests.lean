import ModelGraph.Proofs.DigestWords
import ModelGraph.Proofs.UnnoticedChanges

namespace ModelGraph

open HashInput

namespace Json

def mapMember (key : String) (f : Json → Json) : Json → Json
  | .obj members => .obj (members.map fun m => (m.1, if m.1 = key then f m.2 else m.2))
  | j => j

def mapItems (f : Json → Json) : Json → Json
  | .arr items => .arr (items.map f)
  | j => j

variable {f : String → Json → Json}

theorem insertMember_map (k : String) (j : Json) (members : List (String × Json)) :
    insertMember k (f k j) (members.map fun m => (m.1, f m.1 m.2)) =
      (insertMember k j members).map fun m => (m.1, f m.1 m.2) := by
  induction members with
  | nil => rfl
  | cons m members ih =>
    obtain ⟨l, i⟩ := m
    simp only [List.map_cons, insertMember]
    split
    · rfl
    split
    · rfl
    · rw [ih, List.map_cons]

theorem sortMembers_map (members : List (String × Json)) :
    sortMembers (members.map fun m => (m.1, f m.1 m.2)) =
      (sortMembers members).map fun m => (m.1, f m.1 m.2) := by
  have hfold : ∀ sorted : List (String × Json),
      (members.map fun m => (m.1, f m.1 m.2)).foldl (fun s m => insertMember m.1 m.2 s)
          (sorted.map fun m => (m.1, f m.1 m.2)) =
        (members.foldl (fun s m => insertMember m.1 m.2 s) sorted).map
          fun m => (m.1, f m.1 m.2) := by
    induction members with
    | nil => intro sorted; rfl
    | cons m members ih =>
      intro sorted
      rw [List.map_cons, List.foldl_cons, List.foldl_cons, insertMember_map, ih]
  exact hfold []

theorem mapMember_toJson (key : String) (g : Json → Json) (r : Record) :
    r.toJson.mapMember key g =
      Record.toJson (r.map fun m => (m.1, if m.1 = key then g m.2 else m.2)) :=
  congrArg Json.obj (sortMembers_map (f := fun k j => if k = key then g j else j) r).symm

end Json

/-- The entity of a function without the types that its parameters give. -/
def Entity.untyped (w : Entity) : Entity :=
  { w with content := w.content.mapMember "parameters" (Json.mapItems (·.without ["_type"])) }

theorem Parameter.toJson_without_type (names : Naming) (p : Parameter) :
    (p.toJson names).without ["_type"] = p.plain.toJson names := by
  rw [toJson, Record.toJson, Json.object, Json.without,
    Json.filter_sortMembers fun k => !(["_type"].contains k)]
  cases p.kind <;>
    simp [Record.optField, Record.field, toJson, plain, Record.toJson, Json.object]

namespace Record

variable {r : Record} {key : String} {f : Json → Json}

theorem map_listField (items : List Json) :
    ((listField key items).map fun m => (m.1, if m.1 = key then Json.mapItems f m.2 else m.2)) =
      listField key (items.map f) := by
  cases items <;> simp [listField, Json.mapItems]

theorem map_of_other (h : Within (· ≠ key) r) :
    (r.map fun m => (m.1, if m.1 = key then f m.2 else m.2)) = r := by
  refine (List.map_congr_left fun m hm => ?_).trans (List.map_id r)
  rw [if_neg (h m hm)]
  rfl

end Record

namespace Function

/-- What is written of a function besides its parameters. -/
def rest (names : Naming) (f : Function) : Record :=
  .field "returnType" (f.returnType.toJson names) ++
    .field "returnMultiplicity" f.returnMultiplicity.toJson ++ .listField "body" f.body ++
    f.annotations.record names

theorem toJson_eq (names : Naming) (f : Function) : f.toJson names =
    Record.toJson (.listField "parameters" (f.parameters.map (·.toJson names)) ++ f.rest names) := by
  simp only [toJson, rest, List.append_assoc]

end Function

namespace Graph

open Record

theorem entity_untyped {names : Naming} {e : Element} {classifier type : String} {f : Function}
    {w : Entity} (h : entity e classifier type (f.toJson names) = .ok w) :
    entity e classifier type (f.plain.toJson names) = .ok w.untyped := by
  have hrest : Within (· ≠ "parameters") (f.rest names ++ (field "_type" (.str type) ++
      (field "name" (.str e.name) ++ optField "package" (e.path.package?.map fun p => .str p.text)))) := by
    simp [Function.rest]
  have hmap : (contentRecord e type (listField "parameters" (f.parameters.map (·.toJson names)) ++
      f.rest names)).map (fun m =>
        (m.1, if m.1 = "parameters" then Json.mapItems (·.without ["_type"]) m.2 else m.2)) =
      contentRecord e type (listField "parameters" (f.plain.parameters.map (·.toJson names)) ++
        f.plain.rest names) := by
    rw [contentRecord, contentRecord, List.append_assoc, List.append_assoc, List.map_append,
      map_listField, map_of_other hrest, List.map_map, Function.plain, List.map_map]
    simp only [Function.comp_def, Parameter.toJson_without_type]
    rfl
  rw [Function.toJson_eq, entity_toJson] at h
  cases h
  rw [Function.toJson_eq, entity_toJson, Entity.untyped, Json.mapMember_toJson, hmap]

/-- A function that a comparison of built graphs takes to be unchanged is written in both as entities
of one text but for the types of its parameters, and of one text where these are the same. -/
theorem functions_of_unnoticed {g g' : Graph} {r r' : Registry} {ps ps' : List Preset}
    {m m' n n' : Model} {freeze freeze' : Bool} {h h' : Handle} {e e' : Element} {f f' : Function}
    (hr : Preset.registry ps = .ok r) (hr' : Preset.registry ps' = .ok r')
    (hb : build r freeze m = .ok g) (hb' : build r' freeze' m' = .ok g') (hn : g.toModel = .ok n)
    (hn' : g'.toModel = .ok n') (hl : g.LiveAt h e) (hl' : g'.LiveAt h' e')
    (hf : e.body = .function f) (hf' : e'.body = .function f')
    (apart : Apart (f.inputs e.path) (f'.inputs e'.path)) (hu : Unnoticed g g' e e') :
    ∃ w ∈ n, ∃ w' ∈ n', w.path = e.path ∧ w'.path = e'.path ∧ w.untyped.SameText w'.untyped ∧
      (f.parameters.map Parameter.kind = f'.parameters.map Parameter.kind → w.SameText w') := by
  have s := stands_of_build hr hb hn hl
  have s' := stands_of_build hr' hb' hn' hl'
  have hc : e.body.IsContent := hf ▸ ⟨Kind.noConfusion, Kind.noConfusion⟩
  have hc' : e'.body.IsContent := hf' ▸ ⟨Kind.noConfusion, Kind.noConfusion⟩
  obtain ⟨w, hw, hpath, hwritten⟩ := s.written hc
  obtain ⟨w', hw', hpath', hwritten'⟩ := s'.written hc'
  have hdigest := hu.digest_eq s s' hc hc'
  have hbounded := s.bounded
  have hbounded' := s'.bounded
  rw [hf] at hwritten hdigest hbounded
  rw [hf'] at hwritten' hdigest hbounded'
  have hagree := apart.agree List.mem_cons_self List.mem_cons_self hdigest
  obtain ⟨hp, hplain⟩ := Function.plain_sameText hbounded hbounded' apart hagree
  obtain ⟨j, hj, hwritten⟩ := entity_of_document hr (.inr rfl) hwritten
  obtain ⟨k, hk, hwritten'⟩ := entity_of_document hr' (.inr rfl) hwritten'
  cases hj
  cases hk
  have hname : e.path.name = e'.path.name := congrArg Path.name hp
  refine ⟨w, hw, w', hw', hpath, hpath', ?_, fun hkinds => ?_⟩
  · refine entity_sameText ?_ ?_ hplain (entity_untyped hwritten) (entity_untyped hwritten')
    · exact hname
    · exact hp
  · obtain ⟨-, hfull⟩ := Function.sameText hbounded hbounded' apart hagree hkinds
    refine entity_sameText ?_ ?_ hfull hwritten hwritten'
    · exact hname
    · exact hp

def parameterType (typed : Bool) : Option String := if typed then some "var" else none

def functionEntity (typed : Bool) : Entity where
  path := ⟨"f"⟩
  classifier := "meta::pure::metamodel::function::ConcreteFunctionDefinition"
  content := .obj [("_type", .str "function"), ("name", .str "f"), ("parameters", .arr [.obj
    (optField "_type" ((parameterType typed).map .str) ++ [("class", .str "String"),
      ("multiplicity", Multiplicity.one.toJson), ("name", .str "x")])]),
    ("returnMultiplicity", Multiplicity.one.toJson), ("returnType", .str "String")]

def functionOf (typed : Bool) : Function where
  parameters := [{ kind := parameterType typed, name := "x", type := .bound ⟨"String"⟩ ⟨0⟩
                   multiplicity := .one }]
  returnType := .bound ⟨"String"⟩ ⟨0⟩
  returnMultiplicity := .one

def functionGraph (typed : Bool) : Graph :=
  ((new Preset.full).create ⟨"f"⟩ (.function (functionOf typed))).1

theorem build_function (typed : Bool) :
    build Preset.full false [functionEntity typed] = .ok (functionGraph typed) := by
  cases typed <;> rfl

theorem toModel_function (typed : Bool) :
    (functionGraph typed).toModel = .ok [functionEntity typed] := by
  have hentities : (functionGraph typed).live.mapM (fun l => (functionGraph typed).entity? l.2) =
      .ok (List.replicate 12 none ++ [some (functionEntity typed)]) := by
    cases typed <;> rfl
  rw [toModel, hentities]
  exact congrArg Except.ok (List.mergeSort_singleton _)

theorem live_function (typed : Bool) : (functionGraph typed).LiveAt ⟨12⟩
    (.placed ⟨"f"⟩ (.function (functionOf typed))) := by
  cases typed <;> exact ⟨rfl, rfl⟩

theorem apart_function (typed typed' : Bool) :
    Apart ((functionOf typed).inputs ⟨"f"⟩) ((functionOf typed').inputs ⟨"f"⟩) := by
  have hplain : ∀ typed, (functionOf typed).inputs ⟨"f"⟩ = (functionOf false).inputs ⟨"f"⟩ :=
    fun _ => rfl
  rw [hplain typed, hplain typed']
  simp only [functionOf, Function.inputs, Function.hashInput, Parameter.inputs, Parameter.digest,
    Parameter.hashInput, Multiplicity.digest, List.map_cons, List.map_nil, List.flatMap_cons,
    List.flatMap_nil]
  refine .of_dedup (by decide +kernel) ?_
  rw [digest_eq_hashNumbers]
  decide +kernel

theorem functions_of_unnoticed_typed :
    (functionEntity false).untyped.SameText (functionEntity true).untyped := by
  have hu : Unnoticed (functionGraph false) (functionGraph true)
      (.placed ⟨"f"⟩ (.function (functionOf false))) (.placed ⟨"f"⟩ (.function (functionOf true))) :=
    .inl (exists_hash_eq rfl rfl rfl rfl rfl)
  obtain ⟨w, hw, w', hw', -, -, h, -⟩ := functions_of_unnoticed Preset.registry_all
    Preset.registry_all (build_function false) (build_function true) (toModel_function false)
    (toModel_function true) (live_function false) (live_function true) rfl rfl
    (apart_function false true) hu
  rw [List.mem_singleton] at hw hw'
  exact hw ▸ hw' ▸ h

theorem hashIndex_function (typed : Bool) :
    (functionGraph typed).hashIndex.2 = (functionGraph false).hashIndex.2 := by
  have hdigests : ∀ typed, (functionGraph typed).digests =
      [(⟨"f"⟩, ((functionOf typed).hashInput ⟨"f"⟩).digest)] := by
    intro typed
    cases typed <;> rfl
  have hplain : (functionOf typed).hashInput ⟨"f"⟩ = (functionOf false).hashInput ⟨"f"⟩ := rfl
  rw [hashIndex_of_build (build_function typed), hashIndex_of_build (build_function false), hdigests,
    hdigests, hplain]

theorem unnoticed_parameter_type : ∃ g g' e e' f f' w w',
    build Preset.full false [functionEntity false] = .ok g ∧
      build Preset.full false [functionEntity true] = .ok g' ∧ g.LiveAt ⟨12⟩ e ∧
      g'.LiveAt ⟨12⟩ e' ∧ e.body = .function f ∧ e'.body = .function f' ∧
      Apart (f.inputs e.path) (f'.inputs e'.path) ∧ (∃ d x x', e.hash = .ok (d, x) ∧
        e'.hash = .ok (d, x')) ∧ g.toModel = .ok [w] ∧ g'.toModel = .ok [w'] ∧ ¬w.SameText w' ∧
      Diff.ofGraphs g g' = .ok {} := by
  refine ⟨_, _, _, _, _, _, _, _, build_function false, build_function true, live_function false,
    live_function true, rfl, rfl, apart_function false true,
    exists_hash_eq rfl rfl rfl rfl rfl,
    toModel_function false, toModel_function true, ?_, ?_⟩
  · intro h
    have hcontent := h.content
    rw [Json.sameText_iff] at hcontent
    exact absurd hcontent (by decide +kernel)
  · exact (Diff.ofGraphs_eq_empty (hashIndex_of_build (build_function false))
      (hashIndex_of_build (build_function true))).mpr (hashIndex_function true).symm

end Graph
end ModelGraph
