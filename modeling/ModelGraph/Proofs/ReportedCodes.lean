import ModelGraph.Proofs.Phases

namespace ModelGraph

def checkCodes : List DiagnosticCode :=
  [.duplicateEntity, .invalidPath, .unknownClassifier, .malformedContent, .typeMismatch,
    .contentDisagrees]

/-- Contents that can't be read, and elements that a graph does not take. -/
def registrationCodes : List DiagnosticCode :=
  [.malformedContent, .unknownClassMappingType, .duplicatePath, .pathConflict, .readOnlyModified]

def resolutionCodes : List DiagnosticCode := [.unresolvedReference]

def wiringCodes : List DiagnosticCode :=
  [.duplicateClassMappingId, .classMappingNotFound, .propertyNotFound]

def validationCodes : List DiagnosticCode :=
  [.unknownStereotype, .unknownTag, .unknownTable, .unknownJoin]

def phaseCodes : List (List DiagnosticCode) :=
  [checkCodes, registrationCodes, resolutionCodes, wiringCodes, validationCodes]

def Among (codes : List DiagnosticCode) (code : Option DiagnosticCode) : Prop :=
  ∃ c ∈ codes, code = some c

namespace Entry

variable {r : Registry} {d : Diagnostic}

theorem code_headerFault? {e : Entity} {kind : EntryKind} (h : headerFault? e kind = some d) :
    Among checkCodes d.code := by
  rw [headerFault?] at h
  repeat' split at h
  all_goals cases h
  all_goals exact ⟨_, by decide, rfl⟩

theorem code_ofEntity {seen : List Path} {e : Entity} (h : ofEntity r seen e = .error d) :
    Among checkCodes d.code := by
  rw [ofEntity] at h
  split at h
  · cases h
    exact ⟨_, by decide, rfl⟩
  · split at h
    · cases h
      exact ⟨_, by decide, rfl⟩
    · split at h
      · cases h
        exact ⟨_, by decide, rfl⟩
      · split at h
        next hd =>
          cases h
          exact code_headerFault? hd
        · cases h

theorem code_ofModel {seen : List Path} {m : Model}
    (h : d ∈ (ofModel r seen m).filterMap Graph.diagnostic?) : Among checkCodes d.code := by
  induction m generalizing seen with
  | nil => cases h
  | cons e m ih =>
    rw [ofModel, List.filterMap_cons] at h
    split at h
    · exact ih h
    next d' hd' =>
      rcases List.mem_cons.mp h with rfl | h
      · cases he : ofEntity r seen e with
        | ok entry =>
          rw [he] at hd'
          cases hd'
        | error fault =>
          rw [he] at hd'
          cases hd'
          exact code_ofEntity he
      · exact ih h

theorem code_require {α : Type} {path : Path} {o : Option α} (h : require path o = .error d) :
    Among registrationCodes d.code := by
  cases o with
  | some a => cases h
  | none =>
    cases h
    exact ⟨_, by decide, rfl⟩

theorem code_classMapping {path : Path} {j : Json} {m : Mapping}
    (h : classMapping r path j m = .error d) : Among registrationCodes d.code := by
  simp only [classMapping] at h
  split at h
  · rcases bind_eq_error.mp h with h | ⟨document, -, h⟩
    · exact code_require h
    · obtain ⟨name, -, rfl⟩ := mapError_eq_error.mp h
      exact ⟨_, by decide, rfl⟩
  · split at h
    · cases h
      exact ⟨_, by decide, rfl⟩
    · rcases bind_eq_error.mp h with h | ⟨header, -, h⟩
      · exact code_require h
      · rcases bind_eq_error.mp h with h | ⟨content, -, h⟩
        · exact code_require h
        · cases h

theorem code_addClassMappings {path : Path} {js : List Json} {m : Mapping}
    (h : addClassMappings r path js m = .error d) : Among registrationCodes d.code := by
  induction js generalizing m with
  | nil => cases h
  | cons j js ih =>
    rcases bind_eq_error.mp h with h | ⟨⟨s, m'⟩, -, h⟩
    · exact code_classMapping h
    · exact ih h

theorem code_mapping {path : Path} {j : Json} (h : mapping r path j = .error d) :
    Among registrationCodes d.code := by
  rcases bind_eq_error.mp h with h | ⟨document, -, h⟩
  · exact code_require h
  · rcases bind_eq_error.mp h with h | ⟨m, -, h⟩
    · exact code_addClassMappings h
    · cases h

theorem code_body {e : Entry} (h : e.body r = .error d) : Among registrationCodes d.code := by
  rw [body] at h
  cases hk : e.kind with
  | extension k =>
    rw [hk] at h
    exact code_require h
  | core c =>
    rw [hk] at h
    cases c with
    | mapping => exact code_mapping (map_eq_error.mp h)
    | _ => exact code_require h

end Entry

namespace Graph

variable {r : Registry} {g : Graph} {d : Diagnostic} {fault : GraphError}

theorem code_ownerPath {name : String} {owner : Option Handle}
    (h : g.ownerPath name owner = .error fault) :
    Among registrationCodes (DiagnosticCode.ofError? fault) := by
  cases owner with
  | none => cases h
  | some o =>
    simp only [ownerPath] at h
    split at h
    · cases h
      exact ⟨_, by decide, rfl⟩
    · split at h
      · cases h
        exact ⟨_, by decide, rfl⟩
      · cases h

theorem code_addElement {e : Element} {owner : Option Handle}
    (h : g.addElement e owner = .error fault) :
    Among registrationCodes (DiagnosticCode.ofError? fault) := by
  simp only [addElement] at h
  rcases bind_eq_error.mp h with h | ⟨package, -, h⟩
  · exact code_ownerPath h
  · repeat' split at h
    all_goals cases h
    all_goals exact ⟨_, by decide, rfl⟩

theorem code_addStep {e : Element} {owner : Option Handle}
    (h : (g.addStep e owner).2 = .error fault) :
    Among registrationCodes (DiagnosticCode.ofError? fault) := by
  rw [addStep] at h
  split at h
  · cases h
  next ha =>
    cases h
    exact code_addElement ha

theorem code_ensurePackage {p : Path} (h : (g.ensurePackage p).2 = .error fault) :
    Among registrationCodes (DiagnosticCode.ofError? fault) := by
  fun_induction ensurePackage g p with
  | case1 => cases h
  | case2 =>
    cases h
    exact ⟨_, by decide, rfl⟩
  | case3 => exact code_addStep h
  | case4 => exact code_addStep h
  | case5 p hl q hq g' fault' hg ih =>
    cases h
    exact ih (congrArg Prod.snd hg)

theorem code_create {p : Path} {b : Body} (h : (g.create p b).2 = .error fault) :
    Among registrationCodes (DiagnosticCode.ofError? fault) := by
  rw [create] at h
  split at h
  · cases h
    exact ⟨_, by decide, rfl⟩
  · split at h
    · exact code_addStep h
    · split at h
      · exact code_addStep h
      next he =>
        cases h
        exact code_ensurePackage (congrArg Prod.snd he)

theorem code_register {entries : List Entry} (h : d ∈ (register entries g).2) :
    Among registrationCodes d.code := by
  induction entries generalizing g with
  | nil => cases h
  | cons e entries ih =>
    simp only [register, List.mem_append, Option.mem_toList] at h
    rcases h with h | h
    · rw [registerEntry] at h
      split at h
      next hb =>
        cases h
        exact Entry.code_body hb
      · split at h
        · cases h
        next hc =>
          cases h
          exact code_create (congrArg Prod.snd hc)
    · exact ih h

theorem code_resolutionFaults (h : d ∈ g.resolutionFaults) : Among resolutionCodes d.code := by
  obtain ⟨l, -, h⟩ := List.mem_flatMap.mp h
  obtain ⟨fault, hf, rfl⟩ := List.mem_map.mp h
  obtain ⟨link, -, hf⟩ := List.mem_filterMap.mp hf
  rw [resolveFault?] at hf
  split at hf
  · cases hf
  next hr =>
    cases hf
    rw [resolve] at hr
    repeat' split at hr
    all_goals cases hr
    all_goals exact ⟨_, by decide, rfl⟩

theorem code_classMappingById {h : Handle} {id : String}
    (hc : g.classMappingById h id = .error fault) :
    Among wiringCodes (DiagnosticCode.ofError? fault) := by
  rw [classMappingById] at hc
  split at hc
  · cases hc
  · cases hc
    exact ⟨_, by decide, rfl⟩

theorem code_findProperty {h : Handle} {name : String} (hf : g.findProperty h name = .error fault) :
    Among wiringCodes (DiagnosticCode.ofError? fault) := by
  simp only [findProperty] at hf
  split at hf
  · cases hf
  · cases hf
    exact ⟨_, by decide, rfl⟩

theorem code_producer {h : Handle} {p : PropertyMapping} (hp : g.producer h p = .error fault) :
    Among wiringCodes (DiagnosticCode.ofError? fault) := by
  rw [producer] at hp
  split at hp
  · cases hp
  · cases hp
  · rcases bind_eq_error.mp hp with hp | ⟨property, -, hp⟩
    · exact code_findProperty hp
    · split at hp
      · cases hp
      · rcases bind_eq_error.mp hp with hp | ⟨s, -, hp⟩
        · exact code_classMappingById hp
        · cases hp
      · cases hp

theorem code_wireFaults {h : Handle} (hf : fault ∈ g.wireFaults h) :
    Among wiringCodes (DiagnosticCode.ofError? fault) := by
  have hresult : ∀ {α : Type} {x : Except GraphError α}, fault? x = some fault →
      x = .error fault := by
    intro α x hx
    cases x with
    | ok a => cases hx
    | error f => exact congrArg Except.error (Option.some.inj hx)
  rw [wireFaults] at hf
  split at hf
  next m hm =>
    obtain ⟨s, -, hf⟩ := List.mem_flatMap.mp hf
    rcases List.mem_append.mp hf with hf | hf
    · obtain ⟨p, -, hf⟩ := List.mem_filterMap.mp hf
      exact code_classMappingById (hresult hf)
    · obtain ⟨p, -, hf⟩ := List.mem_filterMap.mp hf
      exact code_producer (hresult hf)
  · cases hf

theorem code_allWiringFaults (h : d ∈ g.allWiringFaults) : Among wiringCodes d.code := by
  obtain ⟨l, -, h⟩ := List.mem_flatMap.mp h
  rw [wiringFaults] at h
  split at h
  · rcases List.mem_append.mp h with h | h
    · obtain ⟨id, -, rfl⟩ := List.mem_map.mp h
      exact ⟨_, by decide, rfl⟩
    · obtain ⟨fault, hf, rfl⟩ := List.mem_map.mp h
      exact code_wireFaults hf
  · cases h

theorem code_stereotypeFault? {path : Path} {s : Stereotype}
    (h : g.stereotypeFault? path s = some d) : Among validationCodes d.code := by
  rw [stereotypeFault?] at h
  repeat' split at h
  all_goals cases h
  exact ⟨_, by decide, rfl⟩

theorem code_tagFault? {path : Path} {t : TaggedValue} (h : g.tagFault? path t = some d) :
    Among validationCodes d.code := by
  rw [tagFault?] at h
  repeat' split at h
  all_goals cases h
  exact ⟨_, by decide, rfl⟩

theorem code_tableFault? {path : Path} {t : TablePointer} (h : g.tableFault? path t = some d) :
    Among validationCodes d.code := by
  rw [tableFault?] at h
  repeat' split at h
  all_goals cases h
  exact ⟨_, by decide, rfl⟩

theorem code_joinFault? {path : Path} {j : JoinPointer} (h : g.joinFault? path j = some d) :
    Among validationCodes d.code := by
  rw [joinFault?] at h
  repeat' split at h
  all_goals cases h
  exact ⟨_, by decide, rfl⟩

theorem code_validate (h : d ∈ g.validate) : Among validationCodes d.code := by
  obtain ⟨l, -, h⟩ := List.mem_flatMap.mp h
  rw [bodyFaults] at h
  simp only [List.mem_append, List.mem_flatMap, List.mem_filterMap, annotationFaults,
    operationFaults] at h
  rcases h with (⟨_, _, ⟨_, _, h⟩ | ⟨_, _, h⟩⟩ | ⟨_, _, h⟩) | ⟨_, _, ⟨_, _, h⟩ | ⟨_, _, h⟩⟩
  · exact code_stereotypeFault? h
  · exact code_tagFault? h
  · exact code_tableFault? h
  · exact code_tableFault? h
  · exact code_joinFault? h

def Phase.codes : Phase → List DiagnosticCode
  | .check => checkCodes
  | .registration => registrationCodes
  | .resolution => resolutionCodes

variable {freeze : Bool} {m : Model} {ds : List Diagnostic}

theorem code_of_rejects {phase : Phase} (hr : Rejects r m phase ds) (hd : d ∈ ds) :
    Among phase.codes d.code := by
  cases hr with
  | check hc =>
    rw [checkModel] at hc
    cases Checked.error_of_unless hc
    exact Entry.code_ofModel hd
  | registration _ _ => exact code_register hd
  | resolution _ _ _ => exact code_resolutionFaults hd

theorem code_of_build (hb : build r freeze m = .error ds) :
    ∃ codes ∈ phaseCodes, ∀ d ∈ ds, Among codes d.code := by
  rcases prepared_or_rejects r m with ⟨entries, contents, g, p⟩ | ⟨phase, ds', hr⟩
  · rw [p.build_eq, conclude] at hb
    rcases bind_eq_error.mp hb with hb | ⟨g', -, hb⟩
    · cases Checked.error_of_unless hb
      exact ⟨wiringCodes, by simp [phaseCodes], fun d => code_allWiringFaults⟩
    · rcases bind_eq_error.mp hb with hb | ⟨g'', -, hb⟩
      · cases Checked.error_of_unless hb
        exact ⟨validationCodes, by simp [phaseCodes], fun d => code_validate⟩
      · cases hb
  · obtain rfl := Except.error.inj ((hr.build_eq freeze).symm.trans hb)
    refine ⟨phase.codes, ?_, fun d => code_of_rejects hr⟩
    cases phase <;> simp [phaseCodes, Phase.codes]

theorem prepared_of_wiringCode (hb : build r freeze m = .error ds) (hd : d ∈ ds)
    (hc : Among wiringCodes d.code) : ∃ entries contents g, Prepared r m entries contents g := by
  refine (prepared_or_rejects r m).resolve_right ?_
  rintro ⟨phase, ds', hr⟩
  obtain rfl := Except.error.inj ((hr.build_eq freeze).symm.trans hb)
  have hdisjoint : ∀ c ∈ wiringCodes, c ∉ phase.codes := by
    cases phase <;> decide
  obtain ⟨c, hc, heq⟩ := hc
  obtain ⟨c', hc', heq'⟩ := code_of_rejects hr hd
  cases heq.symm.trans heq'
  exact hdisjoint c hc hc'

end Graph
end ModelGraph
