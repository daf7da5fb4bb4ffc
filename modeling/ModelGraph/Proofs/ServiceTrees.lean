import ModelGraph.Extension.ServiceStore
import ModelGraph.Proofs.IdentifiedDomains

namespace ModelGraph

open HashInput

theorem HttpMethod.text_inj {s t : HttpMethod} (h : s.text = t.text) : s = t := by
  cases s <;> cases t <;> first | rfl | exact absurd h (by decide)

theorem ParameterLocation.text_inj {s t : ParameterLocation} (h : s.text = t.text) : s = t := by
  cases s <;> cases t <;> first | rfl | exact absurd h (by decide)

theorem ServiceParameter.delimits : Delimits Eq ServiceParameter.hashInput := by
  intro p q x y h
  simp only [hashInput, List.append_assoc] at h
  obtain ⟨hname, h⟩ := delimits_text h
  obtain ⟨hlocation, h⟩ := delimits_text h
  obtain ⟨hrequired, hrest⟩ := delimits_flag h
  refine ⟨?_, hrest⟩
  cases p
  cases q
  rw [mk.injEq]
  exact ⟨hname, ParameterLocation.text_inj hlocation, hrequired⟩

namespace ServiceNode

mutual

def ids : ServiceNode → List String
  | .service s => [s.id]
  | .group id _ elements => id :: idsOf elements

def idsOf : List ServiceNode → List String
  | [] => []
  | n :: rest => n.ids ++ idsOf rest

end

/-- Ids that are not the texts of parameter locations. -/
def Plain (ids : List String) : Prop := ∀ id ∈ ids, ∀ l : ParameterLocation, id ≠ l.text

theorem plain_append {s t : List String} : Plain (s ++ t) ↔ Plain s ∧ Plain t :=
  List.forall_mem_append

/-- Neither a parameter nor the text of a location can be read from the left. -/
structure Follows (x : HashInput) : Prop where
  parameter : ∀ (p : ServiceParameter) z, ¬Agree x (p.hashInput ++ z)
  location : ∀ (l : ParameterLocation) z, ¬Agree x (text l.text ++ z)

theorem follows_nil : Follows [] where
  parameter p z h := by
    rw [ServiceParameter.hashInput, List.append_assoc, List.append_assoc] at h
    exact absurd h.2.symm (List.append_ne_nil_of_left_ne_nil (text_ne_nil _) _)
  location l z h := absurd h.2.symm (List.append_ne_nil_of_left_ne_nil (text_ne_nil _) _)

theorem Follows.of_texts {s t : String} {x : HashInput} (hs : ∀ l : ParameterLocation, s ≠ l.text)
    (ht : ∀ l : ParameterLocation, t ≠ l.text) : Follows (text s ++ (text t ++ x)) where
  parameter p z h := by
    simp only [ServiceParameter.hashInput, List.append_assoc] at h
    exact ht p.location (delimits_text (delimits_text h).2).1
  location l z h := hs l (delimits_text h).1

theorem ne_location {s : String} (h : s ∈ ["service", "group", "end"]) (l : ParameterLocation) :
    s ≠ l.text := by
  simp only [List.mem_cons, List.not_mem_nil, or_false] at h
  rcases h with rfl | rfl | rfl <;> cases l <;> decide

theorem follows_end {x : HashInput} (hx : Follows x) : Follows (text "end" ++ x) where
  parameter p z h := by
    simp only [ServiceParameter.hashInput, List.append_assoc] at h
    exact hx.location _ _ (delimits_text h).2
  location l z h := ne_location (by simp) l (delimits_text h).1

theorem follows_nodes {ns : List ServiceNode} (hns : Plain (idsOf ns)) {x : HashInput}
    (hx : Follows x) : Follows (hashInputs ns ++ x) := by
  cases ns with
  | nil => exact hx
  | cons n rest =>
    cases n with
    | service s =>
      simp only [hashInputs, hashInput, HttpService.hashInput, List.append_assoc]
      exact .of_texts (ne_location (by simp)) (hns s.id (by simp [idsOf, ids]))
    | group id path elements =>
      simp only [hashInputs, hashInput, List.append_assoc]
      exact .of_texts (ne_location (by simp)) (hns id (by simp [idsOf, ids]))

theorem parameters_agree {ps qs : List ServiceParameter} {x y : HashInput} (hx : Follows x)
    (hy : Follows y) (h : Agree (ps.flatMap ServiceParameter.hashInput ++ x)
      (qs.flatMap ServiceParameter.hashInput ++ y)) : ps = qs ∧ Agree x y := by
  induction ps generalizing qs with
  | nil =>
    cases qs with
    | nil => exact ⟨rfl, h⟩
    | cons q qs =>
      rw [List.flatMap_cons, List.append_assoc] at h
      exact absurd h (hx.parameter q _)
  | cons p ps ih =>
    cases qs with
    | nil =>
      rw [List.flatMap_cons, List.append_assoc] at h
      exact absurd h.symm (hy.parameter p _)
    | cons q qs =>
      rw [List.flatMap_cons, List.flatMap_cons, List.append_assoc, List.append_assoc] at h
      obtain ⟨hpq, hrest⟩ := ServiceParameter.delimits h
      obtain ⟨hps, hxy⟩ := ih hrest
      exact ⟨by rw [hpq, hps], hxy⟩

/-- Nothing more of a tree can be read from the left. -/
structure Ends (x : HashInput) : Prop extends Follows x where
  node : ∀ (n : ServiceNode) z, ¬Agree x (n.hashInput ++ z)

theorem ends_nil : Ends [] where
  toFollows := follows_nil
  node n z h := by
    cases n <;>
      simp only [hashInput, HttpService.hashInput, List.append_assoc] at h <;>
      exact absurd h.2.symm (List.append_ne_nil_of_left_ne_nil (text_ne_nil _) _)

theorem ends_end {x : HashInput} (hx : Follows x) : Ends (text "end" ++ x) where
  toFollows := follows_end hx
  node n z h := by
    cases n <;>
      simp only [hashInput, HttpService.hashInput, List.append_assoc] at h <;>
      exact absurd (delimits_text h).1 (by decide)

mutual

theorem node_agree (n m : ServiceNode) (hn : Plain n.ids) (hm : Plain m.ids) {x y : HashInput}
    (hx : Follows x) (hy : Follows y) (h : Agree (n.hashInput ++ x) (m.hashInput ++ y)) :
    n = m ∧ Agree x y := by
  cases n with
  | service s =>
    cases m with
    | service t =>
      simp only [hashInput, HttpService.hashInput, List.append_assoc] at h
      obtain ⟨hid, h⟩ := delimits_text h.tail
      obtain ⟨hpath, h⟩ := delimits_text h
      obtain ⟨hmethod, h⟩ := delimits_text h
      obtain ⟨hparameters, hrest⟩ := parameters_agree hx hy h
      refine ⟨congrArg service ?_, hrest⟩
      cases s
      cases t
      rw [HttpService.mk.injEq]
      exact ⟨hid, hpath, HttpMethod.text_inj hmethod, hparameters⟩
    | group id path elements =>
      simp only [hashInput, HttpService.hashInput, List.append_assoc] at h
      exact absurd (delimits_text h).1 (by decide)
  | group id path elements =>
    cases m with
    | service t =>
      simp only [hashInput, HttpService.hashInput, List.append_assoc] at h
      exact absurd (delimits_text h).1 (by decide)
    | group id' path' elements' =>
      simp only [hashInput, List.append_assoc] at h
      obtain ⟨hid, h⟩ := delimits_text h.tail
      obtain ⟨hpath, h⟩ := delimits_text h
      simp only [ids, Plain, List.forall_mem_cons] at hn hm
      obtain ⟨helements, hrest⟩ :=
        nodes_agree elements elements' hn.2 hm.2 (ends_end hx) (ends_end hy) h
      exact ⟨by rw [hid, hpath, helements], hrest.tail⟩

theorem nodes_agree (ns ms : List ServiceNode) (hn : Plain (idsOf ns)) (hm : Plain (idsOf ms))
    {x y : HashInput} (hx : Ends x) (hy : Ends y)
    (h : Agree (hashInputs ns ++ x) (hashInputs ms ++ y)) : ns = ms ∧ Agree x y := by
  cases ns with
  | nil =>
    cases ms with
    | nil => exact ⟨rfl, h⟩
    | cons m ms =>
      rw [hashInputs, hashInputs, List.append_assoc, List.nil_append] at h
      exact absurd h (hx.node m _)
  | cons n ns =>
    cases ms with
    | nil =>
      rw [hashInputs, hashInputs, List.append_assoc, List.nil_append] at h
      exact absurd h.symm (hy.node n _)
    | cons m ms =>
      rw [hashInputs, hashInputs, List.append_assoc, List.append_assoc] at h
      rw [idsOf, plain_append] at hn hm
      obtain ⟨hnm, hrest⟩ := node_agree n m hn.1 hm.1 (follows_nodes hn.2 hx.toFollows)
        (follows_nodes hm.2 hy.toFollows) h
      obtain ⟨hnodes, hxy⟩ := nodes_agree ns ms hn.2 hm.2 hx hy hrest
      exact ⟨by rw [hnm, hnodes], hxy⟩

end

end ServiceNode

namespace ServiceStore

/-- Service stores of one hash input are the same, up to the bindings of what they include, if no id
of a service or a group is the text of a parameter location. -/
theorem trees_of_hashInput {path path' : Path} {s t : ServiceStore}
    (hs : ServiceNode.Plain (ServiceNode.idsOf s.elements))
    (ht : ServiceNode.Plain (ServiceNode.idsOf t.elements))
    (apart : Apart (s.includes.map Reference.hashInput) (t.includes.map Reference.hashInput))
    (hlength : (s.hashInput path).length < UInt64.size) (h : s.hashInput path = t.hashInput path') :
    path = path' ∧ s.includes.map Reference.path = t.includes.map Reference.path ∧
      s.description = t.description ∧ s.elements = t.elements := by
  have hagree : Agree (s.hashInput path) (t.hashInput path') := ⟨hlength, h⟩
  simp only [hashInput, extensionTag, List.append_assoc] at hagree
  obtain ⟨hpath, hagree⟩ := delimits_text hagree.tail.tail
  obtain ⟨hincludes, hagree⟩ := delimits_codes hagree
  obtain ⟨hdescription, hagree⟩ := delimits_optText hagree
  obtain ⟨helements, -⟩ :=
    ServiceNode.nodes_agree _ _ hs ht ServiceNode.ends_nil ServiceNode.ends_nil hagree.ending
  refine ⟨Path.ext hpath, ?_, hdescription, helements⟩
  have hall := apart.forall₂_map hincludes fun r _ q _ hrq => Path.ext (Reference.text_of_hashInput hrq)
  rw [← List.forall₂_eq_eq_eq, List.forall₂_map_left_iff, List.forall₂_map_right_iff]
  exact hall

def groupStore (base : Handle) : ServiceStore where
  includes := [.bound ⟨"Base"⟩ base]
  description := some "orders"
  elements := [.group "orders" "/orders" [.service {
    id := "find", path := "/find", method := .get
    parameters := [{ name := "id", location := .query }] }]]

theorem trees_of_hashInput_group :
    (groupStore ⟨1⟩).includes.map Reference.path = (groupStore ⟨2⟩).includes.map Reference.path ∧
      (groupStore ⟨1⟩).description = (groupStore ⟨2⟩).description ∧
      (groupStore ⟨1⟩).elements = (groupStore ⟨2⟩).elements := by
  have plain : ∀ base, ServiceNode.Plain (ServiceNode.idsOf (groupStore base).elements) := by
    intro base id hid l
    change id ∈ ["orders", "find"] at hid
    simp only [List.mem_cons, List.not_mem_nil, or_false] at hid
    rcases hid with rfl | rfl <;> cases l <;> decide
  have apart : Apart ((groupStore ⟨1⟩).includes.map Reference.hashInput)
      ((groupStore ⟨2⟩).includes.map Reference.hashInput) := by
    refine ⟨by decide +kernel, fun x hx y hy _ => ?_⟩
    exact (List.mem_singleton.mp hx).trans (List.mem_singleton.mp hy).symm
  have hlength : ((groupStore ⟨1⟩).hashInput ⟨"S"⟩).length < UInt64.size := by decide +kernel
  have h : (groupStore ⟨1⟩).hashInput ⟨"S"⟩ = (groupStore ⟨2⟩).hashInput ⟨"S"⟩ := rfl
  exact (trees_of_hashInput (plain _) (plain _) apart hlength h).2

def inner (length : Char) (s : String) : String :=
  String.ofList (length :: List.replicate 7 '\x00') ++ s

def padding : String := String.ofList (List.replicate 232 'p')

def twoServices : List ServiceNode := [
  .service { id := "a", path := "a", method := .get },
  .service { id := "QUERY", method := .get, parameters := [{ name := "nnnnn", location := .query }]
             path := "\x00x" ++ inner '\x05' "QUERY" ++ "\x00\x00\x01\x00\x00\x00\x00\x00\x00" ++
               padding }]

/-- The first of the services, with the second one read as its parameters. -/
def oneService : List ServiceNode := [
  .service { id := "a", path := "a", method := .get, parameters := [
    { name := "service", location := .query }, { name := "x", location := .query },
    { name := padding ++ inner '\x03' "GET" ++ inner '\x05' "nnnnn", location := .query }] }]

theorem hashInput_eq_of_location : ∃ s t : ServiceStore,
    s.hashInput ⟨"S"⟩ = t.hashInput ⟨"S"⟩ ∧ s.elements ≠ t.elements := by
  refine ⟨{ elements := twoServices }, { elements := oneService }, ?_, ?_⟩
  · simp only [hashInput, twoServices, oneService, ServiceNode.hashInputs, ServiceNode.hashInput,
      HttpService.hashInput, ServiceParameter.hashInput, List.flatMap_cons, List.flatMap_nil,
      text_eq_block]
    decide +kernel
  · intro h
    have hlength := congrArg List.length h
    exact absurd hlength (by decide)

end ServiceStore
end ModelGraph
