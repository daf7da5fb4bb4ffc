import ModelGraph.Extension.Presets
import ModelGraph.Proofs.CanonicalDocuments
import ModelGraph.Proofs.RuntimeDocuments

namespace ModelGraph

open Record Json

variable {n : Nat}

def Connection.IsCanonical (c : Connection) : Prop := ∀ m ∈ c.specification, m.2.IsStated

theorem Connection.agrees : Agrees n IsCanonical Connection.ofJson? Connection.ofJson? := by
  intro j c hj _ hc h
  cases j with
  | obj members =>
    simp only [ofJson?_obj, bind_eq_some, pure_eq_some] at h
    obtain ⟨type, ht, element, he, rfl⟩ := h
    have t := trims_lookup hj (Nat.le_refl _)
    have hspecific : specific (canonicalMembers members) = specific members := by
      rw [specific, filter_canonicalMembers fun k => k != "_type" && k != "element"]
      apply canonicalMembers_eq_self.mpr
      intro m hm
      exact hc m (mem_sortMembers (isRegular_obj.mp (isRegular_filter hj)).1 hm)
    have ht := text_keeps.of_lookup (t "_type") ⟨rfl, rfl⟩ ht
    have he := text_keeps.of_optional (t "element") rfl he
    simp [canonical, ofJson?_obj, ht, he, hspecific]
  | _ => cases h

theorem Connection.element_agrees :
    Agrees n IsCanonical Connection.ofElementJson? Connection.ofElementJson? := by
  intro j c hj _ hc h
  simp only [ofElementJson?, bind_eq_some] at h
  obtain ⟨r, hr, h⟩ := h
  obtain ⟨r', hr', t⟩ := trims hj (Nat.le_refl _) hr
  have h := agrees.of_lookup (t "connectionValue") ⟨rfl, rfl⟩ hc h
  simp [ofElementJson?, hr', h]

def ConnectionValue.IsCanonical : ConnectionValue → Prop
  | .pointer _ => True
  | .embedded c => c.IsCanonical

theorem ConnectionValue.agrees :
    Agrees n IsCanonical ConnectionValue.ofJson? ConnectionValue.ofJson? := by
  intro j v hj hd hv h
  rw [ofJson?] at h ⊢
  rw [text?_member?_canonical hj]
  split at h
  · next hp =>
    rw [if_pos hp]
    simp only [bind_eq_some, pure_eq_some] at h
    obtain ⟨r, hr, target, ht, rfl⟩ := h
    obtain ⟨r', hr', t⟩ := trims hj (Nat.le_refl _) hr
    have ht := Reference.keeps.of_lookup (t "connection") ⟨rfl, rfl⟩ ht
    simp [hr', ht]
  · next hp =>
    obtain ⟨c, hc, rfl⟩ := Option.map_eq_some_iff.mp h
    rw [if_neg hp, Connection.agrees hj hd hv hc]
    rfl

def IdentifiedConnection.IsCanonical (c : IdentifiedConnection) : Prop := c.connection.IsCanonical

theorem IdentifiedConnection.agrees :
    Agrees n IsCanonical IdentifiedConnection.ofJson? IdentifiedConnection.ofJson? := by
  intro j c hj _ hc h
  simp only [ofJson?, bind_eq_some, pure_eq_some] at h
  obtain ⟨r, hr, id, hi, connection, hv, rfl⟩ := h
  obtain ⟨r', hr', t⟩ := trims hj (Nat.le_refl _) hr
  have hi := text_keeps.of_lookup (t "id") ⟨rfl, rfl⟩ hi
  have hv := ConnectionValue.agrees.of_lookup (t "connection") ⟨rfl, rfl⟩ hc hv
  simp [ofJson?, hr', hi, hv]

theorem pointerPath?_keeps : Keeps pointerPath? := by
  intro j s hj h
  simp only [pointerPath?, bind_eq_some] at h
  obtain ⟨r, hr, type, hy, h⟩ := h
  obtain ⟨r', hr', t⟩ := trims hj (Nat.le_refl _) hr
  have hy := text_keeps.of_lookup (t "type") ⟨rfl, rfl⟩ hy
  have h := text_keeps.of_lookup (t "path") ⟨rfl, rfl⟩ h
  simp [pointerPath?, hr', hy, h]

def StoreConnections.IsCanonical (g : StoreConnections) : Prop :=
  ∀ c ∈ g.connections, c.IsCanonical

theorem StoreConnections.agrees :
    Agrees n IsCanonical StoreConnections.ofJson? StoreConnections.ofJson? := by
  intro j g hj _ hg h
  simp only [StoreConnections.ofJson?, bind_eq_some, pure_eq_some, list_eq] at h
  obtain ⟨r, hr, store, hs, connections, hc, rfl⟩ := h
  obtain ⟨r', hr', t⟩ := trims hj (Nat.le_refl _) hr
  have hs := pointerPath?_keeps.of_lookup (t "store") ⟨rfl, rfl⟩ hs
  have hc := IdentifiedConnection.agrees.of_list (t "storeConnections") hg hc
  simp [ofJson?, hr', hs, hc]

def Runtime.IsCanonical (r : Runtime) : Prop := ∀ g ∈ r.connections, g.IsCanonical

theorem Runtime.agrees : Agrees n IsCanonical Runtime.ofJson? Runtime.ofJson? := by
  intro j a hj _ ha h
  simp only [Runtime.ofJson?, bind_eq_some, pure_eq_some, withDefault_eq, list_eq] at h
  obtain ⟨r, hr, tag, hg, mappings, hm, connections, hc, rfl⟩ := h
  obtain ⟨r', hr', t⟩ := trims hj (Nat.le_refl _) hr
  have hg := text_keeps.of_default (t "_type") ⟨rfl, rfl⟩ hg
  have hm := pointerPath?_keeps.of_list (t "mappings") hm
  have hc := StoreConnections.agrees.of_list (t "connections") ha hc
  simp [ofJson?, hr', hg, hm, hc]

theorem Runtime.element_agrees :
    Agrees n IsCanonical Runtime.ofElementJson? Runtime.ofElementJson? := by
  intro j a hj _ ha h
  simp only [ofElementJson?, bind_eq_some] at h
  obtain ⟨r, hr, h⟩ := h
  obtain ⟨r', hr', t⟩ := trims hj (Nat.le_refl _) hr
  have h := agrees.of_document (t "runtimeValue") (by decide) rfl ha h
  simp [ofElementJson?, hr', h]

def RuntimeValue.IsCanonical : RuntimeValue → Prop
  | .pointer _ => True
  | .embedded r => r.IsCanonical

theorem RuntimeValue.agrees : Agrees n IsCanonical RuntimeValue.ofJson? RuntimeValue.ofJson? := by
  intro j v hj hd hv h
  rw [ofJson?] at h ⊢
  rw [text?_member?_canonical hj]
  split at h
  · next hp =>
    rw [if_pos hp]
    simp only [bind_eq_some, pure_eq_some] at h
    obtain ⟨r, hr, target, ht, rfl⟩ := h
    obtain ⟨r', hr', t⟩ := trims hj (Nat.le_refl _) hr
    have ht := Reference.keeps.of_lookup (t "runtime") ⟨rfl, rfl⟩ ht
    simp [hr', ht]
  · next hp =>
    obtain ⟨a, ha, rfl⟩ := Option.map_eq_some_iff.mp h
    rw [if_neg hp, Runtime.agrees hj hd hv ha]
    rfl

structure Execution.IsCanonical (e : Execution) : Prop where
  query : e.query.IsStated
  runtime : e.runtime.IsCanonical

theorem Execution.agrees : Agrees n IsCanonical Execution.ofJson? Execution.ofJson? := by
  intro j e hj _ he h
  simp only [Execution.ofJson?, bind_eq_some, pure_eq_some, withDefault_eq] at h
  obtain ⟨r, hr, tag, hg, query, hq, mapping, hm, runtime, ht, rfl⟩ := h
  obtain ⟨r', hr', t⟩ := trims hj (Nat.le_refl _) hr
  have hg := text_keeps.of_default (t "_type") ⟨rfl, rfl⟩ hg
  have hq := (t "func").eq_some hq he.query
  have hm := Reference.keeps.of_lookup (t "mapping") ⟨rfl, rfl⟩ hm
  have ht := RuntimeValue.agrees.of_document (t "runtime") (by decide) rfl he.runtime ht
  simp [ofJson?, hr', hg, hq, hm, ht]

def Service.IsCanonical (s : Service) : Prop := ∀ e ∈ s.execution, e.IsCanonical

theorem Service.agrees : Agrees n IsCanonical Service.ofJson? Service.ofJson? := by
  intro j s hj _ hs h
  simp only [Service.ofJson?, bind_eq_some, pure_eq_some, withDefault_eq, flag_eq, texts_eq,
    optional_eq, Annotations.ofRecord?_eq] at h
  obtain ⟨r, hr, pattern, hp, documentation, hd, owners, ho, auto, hu, execution, he, annotations,
    ha, rfl⟩ := h
  obtain ⟨r', hr', t⟩ := trims hj (Nat.le_refl _) hr
  have hnil : ∀ e, Execution.ofJson? (.arr []) = some e → ¬e.IsCanonical := by
    intro e he
    cases he
  have hp := text_keeps.of_default (t "pattern") ⟨rfl, rfl⟩ hp
  have hd := text_keeps.of_default (t "documentation") ⟨rfl, rfl⟩ hd
  have ho := text_keeps.of_list (t "owners") ho
  have hu := bool_keeps.of_default (t "autoActivateUpdates") ⟨rfl, rfl⟩ hu
  have he := Execution.agrees.of_optional (t "execution") hnil hs he
  have ha := Annotations.keeps t ha
  simp [ofJson?, hr', hp, hd, ho, hu, he, ha]

theorem TextElement.keeps : Keeps TextElement.ofJson? := by
  intro j e hj h
  simp only [TextElement.ofJson?, bind_eq_some, pure_eq_some, withDefault_eq] at h
  obtain ⟨r, hr, format, hf, content, hc, rfl⟩ := h
  obtain ⟨r', hr', t⟩ := trims hj (Nat.le_refl _) hr
  have hf := text_keeps.of_default (t "type") ⟨rfl, rfl⟩ hf
  have hc := text_keeps.of_default (t "content") ⟨rfl, rfl⟩ hc
  simp [ofJson?, hr', hf, hc]

theorem GeneralizationView.keeps : Keeps GeneralizationView.ofJson? := by
  intro j l hj h
  simp only [GeneralizationView.ofJson?, bind_eq_some, pure_eq_some] at h
  obtain ⟨r, hr, source, hs, target, ht, rfl⟩ := h
  obtain ⟨r', hr', t⟩ := trims hj (Nat.le_refl _) hr
  have hs := text_keeps.of_lookup (t "sourceView") ⟨rfl, rfl⟩ hs
  have ht := text_keeps.of_lookup (t "targetView") ⟨rfl, rfl⟩ ht
  simp [ofJson?, hr', hs, ht]

theorem ClassView.pair?_keeps (first second : String) : Keeps (pair? first second) := by
  intro j p hj h
  simp only [pair?, bind_eq_some, pure_eq_some] at h
  obtain ⟨r, hr, a, ha, b, hb, rfl⟩ := h
  obtain ⟨r', hr', t⟩ := trims hj (Nat.le_refl _) hr
  have ha := double_keeps.of_lookup (t first) ⟨rfl, rfl⟩ ha
  have hb := double_keeps.of_lookup (t second) ⟨rfl, rfl⟩ hb
  simp [pair?, hr', ha, hb]

theorem ClassView.keeps : Keeps ClassView.ofJson? := by
  intro j v hj h
  simp only [ClassView.ofJson?, bind_eq_some, pure_eq_some] at h
  obtain ⟨r, hr, id, hi, shown, hs, position, hp, rectangle, hc, rfl⟩ := h
  obtain ⟨r', hr', t⟩ := trims hj (Nat.le_refl _) hr
  have hi := text_keeps.of_lookup (t "id") ⟨rfl, rfl⟩ hi
  have hs := Reference.keeps.of_lookup (t "class") ⟨rfl, rfl⟩ hs
  have hp := (pair?_keeps "x" "y").of_lookup (t "position") ⟨rfl, rfl⟩ hp
  have hc := (pair?_keeps "width" "height").of_lookup (t "rectangle") ⟨rfl, rfl⟩ hc
  simp [ofJson?, hr', hi, hs, hp, hc]

theorem Diagram.keeps : Keeps Diagram.ofJson? := by
  intro j d hj h
  simp only [Diagram.ofJson?, bind_eq_some, pure_eq_some, list_eq] at h
  obtain ⟨r, hr, views, hv, lines, hl, rfl⟩ := h
  obtain ⟨r', hr', t⟩ := trims hj (Nat.le_refl _) hr
  have hv := ClassView.keeps.of_list (t "classViews") hv
  have hl := GeneralizationView.keeps.of_list (t "generalizationViews") hl
  simp [ofJson?, hr', hv, hl]

theorem choice?_canonical (names : List String) (loose : Bool) {j : Json}
    (hc : j.namesNull = false) {s : String} (h : choice? names loose j = some s) :
    choice? names loose j.canonical = some s := by
  rw [choice?.eq_def] at h
  split at h
  · exact h
  · cases hc
  · exact h
  · cases h

theorem of_choice {α : Type} {read : Json → Option α} {names : List String} {loose : Bool}
    (hn : ∀ j, choice? names loose j = none → read j = none)
    (hs : ∀ i j, choice? names loose i = choice? names loose j → read i = read j) {k : String}
    {o o' : Option Json} (t : Trims n k o o') {a : α} (h : o.bind read = some a) :
    o'.bind read = some a := by
  cases t with
  | none => cases h
  | @kept j hj hc _ =>
    have h : read j = some a := h
    cases hname : choice? names loose j with
    | none =>
      rw [hn j hname] at h
      cases h
    | some s =>
      rw [Option.bind_some, hs j.canonical j, h]
      rw [hname, choice?_canonical names loose hc hname]
  | @dropped j hj _ =>
    have hnone : read j = none := by
      apply hn
      cases j with
      | null => rfl
      | arr items => rfl
      | _ => cases hj
    rw [Option.bind_some, hnone] at h
    cases h

section Choices

variable {k : String} {o o' : Option Json} (t : Trims n k o o')
include t

theorem HttpMethod.of_lookup {m : HttpMethod} (h : o.bind ofJson? = some m) :
    o'.bind ofJson? = some m :=
  of_choice (fun j h => by rw [ofJson?, h]) (fun i j h => by rw [ofJson?, ofJson?, h]) t h

theorem ParameterLocation.of_lookup {l : ParameterLocation} (h : o.bind ofJson? = some l) :
    o'.bind ofJson? = some l :=
  of_choice (fun j h => by rw [ofJson?, h]) (fun i j h => by rw [ofJson?, ofJson?, h]) t h

theorem SchemaFormat.of_lookup {f : SchemaFormat} (h : o.bind ofJson? = some f) :
    o'.bind ofJson? = some f :=
  of_choice (fun j h => by rw [ofJson?, h]) (fun i j h => by rw [ofJson?, ofJson?, h]) t h

end Choices

theorem ServiceParameter.keeps : Keeps ServiceParameter.ofJson? := by
  intro j p hj h
  simp only [ServiceParameter.ofJson?, bind_eq_some, pure_eq_some, flag_eq] at h
  obtain ⟨r, hr, name, hn, location, hl, required, hq, rfl⟩ := h
  obtain ⟨r', hr', t⟩ := trims hj (Nat.le_refl _) hr
  have hn := text_keeps.of_lookup (t "name") ⟨rfl, rfl⟩ hn
  have hl := ParameterLocation.of_lookup (t "location") hl
  have hq := bool_keeps.of_default (t "required") ⟨rfl, rfl⟩ hq
  simp [ofJson?, hr', hn, hl, hq]

theorem HttpService.keeps : Keeps HttpService.ofJson? := by
  intro j s hj h
  simp only [HttpService.ofJson?, bind_eq_some, pure_eq_some, list_eq] at h
  obtain ⟨r, hr, id, hi, path, hp, method, hm, parameters, ha, rfl⟩ := h
  obtain ⟨r', hr', t⟩ := trims hj (Nat.le_refl _) hr
  have hi := text_keeps.of_lookup (t "id") ⟨rfl, rfl⟩ hi
  have hp := text_keeps.of_lookup (t "path") ⟨rfl, rfl⟩ hp
  have hm := HttpMethod.of_lookup (t "method") hm
  have ha := ServiceParameter.keeps.of_list (t "parameters") ha
  simp [ofJson?, hr', hi, hp, hm, ha]

namespace ServiceNode

theorem agrees_read (fuel n : Nat) (nested : Bool) :
    Agrees n (fun _ => True) (read fuel nested) (read n nested) := by
  induction fuel generalizing n nested with
  | zero =>
    intro j o _ _ _ h
    cases h
  | succ fuel ih =>
    intro j o hj hn _ h
    cases n with
    | zero => exact absurd hn (Nat.not_lt_zero _)
    | succ n =>
      obtain ⟨⟨tag, d⟩, hd, h⟩ := bind_eq_some.mp h
      obtain ⟨hd', hregular, hle⟩ := tagged?_canonical hj hd
      have hle := Nat.le_trans hle (Nat.le_of_lt_succ hn)
      simp only at h
      split at h
      · obtain ⟨s, hs, rfl⟩ := Option.map_eq_some_iff.mp h
        have hs := HttpService.keeps hregular hs
        simp [read, hd', hs]
      · simp only [bind_eq_some, pure_eq_some, list_eq] at h
        obtain ⟨r, hr, id, hi, path, hp, elements, he, rfl⟩ := h
        obtain ⟨r', hr', t⟩ := trims hregular hle hr
        have hi := text_keeps.of_lookup (t "id") ⟨rfl, rfl⟩ hi
        have hp := text_keeps.of_lookup (t "path") ⟨rfl, rfl⟩ hp
        have he := (ih n true).of_list (t "elements") (fun _ _ => trivial) he
        simp [read, hd', hr', hi, hp, he]
      · cases h

theorem keeps : Keeps ofJson? :=
  fun j _ hj h => agrees_read (j.depth + 1) (j.canonical.depth + 1) false hj (Nat.lt_succ_self _)
    trivial h

end ServiceNode

theorem ServiceStore.keeps : Keeps ServiceStore.ofJson? := by
  intro j s hj h
  simp only [ServiceStore.ofJson?, bind_eq_some, pure_eq_some, list_eq, optText_eq] at h
  obtain ⟨r, hr, includes, hi, description, hd, elements, he, rfl⟩ := h
  obtain ⟨r', hr', t⟩ := trims hj (Nat.le_refl _) hr
  have hi := Reference.keeps.of_list (t "includedStores") hi
  have hd := text_keeps.of_optional (t "description") rfl hd
  have he := ServiceNode.keeps.of_list (t "elements") he
  simp [ofJson?, hr', hi, hd, he]

theorem ServicePointer.keeps : Keeps ServicePointer.ofJson? := by
  have hpointer : Keeps (α := ServicePointer) fun j => do
      let r ← Record.ofJson? ["serviceStore", "service"] j
      return ⟨← r.required "serviceStore" Reference.ofJson?, ← r.text "service"⟩ := by
    intro j p hj h
    simp only [bind_eq_some, pure_eq_some] at h
    obtain ⟨r, hr, store, hs, service, hv, rfl⟩ := h
    obtain ⟨r', hr', t⟩ := trims hj (Nat.le_refl _) hr
    have hs := Reference.keeps.of_lookup (t "serviceStore") ⟨rfl, rfl⟩ hs
    have hv := text_keeps.of_lookup (t "service") ⟨rfl, rfl⟩ hv
    simp [hr', hs, hv]
  intro j p hj h
  simp only [ServicePointer.ofJson?, bind_eq_some] at h
  obtain ⟨r, hr, h⟩ := h
  obtain ⟨r', hr', t⟩ := trims hj (Nat.le_refl _) hr
  exact bind_eq_some.mpr ⟨r', hr', hpointer.of_lookup (t "service") ⟨rfl, rfl⟩ h⟩

theorem ClassMappingExtension.services_keeps : Keeps servicesOfJson? := by
  intro j e hj h
  simp only [servicesOfJson?, bind_eq_some, pure_eq_some, list_eq] at h
  obtain ⟨r, hr, pointers, hp, rfl⟩ := h
  obtain ⟨r', hr', t⟩ := trims hj (Nat.le_refl _) hr
  have hp := ServicePointer.keeps.of_list (t "servicesMapping") hp
  simp [servicesOfJson?, hr', hp]

theorem FieldName.keeps : Keeps FieldName.ofJson? := by
  intro j n hj h
  simp only [FieldName.ofJson?, bind_eq_some, pure_eq_some] at h
  obtain ⟨r, hr, owner, ho, property, hp, written, hw, rfl⟩ := h
  obtain ⟨r', hr', t⟩ := trims hj (Nat.le_refl _) hr
  have ho := Reference.keeps.of_lookup (t "class") ⟨rfl, rfl⟩ ho
  have hp := text_keeps.of_lookup (t "property") ⟨rfl, rfl⟩ hp
  have hw := text_keeps.of_lookup (t "serializedName") ⟨rfl, rfl⟩ hw
  simp [ofJson?, hr', ho, hp, hw]

theorem SerializerSchema.keeps : Keeps SerializerSchema.ofJson? := by
  intro j s hj h
  simp only [SerializerSchema.ofJson?, bind_eq_some, pure_eq_some, list_eq, optional_eq] at h
  obtain ⟨r, hr, format, hf, store, hs, root, ht, included, hi, fieldNames, hn, rfl⟩ := h
  obtain ⟨r', hr', t⟩ := trims hj (Nat.le_refl _) hr
  have hf := SchemaFormat.of_lookup (t "format") hf
  have hs := Reference.keeps.of_optional (t "store") rfl hs
  have ht := Reference.keeps.of_lookup (t "rootClass") ⟨rfl, rfl⟩ ht
  have hi := Reference.keeps.of_list (t "includedClasses") hi
  have hn := FieldName.keeps.of_list (t "fieldNames") hn
  simp [ofJson?, hr', hf, hs, ht, hi, hn]

end ModelGraph
