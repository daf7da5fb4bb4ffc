import ModelGraph.Proofs.Memos
import ModelGraph.Proofs.WiredMappings

namespace ModelGraph
namespace Graph

variable {g g' : Graph} {h : Handle}

/-- Drops what wiring has bound in a mapping. -/
def unwire (h : Handle) (g : Graph) : Graph :=
  g.update (fun e => { e with body := e.body.unwire }) h

theorem keeps_unwire (h : Handle) (g : Graph) : Keeps Element.unwired g (g.unwire h) :=
  Keeps.update fun e _ => unwired_eq_of_body e.body.unwire_unwire

theorem mapping?_unwire (g : Graph) (h : Handle) :
    (g.unwire h).mapping? h = (g.mapping? h).map Mapping.unwire := by
  rw [mapping?, mapping?, body?, body?, unwire, element?_update, if_pos rfl]
  cases g.element? h with
  | none => rfl
  | some e =>
    cases hb : e.body <;> simp [hb, Body.unwire]

theorem mapping?_wire (g : Graph) (h : Handle) :
    (g.wire h).1.mapping? h =
      (g.mapping? h).map fun m => { m with slots := m.slots.map (g.wireSlot h) } := by
  rw [mapping?, mapping?, body?_wire, if_pos rfl]
  cases g.body? h with
  | none => rfl
  | some b => cases b <;> rfl

/-- A mapping with nothing bound is wired by what all graphs have in common that differ in their
wiring only. -/
theorem mapping?_wire_unwire (k : Keeps Element.unwired g g') :
    ((g'.unwire h).wire h).1.mapping? h = ((g.unwire h).wire h).1.mapping? h := by
  have keeps := ((keeps_unwire h g).symm.trans k).trans (keeps_unwire h g')
  rw [mapping?_wire, mapping?_wire, mapping?_unwire, mapping?_unwire, k.mapping?_unwire,
    keeps.wireSlot_eq]

/-- A set implementation is bound to what is found: with nothing bound before to nothing else, and
else to what it was bound to where nothing is found. -/
structure Rewires (g : Graph) (h : Handle) (former fresh s : SetImplementation) : Prop where
  fresh_same : fresh.unwire = former.unwire
  same : s.unwire = former.unwire
  fresh_properties : fresh.properties =
    former.properties.map fun p => { p with producer := g.producer? h p }
  properties : s.properties =
    former.properties.map fun p => { p with producer := (g.producer? h p).or p.producer }
  fresh_parameters : fresh.parameters =
    former.parameters.map fun p => { p with producer := g.named? h p }
  parameters : s.parameters =
    former.parameters.map fun p => { p with producer := (g.named? h p).or p.producer }

theorem rewires_wireSlot (s : SetImplementation) :
    g.Rewires h s (g.wireSlot h s.unwire) (g.wireSlot h s) where
  fresh_same := (unwire_wireSlot g h s.unwire).trans s.unwire_unwire
  same := unwire_wireSlot g h s
  fresh_properties := by
    rw [wireSlot, SetImplementation.properties_mapped, s.properties_unwire, List.map_map]
    refine List.map_congr_left fun p _ => (wireProperty_eq _).trans ?_
    rw [Option.or_none]
    rfl
  properties := by
    rw [wireSlot, SetImplementation.properties_mapped]
    exact List.map_congr_left fun p _ => wireProperty_eq p
  fresh_parameters := by
    rw [wireSlot, SetImplementation.parameters_mapped, s.parameters_unwire, List.map_map]
    refine List.map_congr_left fun p _ => (wireParameter_eq _).trans ?_
    rw [Option.or_none]
    rfl
  parameters := by
    rw [wireSlot, SetImplementation.parameters_mapped]
    exact List.map_congr_left fun p _ => wireParameter_eq p

/-- A mapping that is wired again has the faults that it would have with nothing bound before, and
the bindings too, but for those that stay because nothing is found. With nothing bound before both
are told by the bodies and references of the graph. -/
theorem rewires_of_wire {m : Mapping} (hm : g.mapping? h = some m) :
    (g.wire h).2 = ((g.unwire h).wire h).2 ∧
      (∀ g', Keeps Element.unwired g g' →
        (g'.wire h).2 = (g.wire h).2 ∧
          ((g'.unwire h).wire h).1.mapping? h = ((g.unwire h).wire h).1.mapping? h) ∧
      ∃ fresh m', ((g.unwire h).wire h).1.mapping? h = some fresh ∧
        (g.wire h).1.mapping? h = some m' ∧ fresh.unwire = m.unwire ∧ m'.unwire = m.unwire ∧
          ∀ (i : Nat) (s : SetImplementation), m.slots[i]? = some s →
            ∃ t u, fresh.slots[i]? = some t ∧ m'.slots[i]? = some u ∧ g.Rewires h s t u := by
  have keeps := keeps_unwire h g
  have hunwire : ∀ (n : Mapping), n.unwire = m.unwire →
      ({ n with slots := n.slots.map (g.wireSlot h) } : Mapping).unwire = m.unwire := by
    intro n hn
    rw [← hn]
    simp [Mapping.unwire, unwire_wireSlot]
  refine ⟨(keeps.wireFaults_eq h).symm, fun g' k => ⟨k.wireFaults_eq h, mapping?_wire_unwire k⟩,
    { m.unwire with slots := m.unwire.slots.map (g.wireSlot h) },
    { m with slots := m.slots.map (g.wireSlot h) }, ?_, ?_,
    hunwire m.unwire m.unwire_unwire, hunwire m rfl, ?_⟩
  · rw [mapping?_wire, mapping?_unwire, hm, keeps.wireSlot_eq]
    rfl
  · rw [mapping?_wire, hm]
    rfl
  · intro i s hs
    refine ⟨g.wireSlot h s.unwire, g.wireSlot h s, ?_, ?_, rewires_wireSlot s⟩
    · simp [Mapping.unwire, hs]
    · simp [hs]

/-- The class of the items is deleted from the built graph, and its class mappings are swept. -/
def staleGraph : Graph := Use.runAll [.change (.delete ⟨13⟩), .change .sweep] itemGraph

set_option maxRecDepth 1024 in
theorem mapping?_stale : staleGraph.mapping? ⟨14⟩ =
    some (itemMapping (some ⟨⟨14⟩, 2⟩) (some ⟨⟨14⟩, 1⟩) [0]) := by
  rfl

theorem rewires_of_wire_stale :
    staleGraph.mapping? ⟨14⟩ = some (itemMapping (some ⟨⟨14⟩, 2⟩) (some ⟨⟨14⟩, 1⟩) [0]) ∧
      (staleGraph.wire ⟨14⟩).2 = ((staleGraph.unwire ⟨14⟩).wire ⟨14⟩).2 ∧
        ∃ fresh s,
          staleGraph.Rewires ⟨14⟩ (itemSlot (some ⟨⟨14⟩, 2⟩) (some ⟨⟨14⟩, 1⟩)) fresh s := by
  obtain ⟨hfaults, -, _, _, -, -, -, -, hslots⟩ := rewires_of_wire mapping?_stale
  obtain ⟨fresh, s, -, -, hs⟩ := hslots 0 _ rfl
  exact ⟨mapping?_stale, hfaults, fresh, s, hs⟩

set_option maxRecDepth 1024 in
/-- Neither class mapping of the items is found any more, but the party stays bound to both. With
nothing bound before it is bound to none. -/
theorem wire_keeps_stale :
    build Preset.full false itemModel = .ok itemGraph ∧ (∃ e, staleGraph.LiveAt ⟨14⟩ e) ∧
      (staleGraph.wire ⟨14⟩).1.mapping? ⟨14⟩ =
        some (itemMapping (some ⟨⟨14⟩, 2⟩) (some ⟨⟨14⟩, 1⟩) [0]) ∧
      ((staleGraph.unwire ⟨14⟩).wire ⟨14⟩).1.mapping? ⟨14⟩ = some (itemMapping none none [0]) ∧
      staleGraph.classMappingById ⟨14⟩ "spare" = .error (.classMappingNotFound "spare" ⟨"M"⟩) ∧
      staleGraph.classMappingsByClass ⟨14⟩ ⟨13⟩ = [] :=
  ⟨build_item, ⟨_, by rfl, by rfl⟩, by rfl, by rfl, by rfl, by rfl⟩

end Graph
end ModelGraph
