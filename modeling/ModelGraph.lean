import ModelGraph.Graph.Removal
import ModelGraph.Main
import ModelGraph.Proofs.BoundReferences
import ModelGraph.Proofs.CanonicalModels
import ModelGraph.Proofs.ClearedGraphs
import ModelGraph.Proofs.Creations
import ModelGraph.Proofs.Disposal
import ModelGraph.Proofs.EnumerationIds
import ModelGraph.Proofs.Enumerations
import ModelGraph.Proofs.Faults
import ModelGraph.Proofs.FlattenedMappings
import ModelGraph.Proofs.FrozenGraphs
import ModelGraph.Proofs.FunctionDigests
import ModelGraph.Proofs.InferredIds
import ModelGraph.Proofs.Labels
import ModelGraph.Proofs.MappingDigests
import ModelGraph.Proofs.MappingHandles
import ModelGraph.Proofs.MovedSubtrees
import ModelGraph.Proofs.NamedSlots
import ModelGraph.Proofs.PrefixFreeInputs
import ModelGraph.Proofs.PropertyOrigins
import ModelGraph.Proofs.PropertySearches
import ModelGraph.Proofs.Questions
import ModelGraph.Proofs.Registries
import ModelGraph.Proofs.Removals
import ModelGraph.Proofs.RemovedSubtrees
import ModelGraph.Proofs.RenamedModels
import ModelGraph.Proofs.Rewiring
import ModelGraph.Proofs.RoundTrip
import ModelGraph.Proofs.ServiceTrees
import ModelGraph.Proofs.SlotVisits
import ModelGraph.Proofs.SweptDiagrams
import ModelGraph.Proofs.Tombstones
