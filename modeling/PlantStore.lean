import PlantStore.Context.Basic
import PlantStore.Overlap.Basic
import PlantStore.Proofs.Alter
import PlantStore.Proofs.History.Deeds
import PlantStore.Proofs.History.Follows
import PlantStore.Proofs.History.Law
import PlantStore.Proofs.Mark
import PlantStore.Proofs.Overlap.Admissible
import PlantStore.Proofs.Overlap.Finish
import PlantStore.Proofs.Reachable
import PlantStore.Proofs.Overlap.Places
import PlantStore.Proofs.Overlap.Serializable
import PlantStore.Proofs.Json.Exported
import PlantStore.Proofs.Decimal.Rounding
import PlantStore.Proofs.Json.Agreement
import PlantStore.Proofs.Protection.Effect
import PlantStore.Proofs.Protection.Overlap
import PlantStore.Proofs.Protection.Protected
import PlantStore.Proofs.Transparency.Recast
import PlantStore.Proofs.Transparency.Calls
import PlantStore.Proofs.Transparency.Overlaps
import PlantStore.Proofs.Transparency.Finish
import PlantStore.Proofs.Transparency.Describe
import PlantStore.Proofs.Transparency.Trace
import PlantStore.Proofs.Transparency.Hash
import PlantStore.Proofs.Transparency.Context
import PlantStore.Proofs.Journal.Replay
import PlantStore.Proofs.Course
import PlantStore.Proofs.Freed.Final
import PlantStore.Proofs.Atomic
import PlantStore.Proofs.Reserved.Granted
import PlantStore.Proofs.Verdict
import PlantStore.Proofs.Free.Filter
import PlantStore.Proofs.Overlap.Sequential
import PlantStore.Proofs.Free.Overlap
import PlantStore.Proofs.Disjoint.Edit
import PlantStore.Proofs.Disjoint.Interleaving
import PlantStore.Proofs.Encoding
import PlantStore.Proofs.Reading.Agreement
import PlantStore.Proofs.Reading.Typed
import PlantStore.Proofs.Delete.Located
import PlantStore.Proofs.Delete.Queue
import PlantStore.Proofs.Creation.Racing
import PlantStore.Proofs.HostWord
import PlantStore.Proofs.RootName.OneName
import PlantStore.Proofs.Journal.Debug
import PlantStore.Proofs.Negotiation
import PlantStore.Proofs.Key.Stored
import PlantStore.Proofs.Key.Hash
import PlantStore.Proofs.Json.Doubles
import PlantStore.Proofs.Overlap.Turns
