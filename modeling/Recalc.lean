import Recalc.Call
import Recalc.Expr
import Recalc.Formula.Text
import Recalc.Shared
import Recalc.Shop
import Recalc.Snapshot.Capture
import Recalc.Snapshot.Json
import Recalc.Snapshot.Rebuild
import Recalc.Proofs.ActionLaws
import Recalc.Proofs.EdgeLaws
import Recalc.Proofs.PoolLaws
import Recalc.Request
import Recalc.Proofs.ForgettingLaws
import Recalc.Proofs.TrackedRemoval
import Recalc.Proofs.EvaluationLaws
import Recalc.Proofs.ReplicaLaws
import Recalc.Proofs.TrackedEvaluation
import Recalc.Proofs.EditLaws
import Recalc.Proofs.TrackedEdits
import Recalc.Proofs.TrackedRequests
import Recalc.Proofs.ListingLaws
import Recalc.Proofs.Ownership
import Recalc.Proofs.Holders
import Recalc.Proofs.OwnedChanges
import Recalc.Proofs.OwnedRemoval
import Recalc.Proofs.Upholding
import Recalc.Proofs.InstanceRemoval
import Recalc.Proofs.AncestryLaws
import Recalc.Proofs.Mirroring
import Recalc.Proofs.OwnedAdditions
import Recalc.Proofs.MirroredChanges
import Recalc.Proofs.Fitting
import Recalc.Proofs.HeritageLaws
import Recalc.Proofs.Deriving
import Recalc.Proofs.MirroredDerivation
import Recalc.Proofs.Alteration
import Recalc.Proofs.Lasting
import Recalc.Proofs.MirroredWaves
import Recalc.Proofs.Sparing
import Recalc.Proofs.MirroredMembers
import Recalc.Proofs.Newcomers
import Recalc.Proofs.MirroredEdits
import Recalc.Proofs.ReplicaCopies
import Recalc.Proofs.MirroredReplicas
import Recalc.Proofs.HostLaws
import Recalc.Proofs.MirroredRequests
import Recalc.Proofs.RejectedEdits
import Recalc.Proofs.Members
import Recalc.Proofs.Arrangement
import Recalc.Proofs.RefusedRequests
import Recalc.Proofs.Reclaiming
import Recalc.Proofs.Levels
import Recalc.Proofs.OwnedNames
import Recalc.Proofs.Enriching
import Recalc.Proofs.Journal
import Recalc.Proofs.Evaluations
import Recalc.Proofs.FailedReads
import Recalc.Proofs.Labels
import Recalc.Proofs.Keeping
import Recalc.Proofs.Substituted
import Recalc.Proofs.Substitution
import Recalc.Proofs.Backing
import Recalc.Proofs.Culling
import Recalc.Proofs.Discretion
import Recalc.Proofs.Exhausting
import Recalc.Proofs.Recalling
import Recalc.Proofs.Answering
import Recalc.Proofs.Provenance
import Recalc.Proofs.RepeatedCalls
import Recalc.Proofs.Clearing
import Recalc.Proofs.KeptInputs
import Recalc.Proofs.Overrides
import Recalc.Proofs.StoredRecords
import Recalc.Proofs.Discarding
import Recalc.Proofs.Thinning
import Recalc.Proofs.ReclamationOrder
import Recalc.Proofs.Keepers
import Recalc.Proofs.PendingPlaces
import Recalc.Proofs.LazyChildren
import Recalc.Proofs.LazyReads
import Recalc.Proofs.Nesting
import Recalc.Proofs.Reentry
import Recalc.Proofs.InStep
import Recalc.Proofs.DerivedInStep
import Recalc.Proofs.InStepWaves
import Recalc.Proofs.InStepEdits
import Recalc.Proofs.InStepRequests
import Recalc.Proofs.DerivedReferences
import Recalc.Proofs.RelativeReferences
import Recalc.Proofs.Outright
import Recalc.Proofs.Forwarding
import Recalc.Proofs.Limits
import Recalc.Proofs.RaisedLimits
import Recalc.Proofs.Traces
import Recalc.Proofs.AkinValues
import Recalc.Proofs.FairBodies
import Recalc.Proofs.AkinModels
import Recalc.Proofs.EqualNodes
import Recalc.Proofs.SettingEdits
import Recalc.Proofs.Subtrees
import Recalc.Proofs.SettingRequests
import Recalc.Proofs.ArgumentBinding
import Recalc.Proofs.AcceptedSettings
import Recalc.Proofs.Shadowing
import Recalc.Proofs.Tiers
import Recalc.Proofs.TieredDerivation
import Recalc.Proofs.LayeredWaves
import Recalc.Proofs.GraphEdits
import Recalc.Proofs.PathLaws
import Recalc.Proofs.PoolHistories
import Recalc.Proofs.KeyIdentity
