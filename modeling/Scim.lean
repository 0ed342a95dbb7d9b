import Scim.AttributeMap.Agreement
import Scim.Json.Printer
import Scim.Patch
import Scim.Patch.Application
import Scim.Schema.Document
import Scim.Selector.Projection
import Scim.Proofs.Keyed
import Scim.Proofs.Reconciliation
import Scim.Proofs.Equality
import Scim.Proofs.AttributeMap
import Scim.Proofs.Edits
import Scim.Proofs.Conformance
import Scim.Proofs.Application
import Scim.Proofs.Entries
import Scim.Proofs.Registration
import Scim.Proofs.Values
import Scim.Proofs.Projection
import Scim.Proofs.ChangePaths
import Scim.Proofs.Changes
import Scim.Proofs.FittingChanges
import Scim.Proofs.ChangeOrigins
import Scim.Proofs.Locality
import Scim.Proofs.DeletionPaths
import Scim.Proofs.BuiltTrees
import Scim.Proofs.EntryChanges
import Scim.Proofs.ValueChanges
import Scim.Proofs.PresenceChanges
import Scim.Proofs.Reproduction
import Scim.Proofs.Emptiness
import Scim.Proofs.SharedEntries
import Scim.Proofs.Retrying
import Scim.Proofs.Confinement
import Scim.Proofs.JsonMembers
import Scim.Proofs.NullMembers
import Scim.Proofs.WrittenAttributes
import Scim.Proofs.RoundTrip
import Scim.Proofs.StructuralCheck
import Scim.Proofs.BodyConformance
import Scim.Proofs.ReachableRegistries
import Scim.Proofs.RegistryRuns
import Scim.Proofs.DeletionLists
import Scim.Proofs.ListsAsSets
import Scim.Proofs.AlikeChanges
import Scim.Proofs.Decomposition
import Scim.Proofs.ReadingOrder
import Scim.Proofs.Reordering
import Scim.Proofs.AttributeShares
import Scim.Proofs.SetReconciliation
import Scim.Proofs.Narrowing
import Scim.Proofs.UnselectedAttributes
import Scim.Proofs.PathNotation
import Scim.Proofs.PathIdentity
import Scim.Proofs.SelectorIndex
import Scim.Proofs.BodyContents
import Scim.Proofs.KeySpelling
import Scim.Proofs.TreeEquality
import Scim.Proofs.RegisteredAttributes
import Scim.Proofs.RecordFields
import Scim.Proofs.JsonText
import Scim.Proofs.SchemaDocuments
