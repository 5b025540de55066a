import NixstrCache.Lib.Runs
import NixstrCache.Lib.KeyedTable
import NixstrCache.Lib.Journal
import NixstrCache.Lib.Rounds
import NixstrCache.Lib.Texts
import NixstrCache.Lib.Lru
import NixstrCache.Persistence.BlobStore
import NixstrCache.Persistence.BlobViews
import NixstrCache.Persistence.LiveBlobs
import NixstrCache.Persistence.Reservations
import NixstrCache.Lib.Cells
import NixstrCache.Persistence.BlobReconcile
import NixstrCache.Persistence.Schema
import NixstrCache.Persistence.Overlay
import NixstrCache.Persistence.OverlayTables
import NixstrCache.Persistence.Publication
import NixstrCache.Persistence.Moves
import NixstrCache.Persistence.SagaTables
import NixstrCache.Persistence.SagaInvariant
import NixstrCache.Persistence.SagaStates
import NixstrCache.Persistence.Ownership
import NixstrCache.Persistence.OwnerRuns
import NixstrCache.Persistence.CatalogRuns
import NixstrCache.Persistence.Generations
import NixstrCache.Nix.Staging
import NixstrCache.Nix.NarPins
import NixstrCache.Write.Eligibility
import NixstrCache.Write.Arrivals
import NixstrCache.Write.OverlayClosure
import NixstrCache.Write.PublicationCoordinator
import NixstrCache.Write.ReplicaPrograms
import NixstrCache.Write.AvailabilityGate
import NixstrCache.Persistence.BatchTables
import NixstrCache.Write.BatchScheduler
import NixstrCache.Write.BatchWindows
import NixstrCache.Write.PendingCandidates
import NixstrCache.Persistence.StateRepository
import NixstrCache.Blossom.BlobFetcher
import NixstrCache.Blossom.FetchIsolation
import NixstrCache.Blossom.Population
import NixstrCache.Blossom.Quarantine
import NixstrCache.Blossom.DeclaredSizes
import NixstrCache.Nostr.Selection
import NixstrCache.Nostr.SelectionRuns
import NixstrCache.Config.CacheIdentity
import NixstrCache.Config.PublicationConfig
import NixstrCache.Write.PublicationEvent
import NixstrCache.Write.SignedEvents
import NixstrCache.Persistence.WritableOwner
import NixstrCache.Persistence.CleanBlobs
import NixstrCache.Write.Recovery
import NixstrCache.Network.AddressPolicy
import NixstrCache.Network.AddressGrammar
import NixstrCache.Network.SafeFetcher
import NixstrCache.Lib.Bech32
import NixstrCache.Protocol.Hashtree
import NixstrCache.Protocol.ManifestCodec
import NixstrCache.Hashtree.PathResolver
import NixstrCache.Hashtree.ManifestCache
import NixstrCache.Protocol.NarInfo
import NixstrCache.Nix.MergedCache
import NixstrCache.Persistence.Admissions
import NixstrCache.Persistence.CatalogSize
import NixstrCache.Nix.NarStaging
import NixstrCache.Nix.StagingQuota
import NixstrCache.Protocol.Fingerprint
import NixstrCache.Blossom.UploadAuthorization
import NixstrCache.Lib.Programs
import NixstrCache.Hashtree.Reader
import NixstrCache.Hashtree.FilePlan
import NixstrCache.Hashtree.FileStream
import NixstrCache.Hashtree.Traversal
import NixstrCache.Hashtree.SourceAttempts
import NixstrCache.Lib.Segments
import NixstrCache.Lib.Chunks
import NixstrCache.Lib.Utf8
import NixstrCache.Network.ResponseHead
import NixstrCache.Network.ResponseFraming
import NixstrCache.Blossom.VerifiedBlob
import NixstrCache.Nostr.SelectionAtomicity
import NixstrCache.Write.OverlayResolver
import NixstrCache.Config.DaemonObjects
import NixstrCache.Operations.Diagnostics
import NixstrCache.Nix.OverlayLeases
import NixstrCache.Hashtree.Collapse
import NixstrCache.Hashtree.FileBuild
import NixstrCache.Hashtree.TreeBuild
import NixstrCache.Hashtree.NodeTable
import NixstrCache.Hashtree.BuiltTree
import NixstrCache.Hashtree.BuiltReading
import NixstrCache.Protocol.NameOrder
import NixstrCache.Hashtree.BaseImport
import NixstrCache.Hashtree.CarriedTree
import NixstrCache.Hashtree.BuildHistory
import NixstrCache.Hashtree.CandidateInventory
import NixstrCache.Hashtree.TreeInventory
import NixstrCache.Hashtree.BuiltWorld
import NixstrCache.Hashtree.BuiltServing
import NixstrCache.Nix.StagingRace
import NixstrCache.Nix.NarComponents
import NixstrCache.Lib.Markup
import NixstrCache.Operations.StatusPage
import NixstrCache.Lib.Endings
import NixstrCache.Blossom.SourcePlan
import NixstrCache.Hashtree.RequestBudget
import NixstrCache.Write.BatchIds
import NixstrCache.Persistence.RouteComponents
import NixstrCache.Persistence.StoredRoutes
import NixstrCache.Nix.NarRoutes
import NixstrCache.Nix.UploadRoutes
import NixstrCache.Nix.UploadServing
import NixstrCache.Signer.Capability
import NixstrCache.Signer.SignedEvents
import NixstrCache.Signer.KeyErasure
