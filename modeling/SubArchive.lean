import SubArchive.AppendOnly
import SubArchive.ArchivedOnce
import SubArchive.CanonicalChain
import SubArchive.CarriedChanges
import SubArchive.Chain
import SubArchive.ChangesTries
import SubArchive.CheckBlock
import SubArchive.CrashEquivalence
import SubArchive.Delivery
import SubArchive.DualWrite
import SubArchive.FinalityPath
import SubArchive.FinalityStreams
import SubArchive.FinalizedOnBest
import SubArchive.HashLink
import SubArchive.Import
import SubArchive.ImportAgreement
import SubArchive.ImportingMarker
import SubArchive.Initialization
import SubArchive.Interleaving
import SubArchive.KeyChangesProof
import SubArchive.Library.Follower
import SubArchive.Library.Gather
import SubArchive.Library.KeyedTable
import SubArchive.Library.Patch
import SubArchive.Library.Results
import SubArchive.Library.Transition
import SubArchive.MonotonicReads
import SubArchive.NestedTransactions
import SubArchive.NetworkFuture
import SubArchive.NeverPanics
import SubArchive.NoHole
import SubArchive.Pipeline
import SubArchive.Progress
import SubArchive.ReadonlyDatabase
import SubArchive.RecordedVersion
import SubArchive.Reexecution
import SubArchive.Replay
import SubArchive.ResetForce
import SubArchive.SharedCache
import SubArchive.StoredMetadata
import SubArchive.Token
import SubArchive.TopicReplay
import SubArchive.Uncles
import SubArchive.VersionEncoding
import SubArchive.WasmOverride
