import NgramIndex.Run
import NgramIndex.StorageLock
import NgramIndex.Fallible
import NgramIndex.Metered
import NgramIndex.Resumable
import NgramIndex.SortedBuckets
import NgramIndex.LowerBound
import NgramIndex.Ascending
import NgramIndex.BigEndian
import NgramIndex.Leb128
import NgramIndex.Postings
import NgramIndex.PostingsCodec
import NgramIndex.PackSegment
import NgramIndex.Probe
import NgramIndex.ProbeExact
import NgramIndex.ProbeIntersection
import NgramIndex.DisjointSpans
import NgramIndex.ManifestSpans
import NgramIndex.CandidateQueue
import NgramIndex.ProbeMemory
import NgramIndex.WorkerMemory
import NgramIndex.Maintenance
import NgramIndex.RefreshProgress
import NgramIndex.RowIdGuard
import NgramIndex.Coverage
import NgramIndex.GramSuperset
import NgramIndex.SparseGrams
import NgramIndex.GramKeysChunk
import NgramIndex.KeySpaces
import NgramIndex.WordMixing
import NgramIndex.WindowWeights
import NgramIndex.SearchExact
import NgramIndex.SearchProgress
import NgramIndex.QueueFailure
import NgramIndex.CandidateBatches
import NgramIndex.BatchOrder
import NgramIndex.TailUnits
import NgramIndex.BoundedCalls
import NgramIndex.FetchLayout
import NgramIndex.FallbackScan
import NgramIndex.IndexedSearch
import NgramIndex.WildcardMatch
import NgramIndex.TableFilters
import NgramIndex.FilterNeedles
import NgramIndex.NeedleScan
import NgramIndex.SegmentRows
import NgramIndex.PartitionIndependence
import NgramIndex.UnpackPostings
import NgramIndex.Generations
import NgramIndex.HealthyIndex
import NgramIndex.RefreshLoop
import NgramIndex.MachineWord
import NgramIndex.ManifestScan
import NgramIndex.WordPlanner
import NgramIndex.SegmentRanges
import NgramIndex.SortRanges
import NgramIndex.PostingsReader
import NgramIndex.ProbeArithmetic
import NgramIndex.ProbeEstimates
import NgramIndex.MaintenanceHandles
import NgramIndex.GuardState
import NgramIndex.GuardSessions
import NgramIndex.IndexRegistry
import NgramIndex.LengthFramed
import NgramIndex.OwnerKeys
import NgramIndex.RegistryLookup
import NgramIndex.OperatorTrees
import NgramIndex.PragmaParameters
import NgramIndex.ReachableSearch
import NgramIndex.GuardScripts
import NgramIndex.SharedGuard
import NgramIndex.CreationBarrier
import NgramIndex.CreationContent
import NgramIndex.CreationProtocol
import NgramIndex.CatalogListing
import NgramIndex.CatalogStatus
import NgramIndex.CatalogScripts
import NgramIndex.CatalogRuns
import NgramIndex.CatalogHistory
import NgramIndex.CatalogDrops
import NgramIndex.UnitPool
import NgramIndex.ParallelManifest
import NgramIndex.LakeHistory
import NgramIndex.LakeScripts
import NgramIndex.LakeRuns
import NgramIndex.LakeEntries
import NgramIndex.LakeFence
import NgramIndex.LakeStaleness
import NgramIndex.LakePostings
import NgramIndex.LakeIntersection
import NgramIndex.LakeAgreement
import NgramIndex.LakeQuery
import NgramIndex.LakeCoverage
import NgramIndex.LakeCandidates
import NgramIndex.LakeRowids
import NgramIndex.PlanRewrite
