import Corpus.Pool
import Corpus.Components
import Corpus.Groups
import Corpus.VariantGroups
import Corpus.HuntReplay
import Corpus.GroupRaces
import Corpus.ServerMoves
import Corpus.ContentAddress
import Corpus.EndpointEvidence
import Corpus.Watermark
import Corpus.HuntExclusive
import Corpus.HuntStranded
import Corpus.Agent.StateDb
import Corpus.Agent.BootIdentity
import Corpus.Agent.World
import Corpus.Agent.Capture
import Corpus.Agent.Moves
import Corpus.Agent.Steps
import Corpus.Agent.Rows
import Corpus.Agent.SpoolFiles
import Corpus.Agent.SpoolBudget
import Corpus.Agent.Service
import Corpus.Agent.GapLedger
import Corpus.Agent.Attempts
import Corpus.Agent.Leases
import Corpus.Agent.Occurrences
import Corpus.Agent.Versions
import Corpus.Agent.Coverage
import Corpus.Merlin
import Corpus.MerlinReplay
import Corpus.FsCas
import Corpus.CasBackends
import Corpus.TornObjects
import Corpus.OpinionChain
import Corpus.FinalizeFailure
import Corpus.Cleanup
import Corpus.CleanupRerun
import Corpus.CleanupGroups
import Corpus.Access
import Corpus.Enrollment
import Corpus.Rely
import Corpus.Suspension
import Corpus.Greedy
import Corpus.SemanticCoverage
import Corpus.Agent.Heartbeat
import Corpus.Agent.Usn
import Corpus.Rules
import Corpus.Registry
import Corpus.Transactions
import Corpus.Publishing
import Corpus.PublishAlone
import Corpus.PackedBinaries
import Corpus.Linking
import Corpus.Gateway
import Corpus.Credentials
import Corpus.PairEvidence
import Corpus.BreadthFirst
import Corpus.Machine
import Corpus.Neighborhood
import Corpus.NeighborhoodGraph
import Corpus.NeighborhoodPages
import Corpus.Spans
import Corpus.SpanBounds
import Corpus.Extraction
import Corpus.ExtractionSafety
import Corpus.StoredFunctions
import Corpus.Erasure
import Corpus.EdgeEvidence
import Corpus.CandidateIndex
import Corpus.FunctionIndex
import Corpus.Fuzzy
import Corpus.ByteIndex
import Corpus.EditDistance
import Corpus.FuzzyScore
import Corpus.RollingHash
import Corpus.FuzzyWords
import Corpus.ExceptionTable
import Corpus.Positions
import Corpus.Authentihash
import Corpus.RuleTokens
import Corpus.Agent.SpoolFrames
import Corpus.Agent.Buffers
import Corpus.Agent.NotifyRecords
import Corpus.Agent.UsnRecords
import Corpus.Agent.Baseline
import Corpus.ImageRefs
import Corpus.SavedImages
import Corpus.Triage
import Corpus.Agent.Snapshots
import Corpus.Draws
import Corpus.Droppers
import Corpus.LegalHold
import Corpus.HashIntel
import Corpus.Export
import Corpus.GvisorJob
import Corpus.Reanalysis
import Corpus.TokenSets
import Corpus.Levenshtein
import Corpus.CharClasses
import Corpus.Tenants
import Corpus.Classify
import Corpus.Agent.GapDetails
import Corpus.Agent.Reconcile
import Corpus.Agent.Priorities
import Corpus.Investigate
import Corpus.Census
import Corpus.Triggers
import Corpus.TriggerOutbox
import Corpus.TriggerDelivery
import Corpus.TriggerProgress
import Corpus.FirstStart
import Corpus.Mtls
import Corpus.DeploymentCa
import Corpus.Agent.SpoolKey
import Corpus.Detonation
import Corpus.DetonationRuns
import Corpus.Sandbox
import Corpus.Agent.Fanotify
import Corpus.Features
import Corpus.Simhash
import Corpus.Process
import Corpus.FreshKeys
import Corpus.AgentRows
import Corpus.Agent.Startup
import Corpus.Fleet
