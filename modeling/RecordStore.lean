import RecordStore.Bench.Run
import RecordStore.Cache.Config.Json
import RecordStore.Filter.Dump
import RecordStore.Record.Json
import RecordStore.Trial.Run
import RecordStore.Proofs.Cache.Contents
import RecordStore.Proofs.Cache.Admissions
import RecordStore.Proofs.Cache.Deletions
import RecordStore.Proofs.Cache.Overlap
import RecordStore.Proofs.Cache.Redeletions
import RecordStore.Proofs.Cache.Versions
import RecordStore.Proofs.Cache.WriteBack
import RecordStore.Proofs.Cache.Settling
import RecordStore.Proofs.Cache.Closeout
import RecordStore.Proofs.Cache.LateShutdowns
import RecordStore.Proofs.Filter.Holdings
import RecordStore.Proofs.Store.Neighbors
import RecordStore.Proofs.Store.OnBench
import RecordStore.Proofs.Store.Reading
import RecordStore.Proofs.Store.Searches
import RecordStore.Proofs.Store.CacheStack
import RecordStore.Proofs.Store.Transparency
import RecordStore.Proofs.Cache.Complete
import RecordStore.Proofs.Store.Lifetime
import RecordStore.Proofs.Store.Stragglers
import RecordStore.Proofs.Store.Replicas
import RecordStore.Proofs.Cache.FailedPasses
import RecordStore.Proofs.Json.Forms
import RecordStore.Proofs.WorkerWithCallers
import RecordStore.Proofs.Trials
import RecordStore.Proofs.Cache.Rounds
import RecordStore.Proofs.Cache.Barriers
import RecordStore.Proofs.Filter.Saturation
import RecordStore.Proofs.Store.Enumeration
import RecordStore.Proofs.Store.Refusals
import RecordStore.Proofs.Cache.Outcomes
import RecordStore.Proofs.Fingerprints
import RecordStore.Proofs.Store.Scans
import RecordStore.Proofs.Store.Collections
import RecordStore.Proofs.Store.Lookups
import RecordStore.Proofs.KeyOrder
import RecordStore.Proofs.Store.Announcements
import RecordStore.Proofs.Cache.Ledgers
import RecordStore.Proofs.Filter.Generator
import RecordStore.Proofs.Filter.Sizing
