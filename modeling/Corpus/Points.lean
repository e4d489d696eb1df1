/-
Requests, and names of the server's statements.

Every SQL statement, transaction and CAS call of the modelled functions has a
name, with the values it is bound to and what its function has read so far.  The
names carry no behaviour: they let a statement about interleavings say which
call stands before which statement.
-/
import Corpus.Store

namespace Corpus

/-! ### Requests -/

/-- `AnnounceRequest`. -/
structure AnnounceRequest where
  sha256 : String
  sizeBytes : ℤ
  occurrence : Option OccurrenceInfo

/-- `FinalizeRequest`. -/
structure FinalizeRequest where
  uploadId : Uuid
  sha256 : String
  sizeBytes : ℤ
  occurrence : Option OccurrenceInfo
  scope : Option String
  provenance : Option Json

/-! ### Statements -/

/-- Statements of `ingest.rs` and the CAS calls it makes. -/
inductive IngestPt where
  | annFind (t : Uuid) (req : AnnounceRequest) (sha : Bytes)
  | annPresent (t : Uuid) (req : AnnounceRequest) (sha : Bytes) (artifact : Uuid)
  | annOpen (t : Uuid) (req : AnnounceRequest) (sha : Bytes)
  | stageState (t upload : Uuid) (bytes : Bytes)
  | stageWrite (t upload : Uuid) (bytes : Bytes)
  | finSession (t : Uuid) (req : FinalizeRequest)
  | finRead (t : Uuid) (req : FinalizeRequest) (key : Uuid)
  | finDiscardSize (t : Uuid) (req : FinalizeRequest) (key : Uuid) (received : ℕ)
  | finFailSize (t : Uuid) (req : FinalizeRequest) (received : ℕ)
  | finMismatch (t : Uuid) (req : FinalizeRequest) (key : Uuid) (bytes : Bytes)
  | finDiscardMismatch (t : Uuid) (req : FinalizeRequest) (key : Uuid)
  | finDiscardScope (t : Uuid) (req : FinalizeRequest) (key : Uuid)
  | finCommit (t : Uuid) (req : FinalizeRequest) (key : Uuid) (bytes : Bytes) (scope : Scope)
  /-- the artifact `INSERT` draws its `seq` -/
  | finNextval (t : Uuid) (req : FinalizeRequest) (bytes : Bytes) (scope : Scope)
  /-- the transaction of the `INSERT` commits -/
  | finInsert (t : Uuid) (req : FinalizeRequest) (bytes : Bytes) (scope : Scope) (seq : ℕ)

/-- Who called `enqueue_hunt` or `execute_hunt`. -/
inductive Who where
  | api
  | sync
  | worker
  | activation
  deriving DecidableEq

/-- Statements of the scan loop for one artifact. -/
inductive ItemStep where
  | lookup
  | read
  | scan
  | cache
  | detect
  | hit
  | fire
  deriving DecidableEq

/-- Statements of `registry.rs`, `hunts.rs` and `continuous.rs`. -/
inductive HuntPt where
  | pubRule (t rule : Uuid)
  | pubTx (t : Uuid) (digest : String) (activate : Bool)
  | pubGet (t : Uuid) (digest : String)
  | actFind (t : Uuid) (digest : String)
  | actGet (t : Uuid) (digest : String) (hunt : Uuid)
  | actReused (t : Uuid) (digest : String) (hunt : Uuid)
  | actReturn (t hunt : Uuid)
  | actEnqueued (t : Uuid) (digest : String) (hunt : Hunt)
  | newBundle (t : Uuid) (digest : String) (who : Who)
  | newInsert (t : Uuid) (digest : String) (bundle : Uuid) (who : Who)
  | enqGet (t hunt : Uuid) (who : Who)
  | enqValidate (t hunt : Uuid) (who : Who) (pinned : Option ℕ)
  | enqBundle (t hunt : Uuid) (who : Who) (pinned : Option ℕ)
  | enqSources (t hunt : Uuid) (who : Who) (pinned : Option ℕ) (bundle : Uuid)
  | enqFail (t hunt : Uuid) (who : Who)
  | enqMax (t hunt : Uuid) (who : Who)
  | enqCount (t hunt : Uuid) (who : Who) (pinned : Option ℕ) (watermark : ℕ)
  | enqPlan (t hunt : Uuid) (who : Who) (pinned : Option ℕ) (watermark planned : ℕ)
  | enqQueue (t hunt : Uuid) (who : Who)
  | enqJob (t hunt : Uuid) (who : Who)
  | enqReturn (t hunt : Uuid) (who : Who)
  | claim (worker : String)
  | exeGet (t hunt : Uuid) (who : Who)
  | exeBundle (t hunt : Uuid) (who : Who) (pinned : Option ℕ)
  | exeSources (t hunt : Uuid) (who : Who) (pinned : Option ℕ) (bundle : Uuid)
  | exeFail (t hunt : Uuid) (who : Who)
  | exeRunning (t hunt : Uuid) (who : Who) (watermark : ℕ)
  | exeClaim (t hunt : Uuid) (who : Who) (watermark : ℕ)
  | exeSelect (t hunt : Uuid) (who : Who) (watermark : ℕ)
  | exeItem (t hunt : Uuid) (who : Who) (counters : Counters) (step : ItemStep)
  | exeProgress (t hunt : Uuid) (who : Who) (counters : Counters)
  | exeFinal (t hunt : Uuid) (who : Who) (counters : Counters)
  | exeJobDone (t hunt : Uuid) (who : Who)
  | exeReturn (t hunt : Uuid) (who : Who)
  /-- the look-up of `hash_hunt` for one indicator -/
  | hashFind (t : Uuid) (sha : Bytes)
  /-- a statement of `forward_scan`; `hunt` is the forward hunt it writes to -/
  | forward (t artifact : Uuid) (hunt : Option Uuid)

/-- Statements of `similarity/edges.rs` and `semantic/edges.rs`. -/
inductive SimPt where
  /-- a read or write of features, indexes, functions or receipts of `x` -/
  | analyze (t x : Uuid)
  | insertEdge (t src dst : Uuid) (ty : EdgeType)
  | groupOfA (t a b : Uuid)
  | groupOfB (t a b : Uuid) (ga : Option Uuid)
  | mergeUpdate (t a b keep drop : Uuid)
  | mergeDelete (t drop : Uuid)
  | joinAdd (t a b g x : Uuid)
  | createGroup (t a b : Uuid)
  | createAddA (t a b g : Uuid)
  | createAddB (t a b g : Uuid)
  /-- a statement of `triggers::fire` -/
  | fire (t : Uuid)
  /-- the query that opens `backfill` -/
  | pending (t : Uuid)

/-- Statement names of the whole server. -/
inductive Pt where
  | ingest (p : IngestPt)
  | hunt (p : HuntPt)
  | sim (p : SimPt)

/-- A server function: a program of named statements on the store. -/
abbrev Srv := Prog Pt Db Env Error

end Corpus
