/-
The capture pipeline (`capture.rs`), reconciliation (`baseline.rs`) and the gap
flusher (`main.rs`).

Every call to the state database, the file system or the server is one step.  A
call `c` of `agent` is one activity of the agent or of its surroundings:

* `worker` — one turn of `worker_loop`: lease, wait for a permit, process the
  candidate, and on an error put it back; `renew` is one wake-up of the renewal
  task beside it;
* `reconcile`, `enqueue` — one `reconcile_scan` over the entries its walk yields,
  one event of a sensor;
* `flush` — one turn of `gap_flusher`;
* `put`, `remove`, `tick`, `restart` — someone writes or removes a watched file,
  time passes, the process starts anew.

The semaphore is not modelled: a turn may wait at `acquire` for as long as it
likes.
-/
import Corpus.Agent.StableRead
import Corpus.Pool
import Mathlib.Data.List.Infix

namespace Corpus.Agent

/-! ### Steps -/

/-- A capture in progress: the boot id of its process, its renewal task, and the
copy of the candidate row it works with. -/
structure Task where
  boot : Uuid
  handle : ℕ
  cand : Candidate

/-- The arguments of `record_gap` that are not the candidate's. -/
structure GapInfo where
  outcome : String
  sha256 : Option String
  detail : String

/-- The steps of `process_candidate`. -/
inductive ProcPt where
  | toOpening
  | spoolUsed
  | toCopying
  | stable (p : ReadPt)
  | setHashed (r : StableReadResult)
  | deferFull
  | ioRetry
  | gapRow (g : GapInfo)
  | gapCount (g : GapInfo)
  | finishGap (g : GapInfo)
  | reload
  | resumeComplete
  | removeSpool (name : Uuid)
  | announceSeq
  | announce (seq : ℕ)
  | toAnnounced (ann : AnnounceResponse)
  | toDedupHit
  | dedupQueued
  | dedupComplete
  | countPresent
  | toUploadRequired (ann : AnnounceResponse)
  | setUploadId (upload : Uuid)
  | toUploading (upload : Uuid)
  | readSpool (upload name : Uuid)
  | upload (upload : Uuid) (bytes : Bytes)
  | toFinalizing (upload : Uuid)
  | finalizeSeq (upload : Uuid)
  | finalize (upload : Uuid) (seq : ℕ)
  | finQueued
  | finComplete
  | countCaptured
  | lastUpload
  | failRetry

/-- The steps of everything else. -/
inductive Pt where
  | lease (boot : Uuid)
  | acquire (boot : Uuid) (c : Candidate)
  | proc (t : Task) (p : ProcPt)
  | abort (handle id : ℕ) (failed : Bool)
  | errRetry (id : ℕ)
  | renew (handle : ℕ)
  | enqueue (path : String) (priority : ℤ) (reason : String)
  | scanStat (path : String) (rest : List String)
  | scanSeen (path : String) (key : FileKey) (rest : List String)
  | scanEnqueue (path : String) (rest : List String)
  | flushRead
  | flushSend (gaps : List PendingGap)
  | flushDelete (gap : PendingGap) (rest : List PendingGap)
  | put (path : String) (obj : ℕ) (file : FileObj)
  | remove (path : String)
  | tick (secs : ℤ)
  | restart

/-- A program of the agent. -/
abbrev Agt (S : Type) := Prog Pt (World S) Input String

section

variable {S : Type} (rt : Runtime S)

/-- A call that writes to the state database. -/
def dbWrite (l : Pt) (f : World S → Option StateDb) : Agt S Unit :=
  Prog.exec l fun s i =>
    if i.dbFails then .error "state db error"
    else match f s with
    | some d => .ok ((), { s with db := d })
    | none => .error "UNIQUE constraint failed: candidate.path"

/-- `next_sequence`; a failure may come after the counter has moved. -/
def nextSequence (l : Pt) : Agt S ℕ :=
  .stmt l
    (fun s i => if i.dbFails && !i.late then s else { s with db := s.db.nextSequence.2 })
    fun s i => if i.dbFails then .err "state db error" else .ret s.db.nextSequence.1

/-- A request to the server. -/
def request {α : Type} (l : Pt) (call : World S → List Env → S → Except String α × S) :
    Agt S (Except String α) :=
  .stmt l
    (fun s i => match i.net with
      | .refused _ => s
      | _ => { s with server := (call s i.envs s.server).2 })
    fun s i => .ret (match i.net with
      | .refused msg | .lost msg => .error msg
      | .answered => (call s i.envs s.server).1)

/-! ### Gaps and retries -/

/-- `backoff_secs`. -/
def backoffSecs (attempts : ℕ) : ℤ := min (5 * 2 ^ min attempts 6) 300

/-- The row `record_gap` inserts. -/
def gapRow (t : Task) (g : GapInfo) (s : World S) : PendingGap :=
  ⟨0, rt.toRfc3339 s.clock, t.cand.captureReason, g.outcome, g.sha256, some t.cand.path, none,
    g.detail⟩

/-- `record_gap` of `capture.rs`: an error is logged and dropped. -/
def recordGap (t : Task) (g : GapInfo) : Agt S Unit := do
  let _ ← Prog.attempt do
    dbWrite (.proc t (.gapRow g)) fun s => some (s.db.insertGap (gapRow rt t g s))
    dbWrite (.proc t (.gapCount g)) fun s => some (s.db.incrementCounter g.outcome)
  return ()

/-- Record the gap and end the candidate. -/
def endWithGap (t : Task) (g : GapInfo) : Agt S Unit := do
  recordGap rt t g
  dbWrite (.proc t (.finishGap g)) fun s => s.db.finishGap t.cand.id g.outcome

def outcomeUploadFailed : String := "UPLOAD_FAILED"

/-- `retry_or_fail`. -/
def retryOrFail (t : Task) (why : String) : Agt S Unit :=
  if t.cand.attempts ≥ rt.maxAttempts then
    endWithGap rt t ⟨outcomeUploadFailed, t.cand.sha256, "\x7b\"error\":\"" ++ why ++ "\"\x7d"⟩
  else
    dbWrite (.proc t .failRetry) fun s =>
      s.db.setRetry t.cand.id (s.clock + backoffSecs t.cand.attempts)

/-- The outcome names of `process_candidate`; `SpoolFull` has none. -/
def outcomeName : StableReadError → String
  | .deletedBeforeRead => "DELETED_BEFORE_READ"
  | .permissionDenied => "PERMISSION_DENIED"
  | .tooLarge _ => "TOO_LARGE"
  | .changedDuringRead => "CHANGED_DURING_READ"
  | .spoolFull => ""
  | .io _ => outcomeUploadFailed

/-- `{:?}` of a `StableReadError`. -/
def debugError : StableReadError → String
  | .deletedBeforeRead => "DeletedBeforeRead"
  | .permissionDenied => "PermissionDenied"
  | .tooLarge size => s!"TooLarge \x7b size: {size} \x7d"
  | .changedDuringRead => "ChangedDuringRead"
  | .spoolFull => "SpoolFull"
  | .io msg => "Io(" ++ rt.debug msg ++ ")"

/-- The detail text of a failed read. -/
def readDetail : StableReadError → String
  | .tooLarge size => s!"\x7b\"size_bytes\":{size}\x7d"
  | e => "\x7b\"error\":" ++ debugError rt e ++ "\x7d"

/-! ### Announce, upload, finalize -/

/-- The closure `occ` of `process_candidate`. -/
def occurrence (t : Task) (seq : ℕ) (s : World S) : OccurrenceInfo where
  hostName := rt.hostName
  agentId := rt.agentId
  bootId := t.boot
  agentSequence := seq
  path := t.cand.path
  observedAt := s.clock
  fileSize := t.cand.sizeBytes.getD 0
  fileMtime := (s.fs.paths t.cand.path).map fun obj => (s.fs.objs obj).mtimeNs
  captureReason := t.cand.captureReason

/-- Remove the spool file, if the candidate has one; a failure is ignored. -/
def removeSpool (t : Task) : Agt S Unit :=
  match t.cand.spoolPath with
  | none => return ()
  | some name =>
    Prog.update (.proc t (.removeSpool name)) fun s i =>
      match i.io with
      | some _ => s
      | none => { s with spool := s.spool.remove name }

/-- A state transition of the candidate of the task. -/
def toState (t : Task) (p : ProcPt) (new : CaptureState) : Agt S Unit :=
  dbWrite (.proc t p) fun s => s.db.transition t.cand.id new

/-- `std::fs::read` of the spool file and its decryption, both with `?`. -/
def readSpool (t : Task) (upload name : Uuid) : Agt S Bytes :=
  Prog.exec (.proc t (.readSpool upload name)) fun s i =>
    match i.io, s.spool.get name with
    | some e, _ => .error e.text
    | none, none => .error (IoError.text .notFound)
    | none, some f =>
      match rt.cipher with
      | none => .ok (f.bytes, s)
      | some c =>
        match decryptFile c f.bytes with
        | .error e => .error ("spool decrypt: " ++ e)
        | .ok bytes => .ok (bytes, s)

/-- From `FINALIZING` on. -/
def finalizePhase (t : Task) (sha : String) (upload : Uuid) : Agt S Unit := do
  toState t (.toFinalizing upload) .finalizing
  let seq ← nextSequence (.proc t (.finalizeSeq upload))
  let fin ← request (.proc t (.finalize upload seq)) fun s =>
    rt.server.finalize ⟨upload, sha, t.cand.sizeBytes.getD 0, some (occurrence rt t seq s), none,
      rt.adsProvenance t.cand.path⟩
  match fin with
  | .ok _ =>
    toState t .finQueued .occurrenceQueued
    toState t .finComplete .complete
    dbWrite (.proc t .countCaptured) fun s => some (s.db.incrementCounter "CAPTURED")
    dbWrite (.proc t .lastUpload) fun s => some (s.db.setLastUploadAt s.clock)
    removeSpool t
  | .error e => retryOrFail rt t ("finalize: " ++ e)

/-- The branch `UploadRequired`. -/
def uploadPhase (t : Task) (sha : String) (ann : AnnounceResponse) : Agt S Unit := do
  toState t (.toUploadRequired ann) .uploadRequired
  match ann.uploadId with
  | none => retryOrFail rt t "UPLOAD_REQUIRED without upload_id"
  | some upload =>
    dbWrite (.proc t (.setUploadId upload)) fun s => some (s.db.setUploadId t.cand.id upload)
    toState t (.toUploading upload) .uploading
    match t.cand.spoolPath with
    | none => retryOrFail rt t "missing spool path at UPLOADING"
    | some name =>
      let bytes ← readSpool rt t upload name
      let sent ← request (.proc t (.upload upload bytes)) fun _ => rt.server.upload upload bytes
      match sent with
      | .error e => retryOrFail rt t ("upload: " ++ e)
      | .ok _ => finalizePhase rt t sha upload

/-- `{:?}` of the dispositions that are neither present nor required. -/
def dispositionName : AnnounceDisposition → String
  | .alreadyPresent => "AlreadyPresent"
  | .uploadRequired => "UploadRequired"
  | .metadataOnlyAccepted => "MetadataOnlyAccepted"
  | .rejectedPolicy => "RejectedPolicy"
  | .rejectedQuota => "RejectedQuota"
  | .retryLater => "RetryLater"

/-- The part of `process_candidate` after an answered announce. -/
def announced (t : Task) (sha : String) (ann : AnnounceResponse) : Agt S Unit := do
  toState t (.toAnnounced ann) .announced
  match ann.disposition with
  | .alreadyPresent =>
    toState t .toDedupHit .dedupHit
    toState t .dedupQueued .occurrenceQueued
    toState t .dedupComplete .complete
    dbWrite (.proc t .countPresent) fun s => some (s.db.incrementCounter "ALREADY_PRESENT")
    removeSpool t
  | .uploadRequired => uploadPhase rt t sha ann
  | other => endWithGap rt t ⟨dispositionName other, some sha, "\x7b\x7d"⟩

/-- `HASHED`, or a resumed upload state: announce. -/
def announcePhase (t : Task) (sha : String) : Agt S Unit := do
  let seq ← nextSequence (.proc t .announceSeq)
  let ann ← request (.proc t (.announce seq)) fun s =>
    rt.server.announce ⟨sha, t.cand.sizeBytes.getD 0, some (occurrence rt t seq s)⟩
  match ann with
  | .error e => retryOrFail rt t ("announce: " ++ e)
  | .ok ann => announced rt t sha ann

/-- The states from which `process_candidate` announces. -/
def CaptureState.announces : CaptureState → Bool
  | hashed | announced | uploadRequired | uploading | finalizing => true
  | _ => false

/-- `process_candidate` from the reload on. -/
def resume (t : Task) : Agt S Unit := do
  let row ← Prog.exec (.proc t .reload) fun s i =>
    if i.dbFails then .error "state db error" else .ok (s.db.get t.cand.id, s)
  match row with
  | none => return ()
  | some c =>
    let t := { t with cand := c }
    if c.state = .dedupHit ∨ c.state = .occurrenceQueued then do
      toState t .resumeComplete .complete
      removeSpool t
    else match c.sha256 with
    | none => Prog.err "candidate without sha256"
    | some sha => if c.state.announces then announcePhase rt t sha else return ()

/-! ### Reading -/

/-- What follows a stable read. -/
def afterRead (t : Task) : Except StableReadError StableReadResult → Agt S Unit
  | .ok r => do
    dbWrite (.proc t (.setHashed r)) fun s =>
      s.db.setHashed t.cand.id r.sha256 r.size r.spoolPath
    resume rt t
  | .error .spoolFull => dbWrite (.proc t .deferFull) fun s => s.db.defer t.cand.id (s.clock + 30)
  | .error (.io msg) =>
    if t.cand.attempts ≥ rt.maxAttempts then
      endWithGap rt t ⟨outcomeName (.io msg), none, readDetail rt (.io msg)⟩
    else
      dbWrite (.proc t .ioRetry) fun s =>
        s.db.setRetry t.cand.id (s.clock + backoffSecs t.cand.attempts)
  | .error e => endWithGap rt t ⟨outcomeName e, none, readDetail rt e⟩

/-- `OPENING` and `COPYING_AND_HASHING`. -/
def readPhase (t : Task) : Agt S Unit := do
  let free ← Prog.query (.proc t .spoolUsed) fun s => rt.maxSpoolBytes - s.spool.used
  toState t .toCopying .copyingAndHashing
  let r ← stableRead rt (fun p => .proc t (.stable p)) t.cand.path free rt.stableReadRetries
  afterRead rt t r

/-- `process_candidate`. -/
def processCandidate (t : Task) : Agt S Unit :=
  if t.cand.state = .debouncing ∨ t.cand.state = .observed then do
    toState t .toOpening .opening
    readPhase rt t
  else if t.cand.state = .opening ∨ t.cand.state = .copyingAndHashing then readPhase rt t
  else resume rt t

/-! ### The worker loop -/

/-- What a capture task does with its candidate. -/
def runTask (boot : Uuid) (c : Candidate) : Agt S Unit := do
  -- the permit has been granted, and the renewal task goes to sleep
  let handle ← Prog.stmt (.acquire boot c)
    (fun s _ => { s with
      watchdogs := s.watchdogs.insertNew ⟨s.nextHandle, c.id, s.clock + 30⟩
      nextHandle := s.nextHandle + 1 })
    fun s _ => .ret s.nextHandle
  let result ← (processCandidate rt ⟨boot, handle, c⟩).attempt
  Prog.update (.abort handle c.id result.isNone) fun s _ =>
    { s with watchdogs := s.watchdogs.deleteWhere fun w => w.handle = handle }
  match result with
  | some _ => return ()
  | none => do
    let _ ← Prog.attempt (dbWrite (.errRetry c.id) fun s => s.db.setRetry c.id (s.clock + 30))
    return ()

/-- One turn of `worker_loop`. -/
def workerTurn (boot : Uuid) : Agt S Unit := do
  let leased ← Prog.attempt (Prog.exec (.lease boot) fun s i =>
    if i.dbFails then .error "state db error"
    else match s.db.leaseNextDue s.clock 120 with
    | some (c, d) => .ok (c, { s with db := d })
    | none => .error "UNIQUE constraint failed: candidate.path")
  match leased with
  | some (some c) => runTask rt boot c
  | _ => return ()

/-- The world after a wake-up of the renewal task `handle`; a failed renewal ends
the task. -/
def renewed (s : World S) (i : Input) (handle : ℕ) : World S :=
  match s.watchdogs.get handle with
  | none => s
  | some w =>
    if s.clock < w.wakeAt then s
    else
      let gone := { s with watchdogs := s.watchdogs.deleteWhere fun w => w.handle = handle }
      if i.dbFails then gone
      else match s.db.renewLease s.clock w.cand 120 with
      | none => gone
      | some d =>
        { s with
          db := d
          watchdogs := s.watchdogs.updateWhere (fun w => w.handle = handle)
            (fun w => { w with wakeAt := s.clock + 30 }) fun _ => rfl }

/-! ### Sensors, reconciliation, gap flusher -/

/-- `matches_exclusion`. -/
def matchesExclusion (patterns : List String) (path : String) : Bool :=
  patterns.any fun pat =>
    match pat.toList with
    | '*' :: suffix => suffix.isSuffixOf path.toList
    | cs => if cs.getLast? = some '*' then cs.dropLast.isPrefixOf path.toList
      else decide (cs <:+: path.toList)

/-- The loop of `reconcile_scan` over the entries of its walk. -/
def reconcileScan : List String → Agt S Unit
  | [] => return ()
  | path :: rest =>
    if matchesExclusion rt.exclusions path then reconcileScan rest
    else
      .stmt (.scanStat path rest) (fun s _ => s) fun s i =>
        match i.io, s.fs.paths path with
        | none, some obj => do
          let key := (s.fs.objs obj).key
          let changed ← Prog.exec (.scanSeen path key rest) fun s i =>
            if i.dbFails then .error "state db error"
            else
              let r := s.db.seenCheckAndUpdate path key.seenKey
              .ok (r.1, { s with db := r.2 })
          if changed then do
            dbWrite (.scanEnqueue path rest) fun s =>
              some (s.db.enqueue s.clock path 6 "reconcile_scan" rt.debounceMs).1
            reconcileScan rest
          else reconcileScan rest
        | _, _ => reconcileScan rest

/-- The event `gap_flusher` builds from a row; `none` when its time does not parse. -/
def gapEvent (g : PendingGap) : Option GapEvent :=
  (rt.parseRfc3339 g.observedAt).map fun observedAt =>
    ⟨observedAt, g.captureReason, g.terminalOutcome, g.artifactSha256, g.path, g.detailCode,
      rt.parseJson g.detail, none⟩

/-- `delete_gaps`. -/
def deleteGaps : List PendingGap → Agt S Unit
  | [] => return ()
  | g :: rest => do
    dbWrite (.flushDelete g rest) fun s => some (s.db.deleteGap g.id)
    deleteGaps rest

/-- One turn of `gap_flusher`. -/
def flushTurn : Agt S Unit := do
  let gaps ← Prog.exec .flushRead fun s i =>
    if i.dbFails then .error "state db error" else .ok (s.db.pendingGaps 100, s)
  let delivered := gaps.filter fun g => (gapEvent rt g).isSome
  if delivered.isEmpty then return ()
  else do
    let sent ← request (.flushSend delivered) fun _ =>
      rt.server.reportGaps (delivered.filterMap (gapEvent rt))
    match sent with
    | .ok _ => deleteGaps delivered
    | .error _ => return ()

/-! ### The agent and its surroundings -/

inductive Call where
  | worker (boot : Uuid)
  | renew (handle : ℕ)
  | enqueue (path : String) (priority : ℤ) (reason : String)
  | reconcile (entries : List String)
  | flush
  | put (path : String) (obj : ℕ) (file : FileObj)
  | remove (path : String)
  | tick (secs : ℤ)
  | restart

/-- What each call does. -/
def agent : Call → Agt S Unit
  | .worker boot => workerTurn rt boot
  | .renew handle => Prog.update (.renew handle) fun s i => renewed s i handle
  | .enqueue path priority reason =>
    dbWrite (.enqueue path priority reason) fun s =>
      some (s.db.enqueue s.clock path priority reason rt.debounceMs).1
  | .reconcile entries => reconcileScan rt entries
  | .flush => flushTurn rt
  | .put path obj file => Prog.update (.put path obj file) fun s _ =>
    { s with fs :=
      ⟨Function.update s.fs.paths path (some obj), Function.update s.fs.objs obj file⟩ }
  | .remove path => Prog.update (.remove path) fun s _ =>
    { s with fs := { s.fs with paths := Function.update s.fs.paths path none } }
  | .tick secs => Prog.update (.tick secs) fun s _ => { s with clock := s.clock + secs }
  | .restart => Prog.update .restart fun s _ => { s with watchdogs := .empty }

end

/-- The next `k` steps of the `n`-th call, in which nothing goes wrong. -/
def fineSteps (n k : ℕ) (uuid : Uuid) : List (Act Call Input) :=
  List.replicate k (.exec n (.fine uuid 65536 []))

/-- A step of the `n`-th call whose request does not reach the server. -/
def refusedStep (n : ℕ) : Act Call Input :=
  .exec n { Input.fine 0 65536 [] with net := .refused "connection refused" }

end Corpus.Agent
