/-
The server: its calls and the moves they make.

`serve` maps a request to its program; a `Pool` over `serve` is the running
server.  `Move` lists, for every statement of every call, what it does to the
store and where the call stands afterwards:

* `IngestMove` — announce, upload, finalize;
* `HuntMove` — publish, activation, enqueue, execute, claim, forward coverage;
* the similarity hook of `finalize`, which touches its own tables only.

Invariants of the running server are proved from these lists alone.
-/
import Corpus.Ingest
import Corpus.Pool

namespace Corpus

/-! ### Calls -/

/-- The requests, and the turns of the background worker. -/
inductive Call where
  | announce (t : Uuid) (req : AnnounceRequest)
  | stageUpload (t upload : Uuid) (bytes : Bytes)
  | finalize (t : Uuid) (req : FinalizeRequest)
  | publish (t : Uuid) (ruleIds : List Uuid) (activate : Bool)
  | createHunt (t : Uuid) (digest : String)
  | enqueueHunt (t h : Uuid)
  | runHunt (t h : Uuid)
  | worker (name : String)

inductive Reply where
  | announced (r : AnnounceResponse)
  | staged
  | finalized (r : FinalizeResponse)
  | published (bundle : Bundle) (hunt : Option Hunt)
  | created (hunt : Hunt)
  | enqueued (hunt : Hunt)
  | ran (hunt : Hunt)
  | worked (hunt : Option Hunt)

/-- The program of a call. -/
def serve (cfg : Config) : Call → Srv Reply
  | .announce t req => announce cfg t req >>= fun r => Prog.ret (.announced r)
  | .stageUpload t upload bytes => stageUpload t upload bytes >>= fun _ => Prog.ret .staged
  | .finalize t req => finalize cfg t req >>= fun r => Prog.ret (.finalized r)
  | .publish t ids activate =>
    publishHandler cfg t ids activate >>= fun r => Prog.ret (.published r.1 r.2)
  | .createHunt t digest => createHunt .api t digest >>= fun h => Prog.ret (.created h)
  | .enqueueHunt t h => enqueueHunt cfg .api t h >>= fun h => Prog.ret (.enqueued h)
  | .runHunt t h => runHunt cfg t h >>= fun h => Prog.ret (.ran h)
  | .worker name => workerTurn cfg name >>= fun h => Prog.ret (.worked h)

/-- Where a call starts; a request can be refused before any statement runs. -/
inductive Entry : Ctl Pt Reply → Prop where
  | refused : Entry .failed
  | announce (t : Uuid) (req : AnnounceRequest) (sha : Bytes) :
      Entry (.at (.ingest (.annFind t req sha)))
  | stageUpload (t upload : Uuid) (bytes : Bytes) :
      Entry (.at (.ingest (.stageState t upload bytes)))
  | finalize (t : Uuid) (req : FinalizeRequest) : Entry (.at (.ingest (.finSession t req)))
  | publish (t rule : Uuid) : Entry (.at (.hunt (.pubRule t rule)))
  | createHunt (t : Uuid) (digest : String) : Entry (.at (.hunt (.newBundle t digest .api)))
  | enqueueHunt (t h : Uuid) : Entry (.at (.hunt (.enqGet t h .api)))
  | runHunt (t h : Uuid) : Entry (.at (.hunt (.enqGet t h .sync)))
  | worker (name : String) : Entry (.at (.hunt (.claim name)))

/-- An action with the state it was taken in. -/
abbrev Event := View Pt Db Reply × Act Call Env

/-- The events of a history of the server. -/
def trace (h : Pool.Hist Call Pt Db Env Error Reply) : List Event :=
  h.map fun e => (e.1.view, e.2)

/-! ### Histories to run -/

/-- A store with one rule. -/
def Db.oneRule : Db :=
  { Db.empty with hunt := { Db.empty.hunt with
    rules := Table.empty.insertNew ⟨3, 0, "ns", "rule", "source", .validated, 0⟩ } }

/-- `k` statements of the `n`-th call, which draw the identifier `u`. -/
def steps (n k : ℕ) (u : Uuid) : List (Act Call Env) := List.replicate k (.exec n (.drawing u))

/-- The byte `b` is announced and uploaded under the id `u` by the calls `n` and
`n + 1`. -/
def uploadByte (n : ℕ) (u : Uuid) (b : UInt8) (occ : Option OccurrenceInfo) :
    List (Act Call Env) :=
  .spawn (.announce 0 ⟨hexEncode [b], 1, occ⟩) :: steps n 2 u ++
    .spawn (.stageUpload 0 u [b]) :: steps (n + 1) 2 u

/-- The call that finalizes it. -/
def finalizeByte (u : Uuid) (b : UInt8) (occ : Option OccurrenceInfo) (scope : Option String) :
    Act Call Env :=
  .spawn (.finalize 0 ⟨u, hexEncode [b], 1, occ, scope, none⟩)

/-- Upload and finalize to the end, by the calls `n` to `n + 2`; the artifact gets
the id `a`. -/
def importByte (n : ℕ) (u a : Uuid) (b : UInt8) (occ : Option OccurrenceInfo)
    (scope : Option String) : List (Act Call Env) :=
  uploadByte n u b occ ++ finalizeByte u b occ scope :: steps (n + 2) 11 a

/-- The rule is published as a bundle, and hunt `20` is created for it. -/
def draftHunt20 : List (Act Call Env) :=
  .spawn (.publish 0 [3] false) :: steps 0 3 10 ++ .spawn (.createHunt 0 "rule") :: steps 1 2 20

/-! ### Ingest -/

/-- The store with another ingest part. -/
def Db.withIngest (s : Db) (d : IngestDb) : Db := { s with ingest := d }

/-- The store with other CAS files. -/
def Db.withCas (s : Db) (c : Cas) : Db := s.withIngest { s.ingest with cas := c }

@[simp] theorem Db.withIngest_ingest (s : Db) (d : IngestDb) : (s.withIngest d).ingest = d := rfl

@[simp] theorem Db.withIngest_hunt (s : Db) (d : IngestDb) : (s.withIngest d).hunt = s.hunt := rfl

/-- What one statement of `ingest.rs` does, and where the call stands then. -/
inductive IngestMove (cfg : Config) : IngestPt → Db → Db → Ctl Pt Reply → Prop where
  | annFound {s : Db} {t : Uuid} {req : AnnounceRequest} {sha : Bytes} {a : Artifact} :
      s.ingest.artifacts.get (t, sha) = some a →
      IngestMove cfg (.annFind t req sha) s s (.at (.ingest (.annPresent t req sha a.id)))
  | annMissing {s : Db} {t : Uuid} {req : AnnounceRequest} {sha : Bytes} :
      s.ingest.artifacts.get (t, sha) = none →
      IngestMove cfg (.annFind t req sha) s s (.at (.ingest (.annOpen t req sha)))
  | annPresent {s : Db} {t : Uuid} {req : AnnounceRequest} {sha : Bytes} {a : Uuid} (now : Time)
      (r : AnnounceResponse) :
      IngestMove cfg (.annPresent t req sha a) s
        (s.withIngest (s.ingest.recordPresent t a sha req now)) (.done (.announced r))
  | annOpen {s : Db} {t : Uuid} {req : AnnounceRequest} {sha : Bytes} (u : Uuid) (now : Time)
      (r : AnnounceResponse) : s.ingest.sessions.get u = none →
      IngestMove cfg (.annOpen t req sha) s
        (s.withIngest { s.ingest with
          sessions := s.ingest.sessions.insertNew ⟨u, t, sha, req.sizeBytes, u, .open, now⟩ })
        (.done (.announced r))
  | stageState {s : Db} {t u : Uuid} {bytes : Bytes} :
      IngestMove cfg (.stageState t u bytes) s s (.at (.ingest (.stageWrite t u bytes)))
  | stageWrite {s : Db} {t u : Uuid} {bytes : Bytes} :
      IngestMove cfg (.stageWrite t u bytes) s (s.withCas (s.ingest.cas.stage u bytes))
        (.done .staged)
  | finSession {s : Db} {t : Uuid} {req : FinalizeRequest} (key : Uuid) :
      IngestMove cfg (.finSession t req) s s (.at (.ingest (.finRead t req key)))
  | finSize {s : Db} {t : Uuid} {req : FinalizeRequest} {key : Uuid} (n : ℕ) :
      IngestMove cfg (.finRead t req key) s s (.at (.ingest (.finDiscardSize t req key n)))
  | finMismatch {s : Db} {t : Uuid} {req : FinalizeRequest} {key : Uuid} (bytes : Bytes) :
      IngestMove cfg (.finRead t req key) s s (.at (.ingest (.finMismatch t req key bytes)))
  | finScope {s : Db} {t : Uuid} {req : FinalizeRequest} {key : Uuid} :
      IngestMove cfg (.finRead t req key) s s (.at (.ingest (.finDiscardScope t req key)))
  | finVerified {s : Db} {t : Uuid} {req : FinalizeRequest} {key : Uuid} {bytes : Bytes}
      {scope : Scope} :
      s.ingest.cas.staging key = some bytes → (bytes.length : ℤ) = req.sizeBytes →
      IngestMove cfg (.finRead t req key) s s
        (.at (.ingest (.finCommit t req key bytes scope)))
  | finDiscardSize {s : Db} {t : Uuid} {req : FinalizeRequest} {key : Uuid} {n : ℕ}
      (io : CasIo) :
      IngestMove cfg (.finDiscardSize t req key n) s (s.withCas (s.ingest.cas.discardStaging io key))
        (.at (.ingest (.finFailSize t req n)))
  | finFailSize {s : Db} {t : Uuid} {req : FinalizeRequest} {n : ℕ} :
      IngestMove cfg (.finFailSize t req n) s
        (s.withIngest (s.ingest.setSession req.uploadId .failed)) .failed
  | finRecordMismatch {s : Db} {t : Uuid} {req : FinalizeRequest} {key : Uuid} {bytes : Bytes}
      (a : CaptureAttempt) :
      IngestMove cfg (.finMismatch t req key bytes) s
        (s.withIngest ((s.ingest.insertCaptureAttempt a).setSession req.uploadId .failed))
        (.at (.ingest (.finDiscardMismatch t req key)))
  | finDiscardMismatch {s : Db} {t : Uuid} {req : FinalizeRequest} {key : Uuid} (io : CasIo) :
      IngestMove cfg (.finDiscardMismatch t req key) s
        (s.withCas (s.ingest.cas.discardStaging io key)) .failed
  | finDiscardScope {s : Db} {t : Uuid} {req : FinalizeRequest} {key : Uuid} (io : CasIo) :
      IngestMove cfg (.finDiscardScope t req key) s
        (s.withCas (s.ingest.cas.discardStaging io key)) .failed
  | finCommit {s : Db} {t : Uuid} {req : FinalizeRequest} {key : Uuid} {bytes : Bytes}
      {scope : Scope} {io : CasIo} {c : Cas} :
      s.ingest.cas.commit io key ⟨t, hexEncode (cfg.sha256 bytes)⟩ = (.ok (), c) →
      IngestMove cfg (.finCommit t req key bytes scope) s (s.withCas c)
        (.at (.ingest (.finNextval t req bytes scope)))
  | finCommitFailed {s : Db} {t : Uuid} {req : FinalizeRequest} {key : Uuid} {bytes : Bytes}
      {scope : Scope} {io : CasIo} {e : Error} {c : Cas} :
      s.ingest.cas.commit io key ⟨t, hexEncode (cfg.sha256 bytes)⟩ = (.error e, c) →
      IngestMove cfg (.finCommit t req key bytes scope) s (s.withCas c) .failed
  | finNextval {s : Db} {t : Uuid} {req : FinalizeRequest} {bytes : Bytes} {scope : Scope} :
      IngestMove cfg (.finNextval t req bytes scope) s
        (s.withIngest { s.ingest with nextSeq := s.ingest.nextSeq + 1 })
        (.at (.ingest (.finInsert t req bytes scope s.ingest.nextSeq)))
  | finAdopt {s : Db} {t : Uuid} {req : FinalizeRequest} {bytes : Bytes} {scope : Scope} {seq : ℕ}
      {a : Artifact} (now : Time) :
      s.ingest.artifacts.get (t, cfg.sha256 bytes) = some a →
      IngestMove cfg (.finInsert t req bytes scope seq) s
        (s.withIngest (s.ingest.recordCapture cfg t req bytes a.id now))
        (.at (.hunt (.forward t a.id none)))
  | finNew {s : Db} {t : Uuid} {req : FinalizeRequest} {bytes : Bytes} {scope : Scope} {seq : ℕ}
      (id : Uuid) (now : Time) :
      s.ingest.artifacts.get (t, cfg.sha256 bytes) = none →
      (∀ a ∈ s.ingest.artifacts.rows, a.id ≠ id) →
      IngestMove cfg (.finInsert t req bytes scope seq) s
        (s.withIngest ((s.ingest.addArtifact
          (newArtifact cfg t req bytes scope seq id now)).recordCapture cfg t req bytes id now))
        (.at (.hunt (.forward t id none)))
  /-- the statement was refused, or its answer ends the call with an error -/
  | refused {p : IngestPt} {s : Db} : IngestMove cfg p s s .failed

/-! ### Hunts -/

/-- What the scan of one artifact may do: matches, cache rows, detections and
events appear, nothing else changes. -/
structure ScanFrame (s s' : Db) : Prop where
  rest : ∃ M C D o, s' = { s with
    hunt := { s.hunt with huntMatches := M, scanCache := C, detections := D }, outbox := o }
  cache : ∀ {k row}, s.hunt.scanCache.get k = some row → s'.hunt.scanCache.get k = some row

/-- What a statement of `forward_scan` may do: as a scan, and the counters of the
forward hunt it writes to. -/
structure ForwardFrame (hunt : Option Uuid) (s s' : Db) : Prop where
  rest : ∃ H M C D o, s' = { s with
    hunt := { s.hunt with hunts := H, huntMatches := M, scanCache := C, detections := D }
    outbox := o }
  cache : ∀ {k row}, s.hunt.scanCache.get k = some row → s'.hunt.scanCache.get k = some row
  hunts : ∃ f : Hunt → Counters, ∀ h, s'.hunt.hunts.get h = (s.hunt.hunts.get h).map fun r =>
    if hunt = some r.id then { r with counters := f r } else r

/-- Where a call that has left `forward_scan` stands. -/
def afterForward : Ctl Pt Reply → Prop
  | .failed => True
  | .at (.sim _) => True
  | .done (.finalized _) => True
  | _ => False

/-- What one statement of `registry.rs`, `hunts.rs` or `continuous.rs` does, and
where the call stands then. -/
inductive HuntMove (cfg : Config) : HuntPt → Db → Db → Ctl Pt Reply → Prop where
  | pubRule {s : Db} {t r r' : Uuid} :
      HuntMove cfg (.pubRule t r) s s (.at (.hunt (.pubRule t r')))
  | pubRules {s : Db} {t r : Uuid} {digest : String} {activate : Bool} :
      HuntMove cfg (.pubRule t r) s s (.at (.hunt (.pubTx t digest activate)))
  | pubRefused {s : Db} {t r : Uuid} : HuntMove cfg (.pubRule t r) s s .failed
  | pubTx {s s' : Db} {t : Uuid} {members : List Rule} {digest : String} {activate : Bool}
      {env : Env} : s.publish cfg t members digest activate env = .ok ((), s') →
      HuntMove cfg (.pubTx t digest activate) s s' (.at (.hunt (.pubGet t digest)))
  | pubTxRefused {s : Db} {t : Uuid} {digest : String} {activate : Bool} :
      HuntMove cfg (.pubTx t digest activate) s s .failed
  | pubDone {s : Db} {t : Uuid} {digest : String} (b : Bundle) :
      HuntMove cfg (.pubGet t digest) s s (.done (.published b none))
  | pubActivate {s : Db} {t : Uuid} {digest : String} :
      HuntMove cfg (.pubGet t digest) s s (.at (.hunt (.actFind t digest)))
  | pubLost {s : Db} {t : Uuid} {digest : String} : HuntMove cfg (.pubGet t digest) s s .failed
  | actFound {s : Db} {t : Uuid} {digest : String} {e : Hunt} : s.openRetro t digest = some e →
      HuntMove cfg (.actFind t digest) s s (.at (.hunt (.actGet t digest e.id)))
  | actNew {s : Db} {t : Uuid} {digest : String} : s.openRetro t digest = none →
      HuntMove cfg (.actFind t digest) s s (.at (.hunt (.newBundle t digest .activation)))
  | actDraft {s : Db} {t h : Uuid} {digest : String} {r : Hunt} : s.huntOf t h = some r →
      r.state = .draft →
      HuntMove cfg (.actGet t digest h) s s (.at (.hunt (.enqGet t h .activation)))
  | actReuse {s : Db} {t h : Uuid} {digest : String} {r : Hunt} : s.huntOf t h = some r →
      r.state ≠ .draft →
      HuntMove cfg (.actGet t digest h) s s (.at (.hunt (.actReused t digest h)))
  | actLost {s : Db} {t h : Uuid} {digest : String} : HuntMove cfg (.actGet t digest h) s s .failed
  | actReused {s : Db} {t h : Uuid} {digest : String} (rs : List Reanalysis) :
      HuntMove cfg (.actReused t digest h) s
        { s with hunt := { s.hunt with reanalyses := rs } } (.at (.hunt (.actReturn t h)))
  | actReturn {s : Db} {t h : Uuid} {r : Hunt} (b : Bundle) : s.huntOf t h = some r →
      HuntMove cfg (.actReturn t h) s s (.done (.published b (some r)))
  | actReturnLost {s : Db} {t h : Uuid} : HuntMove cfg (.actReturn t h) s s .failed
  | actEnqueued {s : Db} {t : Uuid} {digest : String} {r : Hunt} (b : Bundle)
      (rs : List Reanalysis) :
      HuntMove cfg (.actEnqueued t digest r) s
        { s with hunt := { s.hunt with reanalyses := rs } } (.done (.published b (some r)))
  | newBundle {s : Db} {t : Uuid} {digest : String} {who : Who} {b : Bundle} :
      s.hunt.bundles.get (t, digest) = some b →
      HuntMove cfg (.newBundle t digest who) s s (.at (.hunt (.newInsert t digest b.id who)))
  | newNone {s : Db} {t : Uuid} {digest : String} {who : Who} :
      HuntMove cfg (.newBundle t digest who) s s .failed
  | newInsert {s : Db} {t : Uuid} {digest : String} {bundle : Uuid} {who : Who} (id : Uuid)
      (now : Time) {c : Ctl Pt Reply} : s.hunt.hunts.get id = none →
      (c = .done (.created (draftHunt id t bundle digest now)) ∨
        (who = .activation ∧ c = .at (.hunt (.enqGet t id .activation)))) →
      HuntMove cfg (.newInsert t digest bundle who) s
        { s with hunt := { s.hunt with
          hunts := s.hunt.hunts.insertNew (draftHunt id t bundle digest now) } } c
  | newRefused {s : Db} {t : Uuid} {digest : String} {bundle : Uuid} {who : Who} :
      HuntMove cfg (.newInsert t digest bundle who) s s .failed
  | enqGet {s : Db} {t h : Uuid} {who : Who} {r : Hunt} : s.huntOf t h = some r →
      r.kind = .retro → r.state ≠ .running → r.state ≠ .queued → cfg.minTier = none →
      HuntMove cfg (.enqGet t h who) s s (.at (.hunt (.enqValidate t h who r.corpusWatermark)))
  | enqRefused {s : Db} {t h : Uuid} {who : Who} : HuntMove cfg (.enqGet t h who) s s .failed
  | enqValidate {s : Db} {t h : Uuid} {who : Who} {pinned : Option ℕ} :
      HuntMove cfg (.enqValidate t h who pinned) s
        (s.updHunt t h fun r => { r with state := .validating })
        (.at (.hunt (.enqBundle t h who pinned)))
  | enqBundle {s : Db} {t h : Uuid} {who : Who} {pinned : Option ℕ} {r : Hunt} :
      s.huntOf t h = some r →
      HuntMove cfg (.enqBundle t h who pinned) s s
        (.at (.hunt (.enqSources t h who pinned r.bundleId)))
  | enqBundleLost {s : Db} {t h : Uuid} {who : Who} {pinned : Option ℕ} : s.huntOf t h = none →
      HuntMove cfg (.enqBundle t h who pinned) s s .failed
  | enqInvalid {s : Db} {t h b : Uuid} {who : Who} {pinned : Option ℕ} :
      HuntMove cfg (.enqSources t h who pinned b) s s (.at (.hunt (.enqFail t h who)))
  | enqFirst {s : Db} {t h b : Uuid} {who : Who} :
      cfg.compileBundle (s.bundleSources t b) = .ok () →
      HuntMove cfg (.enqSources t h who none b) s s (.at (.hunt (.enqMax t h who)))
  | enqAgain {s : Db} {t h b : Uuid} {who : Who} {w : ℕ} :
      cfg.compileBundle (s.bundleSources t b) = .ok () →
      HuntMove cfg (.enqSources t h who (some w) b) s s
        (.at (.hunt (.enqCount t h who (some w) w)))
  | enqFail {s : Db} {t h : Uuid} {who : Who} (msg : String) (now : Time) :
      HuntMove cfg (.enqFail t h who) s
        (s.updHunt t h fun r =>
          { r with state := .failed, error := some msg, completedAt := some now }) .failed
  | enqMax {s : Db} {t h : Uuid} {who : Who} :
      HuntMove cfg (.enqMax t h who) s s (.at (.hunt (.enqCount t h who none (s.maxSeq t))))
  | enqCount {s : Db} {t h : Uuid} {who : Who} {pinned : Option ℕ} {w : ℕ} :
      HuntMove cfg (.enqCount t h who pinned w) s s
        (.at (.hunt (.enqPlan t h who pinned w (s.plannedArtifacts t w).length)))
  | enqPlan {s : Db} {t h : Uuid} {who : Who} {pinned : Option ℕ} {w planned : ℕ} :
      HuntMove cfg (.enqPlan t h who pinned w planned) s
        (s.updHunt t h fun r => { r with
          state := .planned, corpusWatermark := some w, plannedArtifacts := planned, counters := {},
          error := none, completedAt := none })
        (.at (.hunt (.enqQueue t h who)))
  | enqQueue {s : Db} {t h : Uuid} {who : Who} :
      HuntMove cfg (.enqQueue t h who) s (s.updHunt t h fun r => { r with state := .queued })
        (.at (.hunt (.enqJob t h who)))
  | enqJob {s : Db} {t h : Uuid} {who : Who} (now : Time) :
      HuntMove cfg (.enqJob t h who) s (s.upsertJob t h now) (.at (.hunt (.enqReturn t h who)))
  | enqReturn {s : Db} {t h : Uuid} {who : Who} {r : Hunt} {c : Ctl Pt Reply} :
      s.huntOf t h = some r →
      ((who = .api ∧ c = .done (.enqueued r)) ∨ (who = .sync ∧ c = .at (.hunt (.exeGet t h .sync))) ∨
        (who = .activation ∧ ∃ digest, c = .at (.hunt (.actReused t digest h))) ∨
        (who = .activation ∧ ∃ digest, c = .at (.hunt (.actEnqueued t digest r)))) →
      HuntMove cfg (.enqReturn t h who) s s c
  | enqReturnLost {s : Db} {t h : Uuid} {who : Who} : s.huntOf t h = none →
      HuntMove cfg (.enqReturn t h who) s s .failed
  | claimNone {s : Db} {worker : String} : s.nextJob = none →
      HuntMove cfg (.claim worker) s s (.done (.worked none))
  | claim {s : Db} {worker : String} {j : HuntJob} (now : Time) : s.nextJob = some j →
      HuntMove cfg (.claim worker) s
        ((s.updJob j.huntId fun r =>
          { r with claimedAt := some now, claimedBy := some worker }).updHunt j.tenant j.huntId
            fun r => if r.state = .queued then
              { r with state := .running, startedAt := r.startedAt.or (some now) } else r)
        (.at (.hunt (.exeGet j.tenant j.huntId .worker)))
  | exeGet {s : Db} {t h : Uuid} {who : Who} {r : Hunt} : s.huntOf t h = some r →
      r.kind = .retro →
      HuntMove cfg (.exeGet t h who) s s (.at (.hunt (.exeBundle t h who r.corpusWatermark)))
  | exeRefused {s : Db} {t h : Uuid} {who : Who} :
      (∀ r, s.huntOf t h = some r → r.kind ≠ .retro) → HuntMove cfg (.exeGet t h who) s s .failed
  | exeBundle {s : Db} {t h : Uuid} {who : Who} {pinned : Option ℕ} {r : Hunt} :
      s.huntOf t h = some r →
      HuntMove cfg (.exeBundle t h who pinned) s s
        (.at (.hunt (.exeSources t h who pinned r.bundleId)))
  | exeBundleLost {s : Db} {t h : Uuid} {who : Who} {pinned : Option ℕ} : s.huntOf t h = none →
      HuntMove cfg (.exeBundle t h who pinned) s s .failed
  | exeInvalid {s : Db} {t h b : Uuid} {who : Who} {pinned : Option ℕ} :
      cfg.compileBundle (s.bundleSources t b) ≠ .ok () ∨ cfg.minTier ≠ none →
      HuntMove cfg (.exeSources t h who pinned b) s s (.at (.hunt (.exeFail t h who)))
  | exeUnpinned {s : Db} {t h b : Uuid} {who : Who} :
      HuntMove cfg (.exeSources t h who none b) s s .failed
  | exeSources {s : Db} {t h b : Uuid} {who : Who} {w : ℕ} :
      HuntMove cfg (.exeSources t h who (some w) b) s s (.at (.hunt (.exeRunning t h who w)))
  | exeFail {s : Db} {t h : Uuid} {who : Who} (msg : String) (now : Time) :
      HuntMove cfg (.exeFail t h who) s
        (s.updHunt t h fun r =>
          { r with state := .failed, error := some msg, completedAt := some now }) .failed
  | exeRunning {s : Db} {t h : Uuid} {who : Who} {w : ℕ} (now : Time) :
      HuntMove cfg (.exeRunning t h who w) s
        (s.updHunt t h fun r =>
          { r with state := .running, startedAt := r.startedAt.or (some now) })
        (.at (.hunt (.exeClaim t h who w)))
  | exeClaim {s : Db} {t h : Uuid} {who : Who} {w : ℕ} (now : Time) :
      HuntMove cfg (.exeClaim t h who w) s
        (s.updJob h fun r => { r with claimedAt := some now, claimedBy := some "local-worker" })
        (.at (.hunt (.exeSelect t h who w)))
  | exeSelect {s : Db} {t h : Uuid} {who : Who} {w : ℕ} :
      HuntMove cfg (.exeSelect t h who w) s s (.at (.hunt (.exeItem t h who {} .lookup)))
  | exeSelectNone {s : Db} {t h : Uuid} {who : Who} {w : ℕ} :
      HuntMove cfg (.exeSelect t h who w) s s (.at (.hunt (.exeFinal t h who {})))
  | exeItem {s s' : Db} {t h : Uuid} {who : Who} {c : Counters} {step step' : ItemStep} :
      ScanFrame s s' →
      HuntMove cfg (.exeItem t h who c step) s s' (.at (.hunt (.exeItem t h who c step')))
  | exeItemDone {s s' : Db} {t h : Uuid} {who : Who} {c c' : Counters} {step : ItemStep} :
      ScanFrame s s' →
      HuntMove cfg (.exeItem t h who c step) s s' (.at (.hunt (.exeProgress t h who c')))
  | exeProgress {s : Db} {t h : Uuid} {who : Who} {c : Counters} :
      HuntMove cfg (.exeProgress t h who c) s (s.updHunt t h fun r => { r with counters := c })
        (.at (.hunt (.exeItem t h who c .lookup)))
  | exeLast {s : Db} {t h : Uuid} {who : Who} {c : Counters} :
      HuntMove cfg (.exeProgress t h who c) s (s.updHunt t h fun r => { r with counters := c })
        (.at (.hunt (.exeFinal t h who c)))
  | exeFinal {s : Db} {t h : Uuid} {who : Who} {c : Counters} (now : Time) :
      HuntMove cfg (.exeFinal t h who c) s
        (s.updHunt t h fun r => { r with state := finalState c, completedAt := some now })
        (.at (.hunt (.exeJobDone t h who)))
  | exeJobDone {s : Db} {t h : Uuid} {who : Who} (now : Time) :
      HuntMove cfg (.exeJobDone t h who) s (s.updJob h fun r => { r with finishedAt := some now })
        (.at (.hunt (.exeReturn t h who)))
  | exeReturn {s : Db} {t h : Uuid} {who : Who} {c : Ctl Pt Reply} :
      (c = .failed ∨ ∃ r, c = .done (.ran r) ∨ c = .done (.worked (some r))) →
      HuntMove cfg (.exeReturn t h who) s s c
  | forward {s s' : Db} {t a : Uuid} {hunt hunt' : Option Uuid} : ForwardFrame hunt s s' →
      (hunt' = none ∨ hunt' = hunt ∨ ∃ f, s.hunt.hunts.get f.id = some f ∧ f.kind = .forward ∧
        hunt' = some f.id) →
      HuntMove cfg (.forward t a hunt) s s' (.at (.hunt (.forward t a hunt')))
  | forwardDone {s s' : Db} {t a : Uuid} {hunt : Option Uuid} {c : Ctl Pt Reply} :
      ForwardFrame hunt s s' → afterForward c → HuntMove cfg (.forward t a hunt) s s' c

/-! ### All moves -/

/-- What a statement of the similarity analysis may do to the store. -/
def SimFrame (s s' : Db) : Prop := ∃ d o, s' = { s with sim := d, outbox := o }

/-- The moves of the server. -/
inductive Move (cfg : Config) : Pt → Db → Db → Ctl Pt Reply → Prop where
  | ingest {p : IngestPt} {s s' : Db} {c : Ctl Pt Reply} :
      IngestMove cfg p s s' c → Move cfg (.ingest p) s s' c
  | hunt {p : HuntPt} {s s' : Db} {c : Ctl Pt Reply} :
      HuntMove cfg p s s' c → Move cfg (.hunt p) s s' c
  | sim {p : SimPt} {s s' : Db} {c : Ctl Pt Reply} :
      SimFrame s s' → ((∃ p', c = .at (.sim p')) ∨ ∃ r, c = .done (.finalized r)) →
      Move cfg (.sim p) s s' c

end Corpus
