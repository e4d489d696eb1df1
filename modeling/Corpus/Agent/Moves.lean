/-
What one step of the agent can do.

`Move rt l i s s' c` lists every effect a step `l` with the input `i` can have on
the world and where its call then stands; `agent_takes` proves that the programs
of `Capture.lean` make no other moves.  Statements about the running agent are
proved by cases on `Move`.

A step of `process_candidate` that updates the candidate row is `ProcMove.row` or
`ProcMove.rowErr`, whatever the update; `ProcPt.rowWrite` says which one it is and
`RowNext` where the task goes from there.
-/
import Corpus.Agent.Capture

namespace Corpus.Agent

variable {S : Type}

/-! ### Stable reads -/

/-- The moves of a stable read of `path`. -/
inductive ReadMove (rt : Runtime S) (path : String) : ReadPt → Input → World S → World S →
    Ctl ReadPt (Except StableReadError StableReadResult) → Prop where
  | openErr {i s e} : i.io = some e → ReadMove rt path .openFile i s s (.done (.error (mapOpenErr e)))
  | openGone {i s} : i.io = none → s.fs.paths path = none →
      ReadMove rt path .openFile i s s (.done (.error .deletedBeforeRead))
  | openFile {i s obj} : i.io = none → s.fs.paths path = some obj →
      ReadMove rt path .openFile i s s (.at (.stat obj))
  | statErr {i s obj e} : i.io = some e →
      ReadMove rt path (.stat obj) i s s (.done (.error (mapOpenErr e)))
  | statLarge {i s obj n} : ReadMove rt path (.stat obj) i s s (.done (.error (.tooLarge n)))
  | statFull {i s obj} : ReadMove rt path (.stat obj) i s s (.done (.error .spoolFull))
  | stat {i s obj} : i.io = none →
      ReadMove rt path (.stat obj) i s s (.at (.create obj (s.fs.objs obj).key))
  | createErr {i s obj before msg} :
      ReadMove rt path (.create obj before) i s s (.done (.error (.io msg)))
  | create {i s obj before} : i.io = none → s.spool.get i.uuid = none → rt.cipher = none →
      ReadMove rt path (.create obj before) i s { s with spool := s.spool.insertNew ⟨i.uuid, []⟩ }
        (.at (.read ⟨obj, before, i.uuid, none, 0, []⟩))
  | createHeader {i s obj before c} : i.io = none → s.spool.get i.uuid = none → rt.cipher = some c →
      ReadMove rt path (.create obj before) i s { s with spool := s.spool.insertNew ⟨i.uuid, []⟩ }
        (.at (.header ⟨obj, before, i.uuid, some i.noncePrefix, 0, []⟩))
  | headerErr {i s r p e} : r.noncePrefix = some p → i.io = some e →
      ReadMove rt path (.header r) i s
        { s with spool := s.spool.append r.name ((spoolHeader p).take i.take) }
        (.at (.discard r.name (.io e.text)))
  | header {i s r p} : r.noncePrefix = some p → i.io = none →
      ReadMove rt path (.header r) i s { s with spool := s.spool.append r.name (spoolHeader p) }
        (.at (.read r))
  | readErr {i s r e} : i.io = some e →
      ReadMove rt path (.read r) i s s (.at (.discard r.name (mapOpenErr e)))
  | readLarge {i s r n} : ReadMove rt path (.read r) i s s (.at (.discard r.name (.tooLarge n)))
  | readShort {i s r} : i.io = none → r.data.length ≠ r.before.size →
      ReadMove rt path (.read r) i s s (.at (.discard r.name .changedDuringRead))
  | readEnd {i s r} : i.io = none → r.data.length = r.before.size →
      readChunk (s.fs.objs r.obj).content r.data.length i.take = [] →
      ReadMove rt path (.read r) i s s (.at (.restat r))
  | read {i s r chunk} : i.io = none →
      readChunk (s.fs.objs r.obj).content r.data.length i.take = chunk → chunk ≠ [] →
      ReadMove rt path (.read r) i s s (.at (.write { r with data := r.data ++ chunk } chunk))
  | writeErr {i s r chunk e} : i.io = some e →
      ReadMove rt path (.write r chunk) i s
        { s with
          spool := s.spool.append r.name
            ((spoolChunk rt.cipher r.noncePrefix r.chunkIndex chunk).take i.take) }
        (.at (.discard r.name (.io e.text)))
  | write {i s r chunk} : i.io = none →
      ReadMove rt path (.write r chunk) i s
        { s with
          spool := s.spool.append r.name
            (spoolChunk rt.cipher r.noncePrefix r.chunkIndex chunk) }
        (.at (.read { r with chunkIndex := r.chunkIndex + 1 }))
  | discard {i s s' name e} :
      s' = s ∧ i.io ≠ none ∨ s' = { s with spool := s.spool.remove name } →
      ReadMove rt path (.discard name e) i s s' (.done (.error e))
  | again {i s s' name} :
      s' = s ∧ i.io ≠ none ∨ s' = { s with spool := s.spool.remove name } →
      ReadMove rt path (.discard name .changedDuringRead) i s s' (.at .openFile)
  | restatErr {i s r e} : i.io = some e →
      ReadMove rt path (.restat r) i s s (.done (.error (mapOpenErr e)))
  | restatChanged {i s r} : i.io = none → (s.fs.objs r.obj).key ≠ r.before →
      ReadMove rt path (.restat r) i s s (.at (.discard r.name .changedDuringRead))
  | restat {i s r} : i.io = none → (s.fs.objs r.obj).key = r.before →
      ReadMove rt path (.restat r) i s s
        (.done (.ok ⟨hexEncode (rt.sha256 r.data), r.data.length, r.name⟩))

/-! ### Steps of `process_candidate` -/

/-- The update of the candidate row that a step makes. -/
def ProcPt.rowWrite (t : Task) (now : Time) : ProcPt → Option RowWrite
  | toOpening => some (.transition .opening)
  | toCopying => some (.transition .copyingAndHashing)
  | setHashed r => some (.hashed r.sha256 r.size r.spoolPath)
  | deferFull => some (.defer (now + 30))
  | ioRetry | failRetry => some (.retry (now + backoffSecs t.cand.attempts))
  | finishGap g => some (.gap g.outcome)
  | resumeComplete | dedupComplete | finComplete => some (.transition .complete)
  | toAnnounced _ => some (.transition .announced)
  | toDedupHit => some (.transition .dedupHit)
  | dedupQueued | finQueued => some (.transition .occurrenceQueued)
  | toUploadRequired _ => some (.transition .uploadRequired)
  | toUploading _ => some (.transition .uploading)
  | toFinalizing _ => some (.transition .finalizing)
  | _ => none

/-- Where `retry_or_fail` starts. -/
inductive FailNext (rt : Runtime S) (t : Task) : Ctl Pt Unit → Prop where
  | gap {g} : rt.maxAttempts ≤ t.cand.attempts → FailNext rt t (.at (.proc t (.gapRow g)))
  | retry : t.cand.attempts < rt.maxAttempts → FailNext rt t (.at (.proc t .failRetry))

/-- Where a finished candidate goes to remove its spool file. -/
inductive RemoveNext (t : Task) : Ctl Pt Unit → Prop where
  | nothing : t.cand.spoolPath = none → RemoveNext t (.done ())
  | file {name} : t.cand.spoolPath = some name →
      RemoveNext t (.at (.proc t (.removeSpool name)))

/-- Where the task goes after an update of its row. -/
inductive RowNext (rt : Runtime S) (t : Task) : ProcPt → Ctl Pt Unit → Prop where
  | toOpening : RowNext rt t .toOpening (.at (.proc t .spoolUsed))
  | toCopying : RowNext rt t .toCopying (.at (.proc t (.stable .openFile)))
  | setHashed {r} : RowNext rt t (.setHashed r) (.at (.proc t .reload))
  | deferFull : RowNext rt t .deferFull (.done ())
  | ioRetry : RowNext rt t .ioRetry (.done ())
  | failRetry : RowNext rt t .failRetry (.done ())
  | finishGap {g} : RowNext rt t (.finishGap g) (.done ())
  | resumeComplete {c} : RemoveNext t c → RowNext rt t .resumeComplete c
  | present {ann} : ann.disposition = .alreadyPresent →
      RowNext rt t (.toAnnounced ann) (.at (.proc t .toDedupHit))
  | required {ann} : ann.disposition = .uploadRequired →
      RowNext rt t (.toAnnounced ann) (.at (.proc t (.toUploadRequired ann)))
  | otherDisposition {ann g} : ann.disposition ≠ .alreadyPresent →
      ann.disposition ≠ .uploadRequired →
      RowNext rt t (.toAnnounced ann) (.at (.proc t (.gapRow g)))
  | toDedupHit : RowNext rt t .toDedupHit (.at (.proc t .dedupQueued))
  | dedupQueued : RowNext rt t .dedupQueued (.at (.proc t .dedupComplete))
  | dedupComplete : RowNext rt t .dedupComplete (.at (.proc t .countPresent))
  | noUploadId {ann c} : FailNext rt t c → RowNext rt t (.toUploadRequired ann) c
  | uploadId {ann upload} : RowNext rt t (.toUploadRequired ann) (.at (.proc t (.setUploadId upload)))
  | noSpool {upload c} : t.cand.spoolPath = none → FailNext rt t c →
      RowNext rt t (.toUploading upload) c
  | spool {upload name} : t.cand.spoolPath = some name →
      RowNext rt t (.toUploading upload) (.at (.proc t (.readSpool upload name)))
  | toFinalizing {upload} : RowNext rt t (.toFinalizing upload) (.at (.proc t (.finalizeSeq upload)))
  | finQueued : RowNext rt t .finQueued (.at (.proc t .finComplete))
  | finComplete : RowNext rt t .finComplete (.at (.proc t .countCaptured))

/-- Where the task goes after its stable read. -/
inductive AfterRead (rt : Runtime S) (t : Task) :
    Except StableReadError StableReadResult → Ctl Pt Unit → Prop where
  | ok {r} : AfterRead rt t (.ok r) (.at (.proc t (.setHashed r)))
  | full : AfterRead rt t (.error .spoolFull) (.at (.proc t .deferFull))
  | ioGap {msg g} : rt.maxAttempts ≤ t.cand.attempts →
      AfterRead rt t (.error (.io msg)) (.at (.proc t (.gapRow g)))
  | ioRetry {msg} : t.cand.attempts < rt.maxAttempts →
      AfterRead rt t (.error (.io msg)) (.at (.proc t .ioRetry))
  | gap {e g} : e ≠ .spoolFull → (∀ msg, e ≠ .io msg) →
      AfterRead rt t (.error e) (.at (.proc t (.gapRow g)))

/-- The answer of a request that reached the server and came back. -/
def Input.answer {α : Type} (i : Input) (r : Except String α) : Except String α :=
  match i.net with
  | .refused msg | .lost msg => .error msg
  | .answered => r

/-- The server after a request. -/
def Input.reached (i : Input) (before after : S) : S :=
  match i.net with
  | .refused _ => before
  | _ => after

/-- The announce request of a task. -/
def announceRequest (rt : Runtime S) (t : Task) (sha : String) (seq : ℕ) (s : World S) :
    AnnounceRequest :=
  ⟨sha, t.cand.sizeBytes.getD 0, some (occurrence rt t seq s)⟩

/-- The finalize request of a task. -/
def finalizeRequest (rt : Runtime S) (t : Task) (sha : String) (upload : Uuid) (seq : ℕ)
    (s : World S) : FinalizeRequest :=
  ⟨upload, sha, t.cand.sizeBytes.getD 0, some (occurrence rt t seq s), none,
    rt.adsProvenance t.cand.path⟩

/-- The moves of `process_candidate`; `done` and `failed` are its `Ok` and `Err`. -/
inductive ProcMove (rt : Runtime S) : Task → ProcPt → Input → World S → World S → Ctl Pt Unit →
    Prop where
  | row {t p i s w d c} : p.rowWrite t s.clock = some w → i.dbFails = false →
      s.db.write t.cand.id w = some d → RowNext rt t p c →
      ProcMove rt t p i s { s with db := d } c
  | rowErr {t p i s w} : p.rowWrite t s.clock = some w →
      i.dbFails = true ∨ s.db.write t.cand.id w = none → ProcMove rt t p i s s .failed
  | spoolUsed {t i s} : ProcMove rt t .spoolUsed i s s (.at (.proc t .toCopying))
  | stableAt {t p q i s s'} : ReadMove rt t.cand.path p i s s' (.at q) →
      ProcMove rt t (.stable p) i s s' (.at (.proc t (.stable q)))
  | stableDone {t p r i s s' c} : ReadMove rt t.cand.path p i s s' (.done r) → AfterRead rt t r c →
      ProcMove rt t (.stable p) i s s' c
  | gapRow {t g i s} : i.dbFails = false →
      ProcMove rt t (.gapRow g) i s { s with db := s.db.insertGap (gapRow rt t g s) }
        (.at (.proc t (.gapCount g)))
  | gapRowErr {t g i s} : i.dbFails = true →
      ProcMove rt t (.gapRow g) i s s (.at (.proc t (.finishGap g)))
  | gapCount {t g i s s'} : s' = s ∨ s' = { s with db := s.db.incrementCounter g.outcome } →
      ProcMove rt t (.gapCount g) i s s' (.at (.proc t (.finishGap g)))
  | reloadErr {t i s} : i.dbFails = true → ProcMove rt t .reload i s s .failed
  | reloadGone {t i s} : s.db.get t.cand.id = none → ProcMove rt t .reload i s s (.done ())
  | reloadQueued {t i s r} : s.db.get t.cand.id = some r →
      r.state = .dedupHit ∨ r.state = .occurrenceQueued →
      ProcMove rt t .reload i s s (.at (.proc { t with cand := r } .resumeComplete))
  | reloadNoSha {t i s r} : s.db.get t.cand.id = some r → r.sha256 = none →
      ¬(r.state = .dedupHit ∨ r.state = .occurrenceQueued) → ProcMove rt t .reload i s s .failed
  | reloadAnnounce {t i s r sha} : s.db.get t.cand.id = some r → r.sha256 = some sha →
      r.state.announces = true →
      ProcMove rt t .reload i s s (.at (.proc { t with cand := r } .announceSeq))
  | reloadEnd {t i s r sha} : s.db.get t.cand.id = some r → r.sha256 = some sha →
      ¬(r.state = .dedupHit ∨ r.state = .occurrenceQueued) → r.state.announces = false →
      ProcMove rt t .reload i s s (.done ())
  | removeSpool {t name i s s'} :
      s' = s ∧ i.io ≠ none ∨ s' = { s with spool := s.spool.remove name } →
      ProcMove rt t (.removeSpool name) i s s' (.done ())
  | announceSeqErr {t i s s'} : i.dbFails = true →
      s' = s ∨ s' = { s with db := s.db.nextSequence.2 } →
      ProcMove rt t .announceSeq i s s' .failed
  | announceSeq {t i s} : i.dbFails = false →
      ProcMove rt t .announceSeq i s { s with db := s.db.nextSequence.2 }
        (.at (.proc t (.announce s.db.nextSequence.1)))
  | announceErr {t seq i s sha msg c} : t.cand.sha256 = some sha →
      i.answer (rt.server.announce (announceRequest rt t sha seq s) i.envs s.server).1 =
        .error msg → FailNext rt t c →
      ProcMove rt t (.announce seq) i s
        { s with
          server := i.reached s.server
            (rt.server.announce (announceRequest rt t sha seq s) i.envs s.server).2 } c
  | announce {t seq i s sha ann} : t.cand.sha256 = some sha →
      i.answer (rt.server.announce (announceRequest rt t sha seq s) i.envs s.server).1 =
        .ok ann →
      ProcMove rt t (.announce seq) i s
        { s with
          server := i.reached s.server
            (rt.server.announce (announceRequest rt t sha seq s) i.envs s.server).2 }
        (.at (.proc t (.toAnnounced ann)))
  | countPresentErr {t i s} : i.dbFails = true → ProcMove rt t .countPresent i s s .failed
  | countPresent {t i s c} : i.dbFails = false → RemoveNext t c →
      ProcMove rt t .countPresent i s { s with db := s.db.incrementCounter "ALREADY_PRESENT" } c
  | setUploadIdErr {t upload i s} : i.dbFails = true →
      ProcMove rt t (.setUploadId upload) i s s .failed
  | setUploadId {t upload i s} : i.dbFails = false →
      ProcMove rt t (.setUploadId upload) i s
        { s with db := s.db.setUploadId t.cand.id upload } (.at (.proc t (.toUploading upload)))
  | readSpoolErr {t upload name i s} :
      i.io ≠ none ∨ s.spool.get name = none ∨ (∃ f c e, s.spool.get name = some f ∧
        rt.cipher = some c ∧ decryptFile c f.bytes = .error e) →
      ProcMove rt t (.readSpool upload name) i s s .failed
  | readSpool {t upload name i s bytes} :
      ProcMove rt t (.readSpool upload name) i s s (.at (.proc t (.upload upload bytes)))
  | uploadErr {t upload bytes i s s' msg c} :
      i.answer (rt.server.upload upload bytes i.envs s.server).1 = .error msg →
      s' = { s with
        server := i.reached s.server
          (rt.server.upload upload bytes i.envs s.server).2 } → FailNext rt t c →
      ProcMove rt t (.upload upload bytes) i s s' c
  | upload {t upload bytes i s s'} :
      i.answer (rt.server.upload upload bytes i.envs s.server).1 = .ok () →
      s' = { s with
        server := i.reached s.server
          (rt.server.upload upload bytes i.envs s.server).2 } →
      ProcMove rt t (.upload upload bytes) i s s' (.at (.proc t (.toFinalizing upload)))
  | finalizeSeqErr {t upload i s s'} : i.dbFails = true →
      s' = s ∨ s' = { s with db := s.db.nextSequence.2 } →
      ProcMove rt t (.finalizeSeq upload) i s s' .failed
  | finalizeSeq {t upload i s} : i.dbFails = false →
      ProcMove rt t (.finalizeSeq upload) i s { s with db := s.db.nextSequence.2 }
        (.at (.proc t (.finalize upload s.db.nextSequence.1)))
  | finalizeErr {t upload seq i s sha msg c} : t.cand.sha256 = some sha →
      i.answer (rt.server.finalize (finalizeRequest rt t sha upload seq s) i.envs s.server).1 =
        .error msg → FailNext rt t c →
      ProcMove rt t (.finalize upload seq) i s
        { s with
          server := i.reached s.server
            (rt.server.finalize (finalizeRequest rt t sha upload seq s) i.envs s.server).2 } c
  | finalize {t upload seq i s sha} : t.cand.sha256 = some sha →
      i.answer (rt.server.finalize (finalizeRequest rt t sha upload seq s) i.envs s.server).1 =
        .ok () →
      ProcMove rt t (.finalize upload seq) i s
        { s with
          server := i.reached s.server
            (rt.server.finalize (finalizeRequest rt t sha upload seq s) i.envs s.server).2 }
        (.at (.proc t .finQueued))
  | countCapturedErr {t i s} : i.dbFails = true → ProcMove rt t .countCaptured i s s .failed
  | countCaptured {t i s} : i.dbFails = false →
      ProcMove rt t .countCaptured i s { s with db := s.db.incrementCounter "CAPTURED" }
        (.at (.proc t .lastUpload))
  | lastUploadErr {t i s} : i.dbFails = true → ProcMove rt t .lastUpload i s s .failed
  | lastUpload {t i s c} : i.dbFails = false → RemoveNext t c →
      ProcMove rt t .lastUpload i s { s with db := s.db.setLastUploadAt s.clock } c

/-! ### Everything else -/

/-- Where `process_candidate` starts. -/
inductive StartAt (t : Task) : Ctl Pt Unit → Prop where
  | fresh : t.cand.state = .debouncing ∨ t.cand.state = .observed →
      StartAt t (.at (.proc t .toOpening))
  | reread : t.cand.state = .opening ∨ t.cand.state = .copyingAndHashing →
      StartAt t (.at (.proc t .spoolUsed))
  | resume : t.cand.state ≠ .debouncing → t.cand.state ≠ .observed → t.cand.state ≠ .opening →
      t.cand.state ≠ .copyingAndHashing → StartAt t (.at (.proc t .reload))

/-- Where a reconciliation goes with the entries `rest` to come: to the first that
is not excluded. -/
inductive ScanNext (rt : Runtime S) (rest : List String) : Ctl Pt Unit → Prop where
  | done : (∀ p ∈ rest, matchesExclusion rt.exclusions p = true) → ScanNext rt rest (.done ())
  | next {skipped path rest'} : rest = skipped ++ path :: rest' →
      (∀ p ∈ skipped, matchesExclusion rt.exclusions p = true) →
      ScanNext rt rest (.at (.scanStat path rest'))

/-- Where a task goes when `process_candidate` returns. -/
def Ctl.afterProcess (t : Task) (c : Ctl Pt Unit) : Ctl Pt Unit :=
  c.cont (fun _ => .at (.abort t.handle t.cand.id false)) (.at (.abort t.handle t.cand.id true))

/-- The moves of the agent and its surroundings. -/
inductive Move (rt : Runtime S) : Pt → Input → World S → World S → Ctl Pt Unit → Prop where
  | leaseNone {boot i s} :
      i.dbFails = true ∨ (∀ c d, s.db.leaseNextDue s.clock 120 ≠ some (some c, d)) →
      Move rt (.lease boot) i s s (.done ())
  | lease {boot i s c d} : i.dbFails = false →
      s.db.leaseNextDue s.clock 120 = some (some c, d) →
      Move rt (.lease boot) i s { s with db := d } (.at (.acquire boot c))
  | acquire {boot c i s k} : StartAt ⟨boot, s.nextHandle, c⟩ k →
      Move rt (.acquire boot c) i s
        { s with
          watchdogs := s.watchdogs.insertNew ⟨s.nextHandle, c.id, s.clock + 30⟩
          nextHandle := s.nextHandle + 1 } k
  | proc {t p i s s' c} : ProcMove rt t p i s s' c →
      Move rt (.proc t p) i s s' (Ctl.afterProcess t c)
  | abort {handle id failed i s} :
      Move rt (.abort handle id failed) i s
        { s with watchdogs := s.watchdogs.deleteWhere fun w => w.handle = handle }
        (if failed then .at (.errRetry id) else .done ())
  | errRetryErr {id i s} : i.dbFails = true ∨ s.db.setRetry id (s.clock + 30) = none →
      Move rt (.errRetry id) i s s (.done ())
  | errRetry {id i s d} : s.db.setRetry id (s.clock + 30) = some d →
      Move rt (.errRetry id) i s { s with db := d } (.done ())
  | renew {handle i s} : Move rt (.renew handle) i s (renewed s i handle) (.done ())
  | enqueueErr {path priority reason i s} : i.dbFails = true →
      Move rt (.enqueue path priority reason) i s s .failed
  | enqueue {path priority reason i s} : i.dbFails = false →
      Move rt (.enqueue path priority reason) i s
        { s with db := (s.db.enqueue s.clock path priority reason rt.debounceMs).1 } (.done ())
  | scanSkip {path rest i s c} : i.io ≠ none ∨ s.fs.paths path = none → ScanNext rt rest c →
      Move rt (.scanStat path rest) i s s c
  | scanStat {path rest i s obj} : s.fs.paths path = some obj →
      Move rt (.scanStat path rest) i s s (.at (.scanSeen path (s.fs.objs obj).key rest))
  | scanSeenErr {path key rest i s} : i.dbFails = true →
      Move rt (.scanSeen path key rest) i s s .failed
  | scanSame {path key rest i s c} : s.db.seen path = some key.seenKey → ScanNext rt rest c →
      Move rt (.scanSeen path key rest) i s s c
  | scanChanged {path key rest i s} : i.dbFails = false → s.db.seen path ≠ some key.seenKey →
      Move rt (.scanSeen path key rest) i s
        { s with db := { s.db with seen := Function.update s.db.seen path (some key.seenKey) } }
        (.at (.scanEnqueue path rest))
  | scanEnqueueErr {path rest i s} : i.dbFails = true →
      Move rt (.scanEnqueue path rest) i s s .failed
  | scanEnqueue {path rest i s c} : i.dbFails = false → ScanNext rt rest c →
      Move rt (.scanEnqueue path rest) i s
        { s with db := (s.db.enqueue s.clock path 6 "reconcile_scan" rt.debounceMs).1 } c
  | flushErr {i s} : i.dbFails = true → Move rt .flushRead i s s .failed
  | flushNone {i s} : Move rt .flushRead i s s (.done ())
  | flushRead {i s} : Move rt .flushRead i s s
      (.at (.flushSend ((s.db.pendingGaps 100).filter fun g => (gapEvent rt g).isSome)))
  | flushSendErr {gaps i s s'} :
      s' = { s with
        server := i.reached s.server
          (rt.server.reportGaps (gaps.filterMap (gapEvent rt)) i.envs s.server).2 } →
      Move rt (.flushSend gaps) i s s' (.done ())
  | flushSend {gap rest i s s'} :
      i.answer (rt.server.reportGaps ((gap :: rest).filterMap (gapEvent rt)) i.envs s.server).1 =
        .ok () →
      s' = { s with
        server := i.reached s.server
          (rt.server.reportGaps ((gap :: rest).filterMap (gapEvent rt)) i.envs s.server).2 } →
      Move rt (.flushSend (gap :: rest)) i s s' (.at (.flushDelete gap rest))
  | flushDeleteErr {gap rest i s} : i.dbFails = true →
      Move rt (.flushDelete gap rest) i s s .failed
  | flushDeleteLast {gap i s} :
      Move rt (.flushDelete gap []) i s { s with db := s.db.deleteGap gap.id } (.done ())
  | flushDelete {gap gap' rest i s} :
      Move rt (.flushDelete gap (gap' :: rest)) i s { s with db := s.db.deleteGap gap.id }
        (.at (.flushDelete gap' rest))
  | put {path obj file i s} : Move rt (.put path obj file) i s
      { s with fs :=
        ⟨Function.update s.fs.paths path (some obj), Function.update s.fs.objs obj file⟩ } (.done ())
  | remove {path i s} : Move rt (.remove path) i s
      { s with fs := { s.fs with paths := Function.update s.fs.paths path none } } (.done ())
  | tick {secs i s} : Move rt (.tick secs) i s { s with clock := s.clock + secs } (.done ())
  | restart {i s} : Move rt .restart i s { s with watchdogs := .empty } (.done ())

end Corpus.Agent
