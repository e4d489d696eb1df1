/-
Announce, upload, finalize (`ingest.rs`) over the file-system CAS (`cas.rs`).

Every SQL statement or transaction and every CAS call is one statement of the
program.  The artifact `INSERT` of `finalize` takes two: its `seq` is drawn when
the statement runs (`finNextval`), the row becomes visible when the transaction
commits (`finInsert`), and whether it conflicts is decided there.
-/
import Corpus.Analysis
import Corpus.Hunts

namespace Corpus

/-! ### The content-addressed store -/

namespace CasIo

/-- The file system does not rename, and its copy of these bytes stops in the middle. -/
def Tears (io : CasIo) (bytes : Bytes) : Prop :=
  io.renames = false ∧ ∃ n, io.copies = .cutAfter n ∧ n < bytes.length

/-- Staged bytes without an object become one. -/
def moves (io : CasIo) : Bool :=
  io.createsDir && (io.renames || (io.copies = .whole && io.removes))

/-- The commit of staged bytes without an object fails, and leaves what it has copied. -/
def leaves (io : CasIo) : Bool :=
  io.createsDir && !io.renames &&
    (match io.copies with
      | .notCreated => false
      | .cutAfter _ => true
      | .whole => !io.removes)

end CasIo

namespace Cas

/-- `FsCas::stage`. -/
def stage (c : Cas) (key : Uuid) (bytes : Bytes) : Cas :=
  { c with staging := Function.update c.staging key (some bytes) }

/-- `FsCas::discard_staging`: the answer to the removal is thrown away. -/
def discardStaging (c : Cas) (io : CasIo) (key : Uuid) : Cas :=
  if io.removes then { c with staging := Function.update c.staging key none } else c

/-- An object is written. -/
def put (c : Cas) (object : ObjectKey) (bytes : Bytes) : Cas :=
  { c with objects := Function.update c.objects object (some bytes) }

/-- The staged bytes have become the object. -/
def moved (c : Cas) (key : Uuid) (object : ObjectKey) (bytes : Bytes) : Cas :=
  { c.put object bytes with staging := Function.update c.staging key none }

/-- `FsCas::commit`: put if absent, by renaming whatever is staged, or else by copying and
removing it.  What has been copied stays where the copy, or the removal, fails. -/
def commit (c : Cas) (io : CasIo) (key : Uuid) (object : ObjectKey) : Except Error Unit × Cas :=
  match c.objects object with
  | some _ => (.ok (), c.discardStaging io key)
  | none =>
    if io.createsDir then
      match c.staging key with
      | none => (.error (.io "No such file or directory (os error 2)"), c)
      | some bytes =>
        if io.renames then (.ok (), c.moved key object bytes)
        else match io.copies with
          | .notCreated => (.error (.io io.refusal), c)
          | .cutAfter n => (.error (.io io.refusal), c.put object (bytes.take n))
          | .whole =>
            if io.removes then (.ok (), c.moved key object bytes)
            else (.error (.io io.refusal), c.put object bytes)
    else (.error (.io io.refusal), c)

/-- The answer to a removal that is thrown away. -/
theorem discardStaging_cases (c : Cas) (io : CasIo) (key : Uuid) :
    c.discardStaging io key = c ∨
      c.discardStaging io key = { c with staging := Function.update c.staging key none } := by
  unfold discardStaging
  split
  · exact .inr rfl
  · exact .inl rfl

/-- The four ways a commit ends: the object is there; nothing is moved; the staged bytes are
moved; some of them are copied and it fails. -/
theorem commit_cases (c : Cas) (io : CasIo) (key : Uuid) (object : ObjectKey) :
    (c.objects object).isSome ∧ c.commit io key object = (.ok (), c.discardStaging io key) ∨
      c.objects object = none ∧ (c.staging key = none ∨ io.moves = false ∧ io.leaves = false) ∧
        (∃ e, c.commit io key object = (.error e, c)) ∨
      c.objects object = none ∧ io.moves = true ∧ (∃ bytes, c.staging key = some bytes ∧
        c.commit io key object = (.ok (), c.moved key object bytes)) ∨
      c.objects object = none ∧ io.moves = false ∧ io.leaves = true ∧
        ∃ bytes part e, c.staging key = some bytes ∧ (part = bytes ∨ io.Tears bytes) ∧
          c.commit io key object = (.error e, c.put object part) := by
  unfold commit CasIo.moves CasIo.leaves
  cases c.objects object with
  | some b => exact .inl ⟨rfl, rfl⟩
  | none =>
    right
    cases io.createsDir with
    | false => exact .inl ⟨rfl, .inr ⟨rfl, rfl⟩, _, rfl⟩
    | true =>
      cases c.staging key with
      | none => exact .inl ⟨rfl, .inl rfl, _, rfl⟩
      | some bytes =>
        cases hrename : io.renames with
        | true => exact .inr (.inl ⟨rfl, rfl, bytes, rfl, rfl⟩)
        | false =>
          cases hcopies : io.copies with
          | notCreated => exact .inl ⟨rfl, .inr ⟨rfl, rfl⟩, _, rfl⟩
          | cutAfter n =>
            refine .inr (.inr ⟨rfl, rfl, rfl, bytes, bytes.take n, _, rfl, ?_, rfl⟩)
            rcases Nat.lt_or_ge n bytes.length with hlt | hge
            · exact .inr ⟨hrename, n, hcopies, hlt⟩
            · exact .inl (List.take_of_length_le hge)
          | whole =>
            cases io.removes with
            | true => exact .inr (.inl ⟨rfl, rfl, bytes, rfl, rfl⟩)
            | false => exact .inr (.inr ⟨rfl, rfl, rfl, bytes, bytes, _, rfl, .inl rfl, rfl⟩)

end Cas

/-! ### Responses -/

/-- `AnnounceDisposition`. -/
inductive AnnounceDisposition where
  | alreadyPresent
  | uploadRequired
  | metadataOnlyAccepted
  | rejectedPolicy
  | rejectedQuota
  | retryLater
  deriving DecidableEq

structure AnnounceResponse where
  disposition : AnnounceDisposition
  uploadId : Option Uuid
  artifactId : Option Uuid

structure FinalizeResponse where
  artifactId : Uuid
  sha256 : String
  storageState : StorageState
  forwardMatches : List String

/-! ### Ledger rows -/

/-- `attempt_meta`, as the columns of the capture attempt it fills. -/
def captureAttempt (t : Uuid) (occ : Option OccurrenceInfo) (provenance : Option Json) (now : Time)
    (outcome : Outcome) (sha : Option Bytes) (detailCode : Option String) (detail : Json) :
    CaptureAttempt :=
  match occ with
  | some o =>
    ⟨t, o.hostName, o.agentId, o.observedAt, o.captureReason, outcome, sha, some o.path, detailCode,
      detail⟩
  | none =>
    ⟨t, ((provenance.bind (·.get? "source")).bind Json.asStr).getD "intel-import", 0, now,
      "intel_import", outcome, sha, (provenance.bind (·.get? "path")).bind Json.asStr, detailCode,
      detail⟩

namespace IngestDb

/-- `insert_occurrence`, when the request carries one. -/
def insertOccurrence (d : IngestDb) (t artifact : Uuid) (sha : Bytes) (occ : Option OccurrenceInfo)
    (now : Time) : IngestDb :=
  match occ with
  | some o => { d with occurrences := d.occurrences.insertNew ⟨t, o, some artifact, some sha, now⟩ }
  | none => d

/-- `insert_capture_attempt`. -/
def insertCaptureAttempt (d : IngestDb) (a : CaptureAttempt) : IngestDb :=
  { d with attempts := d.attempts ++ [a] }

/-- `INSERT INTO artifact`. -/
def addArtifact (d : IngestDb) (a : Artifact) : IngestDb :=
  { d with artifacts := d.artifacts.insertNew a }

/-- `UPDATE upload_session SET state WHERE id`. -/
def setSession (d : IngestDb) (upload : Uuid) (state : SessionState) : IngestDb :=
  { d with
    sessions := d.sessions.updateWhere (fun r => r.id = upload) (fun r => { r with state })
      fun _ => rfl }

/-- The session with this id, seen by the tenant. -/
def sessionOf (d : IngestDb) (t upload : Uuid) : Option UploadSession :=
  (d.sessions.get upload).filter fun r => r.tenant = t

end IngestDb

/-! ### Announce and upload -/

/-- The transaction of the dedup path of `announce`. -/
def IngestDb.recordPresent (d : IngestDb) (t artifact : Uuid) (sha : Bytes) (req : AnnounceRequest)
    (now : Time) : IngestDb :=
  (d.insertOccurrence t artifact sha req.occurrence now).insertCaptureAttempt
    (captureAttempt t req.occurrence none now .alreadyPresent (some sha) none (.obj []))

/-- `announce`. -/
def announce (cfg : Config) (t : Uuid) (req : AnnounceRequest) : Srv AnnounceResponse :=
  match hexToRaw req.sha256 with
  | none =>
    let quoted := cfg.debug req.sha256
    Prog.err (.badRequest s!"invalid sha256 hex: {quoted}")
  | some sha => do
    let existing ← Prog.query (.ingest (.annFind t req sha)) fun s =>
      (s.ingest.artifacts.get (t, sha)).map Artifact.id
    match existing with
    | some artifact => do
      Prog.update (.ingest (.annPresent t req sha artifact)) fun s env =>
        { s with ingest := s.ingest.recordPresent t artifact sha req env.now }
      return ⟨.alreadyPresent, none, some artifact⟩
    | none => do
      let upload ← Prog.exec (.ingest (.annOpen t req sha)) fun s env =>
        let upload := env.uuid 0
        if (s.ingest.sessions.get upload).isSome then .error (.db "upload_session_pkey")
        else
          let row : UploadSession := ⟨upload, t, sha, req.sizeBytes, upload, .open, env.now⟩
          .ok (upload, { s with
            ingest := { s.ingest with sessions := s.ingest.sessions.insertNew row } })
      return ⟨.uploadRequired, some upload, none⟩

/-- `stage_upload`. -/
def stageUpload (t upload : Uuid) (bytes : Bytes) : Srv Unit := do
  let state ← Prog.query (.ingest (.stageState t upload bytes)) fun s =>
    (s.ingest.sessionOf t upload).map UploadSession.state
  match state with
  | none => Prog.err (.notFound s!"upload session {printUuid upload}")
  | some state =>
    if state = .open then
      Prog.update (.ingest (.stageWrite t upload bytes)) fun s _ =>
        { s with ingest := { s.ingest with cas := s.ingest.cas.stage upload bytes } }
    else Prog.err (.conflict s!"upload session {printUuid upload} is {state.asStr}")

/-! ### Finalize -/

/-- The scopes a request may ask for. -/
def parseScope : String → Option Scope
  | "endpoint" => some .endpoint
  | "intel" => some .intel
  | _ => none

/-- The artifact row of a new commit. -/
def newArtifact (cfg : Config) (t : Uuid) (req : FinalizeRequest) (bytes : Bytes) (scope : Scope)
    (seq : ℕ) (id : Uuid) (now : Time) : Artifact :=
  ⟨id, t, seq, cfg.sha256 bytes, req.sizeBytes, classify bytes, .committed,
    ⟨t, hexEncode (cfg.sha256 bytes)⟩, now, scope, req.provenance.getD (.obj [])⟩

/-- The ledger part of the transaction, once the artifact is known. -/
def IngestDb.recordCapture (d : IngestDb) (cfg : Config) (t : Uuid) (req : FinalizeRequest)
    (bytes : Bytes) (artifact : Uuid) (now : Time) : IngestDb :=
  ((d.insertOccurrence t artifact (cfg.sha256 bytes) req.occurrence now).insertCaptureAttempt
    (captureAttempt t req.occurrence req.provenance now .captured (some (cfg.sha256 bytes)) none
      (.obj [("artifact_class", .str (classify bytes).asStr)]))).setSession req.uploadId .committed

/-- The transaction of `finalize`: insert the artifact or adopt the existing row,
then occurrence, capture attempt and session. -/
def Db.commitArtifact (s : Db) (cfg : Config) (t : Uuid) (req : FinalizeRequest) (bytes : Bytes)
    (scope : Scope) (seq : ℕ) (env : Env) : Except Error (Uuid × Db) :=
  match s.ingest.artifacts.get (t, cfg.sha256 bytes) with
  | some a => .ok (a.id, { s with ingest := s.ingest.recordCapture cfg t req bytes a.id env.now })
  | none =>
    if s.ingest.artifacts.rows.any fun a => a.id = env.uuid 0 then .error (.db "artifact_pkey")
    else
      let row := newArtifact cfg t req bytes scope seq (env.uuid 0) env.now
      .ok (row.id, { s with
        ingest := (s.ingest.addArtifact row).recordCapture cfg t req bytes row.id env.now })

/-- The part of `finalize` after the bytes have been verified. -/
def commitUpload (cfg : Config) (t : Uuid) (req : FinalizeRequest) (key : Uuid) (bytes : Bytes)
    (scope : Scope) : Srv FinalizeResponse := do
  Prog.call (.ingest (.finCommit t req key bytes scope)) fun s env =>
    let r := s.ingest.cas.commit env.cas key ⟨t, hexEncode (cfg.sha256 bytes)⟩
    (r.1, { s with ingest := { s.ingest with cas := r.2 } })
  let seq ← Prog.stmt (.ingest (.finNextval t req bytes scope))
    (fun s _ => { s with ingest := { s.ingest with nextSeq := s.ingest.nextSeq + 1 } })
    fun s _ => Prog.ret s.ingest.nextSeq
  let artifact ← Prog.exec (.ingest (.finInsert t req bytes scope seq)) fun s env =>
    s.commitArtifact cfg t req bytes scope seq env
  let forwardMatches ← forwardScan cfg t artifact (cfg.sha256 bytes) bytes
  let _ ← (analyzeNewArtifact cfg t artifact (classify bytes) bytes).attempt
  return ⟨artifact, hexEncode (cfg.sha256 bytes), .committed, forwardMatches⟩

/-- The checks of `finalize` on the staged bytes. -/
def verifyAndCommit (cfg : Config) (t : Uuid) (req : FinalizeRequest) (key : Uuid) (bytes : Bytes) :
    Srv FinalizeResponse :=
  let received := bytes.length
  let announced := req.sizeBytes
  if (received : ℤ) ≠ announced then do
    Prog.update (.ingest (.finDiscardSize t req key received)) fun s env =>
      { s with ingest := { s.ingest with cas := s.ingest.cas.discardStaging env.cas key } }
    Prog.update (.ingest (.finFailSize t req received)) fun s _ =>
      { s with ingest := s.ingest.setSession req.uploadId .failed }
    Prog.err (.badRequest s!"size mismatch: announced {announced}, received {received}")
  else match verifyUpload cfg.sha256 bytes req.sha256 with
  | .error e => do
    Prog.update (.ingest (.finMismatch t req key bytes)) fun s env =>
      let attempt := captureAttempt t req.occurrence req.provenance env.now .hashMismatch
        (some ((hexToRaw req.sha256).getD [])) (some "SHA256_MISMATCH")
        (.obj [("announced", .str req.sha256), ("recomputed", .str (hexEncode (cfg.sha256 bytes)))])
      { s with
        ingest := (s.ingest.insertCaptureAttempt attempt).setSession req.uploadId .failed }
    Prog.update (.ingest (.finDiscardMismatch t req key)) fun s env =>
      { s with ingest := { s.ingest with cas := s.ingest.cas.discardStaging env.cas key } }
    Prog.err e
  | .ok _ =>
    match parseScope (req.scope.getD "endpoint") with
    | none => do
      Prog.update (.ingest (.finDiscardScope t req key)) fun s env =>
        { s with ingest := { s.ingest with cas := s.ingest.cas.discardStaging env.cas key } }
      let quoted := cfg.debug (req.scope.getD "endpoint")
      Prog.err (.badRequest s!"invalid artifact scope {quoted}")
    | some scope => commitUpload cfg t req key bytes scope

/-- `finalize`. -/
def finalize (cfg : Config) (t : Uuid) (req : FinalizeRequest) : Srv FinalizeResponse := do
  let session ← Prog.query (.ingest (.finSession t req)) fun s =>
    s.ingest.sessionOf t req.uploadId
  let upload := req.uploadId
  match session with
  | none => Prog.err (.notFound s!"upload session {printUuid upload}")
  | some session =>
    if session.state ≠ .open then
      let state := session.state.asStr
      Prog.err (.conflict s!"upload session {printUuid upload} is {state}")
    else do
      let content ← Prog.query (.ingest (.finRead t req session.stagingKey)) fun s =>
        s.ingest.cas.staging session.stagingKey
      match content with
      | none => Prog.err (.io "No such file or directory (os error 2)")
      | some bytes => verifyAndCommit cfg t req session.stagingKey bytes

end Corpus
