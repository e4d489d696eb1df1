/-
The server's store: tables, content-addressed files, environment.

The rows follow `migrations/*.sql`; a table whose rows have a unique key in the
schema is a `Table` over that key.  Columns that no modelled statement reads
back and that no request carries (surrogate ids of ledger rows, raw JSON of
indicators) are left out.

The store is split by owner, so that a statement of one subsystem visibly leaves
the others alone:

* `IngestDb` — upload sessions, artifacts, the occurrence ledger, the CAS;
* `HuntDb` — rules, bundles, hunts, jobs, matches, scan cache, detections;
* `SimDb` — features, candidate indexes, edges, variant groups.

`Env` is what one statement may draw from outside: fresh identifiers, the clock,
the scanner's answer.  `Config` holds what is fixed for a server: the hash
function, the rule compiler, the environment switches, the pure extractors.
-/
import Corpus.Basic
import Corpus.Prog
import Corpus.Table
import Corpus.UuidText
import Mathlib.Data.Rat.Defs

namespace Corpus

/-! ### Ingest -/

/-- `upload_session.state`. -/
inductive SessionState where
  | open
  | committed
  | failed
  deriving DecidableEq

def SessionState.asStr : SessionState → String
  | .open => "open"
  | .committed => "committed"
  | .failed => "failed"

/-- A row of `upload_session`.  The staging key is the text of the session id,
so it is kept as that id. -/
structure UploadSession where
  id : Uuid
  tenant : Uuid
  announcedSha256 : Bytes
  announcedSize : ℤ
  stagingKey : Uuid
  state : SessionState
  createdAt : Time

/-- `artifact.storage_state`. -/
inductive StorageState where
  | storagePending
  | committed
  deriving DecidableEq

/-- `artifact.scope`. -/
inductive Scope where
  | endpoint
  | intel
  deriving DecidableEq

/-- An object key `objects/<tenant>/<sha256 hex>`. -/
structure ObjectKey where
  tenant : Uuid
  sha256Hex : String
  deriving DecidableEq

/-- A row of `artifact`. -/
structure Artifact where
  id : Uuid
  tenant : Uuid
  seq : ℕ
  sha256 : Bytes
  sizeBytes : ℤ
  artifactClass : ArtifactClass
  storageState : StorageState
  objectKey : ObjectKey
  firstCommittedAt : Time
  scope : Scope
  provenance : Json

/-- `UNIQUE (tenant_id, sha256)`. -/
def Artifact.key (a : Artifact) : Uuid × Bytes := (a.tenant, a.sha256)

/-- `OccurrenceInfo` of a request. -/
structure OccurrenceInfo where
  hostName : String
  agentId : Uuid
  bootId : Uuid
  agentSequence : ℤ
  path : String
  observedAt : Time
  fileSize : ℤ
  fileMtime : Option Time
  captureReason : String

/-- A row of `occurrence_event`. -/
structure OccurrenceEvent where
  tenant : Uuid
  info : OccurrenceInfo
  artifactId : Option Uuid
  artifactSha256 : Option Bytes
  receivedAt : Time

/-- `UNIQUE (tenant_id, agent_id, boot_id, agent_sequence)`. -/
def OccurrenceEvent.key (o : OccurrenceEvent) : Uuid × Uuid × Uuid × ℤ :=
  (o.tenant, o.info.agentId, o.info.bootId, o.info.agentSequence)

/-- `capture_attempt.terminal_outcome`: the outcomes `ingest.rs` writes, and the
text of an agent's gap. -/
inductive Outcome where
  | captured
  | alreadyPresent
  | hashMismatch
  | gap (terminalOutcome : String)
  deriving DecidableEq

/-- A row of `capture_attempt`. -/
structure CaptureAttempt where
  tenant : Uuid
  hostName : String
  agentId : Uuid
  observedAt : Time
  captureReason : String
  outcome : Outcome
  sha256 : Option Bytes
  path : Option String
  detailCode : Option String
  detail : Json

/-- The files of the content-addressed store: staged uploads and objects. -/
structure Cas where
  staging : Uuid → Option Bytes
  objects : ObjectKey → Option Bytes

/-- Tables and files owned by ingest.  `nextSeq` is the sequence behind
`artifact.seq`: drawing from it is not undone by a rollback. -/
structure IngestDb where
  sessions : Table UploadSession.id
  artifacts : Table Artifact.key
  nextSeq : ℕ
  occurrences : Table OccurrenceEvent.key
  attempts : List CaptureAttempt
  cas : Cas

/-! ### Rules and hunts -/

/-- `rule.state`. -/
inductive RuleState where
  | draft
  | validated
  | active
  | revoked
  deriving DecidableEq

/-- A row of `rule`. -/
structure Rule where
  id : Uuid
  tenant : Uuid
  ns : String
  stableId : String
  source : String
  state : RuleState
  createdAt : Time

/-- A row of `rule_bundle`. -/
structure Bundle where
  id : Uuid
  tenant : Uuid
  digest : String
  engineVersion : String
  active : Bool
  createdAt : Time

/-- `UNIQUE (tenant_id, digest)`. -/
def Bundle.key (b : Bundle) : Uuid × String := (b.tenant, b.digest)

/-- A row of `rule_bundle_rule`. -/
structure BundleRule where
  bundleId : Uuid
  ruleId : Uuid
  position : ℕ

inductive HuntKind where
  | retro
  | forward
  deriving DecidableEq

/-- `hunt.state`. -/
inductive HuntState where
  | draft
  | validating
  | planned
  | queued
  | running
  | completed
  | completedPartial
  | failed
  | activeForward
  deriving DecidableEq

def HuntState.asStr : HuntState → String
  | .draft => "DRAFT"
  | .validating => "VALIDATING"
  | .planned => "PLANNED"
  | .queued => "QUEUED"
  | .running => "RUNNING"
  | .completed => "COMPLETED"
  | .completedPartial => "COMPLETED_PARTIAL"
  | .failed => "FAILED"
  | .activeForward => "ACTIVE_FORWARD"

/-- The progress counters of a hunt. -/
@[ext] structure Counters where
  scanned : ℕ := 0
  cacheHits : ℕ := 0
  matched : ℕ := 0
  timedOut : ℕ := 0
  failed : ℕ := 0
  deriving DecidableEq

/-- A row of `hunt`. -/
structure Hunt where
  id : Uuid
  tenant : Uuid
  kind : HuntKind
  bundleId : Uuid
  bundleDigest : String
  state : HuntState
  corpusWatermark : Option ℕ
  plannedArtifacts : ℕ
  counters : Counters
  error : Option String
  createdAt : Time
  startedAt : Option Time
  completedAt : Option Time

/-- A row of `hunt_job`. -/
structure HuntJob where
  huntId : Uuid
  tenant : Uuid
  enqueuedAt : Time
  claimedAt : Option Time
  claimedBy : Option String
  finishedAt : Option Time
  lastError : Option String

/-- A row of `hunt_match`. -/
structure HuntMatch where
  huntId : Uuid
  tenant : Uuid
  artifactId : Uuid
  ruleId : String
  engineVersion : String
  summary : Json
  createdAt : Time

/-- `PRIMARY KEY (hunt_id, artifact_id, rule_id)`. -/
def HuntMatch.key (m : HuntMatch) : Uuid × Uuid × String := (m.huntId, m.artifactId, m.ruleId)

/-- `ScanStatus` of `scan.rs`. -/
inductive ScanStatus where
  | clean
  | matched
  | timeout
  | error
  deriving DecidableEq

/-- One matched rule of a scan. -/
structure RuleMatch where
  ruleId : String
  ns : String
  evidence : Json

structure ScanOutcome where
  status : ScanStatus
  ruleMatches : List RuleMatch
  durationMs : ℕ
  errorCode : Option String

def ScanOutcome.ruleIds (o : ScanOutcome) : List String := o.ruleMatches.map RuleMatch.ruleId

/-- `ScanCacheKey`: the five columns that identify a cached result. -/
structure ScanCacheKey where
  tenant : Uuid
  artifactSha256 : Bytes
  ruleBundleDigest : String
  engineVersion : String
  scanConfigDigest : String
  deriving DecidableEq

/-- A row of `scan_cache`. -/
structure ScanCacheRow where
  key : ScanCacheKey
  status : ScanStatus
  matchedRuleIds : List String
  durationMs : ℕ
  errorCode : Option String
  createdAt : Time

/-- A row of `detection_event`. -/
structure Detection where
  tenant : Uuid
  artifactId : Uuid
  source : String
  severity : String
  title : String
  detail : Json
  mitre : List String
  createdAt : Time

/-- `continuous_reanalysis.state` for bundle activations. -/
inductive ReanalysisState where
  | reused
  | enqueued
  deriving DecidableEq

/-- A row of `continuous_reanalysis` written on bundle activation. -/
structure Reanalysis where
  tenant : Uuid
  bundleDigest : String
  huntId : Uuid
  state : ReanalysisState
  createdAt : Time

structure HuntDb where
  rules : Table Rule.id
  bundles : Table Bundle.key
  bundleRules : List BundleRule
  hunts : Table Hunt.id
  jobs : Table HuntJob.huntId
  huntMatches : Table HuntMatch.key
  scanCache : Table ScanCacheRow.key
  detections : List Detection
  reanalyses : List Reanalysis

/-! ### Similarity -/

/-- The edge types of `similarity::model::edge_type`. -/
inductive EdgeType where
  | exactCopy
  | normalizedEquivalent
  | byteSimilar
  | sharedProvenance
  | semanticStrong
  | semanticWeak
  deriving DecidableEq

/-- `similarity_feature.family`. -/
inductive Family where
  | byte
  | normalized
  | structural
  | semantic
  | provenance
  deriving DecidableEq

/-- The JSON values of features, by the members that queries read. -/
inductive FeatureValue where
  | ssdeep (digest : String) (sizeBytes : ℕ) (entropy : ℚ)
  | hash (h : String)
  | value (v : String)
  | report (v : Json)

/-- `value->>'hash'`. -/
def FeatureValue.hash? : FeatureValue → Option String
  | .hash h => some h
  | _ => none

/-- `value->>'value'`. -/
def FeatureValue.value? : FeatureValue → Option String
  | .value v => some v
  | _ => none

/-- `value->>'digest'` with `value->>'entropy'`. -/
def FeatureValue.ssdeep? : FeatureValue → Option (String × ℚ)
  | .ssdeep d _ e => some (d, e)
  | _ => none

/-- A row of `similarity_feature`. -/
structure Feature where
  tenant : Uuid
  artifactId : Uuid
  family : Family
  name : String
  version : String
  value : FeatureValue

/-- `PRIMARY KEY (tenant_id, artifact_id, family, name, version)`. -/
def Feature.key (f : Feature) : Uuid × Uuid × Family × String × String :=
  (f.tenant, f.artifactId, f.family, f.name, f.version)

/-- A row of `similarity_lsh_band`. -/
structure LshBand where
  tenant : Uuid
  artifactId : Uuid
  bandIdx : ℕ
  bandKey : String

def LshBand.key (b : LshBand) : Uuid × Uuid × ℕ := (b.tenant, b.artifactId, b.bandIdx)

/-- One significant function, as scored (`FunctionRow`). -/
structure FunctionRow where
  offset : ℕ
  size : ℕ
  name : Option String
  insnCount : ℕ
  tokenHashes : List UInt64
  deriving DecidableEq

/-- A row of `similarity_function`. -/
structure SimFunction where
  tenant : Uuid
  artifactId : Uuid
  version : String
  function : FunctionRow

def SimFunction.key (f : SimFunction) : Uuid × Uuid × ℕ × String :=
  (f.tenant, f.artifactId, f.function.offset, f.version)

/-- A row of `similarity_function_band`. -/
structure FunctionBand where
  tenant : Uuid
  artifactId : Uuid
  version : String
  bandIdx : ℕ
  bandKey : String
  funcOffset : ℕ

def FunctionBand.key (b : FunctionBand) : Uuid × Uuid × String × ℕ × ℕ :=
  (b.tenant, b.artifactId, b.version, b.bandIdx, b.funcOffset)

/-- A row of `similarity_edge`. -/
structure Edge where
  tenant : Uuid
  src : Uuid
  dst : Uuid
  edgeType : EdgeType
  modelVersion : String
  score : ℚ
  createdAt : Time

/-- `PRIMARY KEY (tenant_id, src_artifact, dst_artifact, edge_type,
model_version)`. -/
def Edge.key (e : Edge) : Uuid × Uuid × Uuid × EdgeType × String :=
  (e.tenant, e.src, e.dst, e.edgeType, e.modelVersion)

/-- A row of `variant_group`. -/
structure VariantGroup where
  id : Uuid
  tenant : Uuid

/-- A row of `variant_group_member`. -/
structure GroupMember where
  tenant : Uuid
  groupId : Uuid
  artifactId : Uuid

/-- `PRIMARY KEY (tenant_id, artifact_id)`. -/
def GroupMember.key (m : GroupMember) : Uuid × Uuid := (m.tenant, m.artifactId)

/-- `analysis_receipt.status`. -/
inductive ReceiptStatus where
  | ok
  | empty
  | limitation
  deriving DecidableEq

/-- A row of `analysis_receipt`; its id is the digest of the first five fields. -/
structure Receipt where
  tenant : Uuid
  artifactId : Uuid
  inputSha256 : Bytes
  status : ReceiptStatus
  functionCount : ℕ
  limitation : Option String
  edgeCount : ℕ
  finishedAt : Time

/-- The payload `receipt_id` digests. -/
def Receipt.key (r : Receipt) : Uuid × Uuid × Bytes × ReceiptStatus × ℕ :=
  (r.tenant, r.artifactId, r.inputSha256, r.status, r.functionCount)

/-- A row of `trigger_rule`. -/
structure Trigger where
  id : Uuid
  tenant : Uuid
  condition : String
  enabled : Bool

/-- A row of `trigger_outbox`. -/
structure OutboxRow where
  tenant : Uuid
  triggerId : Uuid
  event : Json
  createdAt : Time

structure SimDb where
  features : Table Feature.key
  lshBands : Table LshBand.key
  functions : Table SimFunction.key
  functionBands : Table FunctionBand.key
  edges : Table Edge.key
  groups : Table VariantGroup.id
  members : Table GroupMember.key
  receipts : Table Receipt.key

def SimDb.empty : SimDb := ⟨.empty, .empty, .empty, .empty, .empty, .empty, .empty, .empty⟩

/-- Everything the server keeps. -/
structure Db where
  ingest : IngestDb
  hunt : HuntDb
  sim : SimDb
  triggers : List Trigger
  outbox : List OutboxRow

/-- The store of a fresh installation. -/
def Db.empty : Db where
  ingest := ⟨.empty, .empty, 1, .empty, [], ⟨fun _ => none, fun _ => none⟩⟩
  hunt := ⟨.empty, .empty, [], .empty, .empty, .empty, .empty, [], []⟩
  sim := .empty
  triggers := []
  outbox := []

/-! ### Environment and configuration -/

/-- How `std::fs::copy` ends: with everything copied, before it has created the copy, or
after the first bytes. -/
inductive CopyEnd where
  | whole
  | notCreated
  | cutAfter (n : ℕ)
  deriving DecidableEq

/-- What the file system answers in one call of the CAS: whether it creates directories,
renames and removes, how a copy ends, and what it says when it refuses. -/
structure CasIo where
  createsDir : Bool
  renames : Bool
  copies : CopyEnd
  removes : Bool
  refusal : String
  deriving DecidableEq

/-- Nothing is refused. -/
def CasIo.good : CasIo := ⟨true, true, .whole, true, ""⟩

/-- What one statement, or one transaction, may take from outside: the
identifiers `Uuid::new_v4` returns in it, the clock, the scanner's answer, the
answers of the file system. -/
structure Env where
  uuid : ℕ → Uuid
  now : Time
  scan : Bytes → ScanOutcome
  cas : CasIo

/-- Statements that draw the identifier `u`, at time zero, with nothing to match. -/
def Env.drawing (u : Uuid) : Env := ⟨fun _ => u, 0, fun _ => ⟨.clean, [], 0, none⟩, .good⟩

/-- `ExtractedFeatures` of `similarity::extract`. -/
structure ExtractedFeatures where
  sizeBytes : ℕ
  entropy : ℚ
  ssdeep : String
  normalized : List (String × String)
  sectionLayout : Option String
  importSet : Option String
  exportSet : Option String
  compilerHint : Option String
  parseLimitation : Option String

/-- A code region found by `functions_for`, its spans already decoded. -/
structure CodeRegion where
  entropy : ℚ
  spans : List FunctionRow

/-- What the semantic matcher says of two sets of functions (`Coverage`, by the
members that decide the edge). -/
structure Coverage where
  aToB : ℚ
  bToA : ℚ
  matchedPairs : ℕ

/-- The pure parts of the analysis: parsers, band keys and scores.
`keyOrder` is the order in which the `HashSet` of band keys is walked. -/
structure Analyzer where
  extract : Bytes → ExtractedFeatures
  bandKeys : String → List (ℕ × String)
  fuzzyCompare : String → String → ℤ
  triage : ArtifactClass → Bytes → Bool × String
  functionsFor : ArtifactClass → Bytes → List CodeRegion
  isSignificant : FunctionRow → Bool
  functionBands : List UInt64 → List (ℕ × String)
  keyOrder : List (ℕ × String) → List (ℕ × String)
  suppressed : FunctionRow → Bool
  coverage : List FunctionRow → List FunctionRow → Coverage

/-- What is fixed for a running server.  `sha256` and `compileBundle` stand for
the `sha2` and `yara_x` crates; `minTier` is the message of `check_min_tier` for
the configured scanner tier, `autoRetro` the flag `CORPUS_AUTO_RETRO_ON_ACTIVATE`, `debug` what
`{:?}` prints of a text. -/
structure Config where
  sha256 : Bytes → Bytes
  compileBundle : List (String × String) → Except String Unit
  bundleDigest : List (String × String) → String
  minTier : Option String
  engineVersion : String
  scanConfigDigest : String
  autoRetro : Bool
  analyzer : Analyzer
  debug : String → String

/-- A configuration to run the model with: the digest of bytes is the bytes
themselves, every bundle compiles, nothing is similar to anything. -/
def Config.plain : Config where
  sha256 := id
  compileBundle _ := .ok ()
  bundleDigest members := "/".intercalate (members.map Prod.fst)
  minTier := none
  engineVersion := "engine"
  scanConfigDigest := "config"
  autoRetro := true
  analyzer :=
    { extract bytes := ⟨bytes.length, 0, "", [], none, none, none, none, none⟩
      bandKeys _ := []
      fuzzyCompare _ _ := 0
      triage _ _ := (false, "")
      functionsFor _ _ := []
      isSignificant _ := false
      functionBands _ := []
      keyOrder ks := ks
      suppressed _ := false
      coverage _ _ := ⟨0, 0, 0⟩ }
  debug := String.quote

end Corpus
