/-
The Merlin telemetry bridge (`merlin.rs`).

`ingest_segment` stores one batch of a segment in one transaction.  The model
keeps the transaction's own copy of the tables beside the committed ones: a
statement writes the copy, `COMMIT` publishes it, and a call that fails or is cut
off anywhere else has published nothing.

The raw events are JSON with floating-point numbers, which are kept as their bits;
the printed length of an event and the reading of its `ts` are parameters.
-/
import Corpus.Store
import Mathlib.Algebra.Group.Int.Defs

namespace Corpus

/-! ### Raw events -/

/-- A JSON value as `serde_json` holds it: integers apart from floats. -/
inductive RawJson where
  | null
  | bool (b : Bool)
  | int (n : ℤ)
  | float (bits : UInt64)
  | str (s : String)
  | arr (items : List RawJson)
  | obj (fields : List (String × RawJson))

namespace RawJson

def get? : RawJson → String → Option RawJson
  | obj fields, k => (fields.find? fun f => f.1 = k).map Prod.snd
  | _, _ => none

def asStr : RawJson → Option String
  | str s => some s
  | _ => none

/-- `Value::as_i64`. -/
def asI64 : RawJson → Option ℤ
  | int n => if -(2 ^ 63) ≤ n ∧ n < 2 ^ 63 then some n else none
  | _ => none

def isObject : RawJson → Bool
  | obj _ => true
  | _ => false

end RawJson

/-- What the bridge takes from outside: `Value::to_string().len()`, and the point
in time that an event's `ts` spells. -/
structure MerlinConfig where
  encodedLen : RawJson → ℕ
  timestamp : RawJson → Option Time

/-- `MerlinSegmentRequest`. -/
structure MerlinSegmentRequest where
  schemaVersion : ℤ
  hostName : String
  segment : String
  segmentSha256 : String
  events : List RawJson

/-- `MerlinSegmentResponse`. -/
structure MerlinSegmentResponse where
  schemaVersion : ℤ
  receiptVersion : ℤ
  segmentId : Uuid
  segmentSha256 : String
  status : String
  acceptedEvents : ℕ
  duplicateEvents : ℕ

/-! ### Validation -/

def merlinSchemaVersion : ℤ := 1
def maxEventsPerRequest : ℕ := 50000
def maxEventBytes : ℕ := 256 * 1024
def maxHostBytes : ℕ := 128
def maxSegmentBytes : ℕ := 255
def maxEventIdBytes : ℕ := 256

/-- `is_ascii_alphanumeric`, or one of `._-`. -/
def isNameChar (c : Char) : Bool :=
  c.isAlphanum || c = '.' || c = '_' || c = '-'

/-- `is_ascii_hexdigit`. -/
def isHexDigit (c : Char) : Bool := (hexValue c).isSome

/-- `valid_host`. -/
def validHost (value : String) : Bool :=
  !value.isEmpty && decide (value.utf8ByteSize ≤ maxHostBytes) && value != "." && value != ".." &&
    value.toList.all isNameChar

/-- `valid_segment`. -/
def validSegment (value : String) : Bool :=
  !value.isEmpty && decide (value.utf8ByteSize ≤ maxSegmentBytes) &&
    (".jsonl.gz".toList).isSuffixOf value.toList && value.toList.all isNameChar

/-- `valid_sha256`. -/
def validSha256 (value : String) : Bool :=
  decide (value.utf8ByteSize = 64) && value.toList.all isHexDigit

/-- The checks of one event. -/
def validateEvent (m : MerlinConfig) (index : ℕ) (event : RawJson) : Except Error Unit :=
  if !event.isObject then .error (.badRequest s!"Merlin event {index} is not a JSON object")
  else if m.encodedLen event > maxEventBytes then
    .error (.badRequest s!"Merlin event {index} exceeds {maxEventBytes} bytes")
  else .ok ()

/-- `validate_request`. -/
def validateRequest (m : MerlinConfig) (req : MerlinSegmentRequest) : Except Error Unit :=
  let version := req.schemaVersion
  if version ≠ merlinSchemaVersion then
    .error (.badRequest
      s!"unsupported Merlin schema_version {version}; expected {merlinSchemaVersion}")
  else if !validHost req.hostName then .error (.badRequest "invalid Merlin host_name")
  else if !validSegment req.segment then .error (.badRequest "invalid Merlin segment")
  else if !validSha256 req.segmentSha256 then .error (.badRequest "invalid Merlin segment_sha256")
  else if req.events.length > maxEventsPerRequest then
    .error (.badRequest s!"Merlin event batch exceeds {maxEventsPerRequest} events")
  else req.events.zipIdx.forM fun e => validateEvent m e.2 e.1

/-! ### Event identity -/

/-- `is_ascii_control`. -/
def isAsciiControl (c : Char) : Bool := c.toNat < 32 || c.toNat = 127

/-- `string_field`. -/
def stringField (event : RawJson) (key : String) (max : ℕ) : Option String := do
  let value ← (event.get? key).bind RawJson.asStr
  let value := trim value
  if value.isEmpty || decide (value.utf8ByteSize > max) || value.toList.any isAsciiControl then none
  else some value

/-- `EventIdentity`. -/
structure EventIdentity where
  eventId : String
  bootId : String
  sourceSeq : Option ℤ
  kind : String
  processKey : Option String
  artifactSha256 : Option String
  observedAt : Option Time

/-- The first of the four digest fields that holds a digest. -/
def artifactDigest (event : RawJson) : Option String :=
  ["exe_sha256", "script_sha256", "file_sha256", "sha256"].findSome? fun key => do
    let value ← stringField event key 64
    if validSha256 value then some (asciiLowercase value) else none

/-- `event_identity`. -/
def eventIdentity (m : MerlinConfig) (index : ℕ) (event : RawJson) : Except Error EventIdentity :=
  let bootId := (stringField event "boot_id" 128).getD "unknown"
  let sourceSeq := (event.get? "source_seq").bind RawJson.asI64
  let derived := if bootId ≠ "unknown" then sourceSeq.map fun seq => s!"{bootId}:{seq}" else none
  match (stringField event "event_id" maxEventIdBytes).or derived with
  | none =>
    .error (.badRequest s!"Merlin event {index} is missing event_id or boot_id/source_seq")
  | some eventId => .ok
    { eventId, bootId, sourceSeq
      kind := (stringField event "kind" 64).getD "unknown"
      processKey := stringField event "process_key" 256
      artifactSha256 := artifactDigest event
      observedAt := (event.get? "ts").bind m.timestamp }

/-! ### Tables -/

/-- A row of `merlin_segment`. -/
structure MerlinSegment where
  id : Uuid
  tenant : Uuid
  hostName : String
  segment : String
  segmentSha256 : String
  schemaVersion : ℤ
  receivedAt : Time
  eventCount : ℕ

/-- `UNIQUE (tenant_id, host_name, segment)`. -/
def MerlinSegment.key (r : MerlinSegment) : Uuid × String × String :=
  (r.tenant, r.hostName, r.segment)

/-- What an event says once it has been identified: the columns of its row that
the request determines. -/
structure Observation where
  tenant : Uuid
  hostName : String
  segment : String
  identity : EventIdentity
  payload : RawJson

/-- `UNIQUE (tenant_id, host_name, event_id)`. -/
def Observation.key (o : Observation) : Uuid × String × String :=
  (o.tenant, o.hostName, o.identity.eventId)

/-- A row of `merlin_observation`. -/
structure MerlinObservation extends Observation where
  id : Uuid
  segmentId : Uuid
  receivedAt : Time

def MerlinObservation.key (r : MerlinObservation) : Uuid × String × String := r.toObservation.key

structure MerlinDb where
  segments : Table MerlinSegment.key
  observations : Table MerlinObservation.key

/-- The committed tables, and the copy an open transaction works on. -/
structure MerlinStore where
  tables : MerlinDb
  tx : MerlinDb

namespace MerlinDb

/-- `INSERT INTO merlin_segment`. -/
def insertSegment (d : MerlinDb) (row : MerlinSegment) : Except Error (Uuid × MerlinDb) :=
  if d.segments.rows.any fun r => r.id = row.id then .error (.db "merlin_segment_pkey")
  else .ok (row.id, { d with segments := d.segments.insertNew row })

/-- `INSERT INTO merlin_observation … ON CONFLICT DO NOTHING`, with the number of
rows affected. -/
def insertObservation (d : MerlinDb) (row : MerlinObservation) : Except Error (ℕ × MerlinDb) :=
  if (d.observations.get row.key).isSome then .ok (0, d)
  else if d.observations.rows.any fun r => r.id = row.id then
    .error (.db "merlin_observation_pkey")
  else .ok (1, { d with observations := d.observations.insertNew row })

/-- `SELECT COUNT(*) FROM merlin_observation WHERE segment_id`. -/
def countOf (d : MerlinDb) (segment : Uuid) : ℕ :=
  d.observations.rows.countP fun r => r.segmentId = segment

/-- `UPDATE merlin_segment SET event_count`. -/
def updateCount (d : MerlinDb) (segment : Uuid) : MerlinDb :=
  { d with
    segments := d.segments.updateWhere (fun r => r.id = segment)
      (fun r => { r with eventCount := d.countOf segment }) fun _ => rfl }

end MerlinDb

/-! ### The call -/

/-- Statements of `ingest_segment`. -/
inductive MerlinPt where
  | begin
  | findSegment
  | insertSegment
  | insertObservation (index : ℕ)
  | updateCount
  | commit

abbrev MerlinSrv := Prog MerlinPt MerlinStore Env Error

/-- A statement that may fail, on the transaction's copy. -/
def MerlinSrv.exec {α : Type} (l : MerlinPt) (f : MerlinDb → Env → Except Error (α × MerlinDb)) :
    MerlinSrv α :=
  Prog.exec l fun s env => (f s.tx env).map fun r => (r.1, { s with tx := r.2 })

/-- Find or insert the row of the segment. -/
def segmentRow (t : Uuid) (req : MerlinSegmentRequest) (digest : String) : MerlinSrv Uuid := do
  let existing ← Prog.query .findSegment fun s =>
    s.tx.segments.get (t, req.hostName, req.segment)
  match existing with
  | some row =>
    if row.segmentSha256 ≠ digest then
      let host := req.hostName
      let segment := req.segment
      Prog.err (.conflict
        s!"Merlin segment {host}/{segment} was already stored with a different digest")
    else return row.id
  | none =>
    MerlinSrv.exec .insertSegment fun d env => d.insertSegment
      ⟨env.uuid 0, t, req.hostName, req.segment, digest, req.schemaVersion, env.now, 0⟩

/-- One event of the batch. -/
def ingestEvent (m : MerlinConfig) (t : Uuid) (req : MerlinSegmentRequest) (segment : Uuid)
    (accepted : ℕ) (e : RawJson × ℕ) : MerlinSrv ℕ :=
  match eventIdentity m e.2 e.1 with
  | .error err => Prog.err err
  | .ok identity => do
    let n ← MerlinSrv.exec (.insertObservation e.2) fun d env => d.insertObservation
      ⟨⟨t, req.hostName, req.segment, identity, e.1⟩, env.uuid 0, segment, env.now⟩
    return accepted + n

/-- `ingest_segment`. -/
def ingestSegment (m : MerlinConfig) (t : Uuid) (req : MerlinSegmentRequest) :
    MerlinSrv MerlinSegmentResponse :=
  match validateRequest m req with
  | .error e => Prog.err e
  | .ok _ => do
    let digest := asciiLowercase req.segmentSha256
    Prog.update .begin fun s _ => { s with tx := s.tables }
    let segment ← segmentRow t req digest
    let accepted ← Prog.loop (ingestEvent m t req segment) req.events.zipIdx 0
    Prog.update .updateCount fun s _ => { s with tx := s.tx.updateCount segment }
    Prog.update .commit fun s _ => { s with tables := s.tx }
    return ⟨merlinSchemaVersion, 1, segment, digest,
      if accepted = 0 then "duplicate" else "accepted", accepted, req.events.length - accepted⟩

end Corpus
