/-
Detonation (`detonate.rs`, `0007_detonation.sql`, and the server's calls of it), statement by
statement.

A sample goes to an external sandbox: an audit row is written, the bytes are posted, the task is
polled, and what the report says is stored as findings of one analysis run.  The rows are separate
statements, and a call may be cut off between any two.

* `Move` — what a statement can do, whoever runs it; `takes_body` — the calls do nothing else;
* `length_mapReportToFindings_le` — a report gives at most fifty findings.

`requests` records the requests handed to the HTTP client, and what came of them.  The artifact
and its object are what the lookups return; who else changes them does not matter here.
-/
import Corpus.Pool
import Corpus.SavedImages
import Corpus.Table
import Mathlib.Algebra.Group.Int.Defs
import Mathlib.Data.Int.Notation

namespace Corpus.Detonation

/-! ### Reports -/

/-- `Value::as_i64`. -/
def asI64 : Json → Option ℤ
  | .num n => if -2 ^ 63 ≤ n ∧ n < 2 ^ 63 then some n else none
  | .null | .bool _ | .str _ | .arr _ | .obj _ => none

/-- One entry of `signatures`. -/
def signatureFinding (sig : Json) : Json :=
  let name := ((sig.get? "name").bind Json.asStr).getD "signature"
  let desc := ((sig.get? "description").bind Json.asStr).getD ""
  let severity := ((sig.get? "severity").bind asI64).getD 1
  .obj [("category", .str "signature"), ("summary", .str (name ++ ": " ++ desc)),
    ("severity", .num severity), ("sandbox", .str "cape")]

/-- One entry of `ttps`. -/
def attackFinding (ttp : Json) : Option Json :=
  ((ttp.get? "ttp").bind Json.asStr).map fun id =>
    .obj [("category", .str "attack"),
      ("summary", .str ("ATT&CK " ++ id ++ " (observed in sandbox)")), ("sandbox", .str "cape")]

/-- `map_report_to_findings`. -/
def mapReportToFindings (report : Json) : List Json :=
  let sigs := ((report.get? "signatures").bind Oci.asArray).getD []
  let ttps := ((report.get? "ttps").bind Oci.asArray).getD []
  (sigs.take 25).map signatureFinding ++ (ttps.take 25).filterMap attackFinding

theorem length_mapReportToFindings_le (report : Json) :
    (mapReportToFindings report).length ≤ 50 := by
  have hsigs := List.length_take_le 25 (((report.get? "signatures").bind Oci.asArray).getD [])
  have https := List.length_filterMap_le attackFinding
    ((((report.get? "ttps").bind Oci.asArray).getD []).take 25)
  have htake := List.length_take_le 25 (((report.get? "ttps").bind Oci.asArray).getD [])
  rw [mapReportToFindings, List.length_append, List.length_map]
  omega

/-! ### Tables and requests -/

/-- A row of `audit_event`. -/
structure AuditEvent where
  id : Uuid
  tenant : Uuid
  actor : String
  action : String
  target : String
  detail : Json
  createdAt : Time

/-- A row of `analysis_run`. -/
structure AnalysisRun where
  id : Uuid
  tenant : Uuid
  artifact : Uuid
  analyzerName : String
  analyzerVersion : String
  analyzerImageDigest : String
  configDigest : Bytes
  supportDataDigest : Bytes
  status : String
  startedAt : Time
  completedAt : Time

/-- A row of `finding`. -/
structure Finding where
  id : Uuid
  tenant : Uuid
  artifact : Uuid
  analysisRun : Uuid
  evidenceType : String
  category : String
  summary : String
  detail : Json
  createdAt : Time

inductive Method where
  | get
  | post
  deriving DecidableEq

/-- A request; `file` is the name and the content of its multipart file. -/
structure HttpRequest where
  method : Method
  url : String
  authorization : Option String
  file : Option (String × Bytes)

/-- An answer: its status, the text of that, and its body read as JSON. -/
structure HttpResponse where
  code : ℕ
  status : String
  body : Except String Json

/-- What the HTTP client returns. -/
abbrev HttpAnswer := Except String HttpResponse

def HttpResponse.isSuccess (r : HttpResponse) : Bool := 200 ≤ r.code && r.code < 300

structure DetonationDb where
  audits : Table AuditEvent.id
  runs : Table AnalysisRun.id
  findings : Table Finding.id
  requests : List (HttpRequest × HttpAnswer)

def DetonationDb.empty : DetonationDb := ⟨.empty, .empty, .empty, []⟩

/-- What a statement takes from outside: a fresh identifier, the clock, whether the database
fails, the answer to a request, and what the lookups of an artifact and of its object find. -/
structure DetonationInput where
  id : Uuid
  now : Time
  dbFails : Option String
  answer : HttpAnswer
  artifact : Option (Uuid × String)
  object : Except String Bytes

/-- What `detonate` is asked for. -/
structure Job where
  tenant : Uuid
  artifact : Uuid
  artifactSha : String
  bytes : Bytes
  actor : String

/-- The statements.  `known` is the artifact that the caller has named, if it has; `left` are the
polls to come, `rest` the findings. -/
inductive DetonationPt where
  | artifact (t : Uuid) (sha : String) (known : Option Uuid)
  | readObject (t artifact : Uuid) (sha : String)
  | audit (j : Job)
  | submit (j : Job)
  | view (j : Job) (task : String) (left : ℕ)
  | report (j : Job) (task : String) (left : ℕ)
  | sleep (j : Job) (task : String) (left : ℕ)
  | run (j : Job) (report : Json)
  | finding (j : Job) (run : Uuid) (report f : Json) (rest : List Json)

abbrev DetonationProg := Prog DetonationPt DetonationDb DetonationInput Error

/-- An SQL statement. -/
def sql {α : Type} (l : DetonationPt)
    (f : DetonationDb → DetonationInput → Except Error (α × DetonationDb)) : DetonationProg α :=
  .exec l fun s i =>
    match i.dbFails with
    | some msg => .error (.db msg)
    | none => f s i

/-- A request. -/
def http (l : DetonationPt) (q : HttpRequest) : DetonationProg HttpAnswer :=
  .exec l fun s i => .ok (i.answer, { s with requests := s.requests ++ [(q, i.answer)] })

/-! ### The provider -/

/-- `ProviderCapabilities`. -/
structure ProviderCapabilities where
  name : String
  sampleBytes : Bool
  hashOnly : Bool
  selfHosted : Bool

/-- `CapeProvider`. -/
structure CapeProvider where
  base : String
  token : Option String

/-- `PollOutcome`. -/
inductive PollOutcome where
  | pending
  | done (report : Json)
  | failed (msg : String)

/-- `trim_end_matches('/')`. -/
def trimSlashes (s : String) : String := String.ofList (s.toList.reverse.dropWhile (· = '/')).reverse

namespace CapeProvider

/-- `CapeProvider::new`. -/
def new (base : String) (token : Option String) : CapeProvider := ⟨trimSlashes base, token⟩

/-- `capabilities`. -/
def capabilities (_ : CapeProvider) : ProviderCapabilities := ⟨"cape", true, false, true⟩

/-- `auth`. -/
def auth (p : CapeProvider) : Option String := p.token.map ("Token " ++ ·)

/-- The request of `submit`. -/
def submitRequest (p : CapeProvider) (fileName : String) (bytes : Bytes) : HttpRequest :=
  ⟨.post, p.base ++ "/api/tasks/create/file/", p.auth, some (fileName, bytes)⟩

/-- The first request of `poll`. -/
def viewRequest (p : CapeProvider) (task : String) : HttpRequest :=
  ⟨.get, p.base ++ "/api/tasks/view/" ++ task, p.auth, none⟩

/-- The second request of `poll`. -/
def reportRequest (p : CapeProvider) (task : String) : HttpRequest :=
  ⟨.get, p.base ++ "/api/tasks/report/" ++ task, p.auth, none⟩

/-- The body of an answer to the request called `what`. -/
def body (what : String) : HttpAnswer → Except Error Json
  | .error e => .error (.badRequest ("cape " ++ what ++ ": " ++ e))
  | .ok r =>
    if !r.isSuccess then .error (.badRequest ("cape " ++ what ++ " -> " ++ r.status))
    else match r.body with
      | .error e => .error (.badRequest e)
      | .ok v => .ok v

/-- The task id of a body of `submit`. -/
def taskId (v : Json) : Option ℤ :=
  let first := (v.get? "data").bind fun d =>
    ((d.get? "task_ids").bind Oci.asArray).bind List.head?
  (first.or (v.get? "task_id")).bind asI64

/-- What `submit` returns for an answer. -/
def submitted (display : Json → String) (answer : HttpAnswer) : Except Error String :=
  (body "submit" answer).bind fun v =>
    match taskId v with
    | some task => .ok (toString task)
    | none => .error (.badRequest ("cape submit: no task id in " ++ display v))

/-- The status of a body of the first request of `poll`. -/
def taskStatus (v : Json) : String :=
  (((v.get? "task").bind (·.get? "status")).bind Json.asStr).getD ""

/-- `submit`. -/
def submit (display : Json → String) (p : CapeProvider) (j : Job) : DetonationProg String := do
  let answer ← http (.submit j) (p.submitRequest j.artifactSha j.bytes)
  match submitted display answer with
  | .error e => .err e
  | .ok task => return task

/-- `poll`. -/
def poll (p : CapeProvider) (j : Job) (task : String) (left : ℕ) : DetonationProg PollOutcome := do
  let answer ← http (.view j task left) (p.viewRequest task)
  match body "view" answer with
  | .error e => .err e
  | .ok v =>
    let status := taskStatus v
    if status = "reported" ∨ status = "completed" then do
      let answer ← http (.report j task left) (p.reportRequest task)
      match body "report" answer with
      | .error e => .err e
      | .ok report => return .done report
    else if status = "failed_analysis" ∨ status = "failed_processing" ∨
        status = "failed_reporting" then
      return .failed ("cape task " ++ task ++ " status " ++ status)
    else return .pending

end CapeProvider

/-! ### The flow -/

/-- `DetonationConfig`, and what else the environment says. -/
structure DetonationConfig where
  enabled : Bool
  capeUrl : Option String
  capeToken : Option String
  maxPolls : ℕ
  allowNoAuth : Bool
  auto : Bool
  display : Json → String

/-- `DetonationConfig::validate`. -/
def DetonationConfig.validate (cfg : DetonationConfig) : Except Error Unit :=
  if !cfg.enabled then .ok ()
  else if (cfg.capeUrl.getD "").isEmpty then
    .error (.badRequest "CORPUS_DETONATION_ENABLED=1 requires CORPUS_CAPE_URL")
  else if (cfg.capeToken.getD "").isEmpty && !cfg.allowNoAuth then
    .error (.badRequest ("CORPUS_DETONATION_ENABLED=1 requires CORPUS_CAPE_TOKEN " ++
      "(or CORPUS_CAPE_ALLOW_NO_AUTH=1 for a local unauthenticated CAPE)"))
  else .ok ()

/-- `DetonationResult`. -/
structure DetonationResult where
  analysisRunId : Uuid
  findingCount : ℕ
  findings : List Json

/-- The row of the audit. -/
def auditEvent (caps : ProviderCapabilities) (j : Job) (i : DetonationInput) : AuditEvent :=
  { id := i.id
    tenant := j.tenant
    actor := j.actor
    action := "detonate.submit"
    target := j.artifactSha
    detail := .obj [("provider", .str caps.name), ("sample_bytes", .bool caps.sampleBytes),
      ("self_hosted", .bool caps.selfHosted)]
    createdAt := i.now }

/-- What a `bytea` of 32 zeros is as a `text`. -/
def dummyText : String := "\\x" ++ String.ofList (List.replicate 64 '0')

/-- The row of the run. -/
def analysisRun (j : Job) (i : DetonationInput) : AnalysisRun :=
  { id := i.id
    tenant := j.tenant
    artifact := j.artifact
    analyzerName := "cape"
    analyzerVersion := "cape-adapter:v1"
    analyzerImageDigest := dummyText
    configDigest := List.replicate 32 0
    supportDataDigest := List.replicate 32 0
    status := "completed"
    startedAt := i.now
    completedAt := i.now }

/-- What is unique about a run, besides its identifier. -/
def AnalysisRun.key (r : AnalysisRun) : Uuid × Uuid × String × String × Bytes × Bytes :=
  (r.tenant, r.artifact, r.analyzerName, r.analyzerImageDigest, r.configDigest, r.supportDataDigest)

/-- The row of a finding. -/
def findingRow (j : Job) (run : Uuid) (f : Json) (i : DetonationInput) : Finding :=
  { id := i.id
    tenant := j.tenant
    artifact := j.artifact
    analysisRun := run
    evidenceType := "DYNAMIC_BEHAVIOR"
    category := ((f.get? "category").bind Json.asStr).getD "signature"
    summary := ((f.get? "summary").bind Json.asStr).getD ""
    detail := f
    createdAt := i.now }

/-- The polls. -/
def pollLoop (p : CapeProvider) (j : Job) (task : String) : ℕ → DetonationProg (Option Json)
  | 0 => .ret none
  | left + 1 => do
    let outcome ← p.poll j task left
    match outcome with
    | .done report => return some report
    | .failed e => .err (.badRequest e)
    | .pending => do
      .exec (.sleep j task left) fun s _ => .ok ((), s)
      pollLoop p j task left

/-- The `INSERT`s of the findings. -/
def storeFindings (j : Job) (run : Uuid) (report : Json) : List Json → DetonationProg Unit
  | [] => .ret ()
  | f :: rest => do
    sql (.finding j run report f rest) fun s i =>
      if (s.runs.get run).isNone then .error (.db "finding_analysis_run_id_fkey")
      else if (s.findings.get i.id).isSome then .error (.db "finding_pkey")
      else .ok ((), { s with findings := s.findings.insertNew (findingRow j run f i) })
    storeFindings j run report rest

/-- What is done with a report. -/
def persist (j : Job) (report : Json) : DetonationProg DetonationResult := do
  let run ← sql (.run j report) fun s i =>
    let r := analysisRun j i
    if (s.runs.get i.id).isSome || s.runs.rows.any (·.key = r.key) then
      .error (.db "analysis_run_pkey, or its other unique columns")
    else .ok (i.id, { s with runs := s.runs.insertNew r })
  let findings := mapReportToFindings report
  storeFindings j run report findings
  return ⟨run, findings.length, findings⟩

/-- `detonate`. -/
def detonate (cfg : DetonationConfig) (p : CapeProvider) (j : Job) :
    DetonationProg DetonationResult :=
  if !cfg.enabled then
    .err (.forbidden ("detonation egress is disabled; set CORPUS_DETONATION_ENABLED=1 to send " ++
      "sample bytes to an external sandbox"))
  else
    let caps := p.capabilities
    if !caps.sampleBytes then .err (.badRequest "provider does not accept sample bytes")
    else do
      sql (.audit j) fun s i =>
        if (s.audits.get i.id).isSome then .error (.db "audit_event_pkey")
        else .ok ((), { s with audits := s.audits.insertNew (auditEvent caps j i) })
      let task ← p.submit cfg.display j
      let report ← pollLoop p j task cfg.maxPolls
      match report with
      | none => .err (.badRequest "detonation timed out")
      | some report => persist j report

/-! ### Calls -/

/-- `detonate_artifact` of the server, for the tenant that it has resolved. -/
def detonateArtifact (cfg : DetonationConfig) (t : Uuid) (sha256 : String) :
    DetonationProg DetonationResult :=
  match hexToRaw sha256 with
  | none => .err (.badRequest "invalid sha256 hex")
  | some _ => do
    let row ← sql (.artifact t sha256 none) fun s i => .ok (i.artifact, s)
    match row with
    | none => .err (.notFound ("artifact " ++ sha256))
    | some (artifact, _) => do
      let bytes ← .exec (.readObject t artifact sha256) fun s i =>
        match i.object with
        | .ok bytes => .ok (bytes, s)
        | .error msg => .error (.io msg)
      match cfg.validate with
      | .error e => .err e
      | .ok () =>
        if !cfg.enabled then
          .err (.badRequest "detonation disabled; set CORPUS_DETONATION_ENABLED=1")
        else match cfg.capeUrl with
          | some url =>
            detonate cfg (.new url cfg.capeToken) ⟨t, artifact, sha256, bytes, "corpusctl"⟩
          | none => .err (.badRequest ("no detonation provider configured (set CORPUS_CAPE_URL " ++
              "and CORPUS_DETONATION_ENABLED=1)"))

/-- What `set_opinion` of the server does about an opinion that it has set. -/
def autoSubmit (cfg : DetonationConfig) (t artifact : Uuid) (sha256 opinion : String) :
    DetonationProg (Option DetonationResult) :=
  if (opinion = "malicious" ∨ opinion = "suspicious") ∧ cfg.auto ∧ cfg.enabled then
    match cfg.capeUrl with
    | none => .ret none
    | some url => do
      let row ← sql (.artifact t sha256 (some artifact)) fun s i => .ok (i.artifact.map Prod.snd, s)
      match row with
      | none => return none
      | some _ => do
        let object ← .exec (.readObject t artifact sha256) fun s i => .ok (i.object, s)
        match object with
        | .error _ => return none
        | .ok bytes => do
          let r ← detonate cfg (.new url cfg.capeToken)
            ⟨t, artifact, sha256, bytes, "auto-policy"⟩
          return some r
  else .ret none

inductive DetonationCall where
  | detonateArtifact (t : Uuid) (sha256 : String)
  | autoSubmit (t artifact : Uuid) (sha256 opinion : String)

def DetonationCall.body (cfg : DetonationConfig) :
    DetonationCall → DetonationProg (Option DetonationResult)
  | detonateArtifact t sha256 => do
    let r ← Detonation.detonateArtifact cfg t sha256
    return some r
  | autoSubmit t artifact sha256 opinion => Detonation.autoSubmit cfg t artifact sha256 opinion

/-! ### What a statement can do -/

/-- The provider that the server talks to. -/
def DetonationConfig.provider (cfg : DetonationConfig) : CapeProvider :=
  .new (cfg.capeUrl.getD "") cfg.capeToken

/-- The request of a statement that is one. -/
def DetonationPt.request (cfg : DetonationConfig) : DetonationPt → Option HttpRequest
  | submit j => some (cfg.provider.submitRequest j.artifactSha j.bytes)
  | view _ task _ => some (cfg.provider.viewRequest task)
  | report _ task _ => some (cfg.provider.reportRequest task)
  | artifact _ _ _ | readObject _ _ _ | audit _ | sleep _ _ _ | run _ _ | finding _ _ _ _ _ => none

/-- The store after a request. -/
def DetonationDb.requested (s : DetonationDb) (q : HttpRequest) (answer : HttpAnswer) :
    DetonationDb :=
  { s with requests := s.requests ++ [(q, answer)] }

/-- Where the polls go on of which `left` are to come. -/
def Polling (j : Job) (task : String) (left : ℕ)
    (c : Ctl DetonationPt (Option DetonationResult)) : Prop :=
  match left with
  | 0 => c = .failed
  | left + 1 => c = .at (.view j task left)

/-- Where the `INSERT`s of findings go on of which `rest` are to come. -/
def Storing (j : Job) (run : Uuid) (report : Json) (rest : List Json)
    (c : Ctl DetonationPt (Option DetonationResult)) : Prop :=
  match rest with
  | [] =>
    let findings := mapReportToFindings report
    c = .done (some ⟨run, findings.length, findings⟩)
  | f :: rest => c = .at (.finding j run report f rest)

/-- The steps. -/
inductive Move (cfg : DetonationConfig) : DetonationPt → DetonationInput → DetonationDb →
    DetonationDb → Ctl DetonationPt (Option DetonationResult) → Prop where
  | fails {l : DetonationPt} {i : DetonationInput} {s : DetonationDb} (hl : l.request cfg = none) :
      Move cfg l i s s .failed
  | refused {l : DetonationPt} {i : DetonationInput} {s : DetonationDb} {q : HttpRequest}
      (hl : l.request cfg = some q) : Move cfg l i s (s.requested q i.answer) .failed
  | idle {l : DetonationPt} {i : DetonationInput} {s : DetonationDb}
      (hl : (∃ t sha known, l = .artifact t sha known) ∨
        ∃ t artifact sha, l = .readObject t artifact sha) :
      Move cfg l i s s (.done none)
  | found {t artifact : Uuid} {sha : String} {known : Option Uuid} {i : DetonationInput}
      {s : DetonationDb} (hfound : known.or (i.artifact.map Prod.fst) = some artifact) :
      Move cfg (.artifact t sha known) i s s (.at (.readObject t artifact sha))
  | read {l : DetonationPt} {j : Job} {i : DetonationInput} {s : DetonationDb}
      (henabled : cfg.enabled = true) (hobject : i.object = .ok j.bytes)
      (hl : l = .readObject j.tenant j.artifact j.artifactSha) : Move cfg l i s s (.at (.audit j))
  | audited {j : Job} {i : DetonationInput} {s : DetonationDb} (hid : s.audits.get i.id = none) :
      Move cfg (.audit j) i s
        { s with audits := s.audits.insertNew (auditEvent cfg.provider.capabilities j i) }
        (.at (.submit j))
  | submitted {j : Job} {task : String} {i : DetonationInput} {s : DetonationDb}
      {c : Ctl DetonationPt (Option DetonationResult)}
      (htask : CapeProvider.submitted cfg.display i.answer = .ok task)
      (hc : Polling j task cfg.maxPolls c) :
      Move cfg (.submit j) i s
        (s.requested (cfg.provider.submitRequest j.artifactSha j.bytes) i.answer) c
  | pending {j : Job} {task : String} {left : ℕ} {i : DetonationInput} {s : DetonationDb} :
      Move cfg (.view j task left) i s (s.requested (cfg.provider.viewRequest task) i.answer)
        (.at (.sleep j task left))
  | finished {j : Job} {task : String} {left : ℕ} {i : DetonationInput} {s : DetonationDb} :
      Move cfg (.view j task left) i s (s.requested (cfg.provider.viewRequest task) i.answer)
        (.at (.report j task left))
  | reported {j : Job} {task : String} {left : ℕ} {report : Json} {i : DetonationInput}
      {s : DetonationDb} (hreport : CapeProvider.body "report" i.answer = .ok report) :
      Move cfg (.report j task left) i s (s.requested (cfg.provider.reportRequest task) i.answer)
        (.at (.run j report))
  | slept {j : Job} {task : String} {left : ℕ} {i : DetonationInput} {s : DetonationDb}
      {c : Ctl DetonationPt (Option DetonationResult)} (hc : Polling j task left c) :
      Move cfg (.sleep j task left) i s s c
  | ran {j : Job} {report : Json} {i : DetonationInput} {s : DetonationDb}
      {c : Ctl DetonationPt (Option DetonationResult)} (hid : s.runs.get i.id = none)
      (hkey : ∀ r ∈ s.runs.rows, r.key ≠ (analysisRun j i).key)
      (hc : Storing j i.id report (mapReportToFindings report) c) :
      Move cfg (.run j report) i s { s with runs := s.runs.insertNew (analysisRun j i) } c
  | stored {j : Job} {run : Uuid} {report f : Json} {rest : List Json} {i : DetonationInput}
      {s : DetonationDb} {c : Ctl DetonationPt (Option DetonationResult)}
      (hid : s.findings.get i.id = none) (hc : Storing j run report rest c) :
      Move cfg (.finding j run report f rest) i s
        { s with findings := s.findings.insertNew (findingRow j run f i) } c

section Moves

variable {cfg : DetonationConfig}

/-- An SQL statement makes a move when it fails, and when it does not. -/
theorem takes_sql_bind {α : Type} {l : DetonationPt}
    {f : DetonationDb → DetonationInput → Except Error (α × DetonationDb)}
    {g : α → DetonationProg (Option DetonationResult)} (hl : l.request cfg = none)
    (h : ∀ s i r, f s i = .ok r → Move cfg l i s r.2 (g r.1).ctl ∧ (g r.1).Takes (Move cfg)) :
    (sql l f >>= g).Takes (Move cfg) := by
  refine Prog.takes_exec_bind fun s i => ?_
  cases hfail : i.dbFails with
  | some msg => exact .fails hl
  | none =>
    dsimp only
    cases hf : f s i with
    | error e => exact .fails hl
    | ok r => exact h s i r hf

theorem storing_storeFindings (j : Job) (run : Uuid) (report : Json) (rest : List Json) :
    Storing j run report rest (storeFindings j run report rest >>= fun _ =>
      (return some ⟨run, (mapReportToFindings report).length, mapReportToFindings report⟩ :
        DetonationProg (Option DetonationResult))).ctl := by
  cases rest with
  | nil => rfl
  | cons f rest => rfl

theorem takes_storeFindings (j : Job) (run : Uuid) (report : Json) (rest : List Json) :
    (storeFindings j run report rest >>= fun _ =>
      (return some ⟨run, (mapReportToFindings report).length, mapReportToFindings report⟩ :
        DetonationProg (Option DetonationResult))).Takes (Move cfg) := by
  induction rest with
  | nil => trivial
  | cons f rest ih =>
    rw [storeFindings, Prog.bind_assoc']
    refine takes_sql_bind rfl fun s i r hr => ?_
    split at hr
    · cases hr
    split at hr
    · cases hr
    next _ hid =>
    obtain rfl := Except.ok.inj hr
    exact ⟨.stored (by simpa using hid) (storing_storeFindings _ _ _ _), ih⟩

theorem takes_persist (j : Job) (report : Json) :
    (persist j report >>= fun r => (return some r : DetonationProg _)).Takes (Move cfg) := by
  rw [persist, Prog.bind_assoc']
  refine takes_sql_bind rfl fun s i r hr => ?_
  dsimp only at hr
  split at hr
  · cases hr
  next hnew =>
  obtain rfl := Except.ok.inj hr
  obtain ⟨hid, hkey⟩ : s.runs.get i.id = none ∧
      ∀ r ∈ s.runs.rows, r.key ≠ (analysisRun j i).key := by simpa using hnew
  dsimp only
  rw [Prog.bind_assoc']
  exact ⟨.ran hid hkey (storing_storeFindings _ _ _ _), takes_storeFindings _ _ _ _⟩

/-- What `detonate` does after the polls. -/
def afterPolls (j : Job) : Option Json → DetonationProg (Option DetonationResult)
  | none => .err (.badRequest "detonation timed out")
  | some report => persist j report >>= fun r => return some r

theorem polling_pollLoop (p : CapeProvider) (j : Job) (task : String) (left : ℕ) :
    Polling j task left (pollLoop p j task left >>= afterPolls j).ctl := by
  cases left with
  | zero => rfl
  | succ left => rfl

theorem takes_pollLoop (j : Job) (task : String) (left : ℕ) :
    (pollLoop cfg.provider j task left >>= afterPolls j).Takes (Move cfg) := by
  induction left with
  | zero => trivial
  | succ left ih =>
    rw [pollLoop, Prog.bind_assoc', CapeProvider.poll, Prog.bind_assoc']
    refine Prog.takes_exec_bind fun s i => ?_
    dsimp only
    cases hview : CapeProvider.body "view" i.answer with
    | error e => exact ⟨.refused rfl, trivial⟩
    | ok v =>
      dsimp only
      split
      · rw [Prog.bind_assoc']
        refine ⟨.finished, Prog.takes_exec_bind fun s' i' => ?_⟩
        dsimp only
        cases hreport : CapeProvider.body "report" i'.answer with
        | error e => exact ⟨.refused rfl, trivial⟩
        | ok report => exact ⟨.reported hreport, takes_persist j report⟩
      split
      · exact ⟨.refused rfl, trivial⟩
      · refine ⟨.pending, ?_⟩
        rw [Prog.pure_eq, Prog.ret_bind, Prog.bind_assoc']
        refine Prog.takes_exec_bind fun s' i' => ?_
        exact ⟨.slept (polling_pollLoop _ _ _ _), ih⟩

/-- `detonate` begins with the audit. -/
theorem ctl_detonate (henabled : cfg.enabled = true) (j : Job) :
    (detonate cfg cfg.provider j >>= fun r => (return some r : DetonationProg _)).ctl =
      .at (.audit j) := by
  rw [detonate, if_neg (by simp [henabled])]
  rfl

theorem takes_detonate (j : Job) :
    (detonate cfg cfg.provider j >>= fun r => (return some r : DetonationProg _)).Takes
      (Move cfg) := by
  unfold detonate
  split
  · trivial
  show ((sql (.audit j) _ >>= fun _ => _) >>= _).Takes _
  rw [Prog.bind_assoc']
  refine takes_sql_bind rfl fun s i r hr => ?_
  split at hr
  · cases hr
  next hid =>
  obtain rfl := Except.ok.inj hr
  refine ⟨.audited (by simpa using hid), ?_⟩
  show ((CapeProvider.submit cfg.display cfg.provider j >>= fun _ => _) >>= _).Takes _
  rw [Prog.bind_assoc', CapeProvider.submit, Prog.bind_assoc']
  refine Prog.takes_exec_bind fun s' i' => ?_
  dsimp only
  have hafter : ∀ task, ((pollLoop cfg.provider j task cfg.maxPolls >>= fun report =>
      match report with
      | none => .err (.badRequest "detonation timed out")
      | some report => persist j report) >>= fun r => (return some r : DetonationProg _)) =
      (pollLoop cfg.provider j task cfg.maxPolls >>= afterPolls j) := by
    intro task
    rw [Prog.bind_assoc']
    congr 1
    funext report
    cases report <;> rfl
  cases htask : CapeProvider.submitted cfg.display i'.answer with
  | error e => exact ⟨.refused rfl, trivial⟩
  | ok task =>
    show Move cfg _ _ _ _ (Prog.ctl ((pollLoop cfg.provider j task cfg.maxPolls >>= _) >>= _)) ∧
      Prog.Takes _ ((pollLoop cfg.provider j task cfg.maxPolls >>= _) >>= _)
    rw [hafter task]
    exact ⟨.submitted htask (polling_pollLoop _ _ _ _), takes_pollLoop _ _ _⟩

theorem provider_eq {url : String} (hurl : cfg.capeUrl = some url) :
    CapeProvider.new url cfg.capeToken = cfg.provider := by
  rw [DetonationConfig.provider, hurl]
  rfl

theorem takes_detonateArtifact (t : Uuid) (sha256 : String) :
    (detonateArtifact cfg t sha256 >>= fun r => (return some r : DetonationProg _)).Takes
      (Move cfg) := by
  unfold detonateArtifact
  split
  · trivial
  rw [Prog.bind_assoc']
  refine takes_sql_bind rfl fun s i r hr => ?_
  obtain rfl := Except.ok.inj hr
  dsimp only
  cases hrow : i.artifact with
  | none => exact ⟨.fails rfl, trivial⟩
  | some row =>
    dsimp only
    rw [Prog.bind_assoc']
    refine ⟨.found (by rw [hrow]; rfl), Prog.takes_exec_bind fun s' i' => ?_⟩
    cases hobject : i'.object with
    | error msg => exact .fails rfl
    | ok bytes =>
      dsimp only
      cases cfg.validate with
      | error e => exact ⟨.fails rfl, trivial⟩
      | ok u =>
        dsimp only
        split
        · exact ⟨.fails rfl, trivial⟩
        next henabled =>
        have henabled : cfg.enabled = true := by simpa using henabled
        cases hurl : cfg.capeUrl with
        | none => exact ⟨.fails rfl, trivial⟩
        | some url =>
          dsimp only
          rw [provider_eq hurl, ctl_detonate henabled]
          exact ⟨.read henabled hobject rfl, takes_detonate _⟩

theorem takes_autoSubmit (t artifact : Uuid) (sha256 opinion : String) :
    (autoSubmit cfg t artifact sha256 opinion).Takes (Move cfg) := by
  unfold autoSubmit
  split
  · next hpolicy =>
    cases hurl : cfg.capeUrl with
    | none => trivial
    | some url =>
      refine takes_sql_bind rfl fun s i r hr => ?_
      obtain rfl := Except.ok.inj hr
      dsimp only
      cases i.artifact with
      | none => exact ⟨.idle (.inl ⟨_, _, _, rfl⟩), trivial⟩
      | some row =>
        refine ⟨.found rfl, Prog.takes_exec_bind fun s' i' => ?_⟩
        dsimp only
        cases hobject : i'.object with
        | error msg => exact ⟨.idle (.inr ⟨_, _, _, rfl⟩), trivial⟩
        | ok bytes =>
          dsimp only
          rw [provider_eq hurl, ctl_detonate hpolicy.2.2]
          exact ⟨.read hpolicy.2.2 hobject rfl, takes_detonate _⟩
  · trivial

/-- The calls do nothing else. -/
theorem takes_body (c : DetonationCall) : (c.body cfg).Takes (Move cfg) := by
  cases c with
  | detonateArtifact t sha256 => exact takes_detonateArtifact t sha256
  | autoSubmit t artifact sha256 opinion => exact takes_autoSubmit t artifact sha256 opinion

/-- A call that begins has nothing in hand. -/
theorem ctl_body (cfg : DetonationConfig) (c : DetonationCall) : (c.body cfg).ctl = .failed ∨
    (c.body cfg).ctl = .done none ∨ ∃ t sha known, (c.body cfg).ctl = .at (.artifact t sha known) := by
  cases c with
  | detonateArtifact t sha256 =>
    show (detonateArtifact cfg t sha256 >>= _).ctl = _ ∨ (detonateArtifact cfg t sha256 >>= _).ctl = _ ∨
      ∃ t' sha known, (detonateArtifact cfg t sha256 >>= _).ctl = _
    unfold detonateArtifact
    split
    · exact .inl rfl
    · exact .inr (.inr ⟨_, _, _, rfl⟩)
  | autoSubmit t artifact sha256 opinion =>
    show (autoSubmit cfg t artifact sha256 opinion).ctl = _ ∨
      (autoSubmit cfg t artifact sha256 opinion).ctl = _ ∨
      ∃ t' sha known, (autoSubmit cfg t artifact sha256 opinion).ctl = _
    unfold autoSubmit
    split
    · cases cfg.capeUrl with
      | none => exact .inr (.inl rfl)
      | some url => exact .inr (.inr ⟨_, _, _, rfl⟩)
    · exact .inr (.inl rfl)

end Moves

end Corpus.Detonation
