/-
Who may write: tenants, enrollment and the identities behind a request (`tenant.rs`,
`agents.rs`, `auth.rs` and the handlers of `main.rs`).

Each SQL statement is one statement of a program over `AccessDb`, which adds the tables
of tenants, enrollment tokens and agents to the store of ingest.  The ingest functions
run on their part of it (`onDb`).

A request acts for a tenant in one of three ways: through an enrollment token, through
an agent's credential (bearer token or client certificate), or through the tenant header,
after `resolveActiveTenant`.  Only the first and the last look at the tenant's status.
-/
import Corpus.Agent.Service
import Corpus.Mtls
import Corpus.Rely
import Corpus.Server

namespace Corpus

open Agent (GapEvent AgentIdentity applyAgentIdentity recordGaps)

/-! ### Tables -/

/-- A row of `tenant`. -/
structure TenantRow where
  id : Uuid
  slug : String
  name : String
  status : String
  createdAt : Time

/-- A row of `enrollment_token`. -/
structure EnrollmentToken where
  tokenSha256 : Bytes
  tenant : Uuid
  label : String
  createdAt : Time
  expiresAt : Option Time
  consumedBy : Option Uuid
  consumedAt : Option Time

/-- A row of `agent`. -/
structure AgentRow where
  id : Uuid
  tenant : Uuid
  hostName : String
  tokenSha256 : Bytes
  version : String
  enrolledAt : Time
  lastHeartbeatAt : Option Time := none
  lastUploadAt : Option Time := none
  policyDigest : Option String := none
  baselineState : Option String := none
  baselinePercent : Option ℚ := none
  queueDepth : Option ℤ := none
  spoolBytes : Option ℤ := none
  oldestPendingSecs : Option ℤ := none
  sensor : Option String := none
  outcomeCounts : Json := .obj []
  clockOffsetMs : Option ℤ := none

/-- The store with the tables of this file. -/
structure AccessDb where
  tenants : Table TenantRow.id
  tokens : Table EnrollmentToken.tokenSha256
  agents : Table AgentRow.id
  db : Db

/-- The part of the store that ingest works on. -/
def AccessDb.dbLens : Lens AccessDb Db where
  get s := s.db
  set s d := { s with db := d }
  get_set _ _ := rfl
  set_get _ := rfl
  set_set _ _ _ := rfl

@[simp] theorem AccessDb.dbLens_get (s : AccessDb) : AccessDb.dbLens.get s = s.db := rfl

/-! ### Requests -/

/-- `EnrollRequest`. -/
structure EnrollRequest where
  enrollmentToken : String
  hostName : String
  agentVersion : String

/-- `EnrollResponse`. -/
structure EnrollResponse where
  agentId : Uuid
  agentToken : String
  tenantId : Uuid
  caCertPem : String
  clientCertPem : String
  clientKeyPem : String

/-- `HeartbeatRequest`. -/
structure HeartbeatRequest where
  agentVersion : String
  policyDigest : String
  baselineState : String
  baselinePercent : ℚ
  queueDepth : ℤ
  spoolBytes : ℤ
  oldestPendingSecs : Option ℤ
  sensor : String
  outcomeCounts : Json
  lastUploadAt : Option Time
  clockOffsetMs : Option ℤ

/-- Header names, in lower case, with the bytes of their values. -/
abbrev HeaderMap := List (String × Bytes)

/-- `HeaderMap::get`: the first value of the name. -/
def HeaderMap.get (h : HeaderMap) (name : String) : Option Bytes :=
  (h.find? fun e => e.1 = name).map Prod.snd

/-- `HeaderValue::to_str`: visible ASCII and tabs. -/
def headerText (v : Bytes) : Option String :=
  if v.all fun b => (32 ≤ b && b < 127) || b = 9 then
    some (String.ofList (v.map fun b => Char.ofNat b.toNat))
  else none

/-! ### Configuration -/

/-- `AuthConfig`. -/
structure AuthConfig where
  adminToken : Option String
  requireAdmin : Bool
  allowDevIngest : Bool
  mcpToken : String
  merlinIngestToken : Option String
  listenIsLoopback : Bool

/-- What is fixed for a running server: its `AuthConfig`, the configuration of ingest,
whether `CORPUS_AGENT_LEGACY_BEARER` is set, the `uuid` crate's parser and printer, the crates
for certificates, and the deployment CA. -/
structure AccessConfig where
  auth : AuthConfig
  server : Config
  legacyBearer : Bool
  parseUuid : String → Option Uuid
  showUuid : Uuid → String
  pki : Pki
  ca : DeploymentCa

/-- What a statement draws from outside. -/
structure AccessEnv where
  env : Env
  cert : CertDraw

/-- `str::as_bytes`. -/
def asBytes (s : String) : Bytes := s.toUTF8.data.toList

/-- `hash_token`. -/
def AccessConfig.hashToken (cfg : AccessConfig) (token : String) : Bytes :=
  cfg.server.sha256 (asBytes token)

/-- `agent_id_from_cert_der`. -/
def AccessConfig.agentIdFromCert (cfg : AccessConfig) (der : Bytes) : Except Error Uuid :=
  agentIdFromCertDer cfg.pki cfg.parseUuid der

/-- `sign_client_cert` for an agent, with the time and the draws of the statement. -/
def AccessConfig.signCert (cfg : AccessConfig) (agent : Uuid) (env : AccessEnv) :
    Except Error (String × String) :=
  signClientCert cfg.pki cfg.ca (cfg.showUuid agent) defaultTtlDays env.env.now env.cert

/-- Identifiers in unary, behind a zero. -/
def countedText (u : Uuid) : String := String.ofList ('0' :: List.replicate u '1')

def parseCounted (s : String) : Option Uuid :=
  match s.toList with
  | '0' :: ones => if ones.all (· = '1') then some ones.length else none
  | _ => none

theorem parseCounted_countedText (u : Uuid) : parseCounted (countedText u) = some u := by
  simp [parseCounted, countedText]

/-- Crates to run the model with: a certificate is as long as the identifier of its agent. -/
def Pki.plain : Pki where
  keyFromPem _ := .ok []
  serializePem _ := "key"
  publicKey := id
  certificateParams names := .ok ⟨names, "", certificateStart, 0⟩
  fromCaCertPem _ := .ok ⟨[], "", certificateStart, 0⟩
  selfSigned _ _ := .ok []
  signedBy params _ _ _ _ := .ok (List.replicate ((parseCounted params.commonName).getD 0) 0)
  pem _ := "cert"
  certs _ := .ok []
  pkcs8PrivateKeys _ := .ok []
  commonNames der := .ok [some (countedText der.length)]
  subjectKey _ := some []
  addRoot _ := .ok ()
  withSingleCert _ _ := .ok ()
  verifies _ _ _ := true

/-- A configuration to run the model with: tokens are kept in plain, and identifiers are counted
out. -/
def AccessConfig.plain : AccessConfig where
  auth := ⟨some "admin", true, false, "mcp", some "merlin", false⟩
  server := Config.plain
  legacyBearer := true
  parseUuid := parseCounted
  showUuid := countedText
  pki := Pki.plain
  ca := ⟨"ca", "ca-key", "server", "server-key", "/var/lib/corpus/ca"⟩

/-! ### Statements -/

/-- The statements of `tenant.rs` and `agents.rs`. -/
inductive AccessPt where
  | tenantById
  | tenantBySlug
  | agentByToken
  | agentById
  | heartbeat
  /-- the transaction of `record_gaps_scoped` -/
  | gaps
  | consume (req : EnrollRequest)
  | tokenTenant (req : EnrollRequest) (t : Uuid)
  | insertAgent (req : EnrollRequest) (t : Uuid)
  | consumedBy (req : EnrollRequest) (agent : Uuid)
  | sign (req : EnrollRequest) (agent : Uuid)
  | srv (p : Pt)

abbrev AccessProg := Prog AccessPt AccessDb AccessEnv Error

/-- A function of ingest, on its part of the store. -/
def onDb {α : Type} (p : Srv α) : AccessProg α := p.zoom .srv AccessDb.dbLens AccessEnv.env

/-! ### Tenants -/

/-- `DEFAULT_TENANT`. -/
def defaultTenant : Uuid := 1

/-- `get_tenant`. -/
def getTenant (cfg : AccessConfig) (l : AccessPt) (id : Uuid) : AccessProg TenantRow :=
  Prog.exec l fun s _ =>
    match s.tenants.get id with
    | some row => .ok (row, s)
    | none => .error (.notFound s!"tenant {cfg.showUuid id}")

/-- `get_tenant_by_slug`. -/
def getTenantBySlug (cfg : AccessConfig) (slug : String) : AccessProg TenantRow :=
  Prog.exec .tenantBySlug fun s _ =>
    match s.tenants.rows.find? fun r => r.slug = slug with
    | some row => .ok (row, s)
    | none =>
      let quoted := cfg.server.debug slug
      .error (.notFound s!"tenant slug {quoted}")

/-- The look-up of `resolve_active_tenant`. -/
def lookupTenant (cfg : AccessConfig) (header : Option String) : AccessProg TenantRow :=
  match header with
  | none | some "" => getTenant cfg .tenantById defaultTenant
  | some raw =>
    match cfg.parseUuid (trim raw) with
    | some id => getTenant cfg .tenantById id
    | none => getTenantBySlug cfg (asciiLowercase (trim raw))

/-- The refusal of a tenant that is not active. -/
def requireActive (tenant : TenantRow) : Except Error Unit :=
  if tenant.status ≠ "active" then
    let slug := tenant.slug
    let status := tenant.status
    .error (.forbidden s!"tenant {slug} is {status}")
  else .ok ()

/-- `resolve_active_tenant`. -/
def resolveActiveTenant (cfg : AccessConfig) (header : Option String) : AccessProg Uuid := do
  let tenant ← lookupTenant cfg header
  match requireActive tenant with
  | .error e => Prog.err e
  | .ok _ => return tenant.id

/-- `resolve_tenant`. -/
def resolveTenant (cfg : AccessConfig) (headers : HeaderMap) : AccessProg Uuid :=
  match headers.get "x-corpus-tenant" with
  | none => resolveActiveTenant cfg none
  | some v =>
    match headerText v with
    | some raw => resolveActiveTenant cfg (some raw)
    | none => Prog.err (.badRequest "invalid tenant header encoding")

/-! ### Tokens -/

/-- `subtle_eq`. -/
def subtleEq (a b : Bytes) : Bool :=
  if a.length ≠ b.length then false
  else (a.zip b).foldl (fun diff e => diff ||| (e.1 ^^^ e.2)) (0 : UInt8) = 0

/-- Text after a prefix (`str::strip_prefix`). -/
def stripPrefix (pre s : String) : Option String :=
  if pre.toList.isPrefixOf s.toList then some (String.ofList (s.toList.drop pre.length)) else none

/-- `bearer_from_authorization`. -/
def bearerFromAuthorization (header : Option String) : Option String :=
  header.bind (stripPrefix "Bearer ")

namespace AuthConfig

/-- `admin_matches`. -/
def adminMatches (auth : AuthConfig) (provided : String) : Bool :=
  match auth.adminToken with
  | some expected => subtleEq (asBytes expected) (asBytes provided)
  | none => false

/-- `mcp_matches`. -/
def mcpMatches (auth : AuthConfig) (provided : String) : Bool :=
  subtleEq (asBytes auth.mcpToken) (asBytes provided)

/-- `merlin_matches`. -/
def merlinMatches (auth : AuthConfig) (provided : String) : Bool :=
  match auth.merlinIngestToken with
  | some expected => subtleEq (asBytes expected) (asBytes provided)
  | none => false

/-- `check_admin`. -/
def checkAdmin (auth : AuthConfig) (authorizationHeader : Option String) : Except Error Unit :=
  if !auth.requireAdmin then .ok ()
  else match bearerFromAuthorization authorizationHeader with
    | none =>
      .error (.unauthorized "admin routes require Authorization: Bearer <CORPUS_ADMIN_TOKEN>")
    | some token =>
      if !auth.adminMatches token then .error (.unauthorized "invalid admin token") else .ok ()

end AuthConfig

private theorem foldl_xor_eq_zero : ∀ (l : List (UInt8 × UInt8)) (diff : UInt8),
    l.foldl (fun diff e => diff ||| (e.1 ^^^ e.2)) diff = 0 ↔
      diff = 0 ∧ ∀ e ∈ l, e.1 = e.2 := by
  intro l
  induction l with
  | nil => simp
  | cons e l ih =>
    intro diff
    rw [List.foldl_cons, ih, UInt8.or_eq_zero_iff, UInt8.xor_eq_zero_iff, List.forall_mem_cons,
      and_assoc]

/-- `subtle_eq` decides equality. -/
theorem subtleEq_iff {a b : Bytes} : subtleEq a b = true ↔ a = b := by
  unfold subtleEq
  by_cases hlen : a.length = b.length
  · rw [if_neg (not_not_intro hlen), decide_eq_true_eq, foldl_xor_eq_zero]
    constructor
    · rintro ⟨-, hall⟩
      refine List.ext_getElem hlen fun i h₁ h₂ => ?_
      exact hall (a[i], b[i]) (List.mem_iff_getElem.mpr ⟨i, by simp [h₁, h₂], by simp⟩)
    · rintro rfl
      refine ⟨rfl, fun e he => ?_⟩
      obtain ⟨i, hi, rfl⟩ := List.mem_iff_getElem.mp he
      simp
  · rw [if_pos hlen]
    constructor
    · exact fun h => absurd h Bool.false_ne_true
    · rintro rfl
      exact absurd rfl hlen

/-! ### Agents -/

def AgentRow.identity (a : AgentRow) : AgentIdentity := ⟨a.id, a.tenant, a.hostName⟩

/-- `authenticate_cert`. -/
def authenticateCert (agent : Uuid) : AccessProg AgentIdentity :=
  Prog.exec .agentById fun s _ =>
    match s.agents.get agent with
    | some a => .ok (a.identity, s)
    | none => .error (.unauthorized "unknown agent cert identity")

/-- `authenticate`. -/
def authenticate (cfg : AccessConfig) (bearer : String) : AccessProg AgentIdentity :=
  if !cfg.legacyBearer then
    Prog.err (.unauthorized "bearer auth disabled (mTLS agent listener is the default); set CORPUS_AGENT_LEGACY_BEARER=1 for legacy dev mode")
  else
    Prog.exec .agentByToken fun s _ =>
      match s.agents.rows.find? fun a => a.tokenSha256 = cfg.hashToken bearer with
      | some a => .ok (a.identity, s)
      | none => .error (.unauthorized "invalid agent token")

/-- The columns `heartbeat` sets. -/
def AgentRow.beat (a : AgentRow) (hb : HeartbeatRequest) (now : Time) : AgentRow :=
  { a with
    version := hb.agentVersion
    lastHeartbeatAt := some now
    lastUploadAt := hb.lastUploadAt
    policyDigest := some hb.policyDigest
    baselineState := some hb.baselineState
    baselinePercent := some hb.baselinePercent
    queueDepth := some hb.queueDepth
    spoolBytes := some hb.spoolBytes
    oldestPendingSecs := hb.oldestPendingSecs
    sensor := some hb.sensor
    outcomeCounts := hb.outcomeCounts
    clockOffsetMs := hb.clockOffsetMs }

/-- `heartbeat`. -/
def heartbeat (ident : AgentIdentity) (hb : HeartbeatRequest) : AccessProg Unit :=
  Prog.update .heartbeat fun s env =>
    { s with
      agents := s.agents.updateWhere (fun a => a.id = ident.agentId)
        (fun a => a.beat hb env.env.now) fun _ => rfl }

/-- `record_gaps`. -/
def recordGapsOf (cfg : AccessConfig) (ident : AgentIdentity) (gaps : List GapEvent) : AccessProg Unit :=
  Prog.exec .gaps fun s _ =>
    (recordGaps cfg.server.debug ident s.db.ingest gaps).map fun d =>
      ((), { s with db := s.db.withIngest d })

/-- `record_gaps_dev`: the host of the first event, and no agent. -/
def recordGapsDev (cfg : AccessConfig) (t : Uuid) (gaps : List GapEvent) : AccessProg Unit :=
  recordGapsOf cfg ⟨0, t, (gaps.head?.bind GapEvent.hostName).getD "corpusctl"⟩ gaps

/-! ### Enrollment -/

/-- The token can be exchanged at the time `now`. -/
def EnrollmentToken.usable (tok : EnrollmentToken) (now : Time) : Bool :=
  tok.consumedAt.isNone && match tok.expiresAt with
    | none => true
    | some e => now < e

namespace AccessDb

/-- `UPDATE enrollment_token SET consumed_at … RETURNING tenant_id`. -/
def consumeToken (s : AccessDb) (hash : Bytes) (now : Time) : Option (Uuid × AccessDb) :=
  match s.tokens.get hash with
  | some tok =>
    if tok.usable now then
      some (tok.tenant, { s with
        tokens := s.tokens.updateWhere (fun r => r.tokenSha256 = hash)
          (fun r => { r with consumedAt := some now }) fun _ => rfl })
    else none
  | none => none

/-- `INSERT INTO agent`. -/
def insertAgent (s : AccessDb) (a : AgentRow) : Except Error AccessDb :=
  if (s.agents.get a.id).isSome then .error (.db "agent_pkey")
  else if (s.tenants.get a.tenant).isNone then .error (.db "agent_tenant_id_fkey")
  else .ok { s with agents := s.agents.insertNew a }

/-- `UPDATE enrollment_token SET consumed_by`. -/
def setConsumedBy (s : AccessDb) (hash : Bytes) (agent : Uuid) : AccessDb :=
  { s with
    tokens := s.tokens.updateWhere (fun r => r.tokenSha256 = hash)
      (fun r => { r with consumedBy := some agent }) fun _ => rfl }

end AccessDb

/-- The row `enroll` inserts, and the token it shows once. -/
def AccessConfig.newAgent (cfg : AccessConfig) (req : EnrollRequest) (t : Uuid) (env : Env) :
    AgentRow × String :=
  let shown := cfg.showUuid (env.uuid 1)
  let token := s!"cpagent-{shown}"
  (⟨env.uuid 0, t, req.hostName, cfg.hashToken token, req.agentVersion, env.now, none, none, none,
    none, none, none, none, none, none, .obj [], none⟩, token)

/-- `enroll` once the token's tenant is known to be active. -/
def mintAgent (cfg : AccessConfig) (req : EnrollRequest) (t : Uuid) : AccessProg EnrollResponse := do
  let (agent, token) ← Prog.exec (.insertAgent req t) fun s env =>
    (s.insertAgent (cfg.newAgent req t env.env).1).map fun s' =>
      ((env.env.uuid 0, (cfg.newAgent req t env.env).2), s')
  Prog.update (.consumedBy req agent) fun s _ =>
    s.setConsumedBy (cfg.hashToken req.enrollmentToken) agent
  let cert ← Prog.exec (.sign req agent) fun s env => (cfg.signCert agent env).map fun c => (c, s)
  return ⟨agent, token, t, cfg.ca.certPem, cert.1, cert.2⟩

/-- `enroll`. -/
def enroll (cfg : AccessConfig) (req : EnrollRequest) : AccessProg EnrollResponse := do
  let t ← Prog.exec (.consume req) fun s env =>
    match s.consumeToken (cfg.hashToken req.enrollmentToken) env.env.now with
    | some r => .ok r
    | none => .error (.badRequest "invalid, expired, or consumed enrollment token")
  let tenant ← getTenant cfg (.tokenTenant req t) t
  match requireActive tenant with
  | .error e => Prog.err e
  | .ok _ => mintAgent cfg req t

/-! ### Handlers of the main listener -/

/-- `IngestAuth`. -/
inductive IngestAuth where
  | agent (ident : AgentIdentity)
  | dev (t : Uuid)

/-- The tenant an ingest request acts for. -/
def IngestAuth.tenant : IngestAuth → Uuid
  | agent ident => ident.tenantId
  | dev t => t

/-- The occurrence of an agent's request is its own. -/
def IngestAuth.occurrence (auth : IngestAuth) (occ : Option OccurrenceInfo) :
    Option OccurrenceInfo :=
  match auth with
  | agent ident => applyAgentIdentity ident occ
  | dev _ => occ

/-- The bearer token of a request. -/
def bearerOf (headers : HeaderMap) : Option String :=
  ((headers.get "authorization").bind headerText).bind (stripPrefix "Bearer ")

/-- `ingest_auth`. -/
def ingestAuth (cfg : AccessConfig) (headers : HeaderMap) : AccessProg IngestAuth :=
  match headers.get "authorization" with
  | some _ =>
    match bearerOf headers with
    | none => Prog.err (.unauthorized "malformed authorization header")
    | some tok =>
      -- The admin token acts for the tenant of the header, an agent's for its own.
      if cfg.auth.adminMatches tok then do
        let t ← resolveTenant cfg headers
        return .dev t
      else do
        let ident ← authenticate cfg tok
        return .agent ident
  | none =>
    if !cfg.auth.allowDevIngest then
      Prog.err (.unauthorized "ingest requires agent or admin bearer (dev path disabled)")
    else do
      let t ← resolveTenant cfg headers
      return .dev t

/-- `announce` of `main.rs`. -/
def announceHandler (cfg : AccessConfig) (headers : HeaderMap) (req : AnnounceRequest) :
    AccessProg AnnounceResponse := do
  let auth ← ingestAuth cfg headers
  onDb (announce cfg.server auth.tenant { req with occurrence := auth.occurrence req.occurrence })

/-- `upload`. -/
def uploadHandler (cfg : AccessConfig) (headers : HeaderMap) (upload : Uuid) (body : Bytes) :
    AccessProg Unit := do
  let auth ← ingestAuth cfg headers
  onDb (stageUpload auth.tenant upload body)

/-- `finalize` of `main.rs`. -/
def finalizeHandler (cfg : AccessConfig) (headers : HeaderMap) (req : FinalizeRequest) :
    AccessProg FinalizeResponse := do
  let auth ← ingestAuth cfg headers
  onDb (finalize cfg.server auth.tenant { req with occurrence := auth.occurrence req.occurrence })

/-- `bearer_token`. -/
def bearerToken (headers : HeaderMap) : Except Error String :=
  match bearerOf headers with
  | some tok => .ok tok
  | none => .error (.badRequest "missing bearer token")

/-- `agent_heartbeat`. -/
def agentHeartbeat (cfg : AccessConfig) (headers : HeaderMap) (hb : HeartbeatRequest) :
    AccessProg Unit :=
  match bearerToken headers with
  | .error e => Prog.err e
  | .ok tok => do
    let ident ← authenticate cfg tok
    heartbeat ident hb

/-- `report_gaps`. -/
def reportGaps (cfg : AccessConfig) (headers : HeaderMap) (gaps : List GapEvent) :
    AccessProg Unit :=
  match headers.get "authorization" with
  | some _ =>
    match bearerToken headers with
    | .error e => Prog.err e
    | .ok tok => do
      let ident ← authenticate cfg tok
      recordGapsOf cfg ident gaps
  | none => do
    let t ← resolveTenant cfg headers
    recordGapsDev cfg t gaps

/-! ### Handlers of the agent listener -/

/-- `peer_identity`; the certificate is the one the TLS handshake verified. -/
def peerIdentity (cfg : AccessConfig) (peer : Option Bytes) : AccessProg AgentIdentity :=
  match peer with
  | none => Prog.err (.unauthorized "client certificate required")
  | some der =>
    match cfg.agentIdFromCert der with
    | .error e => Prog.err e
    | .ok agent => authenticateCert agent

/-- `announce_mtls`. -/
def announceMtls (cfg : AccessConfig) (peer : Option Bytes) (req : AnnounceRequest) :
    AccessProg AnnounceResponse := do
  let ident ← peerIdentity cfg peer
  onDb (announce cfg.server ident.tenantId
    { req with occurrence := applyAgentIdentity ident req.occurrence })

/-- `upload_mtls`. -/
def uploadMtls (cfg : AccessConfig) (peer : Option Bytes) (upload : Uuid) (body : Bytes) :
    AccessProg Unit := do
  let ident ← peerIdentity cfg peer
  onDb (stageUpload ident.tenantId upload body)

/-- `finalize_mtls`. -/
def finalizeMtls (cfg : AccessConfig) (peer : Option Bytes) (req : FinalizeRequest) :
    AccessProg FinalizeResponse := do
  let ident ← peerIdentity cfg peer
  onDb (finalize cfg.server ident.tenantId
    { req with occurrence := applyAgentIdentity ident req.occurrence })

/-- `agent_heartbeat_mtls`. -/
def agentHeartbeatMtls (cfg : AccessConfig) (peer : Option Bytes) (hb : HeartbeatRequest) :
    AccessProg Unit := do
  let ident ← peerIdentity cfg peer
  heartbeat ident hb

/-- `report_gaps_mtls`. -/
def reportGapsMtls (cfg : AccessConfig) (peer : Option Bytes) (gaps : List GapEvent) :
    AccessProg Unit := do
  let ident ← peerIdentity cfg peer
  recordGapsOf cfg ident gaps

/-! ### Requests of both listeners -/

/-- What an agent, or the command line, asks of the server. -/
inductive AgentCall where
  | announce (req : AnnounceRequest)
  | upload (upload : Uuid) (body : Bytes)
  | finalize (req : FinalizeRequest)
  | heartbeat (hb : HeartbeatRequest)
  | gaps (gaps : List GapEvent)

/-- A request to the main listener, to the agent listener, or to enroll. -/
inductive AccessRequest where
  | main (headers : HeaderMap) (call : AgentCall)
  | mtls (peer : Option Bytes) (call : AgentCall)
  | enroll (req : EnrollRequest)

inductive AccessReply where
  | announced (r : AnnounceResponse)
  | noContent
  | finalized (r : FinalizeResponse)
  | enrolled (r : EnrollResponse)

/-- The handler of a request. -/
def serveAccess (cfg : AccessConfig) : AccessRequest → AccessProg AccessReply
  | .main h (.announce req) => announceHandler cfg h req >>= fun r => Prog.ret (.announced r)
  | .main h (.upload upload body) => uploadHandler cfg h upload body >>= fun _ => Prog.ret .noContent
  | .main h (.finalize req) => finalizeHandler cfg h req >>= fun r => Prog.ret (.finalized r)
  | .main h (.heartbeat hb) => agentHeartbeat cfg h hb >>= fun _ => Prog.ret .noContent
  | .main h (.gaps gaps) => reportGaps cfg h gaps >>= fun _ => Prog.ret .noContent
  | .mtls p (.announce req) => announceMtls cfg p req >>= fun r => Prog.ret (.announced r)
  | .mtls p (.upload upload body) => uploadMtls cfg p upload body >>= fun _ => Prog.ret .noContent
  | .mtls p (.finalize req) => finalizeMtls cfg p req >>= fun r => Prog.ret (.finalized r)
  | .mtls p (.heartbeat hb) => agentHeartbeatMtls cfg p hb >>= fun _ => Prog.ret .noContent
  | .mtls p (.gaps gaps) => reportGapsMtls cfg p gaps >>= fun _ => Prog.ret .noContent
  | .enroll req => enroll cfg req >>= fun r => Prog.ret (.enrolled r)

/-! ### What the look-ups find -/

/-- The row `lookupTenant` finds. -/
def lookupRow (cfg : AccessConfig) (s : AccessDb) (header : Option String) : Option TenantRow :=
  match header with
  | none | some "" => s.tenants.get defaultTenant
  | some raw =>
    match cfg.parseUuid (trim raw) with
    | some id => s.tenants.get id
    | none => s.tenants.rows.find? fun r => r.slug = asciiLowercase (trim raw)

/-- The tenant the tenant header names, whatever its status. -/
def headerTenant (cfg : AccessConfig) (s : AccessDb) (headers : HeaderMap) : Option TenantRow :=
  match headers.get "x-corpus-tenant" with
  | none => lookupRow cfg s none
  | some v =>
    match headerText v with
    | some raw => lookupRow cfg s (some raw)
    | none => none

/-- The agent a bearer token belongs to. -/
def bearerAgent (cfg : AccessConfig) (s : AccessDb) (tok : String) : Option AgentRow :=
  if cfg.legacyBearer then s.agents.rows.find? fun a => a.tokenSha256 = cfg.hashToken tok else none

/-- The agent behind the certificate of a connection. -/
def peerAgent (cfg : AccessConfig) (s : AccessDb) (peer : Option Bytes) : Option AgentRow :=
  match peer with
  | none => none
  | some der =>
    match cfg.agentIdFromCert der with
    | .error _ => none
    | .ok agent => s.agents.get agent

/-- The agent as which the agent listener lets in a client with this certificate and key, in a
connection that is made now. -/
def certAgent (cfg : AccessConfig) (s : AccessDb) (now : Time) (certPem keyPem : String) :
    Option AgentRow :=
  match pemDer cfg.pki certPem, pemKeyDer cfg.pki keyPem with
  | .ok der, .ok key => peerAgent cfg s (handshake cfg.pki cfg.ca now der key)
  | .error _, _ | .ok _, .error _ => none

theorem lookupRow_get {cfg : AccessConfig} {s : AccessDb} {header : Option String}
    {row : TenantRow} (h : lookupRow cfg s header = some row) :
    s.tenants.get row.id = some row := by
  have hget : ∀ {id}, s.tenants.get id = some row → s.tenants.get row.id = some row := by
    intro id hid
    rw [(Table.mem_of_get hid).2]
    exact hid
  unfold lookupRow at h
  split at h
  · exact hget h
  · exact hget h
  · split at h
    · exact hget h
    · exact Table.mem_rows_iff.mp (List.mem_of_find?_eq_some h)

theorem headerTenant_get {cfg : AccessConfig} {s : AccessDb} {headers : HeaderMap} {row : TenantRow}
    (h : headerTenant cfg s headers = some row) : s.tenants.get row.id = some row := by
  unfold headerTenant at h
  split at h
  · exact lookupRow_get h
  · split at h
    · exact lookupRow_get h
    · cases h

theorem bearerAgent_mem {cfg : AccessConfig} {s : AccessDb} {tok : String} {a : AgentRow}
    (h : bearerAgent cfg s tok = some a) : a ∈ s.agents.rows := by
  unfold bearerAgent at h
  split at h
  · exact List.mem_of_find?_eq_some h
  · cases h

theorem peerAgent_mem {cfg : AccessConfig} {s : AccessDb} {peer : Option Bytes} {a : AgentRow}
    (h : peerAgent cfg s peer = some a) : a ∈ s.agents.rows := by
  unfold peerAgent at h
  split at h
  · cases h
  · split at h
    · cases h
    · exact (Table.mem_of_get h).1

/-- A certificate that was signed for an agent is let in as this agent until it expires. -/
theorem certAgent_issued {cfg : AccessConfig} {s : AccessDb} (hpki : cfg.pki.Lawful)
    (hca : cfg.ca.Paired cfg.pki) {root : Bytes} (hlisten : serverConfig cfg.pki cfg.ca = .ok root)
    (htext : ∀ u, cfg.parseUuid (cfg.showUuid u) = some u) {agent : Uuid} {ttlDays : ℕ} {t : Time}
    {draw : CertDraw} {certPem keyPem : String}
    (h : signClientCert cfg.pki cfg.ca (cfg.showUuid agent) ttlDays t draw = .ok (certPem, keyPem))
    {a : AgentRow} (ha : s.agents.get agent = some a) (now : Time) :
    certAgent cfg s now certPem keyPem =
      if certificateStart ≤ unixSecond now ∧ unixSecond now ≤ expiry ttlDays t then some a
      else none := by
  obtain ⟨der, key, hder, hkey, hshake⟩ := handshake_signed hpki hca hlisten h
  obtain ⟨der', hder', hid⟩ := agentIdFromCertDer_signed hpki htext h
  obtain rfl : der = der' := Except.ok.inj (hder.symm.trans hder')
  rw [certAgent, hder, hkey]
  dsimp only
  rw [hshake]
  split
  · rw [peerAgent, AccessConfig.agentIdFromCert, hid]
    exact ha
  · rfl

section Lookups

variable {cfg : AccessConfig} {R : AccessDb → AccessDb → Prop}
  {Ok : AccessPt → AccessEnv → AccessDb → Prop} {s : AccessDb}

theorem keeps_getTenant (hrefl : ∀ s, R s s) {Q : TenantRow → AccessDb → Prop} {l : AccessPt}
    {id : Uuid} (hQ : ∀ s' row, R s s' → s'.tenants.get id = some row → Q row s') :
    (getTenant cfg l id).Keeps R Ok Q s := by
  refine Prog.keeps_exec hrefl fun s' hs _ _ row s'' hrun => ?_
  cases hrow : s'.tenants.get id with
  | some row' =>
    rw [hrow] at hrun
    cases hrun
    exact ⟨hrefl _, hQ s' row hs hrow⟩
  | none =>
    rw [hrow] at hrun
    cases hrun

theorem keeps_lookupTenant (hrefl : ∀ s, R s s) {Q : TenantRow → AccessDb → Prop}
    {header : Option String} (hQ : ∀ s' row, R s s' → lookupRow cfg s' header = some row → Q row s') :
    (lookupTenant cfg header).Keeps R Ok Q s := by
  unfold lookupTenant
  split
  · exact keeps_getTenant hrefl hQ
  · exact keeps_getTenant hrefl hQ
  · next raw hne =>
    -- A header that is neither missing nor empty.
    have hrow : ∀ s', lookupRow cfg s' (some raw) = match cfg.parseUuid (trim raw) with
        | some id => s'.tenants.get id
        | none => s'.tenants.rows.find? fun r => r.slug = asciiLowercase (trim raw) := by
      intro s'
      unfold lookupRow
      split
      · next heq => cases heq
      · next heq => exact absurd (Option.some.inj heq) hne
      · next heq => rw [Option.some.inj heq]
    simp only [hrow] at hQ
    cases hparse : cfg.parseUuid (trim raw) with
    | some id =>
      simp only [hparse] at hQ
      exact keeps_getTenant hrefl hQ
    | none =>
      simp only [hparse] at hQ
      refine Prog.keeps_exec hrefl fun s' hs _ _ row s'' hrun => ?_
      cases hfind : s'.tenants.rows.find? fun r => r.slug = asciiLowercase (trim raw) with
      | some row' =>
        rw [hfind] at hrun
        cases hrun
        exact ⟨hrefl _, hQ s' row hs hfind⟩
      | none =>
        rw [hfind] at hrun
        cases hrun

theorem eval_lookupTenant {cfg : AccessConfig} {s : AccessDb} {header : Option String}
    {row : TenantRow} (i : AccessEnv) (h : lookupRow cfg s header = some row) :
    (lookupTenant cfg header).eval i s = (.ok row, s) := by
  have hget : ∀ l id, s.tenants.get id = some row → (getTenant cfg l id).eval i s = (.ok row, s) := by
    intro l id hid
    simp [getTenant, Prog.exec, hid]
  unfold lookupRow at h
  unfold lookupTenant
  split at h
  · exact hget _ _ h
  · exact hget _ _ h
  · next raw hne =>
    cases hparse : cfg.parseUuid (trim raw) with
    | some id =>
      rw [hparse] at h
      exact hget _ _ h
    | none =>
      rw [hparse] at h
      dsimp only at h ⊢
      simp [getTenantBySlug, Prog.exec, h]

/-- What the header does not name is not found. -/
theorem eval_lookupTenant_none {cfg : AccessConfig} {s : AccessDb} {header : Option String}
    (i : AccessEnv) (h : lookupRow cfg s header = none) :
    ∃ e, (lookupTenant cfg header).eval i s = (.error e, s) := by
  have hget : ∀ l id, s.tenants.get id = none →
      ∃ e, (getTenant cfg l id).eval i s = (.error e, s) := by
    intro l id hid
    exact ⟨.notFound s!"tenant {cfg.showUuid id}", by simp [getTenant, Prog.exec, hid]⟩
  unfold lookupRow at h
  unfold lookupTenant
  split at h
  · exact hget _ _ h
  · exact hget _ _ h
  · next raw hne =>
    cases hparse : cfg.parseUuid (trim raw) with
    | some id =>
      rw [hparse] at h
      exact hget _ _ h
    | none =>
      rw [hparse] at h
      dsimp only at h ⊢
      simp [getTenantBySlug, Prog.exec, h]

/-- The refusal depends on the status alone. -/
theorem requireActive_cases (row : TenantRow) :
    (row.status = "active" ∧ requireActive row = .ok ()) ∨
      (row.status ≠ "active" ∧ ∃ e, requireActive row = .error e) := by
  by_cases hact : row.status = "active"
  · exact .inl ⟨hact, if_neg (not_not_intro hact)⟩
  · exact .inr ⟨hact, _, if_pos hact⟩

/-- The header of an active tenant resolves to it. -/
theorem eval_resolveActiveTenant {cfg : AccessConfig} {s : AccessDb} {header : Option String}
    {row : TenantRow} (i : AccessEnv) (h : lookupRow cfg s header = some row)
    (hact : row.status = "active") :
    (resolveActiveTenant cfg header).eval i s = (.ok row.id, s) := by
  obtain ⟨-, hreq⟩ | ⟨hne, -⟩ := requireActive_cases row
  · rw [resolveActiveTenant, Prog.eval_bind, eval_lookupTenant i h]
    dsimp only
    rw [hreq]
    rfl
  · exact absurd hact hne

/-- `resolve_active_tenant` finds an active tenant, or fails. -/
theorem keeps_resolveActiveTenant (hrefl : ∀ s, R s s) {Q : Uuid → AccessDb → Prop}
    {header : Option String}
    (hQ : ∀ s' row, R s s' → lookupRow cfg s' header = some row → row.status = "active" →
      Q row.id s') : (resolveActiveTenant cfg header).Keeps R Ok Q s := by
  refine Prog.keeps_bind (keeps_lookupTenant hrefl fun s' row hs hrow => And.intro hs hrow) ?_
  rintro row s' ⟨hs, hrow⟩
  obtain ⟨hact, hreq⟩ | ⟨-, e, hreq⟩ := requireActive_cases row
  · rw [hreq]
    exact hQ s' row hs hrow hact
  · rw [hreq]
    trivial

/-- The tenant header resolves to an active tenant, or to an error. -/
theorem keeps_resolveTenant (hrefl : ∀ s, R s s) {Q : Uuid → AccessDb → Prop} {headers : HeaderMap}
    (hQ : ∀ s' row, R s s' → headerTenant cfg s' headers = some row → row.status = "active" →
      Q row.id s') : (resolveTenant cfg headers).Keeps R Ok Q s := by
  unfold resolveTenant
  unfold headerTenant at hQ
  split
  · next hnone =>
    rw [hnone] at hQ
    exact keeps_resolveActiveTenant hrefl hQ
  · next v hv =>
    rw [hv] at hQ
    split
    · next raw hraw =>
      simp only [hraw] at hQ
      exact keeps_resolveActiveTenant hrefl hQ
    · trivial

/-- A bearer token is its agent's, or is refused. -/
theorem keeps_authenticate (hrefl : ∀ s, R s s) {Q : AgentIdentity → AccessDb → Prop} {tok : String}
    (hQ : ∀ s' i a, R s s' → Ok .agentByToken i s' → bearerAgent cfg s' tok = some a →
      Q a.identity s') : (authenticate cfg tok).Keeps R Ok Q s := by
  unfold authenticate
  unfold bearerAgent at hQ
  cases hleg : cfg.legacyBearer with
  | false => trivial
  | true =>
    simp only [hleg, if_true] at hQ
    refine Prog.keeps_exec hrefl fun s' hs i hi ident s'' hrun => ?_
    cases hfind : s'.agents.rows.find? fun a => a.tokenSha256 = cfg.hashToken tok with
    | some a =>
      rw [hfind] at hrun
      cases hrun
      exact ⟨hrefl _, hQ s' i a hs hi hfind⟩
    | none =>
      rw [hfind] at hrun
      cases hrun

/-- A client certificate is its agent's, or is refused. -/
theorem keeps_peerIdentity (hrefl : ∀ s, R s s) {Q : AgentIdentity → AccessDb → Prop}
    {peer : Option Bytes}
    (hQ : ∀ s' i a, R s s' → Ok .agentById i s' → peerAgent cfg s' peer = some a →
      Q a.identity s') : (peerIdentity cfg peer).Keeps R Ok Q s := by
  unfold peerIdentity
  unfold peerAgent at hQ
  cases peer with
  | none => trivial
  | some der =>
    cases hder : cfg.agentIdFromCert der with
    | error e =>
      simp only [hder]
      trivial
    | ok agent =>
      simp only [hder] at hQ ⊢
      refine Prog.keeps_exec hrefl fun s' hs i hi ident s'' hrun => ?_
      cases hfind : s'.agents.get agent with
      | some a =>
        rw [hfind] at hrun
        cases hrun
        exact ⟨hrefl _, hQ s' i a hs hi hfind⟩
      | none =>
        rw [hfind] at hrun
        cases hrun

/-- The admin token, or no authorization header where that is allowed: the request acts
for the tenant of its header. -/
def DevPath (cfg : AccessConfig) (headers : HeaderMap) : Prop :=
  (∃ tok, bearerOf headers = some tok ∧ cfg.auth.adminMatches tok = true) ∨
    (headers.get "authorization" = none ∧ cfg.auth.allowDevIngest = true)

/-- `ingest_auth` lets an agent in by its token, and otherwise the tenant of the header. -/
theorem keeps_ingestAuth (hrefl : ∀ s, R s s) {Q : IngestAuth → AccessDb → Prop}
    {headers : HeaderMap}
    (hagent : ∀ s' i a tok, R s s' → Ok .agentByToken i s' → bearerOf headers = some tok →
      bearerAgent cfg s' tok = some a → Q (.agent a.identity) s')
    (hdev : ∀ s' row, R s s' → headerTenant cfg s' headers = some row → row.status = "active" →
      DevPath cfg headers → Q (.dev row.id) s') :
    (ingestAuth cfg headers).Keeps R Ok Q s := by
  -- The development path is taken in two places.
  have hdevice : DevPath cfg headers →
      (resolveTenant cfg headers >>= fun t => Prog.ret (.dev t)).Keeps R Ok Q s := by
    intro hwhy
    refine Prog.keeps_bind (Q := fun t s' => Q (.dev t) s') ?_ fun t s' h => h
    exact keeps_resolveTenant hrefl fun s' row hs hrow hact => hdev s' row hs hrow hact hwhy
  unfold ingestAuth
  split
  · split
    · trivial
    · next tok htok =>
      cases hadm : cfg.auth.adminMatches tok with
      | true => exact hdevice (.inl ⟨tok, htok, hadm⟩)
      | false =>
        refine Prog.keeps_bind (Q := fun ident s' => Q (.agent ident) s') ?_ fun t s' h => h
        exact keeps_authenticate hrefl fun s' i a hs hi ha => hagent s' i a tok hs hi htok ha
  · next hnone =>
    cases hallow : cfg.auth.allowDevIngest with
    | false => trivial
    | true => exact hdevice (.inr ⟨hnone, hallow⟩)

end Lookups

end Corpus
