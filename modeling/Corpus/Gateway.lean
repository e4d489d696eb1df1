/-
The main listener: configuration from the environment, the middleware `admin_gate`, the
route table and what stands behind it (`auth.rs`, `main.rs`).

`Gateway.serve` is a request from the gate to the end of its handler.  Handlers that the
gate may let through without the admin token are those of `Corpus.Access`; the others are
parameters of the model, arbitrary programs over the whole store, of which `AccessDb` is
one part.  So are the extractors of the web framework, which run before the body of a
handler and answer for it when they fail.

A path is matched segment by segment, a fixed segment before a parameter, and a parameter
is given back when the rest does not match (`walk`).
-/
import Corpus.Access
import Corpus.Rules

namespace Corpus

open Agent (GapEvent)

/-! ### Configuration -/

/-- `MCP_DEV_TOKEN`. -/
def mcpDevToken : String := "mcp-dev-token"

/-- The part before the last `c` (`str::rsplit_once`). -/
def beforeLast (c : Char) (s : String) : Option String :=
  if c ∈ s.toList then
    some (String.ofList ((s.toList.reverse.dropWhile (· ≠ c)).drop 1).reverse)
  else none

/-- `is_loopback_listen`; `socketLoopback` is `SocketAddr::parse` followed by
`is_loopback`. -/
def isLoopbackListen (socketLoopback : String → Option Bool) (listen : String) : Bool :=
  let listen := trim listen
  if listen = "localhost" || listen = "127.0.0.1" || listen = "::1" then true
  else match socketLoopback listen with
    | some b => b
    | none =>
      match beforeLast ':' listen with
      | some host =>
        let host := trimMatches (fun c => c = '[' || c = ']') host
        host = "localhost" || host = "127.0.0.1" || host = "::1"
      | none => false

/-- A token of the environment: trimmed, and not empty. -/
def tokenFrom (env : String → Option String) (name : String) : Option String :=
  ((env name).map trim).filter fun s => s ≠ ""

namespace AuthConfig

/-- `from_env`; `env` is `std::env::var` without its errors. -/
def fromEnv (socketLoopback : String → Option Bool) (env : String → Option String)
    (listen : String) : Except Error AuthConfig :=
  let listenIsLoopback := isLoopbackListen socketLoopback listen
  let adminToken := tokenFrom env "CORPUS_ADMIN_TOKEN"
  if !listenIsLoopback && adminToken.isNone then
    .error (.badRequest "CORPUS_LISTEN is non-loopback but CORPUS_ADMIN_TOKEN is unset; refuse to start without admin auth (bind 127.0.0.1 or set a token)")
  else
    let requireAdmin :=
      adminToken.isSome || (env "CORPUS_REQUIRE_ADMIN").isSome || !listenIsLoopback
    if requireAdmin && adminToken.isNone then
      .error (.badRequest "admin auth required (CORPUS_REQUIRE_ADMIN or non-loopback) but CORPUS_ADMIN_TOKEN is unset")
    else
      let mcpToken := (env "CORPUS_MCP_TOKEN").getD (if listenIsLoopback then mcpDevToken else "")
      if !listenIsLoopback && (mcpToken = "" || mcpToken = mcpDevToken) then
        .error (.badRequest "non-loopback bind requires CORPUS_MCP_TOKEN set to a non-default value")
      else
        let merlinIngestToken := tokenFrom env "CORPUS_MERLIN_INGEST_TOKEN"
        let allowDevIngest :=
          listenIsLoopback && (env "CORPUS_DENY_DEV_INGEST").isNone && !requireAdmin
        let allowDevIngest :=
          if adminToken.isSome then (env "CORPUS_ALLOW_DEV_INGEST").isSome
          else allowDevIngest || (env "CORPUS_ALLOW_DEV_INGEST").isSome
        .ok ⟨adminToken, requireAdmin, allowDevIngest, mcpToken, merlinIngestToken,
          listenIsLoopback⟩

/-- `check_merlin_ingest`. -/
def checkMerlinIngest (auth : AuthConfig) (authorizationHeader : Option String) :
    Except Error Unit :=
  match bearerFromAuthorization authorizationHeader with
  | none => .error (.unauthorized
      "Merlin bridge requires Authorization: Bearer <CORPUS_MERLIN_INGEST_TOKEN>")
  | some token =>
    if auth.merlinMatches token || auth.adminMatches token then .ok ()
    else .error (.unauthorized "invalid Merlin bridge token")

end AuthConfig

/-! ### Requests and the gate -/

inductive Method where
  | get
  | head
  | post
  | put
  | other (name : String)
deriving DecidableEq

/-- A request; `path` is `uri().path()`, as it was sent. -/
structure HttpRequest where
  method : Method
  path : String
  query : String
  headers : HeaderMap
  body : Bytes

/-- The authorization header as text. -/
def HttpRequest.authorization (req : HttpRequest) : Option String :=
  (req.headers.get "authorization").bind headerText

/-- `str::starts_with`. -/
def startsWith (pre s : String) : Bool := pre.toList.isPrefixOf s.toList

/-- The paths `admin_gate` skips. -/
def skipsGate (path : String) : Bool :=
  path = "/api/v1/health" || path = "/api/v1/agents/enroll" ||
    path = "/api/v1/artifacts/announce" || path = "/api/v1/artifacts/finalize" ||
    startsWith "/api/v1/artifacts/uploads/" path ||
    path = "/api/v1/agents/heartbeat" || path = "/api/v1/agents/gaps"

/-- The paths on which `admin_gate` takes the Merlin token. -/
def merlinPath (path : String) : Bool := startsWith "/api/v1/integrations/merlin/" path

/-- `admin_gate`, up to `next.run`. -/
def adminGate (auth : AuthConfig) (req : HttpRequest) : Except Error Unit :=
  if !auth.requireAdmin then .ok ()
  else if skipsGate req.path then .ok ()
  else if merlinPath req.path &&
      (req.authorization.bind (stripPrefix "Bearer ")).any auth.merlinMatches then .ok ()
  else auth.checkAdmin req.authorization

/-! ### Routes -/

/-- The handlers of the main listener. -/
inductive Handler where
  | health | createTenant | listTenants | getTenant | announce | upload | finalize
  | createRule | listRules | publishBundle | listBundles | createHunt | listHunts | getHunt
  | runHunt | blastRadius | similar | variants | similarityBackfill | similarityNeighborhood
  | similarityExport | listAnalyzers | semanticEvidence | artifactReceipts | similarityCleanup
  | createEnrollmentToken | enroll | agentHeartbeat | reportGaps | ingestMerlinSegment
  | listMerlinObservations | listAgents | agentStatus | coverageGaps | upsertIndicators
  | hashHunt | prevalence | setOpinion | getOpinion | opinionHistory | raritySearch
  | dropperHunt | createTrigger | listTriggers | testTrigger | detonateArtifact | openapiSpec
  | investigate | listDetections | listContinuous | platformMetrics | mcpEndpoint
deriving DecidableEq

/-- A segment of a route. -/
inductive Seg where
  | lit (text : String)
  | param (name : String)
deriving DecidableEq

/-- The segments of a path. -/
def splitPath (path : String) : List String := (path.toList.splitOn '/').map String.ofList

/-- The route table: a pattern and its handlers. -/
abbrev Routes := List (List Seg × List (Method × Handler))

/-- A route under `/api/v1/`. -/
def api (pat : List Seg) : List Seg := .lit "" :: .lit "api" :: .lit "v1" :: pat

/-- The `Router` of `main`. -/
def routes : Routes := [
  (api [.lit "health"], [(.get, .health)]),
  (api [.lit "tenants"], [(.post, .createTenant), (.get, .listTenants)]),
  (api [.lit "tenants", .param "id_or_slug"], [(.get, .getTenant)]),
  (api [.lit "artifacts", .lit "announce"], [(.post, .announce)]),
  (api [.lit "artifacts", .lit "uploads", .param "upload_id"], [(.put, .upload)]),
  (api [.lit "artifacts", .lit "finalize"], [(.post, .finalize)]),
  (api [.lit "rules"], [(.post, .createRule), (.get, .listRules)]),
  (api [.lit "bundles"], [(.post, .publishBundle), (.get, .listBundles)]),
  (api [.lit "hunts"], [(.post, .createHunt), (.get, .listHunts)]),
  (api [.lit "hunts", .param "hunt_id"], [(.get, .getHunt)]),
  (api [.lit "hunts", .param "hunt_id", .lit "run"], [(.post, .runHunt)]),
  (api [.lit "reports", .lit "blast-radius"], [(.get, .blastRadius)]),
  (api [.lit "artifacts", .param "sha256", .lit "similar"], [(.get, .similar)]),
  (api [.lit "artifacts", .param "sha256", .lit "variants"], [(.get, .variants)]),
  (api [.lit "similarity", .lit "backfill"], [(.post, .similarityBackfill)]),
  (api [.lit "similarity", .lit "neighborhood"], [(.get, .similarityNeighborhood)]),
  (api [.lit "similarity", .lit "export"], [(.get, .similarityExport)]),
  (api [.lit "similarity", .lit "analyzers"], [(.get, .listAnalyzers)]),
  (api [.lit "similarity", .lit "evidence", .param "a", .param "b"], [(.get, .semanticEvidence)]),
  (api [.lit "artifacts", .param "artifact_id", .lit "receipts"], [(.get, .artifactReceipts)]),
  (api [.lit "artifacts", .param "artifact_id", .lit "similarity-cleanup"],
    [(.post, .similarityCleanup)]),
  (api [.lit "enrollment-tokens"], [(.post, .createEnrollmentToken)]),
  (api [.lit "agents", .lit "enroll"], [(.post, .enroll)]),
  (api [.lit "agents", .lit "heartbeat"], [(.post, .agentHeartbeat)]),
  (api [.lit "agents", .lit "gaps"], [(.post, .reportGaps)]),
  (api [.lit "integrations", .lit "merlin", .lit "segments"], [(.post, .ingestMerlinSegment)]),
  (api [.lit "integrations", .lit "merlin", .lit "observations"],
    [(.get, .listMerlinObservations)]),
  (api [.lit "agents"], [(.get, .listAgents)]),
  (api [.lit "agents", .param "agent_id"], [(.get, .agentStatus)]),
  (api [.lit "coverage", .lit "gaps"], [(.get, .coverageGaps)]),
  (api [.lit "intel", .lit "indicators"], [(.post, .upsertIndicators)]),
  (api [.lit "intel", .lit "hash-hunt"], [(.post, .hashHunt)]),
  (api [.lit "artifacts", .param "sha256", .lit "prevalence"], [(.get, .prevalence)]),
  (api [.lit "artifacts", .param "sha256", .lit "opinion"],
    [(.post, .setOpinion), (.get, .getOpinion)]),
  (api [.lit "artifacts", .param "sha256", .lit "opinion", .lit "history"],
    [(.get, .opinionHistory)]),
  (api [.lit "search"], [(.get, .raritySearch)]),
  (api [.lit "hunts", .lit "droppers"], [(.post, .dropperHunt)]),
  (api [.lit "triggers"], [(.post, .createTrigger), (.get, .listTriggers)]),
  (api [.lit "triggers", .param "trigger_id", .lit "test"], [(.post, .testTrigger)]),
  (api [.lit "artifacts", .param "sha256", .lit "detonate"], [(.post, .detonateArtifact)]),
  (api [.lit "openapi.json"], [(.get, .openapiSpec)]),
  (api [.lit "investigate"], [(.get, .investigate)]),
  (api [.lit "detections"], [(.get, .listDetections)]),
  (api [.lit "continuous"], [(.get, .listContinuous)]),
  (api [.lit "metrics"], [(.get, .platformMetrics)]),
  ([.lit "", .lit "mcp"], [(.post, .mcpEndpoint)])]

/-- The routes that go on with the fixed segment `w`, after it. -/
def Routes.afterLit (rs : Routes) (w : String) : Routes :=
  rs.filterMap fun r => match r.1 with
    | .lit w' :: pat => if w' = w then some (pat, r.2) else none
    | _ => none

/-- The routes that go on with a parameter, after it. -/
def Routes.afterParam (rs : Routes) : Routes :=
  rs.filterMap fun r => match r.1 with
    | .param _ :: pat => some (pat, r.2)
    | _ => none

/-- The route of a path, and the values of its parameters. -/
def walk : Routes → List String → Option (List (Method × Handler) × List String)
  | rs, [] => (rs.find? fun r => r.1.isEmpty).map fun r => (r.2, [])
  | rs, w :: ws =>
    match walk (rs.afterLit w) ws with
    | some r => some r
    | none =>
      -- a parameter has at least one character
      if w = "" then none else (walk rs.afterParam ws).map fun r => (r.1, w :: r.2)

/-- The handler of a method; a `GET` handler also serves `HEAD`. -/
def serving (ms : List (Method × Handler)) (m : Method) : Option Handler :=
  match ms.find? fun e => e.1 = m with
  | some e => some e.2
  | none =>
    if m = .head then (ms.find? fun e => e.1 = .get).map Prod.snd else none

/-- The handler of a request. -/
def handlerOf (req : HttpRequest) : Option Handler :=
  (walk routes (splitPath req.path)).bind fun r => serving r.1 req.method

/-! ### The listener -/

/-- A program of a handler: the tables of `AccessDb`, the rest of the store, and names for
the statements on the first. -/
abbrev SiteProg (R : Type) := Prog (Option AccessPt) (AccessDb × R) AccessEnv Error

/-- The running server: its configuration, the extractors, and the handlers behind the
gate.  `service` is the rest of a handler that first resolves the tenant. -/
structure Gateway (R : Type) where
  cfg : AccessConfig
  announceBody : HttpRequest → Option AnnounceRequest
  uploadBody : HttpRequest → Option Bytes
  finalizeBody : HttpRequest → Option FinalizeRequest
  enrollBody : HttpRequest → Option EnrollRequest
  heartbeatBody : HttpRequest → Option HeartbeatRequest
  gapsBody : HttpRequest → Option (List GapEvent)
  /-- the other extractors of a handler -/
  extracts : Handler → HttpRequest → List String → Bool
  /-- the text of a segment with `%` -/
  percentDecode : String → Option String
  service : Handler → HttpRequest → Uuid → SiteProg R Unit
  history : Uuid → Bytes → SiteProg R Unit
  admin : Handler → HttpRequest → List String → SiteProg R Unit

/-- How a request ends that does not fail. -/
inductive HttpReply where
  | health
  | access (r : AccessReply)
  | answered (h : Handler)
  | notFound
  | methodNotAllowed
  | rejected

/-- The request got no answer of a handler. -/
def HttpReply.isRefusal : HttpReply → Bool
  | notFound | methodNotAllowed | rejected => true
  | _ => false

section Listener

variable {R : Type}

/-- The tables of `AccessDb` in the store. -/
def siteLens (R : Type) : Lens (AccessDb × R) AccessDb where
  get s := s.1
  set s a := (a, s.2)
  get_set _ _ := rfl
  set_get _ := rfl
  set_set _ _ _ := rfl

@[simp] theorem siteLens_get (s : AccessDb × R) : (siteLens R).get s = s.1 := rfl

@[simp] theorem siteLens_set (s : AccessDb × R) (a : AccessDb) :
    (siteLens R).set s a = (a, s.2) := rfl

/-- A function of `Corpus.Access`, on its tables. -/
def onAccess {α : Type} (p : AccessProg α) : SiteProg R α := p.zoom some (siteLens R) id

/-- The body of a handler, once an extractor has read `a`. -/
def extracted {α : Type} (a : Option α) (body : α → SiteProg R HttpReply) :
    SiteProg R HttpReply :=
  match a with
  | none => return .rejected
  | some a => body a

/-- A check of a handler. -/
def checked (c : Except Error Unit) (rest : SiteProg R HttpReply) : SiteProg R HttpReply :=
  match c with
  | .error e => Prog.err e
  | .ok _ => rest

/-- The check of `mcp_endpoint`. -/
def checkMcp (auth : AuthConfig) (headers : HeaderMap) : Except Error Unit :=
  if !auth.mcpMatches ((bearerOf headers).getD "") then .error (.unauthorized "invalid MCP token")
  else .ok ()

namespace Gateway

/-- A gateway to run the model with: gaps are recorded whatever the body, and nothing else
is decoded or served behind the gate. -/
def plain (gaps : List GapEvent) : Gateway Unit where
  cfg := .plain
  announceBody _ := none
  uploadBody _ := none
  finalizeBody _ := none
  enrollBody _ := none
  heartbeatBody _ := none
  gapsBody _ := some gaps
  extracts _ _ _ := true
  percentDecode _ := none
  service _ _ _ := return ()
  history _ _ := return ()
  admin _ _ _ := return ()

variable (gw : Gateway R)

/-- The text of a parameter. -/
def decodeSegment (w : String) : Option String :=
  if '%' ∈ w.toList then gw.percentDecode w else some w

/-- A call of `Corpus.Access`. -/
def call (r : AccessRequest) : SiteProg R HttpReply :=
  onAccess (serveAccess gw.cfg r) >>= fun a => return .access a

/-- A handler that resolves the tenant, then does the rest. -/
def tenantService (h : Handler) (req : HttpRequest) : SiteProg R HttpReply := do
  let t ← onAccess (resolveTenant gw.cfg req.headers)
  gw.service h req t
  return .answered h

/-- `opinion_history`, with `artifact_id_for` up to its query. -/
def opinionHistory (req : HttpRequest) (sha256 : String) : SiteProg R HttpReply := do
  let t ← onAccess (resolveTenant gw.cfg req.headers)
  match hexToRaw sha256 with
  | none =>
    let quoted := gw.cfg.server.debug sha256
    Prog.err (.badRequest s!"invalid sha256 hex: {quoted}")
  | some raw => do
    gw.history t raw
    return .answered .opinionHistory

/-- The handler of a route. -/
def handle (req : HttpRequest) (params : List String) : Handler → SiteProg R HttpReply
  | .health => return .health
  | .announce => extracted (gw.announceBody req) fun b => gw.call (.main req.headers (.announce b))
  | .upload =>
    extracted ((params.head?.bind gw.decodeSegment).bind gw.cfg.parseUuid) fun id =>
      extracted (gw.uploadBody req) fun b => gw.call (.main req.headers (.upload id b))
  | .finalize => extracted (gw.finalizeBody req) fun b => gw.call (.main req.headers (.finalize b))
  | .enroll => extracted (gw.enrollBody req) fun b => gw.call (.enroll b)
  | .agentHeartbeat =>
    extracted (gw.heartbeatBody req) fun b => gw.call (.main req.headers (.heartbeat b))
  | .reportGaps => extracted (gw.gapsBody req) fun b => gw.call (.main req.headers (.gaps b))
  | .opinionHistory =>
    extracted (params.head?.bind gw.decodeSegment) fun sha => gw.opinionHistory req sha
  | .ingestMerlinSegment =>
    if !gw.extracts .ingestMerlinSegment req params then return .rejected
    else checked (gw.cfg.auth.checkMerlinIngest req.authorization)
      (gw.tenantService .ingestMerlinSegment req)
  | .listMerlinObservations =>
    if !gw.extracts .listMerlinObservations req params then return .rejected
    else checked (gw.cfg.auth.checkMerlinIngest req.authorization)
      (gw.tenantService .listMerlinObservations req)
  | .mcpEndpoint =>
    if !gw.extracts .mcpEndpoint req params then return .rejected
    else checked (checkMcp gw.cfg.auth req.headers) (gw.tenantService .mcpEndpoint req)
  | h =>
    if !gw.extracts h req params then return .rejected
    else do
      gw.admin h req params
      return .answered h

/-- The router behind the gate. -/
def dispatch (req : HttpRequest) : SiteProg R HttpReply :=
  match walk routes (splitPath req.path) with
  | none => return .notFound
  | some (ms, params) =>
    match serving ms req.method with
    | none => return .methodNotAllowed
    | some h => gw.handle req params h

/-- A request, through `admin_gate` and its handler. -/
def serve (req : HttpRequest) : SiteProg R HttpReply :=
  checked (adminGate gw.cfg.auth req) (gw.dispatch req)

end Gateway

end Listener

/-! ### Header texts -/

/-- A text that a header can carry and `to_str` gives back: visible ASCII and tabs. -/
def visible (s : String) : Bool :=
  s.toList.all fun c => (32 ≤ c.toNat && c.toNat < 127) || c.toNat = 9

theorem asBytes_eq_utf8 (s : String) : asBytes s = utf8 s := by
  have hs : s.toByteArray = (utf8 s).toByteArray := String.utf8Encode_toList.symm
  show s.toByteArray.data.toList = utf8 s
  rw [hs, List.data_toByteArray]

theorem asBytes_injective : Function.Injective asBytes := by
  intro s t h
  rw [asBytes_eq_utf8, asBytes_eq_utf8] at h
  exact utf8_injective h

theorem asBytes_append (s t : String) : asBytes (s ++ t) = asBytes s ++ asBytes t := by
  simp only [asBytes_eq_utf8, utf8, String.toList_append, List.flatMap_append]

theorem visible_append (s t : String) : visible (s ++ t) = (visible s && visible t) := by
  rw [visible, String.toList_append, List.all_append]
  rfl

/-- The byte of an ASCII character. -/
theorem utf8EncodeChar_ascii {c : Char} (h : c.toNat < 128) :
    String.utf8EncodeChar c = [UInt8.ofNat c.toNat] := by
  have hle : c.val.toNat ≤ 0x7f := Nat.le_of_lt_succ h
  rw [String.utf8EncodeChar, if_pos hle]
  rfl

/-- The character of a visible byte. -/
theorem toNat_visibleChar {b : UInt8} (h : ((32 ≤ b && b < 127) || b = 9) = true) :
    (Char.ofNat b.toNat).toNat = b.toNat ∧
      ((32 ≤ b.toNat && b.toNat < 127) || b.toNat = 9) = true := by
  have hb : (32 ≤ b.toNat ∧ b.toNat < 127) ∨ b.toNat = 9 := by
    have h' : (32 ≤ b ∧ b < 127) ∨ b = 9 := by simpa using h
    rcases h' with ⟨h₁, h₂⟩ | rfl
    · exact .inl ⟨UInt8.le_iff_toNat_le.mp h₁, UInt8.lt_iff_toNat_lt.mp h₂⟩
    · exact .inr rfl
  refine ⟨?_, by simpa using hb⟩
  have hvalid : b.toNat.isValidChar := .inl (by omega)
  rw [Char.ofNat, dif_pos hvalid]
  rfl

theorem utf8_visible {s : String} (h : visible s = true) :
    utf8 s = s.toList.map fun c => UInt8.ofNat c.toNat := by
  have hall : ∀ c ∈ s.toList, String.utf8EncodeChar c = [UInt8.ofNat c.toNat] := by
    intro c hc
    have hvis := List.all_eq_true.mp h c hc
    refine utf8EncodeChar_ascii ?_
    simp only [Bool.or_eq_true, Bool.and_eq_true, decide_eq_true_eq] at hvis
    omega
  rw [utf8, List.flatMap_congr hall]
  exact List.map_eq_flatMap.symm

/-- The byte of a visible character. -/
theorem visibleByte {c : Char} (h : ((32 ≤ c.toNat && c.toNat < 127) || c.toNat = 9) = true) :
    (UInt8.ofNat c.toNat).toNat = c.toNat ∧
      ((32 ≤ UInt8.ofNat c.toNat && UInt8.ofNat c.toNat < 127) || UInt8.ofNat c.toNat = 9)
        = true := by
  have hc : (32 ≤ c.toNat ∧ c.toNat < 127) ∨ c.toNat = 9 := by simpa using h
  have hnat : (UInt8.ofNat c.toNat).toNat = c.toNat := by
    rw [UInt8.toNat_ofNat']
    omega
  refine ⟨hnat, ?_⟩
  rcases hc with ⟨h₁, h₂⟩ | h9
  · have hle : (32 : UInt8) ≤ UInt8.ofNat c.toNat := UInt8.le_iff_toNat_le.mpr (by rw [hnat]; exact h₁)
    have hlt : UInt8.ofNat c.toNat < 127 := UInt8.lt_iff_toNat_lt.mpr (by rw [hnat]; exact h₂)
    simp [hle, hlt]
  · simp [h9]

/-- **`to_str` gives back exactly the visible texts.** -/
theorem headerText_eq_some {v : Bytes} {s : String} :
    headerText v = some s ↔ v = asBytes s ∧ visible s = true := by
  rw [asBytes_eq_utf8]
  constructor
  · intro h
    unfold headerText at h
    split at h
    · next hall =>
      obtain rfl := Option.some.inj h
      have hchar := fun b hb => toNat_visibleChar (List.all_eq_true.mp hall b hb)
      have hvis : visible (String.ofList (v.map fun b => Char.ofNat b.toNat)) = true := by
        rw [visible, String.toList_ofList, List.all_map, List.all_eq_true]
        intro b hb
        show ((32 ≤ (Char.ofNat b.toNat).toNat && _) || _) = true
        rw [(hchar b hb).1]
        exact (hchar b hb).2
      refine ⟨?_, hvis⟩
      rw [utf8_visible hvis, String.toList_ofList, List.map_map]
      refine (List.map_id v).symm.trans (List.map_congr_left fun b hb => ?_)
      show b = UInt8.ofNat (Char.ofNat b.toNat).toNat
      rw [(hchar b hb).1, UInt8.ofNat_toNat]
    · cases h
  · rintro ⟨rfl, hvis⟩
    have hbyte := fun c hc => visibleByte (List.all_eq_true.mp hvis c hc)
    rw [utf8_visible hvis, headerText, if_pos, List.map_map]
    · have hback : s.toList.map ((fun b => Char.ofNat b.toNat) ∘ fun c => UInt8.ofNat c.toNat)
          = s.toList := by
        refine (List.map_congr_left fun c hc => ?_).trans (List.map_id _)
        show Char.ofNat (UInt8.ofNat c.toNat).toNat = c
        rw [(hbyte c hc).1, Char.ofNat_toNat]
      rw [hback, String.ofList_toList]
    · rw [List.all_map, List.all_eq_true]
      exact fun c hc => (hbyte c hc).2

/-! ### Bearer tokens -/

theorem stripPrefix_eq_some {pre s t : String} : stripPrefix pre s = some t ↔ s = pre ++ t := by
  unfold stripPrefix
  constructor
  · intro h
    split at h
    · next hpre =>
      obtain rfl := Option.some.inj h
      obtain ⟨rest, hrest⟩ := List.isPrefixOf_iff_prefix.mp hpre
      rw [← String.toList_inj, String.toList_append, String.toList_ofList, ← hrest,
        ← String.length_toList, List.drop_left]
    · cases h
  · rintro rfl
    have hpre : pre.toList.isPrefixOf (pre ++ t).toList = true := by
      rw [String.toList_append, List.isPrefixOf_iff_prefix]
      exact List.prefix_append _ _
    rw [if_pos hpre, String.toList_append, ← String.length_toList, List.drop_left,
      String.ofList_toList]

/-- The request has `tok` for a bearer token, as it is written on the wire. -/
def HttpRequest.Carries (req : HttpRequest) (tok : String) : Prop :=
  req.headers.get "authorization" = some (asBytes ("Bearer " ++ tok))

/-- The handlers read the bearer token of a request if it is visible, and no other. -/
theorem bearerOf_eq_some {req : HttpRequest} {tok : String} :
    bearerOf req.headers = some tok ↔ req.Carries tok ∧ visible tok = true := by
  have hbearer : visible ("Bearer " ++ tok) = visible tok := by
    rw [visible_append, show visible "Bearer " = true by decide +kernel, Bool.true_and]
  rw [bearerOf, Option.bind_eq_some_iff]
  constructor
  · rintro ⟨s, hs, hstrip⟩
    obtain ⟨v, hv, htext⟩ := Option.bind_eq_some_iff.mp hs
    obtain rfl := stripPrefix_eq_some.mp hstrip
    obtain ⟨rfl, hvis⟩ := headerText_eq_some.mp htext
    exact ⟨hv, hbearer ▸ hvis⟩
  · rintro ⟨hcarries, hvis⟩
    refine ⟨"Bearer " ++ tok, Option.bind_eq_some_iff.mpr ⟨_, hcarries, ?_⟩, ?_⟩
    · exact headerText_eq_some.mpr ⟨rfl, hbearer.trans hvis⟩
    · exact stripPrefix_eq_some.mpr rfl

/-- A request has one bearer token. -/
theorem HttpRequest.Carries.unique {req : HttpRequest} {tok tok' : String} (h : req.Carries tok)
    (h' : req.Carries tok') : tok = tok' := by
  have hbytes : asBytes ("Bearer " ++ tok) = asBytes ("Bearer " ++ tok') :=
    Option.some.inj (h.symm.trans h')
  rw [asBytes_append, asBytes_append] at hbytes
  exact asBytes_injective (List.append_cancel_left hbytes)

/-! ### Routing -/

/-- The path `ws` is an instance of the pattern, with the parameters `ps`. -/
inductive Matches : List Seg → List String → List String → Prop where
  | nil : Matches [] [] []
  | lit {w : String} {pat : List Seg} {ws ps : List String} :
      Matches pat ws ps → Matches (.lit w :: pat) (w :: ws) ps
  | param {name w : String} {pat : List Seg} {ws ps : List String} :
      w ≠ "" → Matches pat ws ps → Matches (.param name :: pat) (w :: ws) (w :: ps)

theorem Matches.length_eq {pat : List Seg} {ws ps : List String} (h : Matches pat ws ps) :
    pat.length = ws.length := by
  induction h with
  | nil => rfl
  | lit _ ih => exact congrArg (· + 1) ih
  | param _ _ ih => exact congrArg (· + 1) ih

/-- A pattern without parameters has one instance. -/
theorem Matches.of_lits : ∀ {ws ws' ps : List String}, Matches (ws.map .lit) ws' ps →
    ws' = ws ∧ ps = [] := by
  intro ws
  induction ws with
  | nil =>
    intro ws' ps h
    cases h
    exact ⟨rfl, rfl⟩
  | cons w ws ih =>
    intro ws' ps h
    cases h with
    | lit h =>
      obtain ⟨rfl, rfl⟩ := ih h
      exact ⟨rfl, rfl⟩

theorem Routes.mem_afterLit {rs : Routes} {w : String} {pat : List Seg}
    {ms : List (Method × Handler)} :
    (pat, ms) ∈ rs.afterLit w ↔ (.lit w :: pat, ms) ∈ rs := by
  rw [Routes.afterLit, List.mem_filterMap]
  constructor
  · rintro ⟨⟨pat', ms'⟩, hmem, heq⟩
    split at heq
    · next w' pat'' hpat =>
      split at heq
      · next hw =>
        obtain ⟨rfl, rfl⟩ := Prod.mk.inj (Option.some.inj heq)
        obtain rfl : pat' = .lit w' :: pat'' := hpat
        rwa [← hw]
      · cases heq
    · cases heq
  · intro hmem
    exact ⟨_, hmem, if_pos rfl⟩

theorem Routes.mem_afterParam {rs : Routes} {pat : List Seg} {ms : List (Method × Handler)} :
    (pat, ms) ∈ rs.afterParam ↔ ∃ name, (.param name :: pat, ms) ∈ rs := by
  rw [Routes.afterParam, List.mem_filterMap]
  constructor
  · rintro ⟨⟨pat', ms'⟩, hmem, heq⟩
    split at heq
    · next name pat'' hpat =>
      obtain ⟨rfl, rfl⟩ := Prod.mk.inj (Option.some.inj heq)
      obtain rfl : pat' = .param name :: pat'' := hpat
      exact ⟨name, hmem⟩
    · cases heq
  · rintro ⟨name, hmem⟩
    exact ⟨_, hmem, rfl⟩

/-- **The route that is found matches the path.** -/
theorem walk_matches : ∀ {ws : List String} {rs : Routes} {ms : List (Method × Handler)}
    {ps : List String}, walk rs ws = some (ms, ps) → ∃ pat, (pat, ms) ∈ rs ∧ Matches pat ws ps := by
  intro ws
  induction ws with
  | nil =>
    intro rs ms ps h
    obtain ⟨⟨pat, ms'⟩, hfind, heq⟩ := Option.map_eq_some_iff.mp h
    obtain ⟨rfl, rfl⟩ := Prod.mk.inj heq
    obtain rfl : pat = [] := by simpa using List.find?_some hfind
    exact ⟨[], List.mem_of_find?_eq_some hfind, .nil⟩
  | cons w ws ih =>
    intro rs ms ps h
    unfold walk at h
    cases hlit : walk (rs.afterLit w) ws with
    | some r =>
      rw [hlit] at h
      obtain rfl := Option.some.inj h
      obtain ⟨pat, hmem, hmatch⟩ := ih hlit
      exact ⟨.lit w :: pat, Routes.mem_afterLit.mp hmem, .lit hmatch⟩
    | none =>
      rw [hlit] at h
      by_cases hw : w = ""
      · rw [if_pos hw] at h
        cases h
      · rw [if_neg hw] at h
        obtain ⟨⟨ms', ps'⟩, hparam, heq⟩ := Option.map_eq_some_iff.mp h
        obtain ⟨rfl, rfl⟩ := Prod.mk.inj heq
        obtain ⟨pat, hmem, hmatch⟩ := ih hparam
        obtain ⟨name, hroute⟩ := Routes.mem_afterParam.mp hmem
        exact ⟨.param name :: pat, hroute, .param hw hmatch⟩

theorem walk_nil (ws : List String) : walk [] ws = none := by
  cases h : walk [] ws with
  | none => rfl
  | some r =>
    obtain ⟨pat, hmem, -⟩ := walk_matches h
    exact absurd hmem List.not_mem_nil

/-- Where no route goes on with a parameter. -/
theorem walk_cons_lit {rs : Routes} (h : rs.afterParam = []) (w : String) (ws : List String) :
    walk rs (w :: ws) = walk (rs.afterLit w) ws := by
  rw [walk, h, walk_nil]
  cases walk (rs.afterLit w) ws with
  | some r => rfl
  | none => exact ite_self _

/-- The routes under `/api/v1/`. -/
def apiRoutes : Routes := ((routes.afterLit "").afterLit "api").afterLit "v1"

theorem walk_api (w : String) (ws : List String) :
    walk routes ("" :: "api" :: "v1" :: w :: ws) = walk (apiRoutes.afterLit w) ws := by
  rw [walk_cons_lit (by decide +kernel), walk_cons_lit (by decide +kernel),
    walk_cons_lit (by decide +kernel)]
  exact walk_cons_lit (by decide +kernel) w ws

/-- A path is determined by its segments. -/
theorem splitPath_injective : Function.Injective splitPath := by
  intro p q h
  have hsplit : p.toList.splitOn '/' = q.toList.splitOn '/' :=
    List.map_injective_iff.mpr (fun _ _ => String.ofList_inj.mp) h
  have hjoin : ∀ cs : List Char, ['/'].intercalate (cs.splitOn '/') = cs := fun cs =>
    List.intercalate_splitOn '/'
  rw [← String.toList_inj, ← hjoin p.toList, hsplit, hjoin]

/-- The segments under a prefix that ends in a slash. -/
theorem splitPath_of_startsWith {pre path : String} (ws : List String)
    (hpre : ∀ rest, (pre.toList ++ rest).splitOn '/'
      = ws.map String.toList ++ rest.splitOn '/')
    (h : startsWith pre path = true) : ∃ w rest, splitPath path = ws ++ w :: rest := by
  obtain ⟨rest, hrest⟩ := List.isPrefixOf_iff_prefix.mp h
  obtain ⟨w, rest', hseg⟩ := List.exists_cons_of_ne_nil (List.splitOn_ne_nil '/' rest)
  refine ⟨String.ofList w, rest'.map String.ofList, ?_⟩
  rw [splitPath, ← hrest, hpre, hseg, List.map_append, List.map_map]
  have hid : ws.map (String.ofList ∘ String.toList) = ws :=
    (List.map_congr_left fun s _ => String.ofList_toList).trans (List.map_id _)
  rw [hid, List.map_cons]

/-- Under the prefix of Merlin there are its two handlers. -/
theorem walk_merlinPath {path : String} {ms : List (Method × Handler)} {ps : List String}
    (h : merlinPath path = true) (hwalk : walk routes (splitPath path) = some (ms, ps)) :
    ∀ e ∈ ms, e.2 = .ingestMerlinSegment ∨ e.2 = .listMerlinObservations := by
  obtain ⟨w, rest, hsplit⟩ :=
    splitPath_of_startsWith ["", "api", "v1", "integrations", "merlin"] (fun _ => rfl) h
  have hroutes : (apiRoutes.afterLit "integrations").afterLit "merlin"
      = [([.lit "segments"], [(.post, .ingestMerlinSegment)]),
        ([.lit "observations"], [(.get, .listMerlinObservations)])] := by decide +kernel
  rw [hsplit] at hwalk
  have hwalk' := (walk_api "integrations" ("merlin" :: w :: rest)).symm.trans hwalk
  rw [walk_cons_lit (by decide +kernel), hroutes] at hwalk'
  obtain ⟨pat, hmem, -⟩ := walk_matches hwalk'
  intro e he
  rcases List.mem_cons.mp hmem with heq | hmem
  · obtain ⟨-, rfl⟩ := Prod.mk.inj heq
    exact .inl (congrArg Prod.snd (List.mem_singleton.mp he))
  · obtain ⟨-, rfl⟩ := Prod.mk.inj (List.mem_singleton.mp hmem)
    exact .inr (congrArg Prod.snd (List.mem_singleton.mp he))

/-- The handlers that answer for themselves who may call them. -/
def Handler.isOpen : Handler → Bool
  | health | enroll | announce | upload | finalize | agentHeartbeat | reportGaps => true
  | _ => false

/-- Under the prefix of uploads there are `upload` and, through the parameter of another
route, `opinion_history` for the digest `uploads`. -/
theorem walk_uploads {path : String} {ms : List (Method × Handler)} {ps : List String}
    (h : startsWith "/api/v1/artifacts/uploads/" path = true)
    (hwalk : walk routes (splitPath path) = some (ms, ps)) :
    ms = [(.put, .upload)] ∨ (ms = [(.get, .opinionHistory)] ∧ ps = ["uploads"]) := by
  obtain ⟨w, rest, hsplit⟩ :=
    splitPath_of_startsWith ["", "api", "v1", "artifacts", "uploads"] (fun _ => rfl) h
  have hupload : (apiRoutes.afterLit "artifacts").afterLit "uploads"
      = [([.param "upload_id"], [(.put, .upload)])] := by decide +kernel
  rw [hsplit] at hwalk
  have hwalk' := (walk_api "artifacts" ("uploads" :: w :: rest)).symm.trans hwalk
  rw [walk, hupload] at hwalk'
  cases hup : walk [([.param "upload_id"], [(.put, .upload)])] (w :: rest) with
  | some r =>
    rw [hup] at hwalk'
    obtain rfl := Option.some.inj hwalk'
    obtain ⟨pat, hmem, -⟩ := walk_matches hup
    exact .inl (Prod.mk.inj (List.mem_singleton.mp hmem)).2
  | none =>
    rw [hup] at hwalk'
    obtain ⟨⟨ms', ps'⟩, hother, heq⟩ := Option.map_eq_some_iff.mp hwalk'
    obtain ⟨rfl, rfl⟩ := Prod.mk.inj heq
    obtain ⟨pat, hmem, hmatch⟩ := walk_matches hother
    -- a path with one more segment is an upload, unless that segment is empty
    have hshort : rest = [] → w = "" := by
      rintro rfl
      by_contra hw
      have hfound : walk [([.param "upload_id"], [(.put, .upload)])] [w]
          = some ([(.put, .upload)], [w]) := if_neg hw
      exact absurd (hup.symm.trans hfound) (Option.some_ne_none _).symm
    have hlong : ∀ w', w' ≠ "" → pat ≠ [.lit w'] := by
      rintro w' hw' rfl
      cases hmatch with
      | lit hnil => exact hw' (hshort (List.eq_nil_of_length_eq_zero hnil.length_eq.symm))
    have hrest : ((apiRoutes.afterLit "artifacts").afterParam).all (fun r =>
        decide (r = ([.lit "opinion", .lit "history"], [(.get, .opinionHistory)]) ∨
          ∃ w' ∈ ["similar", "variants", "receipts", "similarity-cleanup", "prevalence", "opinion",
            "detonate"], r.1 = [.lit w'])) = true := by decide +kernel
    rcases of_decide_eq_true (List.all_eq_true.mp hrest _ hmem) with heq' | ⟨w', hw', heq'⟩
    · obtain ⟨rfl, rfl⟩ := Prod.mk.inj heq'
      cases hmatch with
      | lit htail =>
        cases htail with
        | lit hnil =>
          cases hnil
          exact .inr ⟨rfl, rfl⟩
    · exact absurd heq' (hlong w' (by rintro rfl; revert hw'; decide))

/-- **What the gate skips.** -/
theorem walk_skips {path : String} {ms : List (Method × Handler)} {ps : List String}
    (h : skipsGate path = true) (hwalk : walk routes (splitPath path) = some (ms, ps)) :
    ∀ e ∈ ms, e.2.isOpen = true ∨ (e.2 = .opinionHistory ∧ ps = ["uploads"]) := by
  have hfixed : ∀ (p : String) (m : Method) (hd : Handler), hd.isOpen = true →
      walk routes (splitPath p) = some ([(m, hd)], []) → path = p →
      ∀ e ∈ ms, e.2.isOpen = true ∨ (e.2 = .opinionHistory ∧ ps = ["uploads"]) := by
    rintro p m hd hopen hp rfl e he
    obtain ⟨rfl, -⟩ := Prod.mk.inj (Option.some.inj (hwalk.symm.trans hp))
    rw [List.mem_singleton.mp he]
    exact .inl hopen
  simp only [skipsGate, Bool.or_eq_true, decide_eq_true_eq] at h
  rcases h with (((((h | h) | h) | h) | h) | h) | h
  · exact hfixed _ .get .health rfl (by decide +kernel) h
  · exact hfixed _ .post .enroll rfl (by decide +kernel) h
  · exact hfixed _ .post .announce rfl (by decide +kernel) h
  · exact hfixed _ .post .finalize rfl (by decide +kernel) h
  · intro e he
    rcases walk_uploads h hwalk with rfl | ⟨rfl, hps⟩
    · rw [List.mem_singleton.mp he]
      exact .inl rfl
    · rw [List.mem_singleton.mp he]
      exact .inr ⟨rfl, hps⟩
  · exact hfixed _ .post .agentHeartbeat rfl (by decide +kernel) h
  · exact hfixed _ .post .reportGaps rfl (by decide +kernel) h

theorem serving_mem {ms : List (Method × Handler)} {m : Method} {hd : Handler}
    (h : serving ms m = some hd) : ∃ m', (m', hd) ∈ ms := by
  unfold serving at h
  split at h
  · next e hfind =>
    obtain rfl := Option.some.inj h
    exact ⟨e.1, List.mem_of_find?_eq_some hfind⟩
  · split at h
    · obtain ⟨e, hfind, rfl⟩ := Option.map_eq_some_iff.mp h
      exact ⟨e.1, List.mem_of_find?_eq_some hfind⟩
    · cases h

theorem handlerOf_reportGaps {req : HttpRequest} :
    handlerOf req = some .reportGaps ↔ req.method = .post ∧ req.path = "/api/v1/agents/gaps" := by
  have hroute : walk routes (splitPath "/api/v1/agents/gaps") = some ([(.post, .reportGaps)], []) := by
    decide +kernel
  constructor
  · intro h
    obtain ⟨⟨ms, ps⟩, hwalk, hserving⟩ := Option.bind_eq_some_iff.mp h
    obtain ⟨pat, hmem, hmatch⟩ := walk_matches hwalk
    obtain ⟨m, hin⟩ := serving_mem hserving
    have hpat : ∀ r ∈ routes, (∃ e ∈ r.2, e.2 = .reportGaps) →
        r.1 = api [.lit "agents", .lit "gaps"] := by decide +kernel
    have hlits : pat = ["", "api", "v1", "agents", "gaps"].map Seg.lit := hpat _ hmem ⟨_, hin, rfl⟩
    have hsplit : splitPath req.path = splitPath "/api/v1/agents/gaps" :=
      (Matches.of_lits (hlits ▸ hmatch)).1.trans (by decide +kernel)
    have hpath := splitPath_injective hsplit
    rw [hpath, hroute] at hwalk
    obtain ⟨rfl, rfl⟩ := Prod.mk.inj (Option.some.inj hwalk)
    refine ⟨?_, hpath⟩
    by_contra hmethod
    have hnone : serving [(.post, .reportGaps)] req.method = none := by
      simp [serving, Ne.symm hmethod]
    exact absurd (hnone.symm.trans hserving) (Option.some_ne_none _).symm
  · rintro ⟨hmethod, hpath⟩
    rw [handlerOf, hpath, hroute, hmethod]
    rfl

end Corpus
