/-
What a credential opens on the main listener.

A request without any credential of the route is refused before its handler touches the
store (`Stranger.keeps`), with one exception: `report_gaps` takes a request without an
authorization header for the tenant of its tenant header, whatever `allow_dev_ingest` says,
and records gaps for it.  `anonymous_writes_iff` says which requests do that.

The admin token and the token of the Merlin bridge work where they are meant.  The token of
MCP does not: the gate asks for the admin token on `/mcp` and the handler for the MCP token,
so that only one token for both passes (`credentials_work_iff`).
-/
import Corpus.Gateway
import Corpus.Suspension

namespace Corpus

open Agent (GapEvent AgentIdentity gapSha recordGaps)

/-! ### Tokens -/

theorem ite_error_eq_ok {ε α : Type} {c : Prop} [Decidable c] {e : ε} {x : Except ε α} {a : α} :
    (if c then .error e else x) = .ok a ↔ ¬ c ∧ x = .ok a := by
  by_cases hc : c
  · rw [if_pos hc]
    exact ⟨nofun, fun h => absurd hc h.1⟩
  · rw [if_neg hc]
    exact ⟨fun h => ⟨hc, h⟩, And.right⟩

namespace AuthConfig

variable {auth : AuthConfig} {tok : String}

/-- A token that may be configured is compared as a whole. -/
theorem any_subtleEq_iff (token : Option String) :
    (token.any fun expected => subtleEq (asBytes expected) (asBytes tok)) = true ↔
      token = some tok := by
  cases token with
  | none => exact iff_of_false Bool.false_ne_true fun h => by cases h
  | some expected =>
    rw [Option.any_some, subtleEq_iff, asBytes_injective.eq_iff, Option.some.injEq]

theorem adminMatches_iff : auth.adminMatches tok = true ↔ auth.adminToken = some tok := by
  rw [← any_subtleEq_iff auth.adminToken, adminMatches]
  cases auth.adminToken with
  | none => rfl
  | some expected => rfl

theorem merlinMatches_iff : auth.merlinMatches tok = true ↔ auth.merlinIngestToken = some tok := by
  rw [← any_subtleEq_iff auth.merlinIngestToken, merlinMatches]
  cases auth.merlinIngestToken with
  | none => rfl
  | some expected => rfl

theorem mcpMatches_iff : auth.mcpMatches tok = true ↔ auth.mcpToken = tok := by
  rw [mcpMatches, subtleEq_iff, asBytes_injective.eq_iff]

/-- A server that requires the admin token has one. -/
theorem fromEnv_admin {socketLoopback : String → Option Bool} {env : String → Option String}
    {listen : String} (h : fromEnv socketLoopback env listen = .ok auth)
    (hreq : auth.requireAdmin = true) : ∃ adm, auth.adminToken = some adm ∧ adm ≠ "" := by
  simp only [fromEnv, ite_error_eq_ok, Except.ok.injEq] at h
  obtain ⟨-, hset, -, rfl⟩ := h
  cases hadm : tokenFrom env "CORPUS_ADMIN_TOKEN" with
  | none => exact absurd (by simpa [hadm] using hreq) hset
  | some adm => exact ⟨adm, rfl, by simpa using (Option.filter_eq_some_iff.mp hadm).2⟩

/-- The gate lets in on the admin token, and on the Merlin token under its prefix. -/
theorem adminGate_eq_ok {req : HttpRequest} (hreq : auth.requireAdmin = true) :
    adminGate auth req = .ok () ↔ skipsGate req.path = true ∨
      ∃ tok, bearerOf req.headers = some tok ∧ (auth.adminToken = some tok ∨
        (merlinPath req.path = true ∧ auth.merlinIngestToken = some tok)) := by
  unfold adminGate
  rw [hreq, if_neg (by decide)]
  by_cases hskip : skipsGate req.path = true
  · rw [if_pos hskip]
    exact ⟨fun _ => .inl hskip, fun _ => rfl⟩
  rw [if_neg hskip]
  have hbearer : bearerFromAuthorization req.authorization = bearerOf req.headers := rfl
  have hadmin : auth.checkAdmin req.authorization = .ok () ↔
      ∃ tok, bearerOf req.headers = some tok ∧ auth.adminToken = some tok := by
    rw [checkAdmin, hreq, if_neg (by decide), hbearer]
    cases bearerOf req.headers with
    | none => exact ⟨nofun, fun ⟨_, h, _⟩ => absurd h.symm (Option.some_ne_none _)⟩
    | some tok =>
      simp only [ite_error_eq_ok, Bool.not_eq_true', Bool.not_eq_false, adminMatches_iff, and_true,
        Option.some.injEq, exists_eq_left']
  have hany : (req.authorization.bind (stripPrefix "Bearer ")).any auth.merlinMatches = true ↔
      ∃ tok, bearerOf req.headers = some tok ∧ auth.merlinIngestToken = some tok := by
    show (bearerOf req.headers).any auth.merlinMatches = true ↔ _
    simp only [Option.any_eq_true, merlinMatches_iff]
  by_cases hmerlin : (merlinPath req.path &&
      (req.authorization.bind (stripPrefix "Bearer ")).any auth.merlinMatches) = true
  · rw [if_pos hmerlin]
    rw [Bool.and_eq_true, hany] at hmerlin
    obtain ⟨hpath, tok, htok, hm⟩ := hmerlin
    exact ⟨fun _ => .inr ⟨tok, htok, .inr ⟨hpath, hm⟩⟩, fun _ => rfl⟩
  · rw [if_neg hmerlin, hadmin]
    rw [Bool.and_eq_true, hany] at hmerlin
    constructor
    · rintro ⟨tok, htok, hadm⟩
      exact .inr ⟨tok, htok, .inl hadm⟩
    · rintro (h | ⟨tok, htok, hadm | ⟨hpath, hm⟩⟩)
      · exact absurd h hskip
      · exact ⟨tok, htok, hadm⟩
      · exact absurd ⟨hpath, tok, htok, hm⟩ hmerlin

end AuthConfig

/-! ### Requests without a credential -/

/-- The handlers that look for an agent's bearer token. -/
def Handler.takesAgent : Handler → Bool
  | announce | upload | finalize | agentHeartbeat | reportGaps => true
  | _ => false

/-- The handlers of the Merlin bridge. -/
def Handler.takesMerlin : Handler → Bool
  | ingestMerlinSegment | listMerlinObservations => true
  | _ => false

section Strangers

variable {cfg : AccessConfig} {s : AccessDb} {Ok : AccessPt → AccessEnv → AccessDb → Prop}

theorem authenticate_stranger {tok : String} (h : bearerAgent cfg s tok = none) :
    (authenticate cfg tok).Keeps Eq Ok (fun _ _ => False) s := by
  refine keeps_authenticate (fun _ => rfl) fun s' i a hs _ ha => ?_
  subst hs
  exact absurd (h.symm.trans ha) (Option.some_ne_none _).symm

theorem ingestAuth_stranger {headers : HeaderMap}
    (hadmin : ∀ tok, bearerOf headers = some tok → cfg.auth.adminMatches tok = false)
    (hagent : ∀ tok, bearerOf headers = some tok → bearerAgent cfg s tok = none)
    (hdev : headers.get "authorization" = none → cfg.auth.allowDevIngest = false) :
    (ingestAuth cfg headers).Keeps Eq Ok (fun _ _ => False) s := by
  refine keeps_ingestAuth (fun _ => rfl) ?_ ?_
  · intro s' i a tok hs _ htok ha
    subst hs
    exact absurd ((hagent tok htok).symm.trans ha) (Option.some_ne_none _).symm
  · rintro s' row hs - - (⟨tok, htok, hadm⟩ | ⟨hnone, hallow⟩)
    · exact absurd ((hadmin tok htok).symm.trans hadm) Bool.false_ne_true
    · exact absurd ((hdev hnone).symm.trans hallow) Bool.false_ne_true

/-- A call with nobody behind it gets no answer and changes nothing; gaps may also come
without an authorization header. -/
theorem serveAccess_stranger {headers : HeaderMap} {call : AgentCall}
    (hadmin : ∀ tok, bearerOf headers = some tok → cfg.auth.adminMatches tok = false)
    (hagent : ∀ tok, bearerOf headers = some tok → bearerAgent cfg s tok = none)
    (hdev : headers.get "authorization" = none → cfg.auth.allowDevIngest = false)
    (hgaps : ∀ gaps, call = .gaps gaps → headers.get "authorization" ≠ none) :
    (serveAccess cfg (.main headers call)).Keeps Eq Ok (fun _ _ => False) s := by
  have hauth : (ingestAuth cfg headers).Keeps Eq Ok (fun _ _ => False) s :=
    ingestAuth_stranger hadmin hagent hdev
  have htoken : (∃ e, bearerToken headers = .error e) ∨
      ∃ tok, bearerToken headers = .ok tok ∧ bearerAgent cfg s tok = none := by
    unfold bearerToken
    cases htok : bearerOf headers with
    | none => exact .inl ⟨_, rfl⟩
    | some tok => exact .inr ⟨tok, rfl, hagent tok htok⟩
  cases call with
  | announce req =>
    exact (hauth.bind_of_fails (Q := fun _ _ => False) _).bind_of_fails _
  | upload upload body =>
    exact (hauth.bind_of_fails (Q := fun _ _ => False) _).bind_of_fails _
  | finalize req =>
    exact (hauth.bind_of_fails (Q := fun _ _ => False) _).bind_of_fails _
  | heartbeat hb =>
    refine Prog.Keeps.bind_of_fails ?_ _
    unfold agentHeartbeat
    obtain ⟨e, he⟩ | ⟨tok, htok, hnone⟩ := htoken
    · rw [he]
      trivial
    · rw [htok]
      exact (authenticate_stranger hnone).bind_of_fails _
  | gaps gaps =>
    refine Prog.Keeps.bind_of_fails ?_ _
    unfold reportGaps
    cases hget : headers.get "authorization" with
    | none => exact absurd hget (hgaps gaps rfl)
    | some v =>
      obtain ⟨e, he⟩ | ⟨tok, htok, hnone⟩ := htoken
      · simp only [he]
        trivial
      · simp only [htok]
        exact (authenticate_stranger hnone).bind_of_fails _

/-- An enrollment with no usable token gets no answer and changes nothing. -/
theorem enroll_stranger {req : EnrollRequest}
    (hok : ∀ l i, Ok l i s → ∀ tok, s.tokens.get (cfg.hashToken req.enrollmentToken) = some tok →
      tok.usable i.env.now = false) :
    (serveAccess cfg (.enroll req)).Keeps Eq Ok (fun _ _ => False) s := by
  refine Prog.Keeps.bind_of_fails (Prog.Keeps.bind_of_fails ?_ _) _
  refine Prog.keeps_exec_fails (fun _ => rfl) fun s' hs i hi => ?_
  subst hs
  cases hc : s.consumeToken (cfg.hashToken req.enrollmentToken) i.env.now with
  | none => exact ⟨_, rfl⟩
  | some r =>
    obtain ⟨⟨tok, htok, hu, -⟩, -⟩ := AccessDb.consumeToken_eq_some hc
    exact absurd ((hok _ i hi tok htok).symm.trans hu) Bool.false_ne_true

/-- As `Prog.Keeps.zoom`, when nothing changes. -/
theorem keeps_onAccess {R α : Type} {p : AccessProg α} {Q : α → AccessDb → Prop} {r : R}
    {Ok' : Option AccessPt → AccessEnv → AccessDb × R → Prop}
    (hok : ∀ l i s, Ok' (some l) i s → Ok l i s.1) (h : p.Keeps Eq Ok Q s) :
    (onAccess p : SiteProg R α).Keeps Eq Ok' (fun a s' => Q a s'.1) (s, r) := by
  have hpart : p.Keeps Eq Ok Q ((siteLens R).get (s, r)) := h
  refine Prog.Keeps.zoom (R := Eq) ?_ ?_ hok hpart
  · rintro s' _ rfl
    rfl
  · rintro s' _ rfl
    rfl

end Strangers

/-! ### A request through the gate -/

/-- The request has a token that can be exchanged for an agent at the time `now`. -/
def Gateway.EnrollsAt {R : Type} (gw : Gateway R) (req : HttpRequest) (s : AccessDb) (now : Time) :
    Prop :=
  handlerOf req = some .enroll ∧ ∃ body tok, gw.enrollBody req = some body ∧
    s.tokens.get (gw.cfg.hashToken body.enrollmentToken) = some tok ∧ tok.usable now = true

/-- The request has no credential that its handler takes, besides a token of enrollment. -/
structure Stranger {R : Type} (gw : Gateway R) (req : HttpRequest) (s : AccessDb) : Prop where
  admin : ∀ tok, bearerOf req.headers = some tok → gw.cfg.auth.adminToken ≠ some tok
  merlin : ∀ hd, handlerOf req = some hd → hd.takesMerlin = true →
    ∀ tok, bearerOf req.headers = some tok → gw.cfg.auth.merlinIngestToken ≠ some tok
  agent : ∀ hd, handlerOf req = some hd → hd.takesAgent = true →
    ∀ tok, bearerOf req.headers = some tok → bearerAgent gw.cfg s tok = none

section Gate

variable {R : Type} {gw : Gateway R} {req : HttpRequest} {s : AccessDb} {r : R}

/-- The answer is a refusal, or that of a handler that asks for nothing. -/
def Harmless (req : HttpRequest) (a : HttpReply) (_ : AccessDb × R) : Prop :=
  a.isRefusal = true ∨ handlerOf req = some .health

/-- What is assumed of the statements of a request. -/
abbrev NoEnrollment (gw : Gateway R) (req : HttpRequest) (_ : Option AccessPt) (i : AccessEnv)
    (s : AccessDb × R) : Prop :=
  ¬ gw.EnrollsAt req s.1 i.env.now

theorem call_stranger {call : AccessRequest}
    (h : (serveAccess gw.cfg call).Keeps Eq (fun _ i s => ¬ gw.EnrollsAt req s i.env.now)
      (fun _ _ => False) s) :
    (gw.call call).Keeps Eq (NoEnrollment gw req) (Harmless req) (s, r) :=
  (keeps_onAccess (fun _ _ _ h => h) h).bind_of_fails _

theorem extracted_keeps {α : Type} {a : Option α} {body : α → SiteProg R HttpReply}
    (h : ∀ b, a = some b → (body b).Keeps Eq (NoEnrollment gw req) (Harmless req) (s, r)) :
    (extracted a body).Keeps Eq (NoEnrollment gw req) (Harmless req) (s, r) := by
  cases a with
  | none => exact .inl rfl
  | some b => exact h b rfl

/-- The handlers that answer for themselves refuse a stranger. -/
theorem Stranger.handle_keeps (hs : Stranger gw req s)
    (hdev : req.headers.get "authorization" = none → gw.cfg.auth.allowDevIngest = false)
    (hgaps : handlerOf req = some .reportGaps → req.headers.get "authorization" ≠ none)
    (params : List String) {hd : Handler} (hopen : hd.isOpen = true)
    (hhandler : handlerOf req = some hd) :
    (gw.handle req params hd).Keeps Eq (NoEnrollment gw req) (Harmless req) (s, r) := by
  have hadmin : ∀ tok, bearerOf req.headers = some tok → gw.cfg.auth.adminMatches tok = false :=
    fun tok htok => Bool.eq_false_iff.mpr fun h => hs.admin tok htok (AuthConfig.adminMatches_iff.mp h)
  have hcall : hd.takesAgent = true → ∀ call : AgentCall,
      (∀ gaps, call = .gaps gaps → hd = .reportGaps) →
      (gw.call (.main req.headers call)).Keeps Eq (NoEnrollment gw req) (Harmless req) (s, r) := by
    intro htakes call hcall
    refine call_stranger (serveAccess_stranger hadmin (hs.agent hd hhandler htakes) hdev ?_)
    rintro gaps hg
    obtain rfl := hcall gaps hg
    exact hgaps hhandler
  cases hd <;> first | exact absurd hopen Bool.false_ne_true | skip
  case health => exact .inr hhandler
  case announce => exact extracted_keeps fun b _ => hcall rfl _ nofun
  case upload => exact extracted_keeps fun id _ => extracted_keeps fun b _ => hcall rfl _ nofun
  case finalize => exact extracted_keeps fun b _ => hcall rfl _ nofun
  case enroll =>
    refine extracted_keeps fun b hb => call_stranger (enroll_stranger fun _ i hi tok htok => ?_)
    exact Bool.eq_false_iff.mpr fun hu => hi ⟨hhandler, b, tok, hb, htok, hu⟩
  case agentHeartbeat => exact extracted_keeps fun b _ => hcall rfl _ nofun
  case reportGaps => exact extracted_keeps fun b _ => hcall rfl _ fun _ _ => rfl

/-- `uploads` is no digest. -/
theorem history_uploads :
    (gw.handle req ["uploads"] .opinionHistory).Keeps Eq (NoEnrollment gw req) (Harmless req)
      (s, r) := by
  have hdecode : gw.decodeSegment "uploads" = some "uploads" := if_neg (by decide +kernel)
  have hhex : hexToRaw "uploads" = none := by decide +kernel
  have hhandle : gw.handle req ["uploads"] .opinionHistory = gw.opinionHistory req "uploads" := by
    rw [Gateway.handle, List.head?_cons, Option.bind_some, hdecode, extracted]
  rw [hhandle, Gateway.opinionHistory, hhex]
  have htenant : (resolveTenant gw.cfg req.headers).Keeps Eq (fun _ _ _ => True) (fun _ _ => True)
      s := keeps_resolveTenant (fun _ => rfl) fun _ _ _ _ _ => trivial
  exact Prog.keeps_bind (keeps_onAccess (fun _ _ _ _ => trivial) htenant) fun _ _ _ => trivial

/-- **A stranger is refused**, unless it reports gaps without an authorization header. -/
theorem Stranger.keeps (hs : Stranger gw req s) (hreq : gw.cfg.auth.requireAdmin = true)
    (hdev : req.headers.get "authorization" = none → gw.cfg.auth.allowDevIngest = false)
    (hgaps : handlerOf req = some .reportGaps → req.headers.get "authorization" ≠ none) :
    (gw.serve req).Keeps Eq (NoEnrollment gw req) (Harmless req) (s, r) := by
  unfold Gateway.serve checked
  cases hgate : adminGate gw.cfg.auth req with
  | error e => trivial
  | ok u =>
    show (gw.dispatch req).Keeps _ _ _ _
    unfold Gateway.dispatch
    cases hwalk : walk routes (splitPath req.path) with
    | none => exact .inl rfl
    | some route =>
      obtain ⟨ms, params⟩ := route
      dsimp only
      cases hserving : serving ms req.method with
      | none => exact .inl rfl
      | some hd =>
        have hhandler : handlerOf req = some hd := by
          rw [handlerOf, hwalk]
          exact hserving
        obtain ⟨m, hmem⟩ := serving_mem hserving
        rcases (AuthConfig.adminGate_eq_ok hreq).mp hgate with
          hskip | ⟨tok, htok, hadm | ⟨hpath, hm⟩⟩
        · rcases walk_skips hskip hwalk _ hmem with hopen | ⟨heq, rfl⟩
          · exact hs.handle_keeps hdev hgaps params hopen hhandler
          · obtain rfl : hd = .opinionHistory := heq
            exact history_uploads
        · exact absurd hadm (hs.admin tok htok)
        · have htakes : hd.takesMerlin = true := by
            rcases walk_merlinPath hpath hwalk _ hmem with heq | heq
            · obtain rfl : hd = .ingestMerlinSegment := heq
              rfl
            · obtain rfl : hd = .listMerlinObservations := heq
              rfl
          exact absurd hm (hs.merlin hd hhandler htakes tok htok)

end Gate

/-! ### Gaps without an authorization header -/

/-- The tenant header of an active tenant resolves to it. -/
theorem eval_resolveTenant {cfg : AccessConfig} {s : AccessDb} {headers : HeaderMap}
    {row : TenantRow} (i : AccessEnv) (h : headerTenant cfg s headers = some row)
    (hact : row.status = "active") : (resolveTenant cfg headers).eval i s = (.ok row.id, s) := by
  have hresolve : ∀ header, lookupRow cfg s header = some row →
      (resolveActiveTenant cfg header).eval i s = (.ok row.id, s) :=
    fun header hrow => eval_resolveActiveTenant i hrow hact
  unfold headerTenant at h
  unfold resolveTenant
  cases hget : headers.get "x-corpus-tenant" with
  | none =>
    rw [hget] at h
    exact hresolve none h
  | some v =>
    rw [hget] at h
    dsimp only at h ⊢
    cases htext : headerText v with
    | none =>
      rw [htext] at h
      cases h
    | some raw =>
      rw [htext] at h
      exact hresolve (some raw) h

theorem recordGaps_total (debug : String → String) (ident : AgentIdentity) :
    ∀ {gaps : List GapEvent} (d : IngestDb), (∀ g ∈ gaps, g.readable = true) →
      ∃ d', recordGaps debug ident d gaps = .ok d' ∧
        d'.attempts.length = d.attempts.length + gaps.length := by
  intro gaps
  induction gaps with
  | nil => exact fun d _ => ⟨d, rfl, rfl⟩
  | cons g gaps ih =>
    intro d hall
    cases hsha : gapSha debug g with
    | error e =>
      have hread := hall g List.mem_cons_self
      rw [← Agent.isOk_gapSha debug, hsha] at hread
      exact absurd hread Bool.false_ne_true
    | ok sha =>
      obtain ⟨d', hrun, hlen⟩ := ih (d.insertCaptureAttempt (Agent.gapAttempt ident g sha))
        fun g' hg' => hall g' (List.mem_cons_of_mem g hg')
      refine ⟨d', ?_, ?_⟩
      · rw [recordGaps, hsha]
        exact hrun
      · rw [hlen]
        simp [IngestDb.insertCaptureAttempt]
        omega

section Anonymous

variable {R : Type}

/-- The request has none of the tokens of the configuration, nor that of an agent. -/
structure Anonymous (gw : Gateway R) (req : HttpRequest) (s : AccessDb) : Prop where
  admin : ∀ tok, req.Carries tok → gw.cfg.auth.adminToken ≠ some tok
  merlin : ∀ tok, req.Carries tok → gw.cfg.auth.merlinIngestToken ≠ some tok
  mcp : ¬ req.Carries gw.cfg.auth.mcpToken
  agent : ∀ tok, req.Carries tok → bearerAgent gw.cfg s tok = none

/-- The request reports gaps that can be recorded, without an authorization header, for the
active tenant of its tenant header. -/
def GapsByHeader (gw : Gateway R) (req : HttpRequest) (s : AccessDb) : Prop :=
  req.method = .post ∧ req.path = "/api/v1/agents/gaps" ∧
    req.headers.get "authorization" = none ∧
    (∃ gaps, gw.gapsBody req = some gaps ∧ (AgentCall.gaps gaps).writes = true) ∧
    ∃ row, headerTenant gw.cfg s req.headers = some row ∧ row.status = "active"

variable {gw : Gateway R} {req : HttpRequest} {s : AccessDb} {r : R}

theorem Anonymous.stranger (h : Anonymous gw req s) : Stranger gw req s where
  admin tok htok := h.admin tok (bearerOf_eq_some.mp htok).1
  merlin _ _ _ tok htok := h.merlin tok (bearerOf_eq_some.mp htok).1
  agent _ _ _ tok htok := h.agent tok (bearerOf_eq_some.mp htok).1

/-- The handler of gaps, for a request that passes the gate without asking. -/
theorem serve_gaps (hmethod : req.method = .post) (hpath : req.path = "/api/v1/agents/gaps") :
    gw.serve req = extracted (gw.gapsBody req) fun gaps =>
      gw.call (.main req.headers (.gaps gaps)) := by
  have hgate : adminGate gw.cfg.auth req = .ok () := by
    unfold adminGate
    rw [hpath, if_pos (show skipsGate "/api/v1/agents/gaps" = true by decide +kernel), ite_self]
  have hwalk : walk routes (splitPath req.path) = some ([(.post, .reportGaps)], []) := by
    rw [hpath]
    decide +kernel
  have hserving : serving [(.post, .reportGaps)] req.method = some .reportGaps := by
    rw [hmethod]
    rfl
  rw [Gateway.serve, hgate, checked, Gateway.dispatch, hwalk]
  dsimp only
  rw [hserving]
  rfl

/-- Gaps without an authorization header are recorded if they can be. -/
theorem serveGaps_keeps (hnone : req.headers.get "authorization" = none) {gaps : List GapEvent}
    (hquiet : ¬ ((AgentCall.gaps gaps).writes = true ∧
      ∃ row, headerTenant gw.cfg s req.headers = some row ∧ row.status = "active"))
    {Ok : AccessPt → AccessEnv → AccessDb → Prop} :
    (serveAccess gw.cfg (.main req.headers (.gaps gaps))).Keeps Eq Ok (fun _ _ => True) s := by
  refine Prog.keeps_bind (Q := fun _ _ => True) ?_ fun _ _ _ => trivial
  unfold reportGaps
  rw [hnone]
  refine Prog.keeps_bind (Q := fun _ _ => (AgentCall.gaps gaps).writes = false) ?_ ?_
  · refine keeps_resolveTenant (fun _ => rfl) fun s' row hs hrow hact => ?_
    subst hs
    exact Bool.eq_false_iff.mpr fun hw => hquiet ⟨hw, row, hrow, hact⟩
  · intro t s' hw
    unfold recordGapsDev recordGapsOf
    generalize (⟨0, t, _⟩ : AgentIdentity) = ident
    refine Prog.keeps_exec (fun _ => rfl) fun s₁ hs _ _ _ s₂ hrun => ⟨?_, trivial⟩
    cases hd : recordGaps gw.cfg.server.debug ident s₁.db.ingest gaps with
    | error e =>
      rw [hd] at hrun
      cases hrun
    | ok d =>
      rw [hd] at hrun
      obtain rfl := recordGaps_of_not_writes hw hd
      exact (Prod.mk.inj (Except.ok.inj hrun)).2

/-- Gaps that can be recorded are. -/
theorem serveGaps_changes (i : AccessEnv) (hnone : req.headers.get "authorization" = none)
    {gaps : List GapEvent} (hw : (AgentCall.gaps gaps).writes = true) {row : TenantRow}
    (hrow : headerTenant gw.cfg s req.headers = some row) (hact : row.status = "active") :
    ((serveAccess gw.cfg (.main req.headers (.gaps gaps))).eval i s).2 ≠ s := by
  have hwrites : gaps ≠ [] ∧ ∀ g ∈ gaps, g.readable = true := by
    simpa [AgentCall.writes] using hw
  obtain ⟨d, hd, hlen⟩ := recordGaps_total gw.cfg.server.debug
    ⟨0, row.id, (gaps.head?.bind GapEvent.hostName).getD "corpusctl"⟩ s.db.ingest hwrites.2
  have hrun : ((serveAccess gw.cfg (.main req.headers (.gaps gaps))).eval i s).2
      = { s with db := s.db.withIngest d } := by
    rw [serveAccess, Prog.eval_bind_ret, reportGaps, hnone]
    dsimp only
    rw [Prog.eval_bind, eval_resolveTenant i hrow hact]
    simp [recordGapsDev, recordGapsOf, Prog.exec, hd, Except.map]
  intro heq
  have hsame : d = s.db.ingest := by
    rw [← Db.withIngest_ingest s.db d]
    exact congrArg (fun s : AccessDb => s.db.ingest) (hrun.symm.trans heq)
  rw [hsame] at hlen
  have hpos := List.length_pos_iff.mpr hwrites.1
  omega

/-- **No anonymous writes**: with the dev path closed, a request without any credential
changes nothing, unless it reports gaps without an authorization header. -/
theorem anonymous_writes_iff (hreq : gw.cfg.auth.requireAdmin = true)
    (hdev : gw.cfg.auth.allowDevIngest = false) (hanon : Anonymous gw req s) :
    (∀ is : List AccessEnv, (∀ i ∈ is, ¬ gw.EnrollsAt req s i.env.now) →
      ((gw.serve req).runPart is (s, r)).2.2 = (s, r)) ↔ ¬ GapsByHeader gw req s := by
  constructor
  · rintro hall ⟨hmethod, hpath, hnone, ⟨gaps, hbody, hw⟩, row, hrow, hact⟩
    let i : AccessEnv := ⟨Env.drawing 0, ⟨.ok [], 0⟩⟩
    obtain ⟨n, hn⟩ := (gw.serve req).exists_runPart_eq_eval i (s, r)
    have henroll : ∀ j ∈ List.replicate n i, ¬ gw.EnrollsAt req s j.env.now := by
      rintro j - ⟨hh, -⟩
      rw [handlerOf_reportGaps.mpr ⟨hmethod, hpath⟩] at hh
      cases hh
    have hstays := hn.symm.trans (hall _ henroll)
    rw [serve_gaps hmethod hpath, hbody, extracted, Gateway.call] at hstays
    simp only [Prog.pure_eq] at hstays
    rw [Prog.eval_bind_ret, onAccess, Prog.eval_zoom] at hstays
    exact serveGaps_changes i hnone hw hrow hact (congrArg Prod.fst hstays)
  · intro hquiet is his
    have hok : ∀ i ∈ is, ∀ l s', (s, r) = s' → NoEnrollment gw req l i s' := by
      rintro i hi l _ rfl
      exact his i hi
    by_cases hgaps : handlerOf req = some .reportGaps ∧ req.headers.get "authorization" = none
    · obtain ⟨hh, hnone⟩ := hgaps
      obtain ⟨hmethod, hpath⟩ := handlerOf_reportGaps.mp hh
      have hkeeps : (gw.serve req).Keeps Eq (NoEnrollment gw req) (fun _ _ => True) (s, r) := by
        rw [serve_gaps hmethod hpath]
        cases hbody : gw.gapsBody req with
        | none => trivial
        | some gaps =>
          have hquiet' := fun h : _ ∧ _ => hquiet ⟨hmethod, hpath, hnone, ⟨gaps, hbody, h.1⟩, h.2⟩
          have hpart : (serveAccess gw.cfg (.main req.headers (.gaps gaps))).Keeps Eq
              (fun _ i s => ¬ gw.EnrollsAt req s i.env.now) (fun _ _ => True) s :=
            serveGaps_keeps hnone hquiet'
          exact Prog.keeps_bind (keeps_onAccess (fun _ _ _ h => h) hpart) fun _ _ _ => trivial
      exact (hkeeps.runPart (fun _ => rfl) (fun _ _ _ => Eq.trans) hok).1.symm
    · have hkeeps := hanon.stranger.keeps (r := r) hreq (fun _ => hdev)
        fun hh hnone => hgaps ⟨hh, hnone⟩
      exact (hkeeps.runPart (fun _ => rfl) (fun _ _ _ => Eq.trans) hok).1.symm

end Anonymous

/-- A request without headers. -/
def bareRequest (method : Method) (path : String) : HttpRequest := ⟨method, path, "", [], []⟩

theorem anonymous_bare {R : Type} (gw : Gateway R) (method : Method) (path : String)
    (s : AccessDb) : Anonymous gw (bareRequest method path) s := by
  have hno : ∀ tok, ¬ (bareRequest method path).Carries tok := fun tok h =>
    absurd h.symm (Option.some_ne_none _)
  exact ⟨fun tok h => absurd h (hno tok), fun tok h => absurd h (hno tok), hno _,
    fun tok h => absurd h (hno tok)⟩

/-- A hunt is not created for just anyone. -/
theorem anonymous_writes_hunts :
    Anonymous (Gateway.plain []) (bareRequest .post "/api/v1/hunts") twoTenants ∧
      ∀ is : List AccessEnv,
        (((Gateway.plain []).serve (bareRequest .post "/api/v1/hunts")).runPart is
          (twoTenants, ())).2.2 = (twoTenants, ()) := by
  refine ⟨anonymous_bare _ _ _ _, fun is => ?_⟩
  refine (anonymous_writes_iff rfl rfl (anonymous_bare _ _ _ _)).mpr ?_ is ?_
  · rintro ⟨-, hpath, -⟩
    exact absurd hpath (by decide)
  · rintro i - ⟨-, body, -, hbody, -⟩
    cases hbody

/-- A batch of one gap, for the tenant that no header names. -/
def oneGap : GapEvent :=
  ⟨0, "file_event", "timeout", none, some "/tmp/a", none, none, none⟩

/-- Gaps are recorded for the default tenant with no credential and the dev path closed. -/
theorem anonymous_gap_recorded :
    (Gateway.plain [oneGap]).cfg.auth.requireAdmin = true ∧
      (Gateway.plain [oneGap]).cfg.auth.allowDevIngest = false ∧
      Anonymous (Gateway.plain [oneGap]) (bareRequest .post "/api/v1/agents/gaps") twoTenants ∧
      ¬ ∀ is : List AccessEnv,
        (∀ i ∈ is, ¬ (Gateway.plain [oneGap]).EnrollsAt
          (bareRequest .post "/api/v1/agents/gaps") twoTenants i.env.now) →
        (((Gateway.plain [oneGap]).serve (bareRequest .post "/api/v1/agents/gaps")).runPart is
          (twoTenants, ())).2.2 = (twoTenants, ()) := by
  refine ⟨rfl, rfl, anonymous_bare _ _ _ _, fun h => ?_⟩
  let i : AccessEnv := ⟨Env.drawing 0, ⟨.ok [], 0⟩⟩
  have hstays := h [i, i] (by rintro j - ⟨-, body, -, hbody, -⟩; cases hbody)
  have hlen := congrArg (fun s : AccessDb × Unit => s.1.db.ingest.attempts.length) hstays
  exact absurd hlen (by decide +kernel)


/-! ### Credentials where they are meant -/

/-- The routes of the Merlin bridge. -/
def merlinRoute (path : String) : Prop :=
  path = "/api/v1/integrations/merlin/segments" ∨ path = "/api/v1/integrations/merlin/observations"

section Works

variable {R : Type}

/-- The bearer token that the handler of the request asks for; `health` asks for nothing, and
`enroll` for a token in its body. -/
def OwnToken (gw : Gateway R) (req : HttpRequest) (s : AccessDb) (tok : String) : Prop :=
  ∃ hd, handlerOf req = some hd ∧
    (hd = .health ∨ (hd = .mcpEndpoint ∧ gw.cfg.auth.mcpToken = tok) ∨
      (hd.takesMerlin = true ∧ gw.cfg.auth.merlinIngestToken = some tok) ∨
      (hd.takesAgent = true ∧ bearerAgent gw.cfg s tok ≠ none))

/-- The request ends without an answer of its handler, or does not end, and changes
nothing. -/
def RefusedWith (gw : Gateway R) (req : HttpRequest) (s : AccessDb × R) (is : List AccessEnv) :
    Prop :=
  ((gw.serve req).runPart is s).2.2 = s ∧
    ∀ a, ((gw.serve req).runPart is s).2.1 = .ret a → a.isRefusal = true

/-- Each credential opens its routes, and nothing else does. -/
structure CredentialsWork (gw : Gateway R) (req : HttpRequest) (s : AccessDb × R) : Prop where
  admin : ∀ tok, gw.cfg.auth.adminToken = some tok → req.Carries tok →
    adminGate gw.cfg.auth req = .ok ()
  merlin : ∀ tok, gw.cfg.auth.merlinIngestToken = some tok → req.Carries tok →
    merlinRoute req.path → adminGate gw.cfg.auth req = .ok () ∧
      gw.cfg.auth.checkMerlinIngest req.authorization = .ok ()
  mcp : gw.cfg.auth.mcpToken ≠ "" → req.Carries gw.cfg.auth.mcpToken → req.path = "/mcp" →
    adminGate gw.cfg.auth req = .ok () ∧ checkMcp gw.cfg.auth req.headers = .ok ()
  other : ∀ tok, req.Carries tok → gw.cfg.auth.adminToken ≠ some tok → ¬ OwnToken gw req s.1 tok →
    ∀ is : List AccessEnv, (∀ i ∈ is, ¬ gw.EnrollsAt req s.1 i.env.now) → RefusedWith gw req s is

/-- A token that the gate or a handler reads from the request is visible, and on `/mcp` the
MCP token is the admin token. -/
structure Readable (auth : AuthConfig) (req : HttpRequest) : Prop where
  admin : ∀ tok, auth.adminToken = some tok → req.Carries tok → skipsGate req.path = false →
    visible tok = true
  merlin : ∀ tok, auth.merlinIngestToken = some tok → req.Carries tok → merlinRoute req.path →
    visible tok = true
  mcp : auth.mcpToken ≠ "" → req.Carries auth.mcpToken → req.path = "/mcp" →
    visible auth.mcpToken = true ∧ auth.adminToken = some auth.mcpToken

variable {gw : Gateway R} {req : HttpRequest} {s : AccessDb × R}

/-- A bearer token that is neither the admin token nor the handler's own makes a stranger. -/
theorem stranger_of_other {tok : String} (hcarries : req.Carries tok)
    (hadmin : gw.cfg.auth.adminToken ≠ some tok) (hown : ¬ OwnToken gw req s.1 tok) :
    Stranger gw req s.1 := by
  have huniq : ∀ tok', bearerOf req.headers = some tok' → tok' = tok := fun tok' htok' =>
    (bearerOf_eq_some.mp htok').1.unique hcarries
  constructor
  · intro tok' htok'
    rwa [huniq tok' htok']
  · intro hd hh htakes tok' htok' hm
    rw [huniq tok' htok'] at hm
    exact hown ⟨hd, hh, .inr (.inr (.inl ⟨htakes, hm⟩))⟩
  · intro hd hh htakes tok' htok'
    rw [huniq tok' htok']
    by_contra hagent
    exact hown ⟨hd, hh, .inr (.inr (.inr ⟨htakes, hagent⟩))⟩

/-- A token that does not open the route is refused. -/
theorem refused_of_other (hreq : gw.cfg.auth.requireAdmin = true) {tok : String}
    (hcarries : req.Carries tok) (hadmin : gw.cfg.auth.adminToken ≠ some tok)
    (hown : ¬ OwnToken gw req s.1 tok) {is : List AccessEnv}
    (his : ∀ i ∈ is, ¬ gw.EnrollsAt req s.1 i.env.now) : RefusedWith gw req s is := by
  have hheader : req.headers.get "authorization" ≠ none := by
    rw [hcarries]
    exact Option.some_ne_none _
  have hkeeps := (stranger_of_other hcarries hadmin hown).keeps (r := s.2) hreq
    (fun hnone => absurd hnone hheader) fun _ => hheader
  have hok : ∀ i ∈ is, ∀ l s', s = s' → NoEnrollment gw req l i s' := by
    rintro i hi l _ rfl
    exact his i hi
  obtain ⟨hstays, hanswer⟩ := hkeeps.runPart (fun _ => rfl) (fun _ _ _ => Eq.trans) hok
  refine ⟨hstays.symm, fun a ha => ?_⟩
  rcases hanswer a ha with hrefusal | hhealth
  · exact hrefusal
  · exact absurd ⟨.health, hhealth, .inl rfl⟩ hown

theorem skipsGate_merlinRoute {path : String} (h : merlinRoute path) :
    skipsGate path = false ∧ merlinPath path = true := by
  rcases h with rfl | rfl
  · decide +kernel
  · decide +kernel

/-- Where the credentials of the request work. -/
theorem credentialsWork_iff (hreq : gw.cfg.auth.requireAdmin = true) :
    CredentialsWork gw req s ↔ Readable gw.cfg.auth req := by
  -- a token that passes the gate on another path is read
  have hread : ∀ tok, req.Carries tok → skipsGate req.path = false →
      adminGate gw.cfg.auth req = .ok () → visible tok = true ∧
        (gw.cfg.auth.adminToken = some tok ∨
          (merlinPath req.path = true ∧ gw.cfg.auth.merlinIngestToken = some tok)) := by
    intro tok hcarries hskip hgate
    rcases (AuthConfig.adminGate_eq_ok hreq).mp hgate with h | ⟨tok', htok', hwhy⟩
    · exact absurd (hskip.symm.trans h) Bool.false_ne_true
    · obtain ⟨hcarries', hvis⟩ := bearerOf_eq_some.mp htok'
      obtain rfl := hcarries.unique hcarries'
      exact ⟨hvis, hwhy⟩
  have hmcp : skipsGate "/mcp" = false ∧ merlinPath "/mcp" = false := by decide +kernel
  constructor
  · intro h
    constructor
    · exact fun tok htok hcarries hskip => (hread tok hcarries hskip (h.admin tok htok hcarries)).1
    · intro tok htok hcarries hroute
      exact (hread tok hcarries (skipsGate_merlinRoute hroute).1 (h.merlin tok htok hcarries hroute).1).1
    · intro hne hcarries hpath
      have hgate := (h.mcp hne hcarries hpath).1
      rw [← hpath] at hmcp
      obtain ⟨hvis, hadm | ⟨hm, -⟩⟩ := hread _ hcarries hmcp.1 hgate
      · exact ⟨hvis, hadm⟩
      · exact absurd (hmcp.2.symm.trans hm) Bool.false_ne_true
  · intro h
    constructor
    · intro tok htok hcarries
      refine (AuthConfig.adminGate_eq_ok hreq).mpr ?_
      cases hskip : skipsGate req.path with
      | true => exact .inl rfl
      | false =>
        have hvis := h.admin tok htok hcarries hskip
        exact .inr ⟨tok, bearerOf_eq_some.mpr ⟨hcarries, hvis⟩, .inl htok⟩
    · intro tok htok hcarries hroute
      have hbearer := bearerOf_eq_some.mpr ⟨hcarries, h.merlin tok htok hcarries hroute⟩
      refine ⟨(AuthConfig.adminGate_eq_ok hreq).mpr (.inr ⟨tok, hbearer, .inr ⟨?_, htok⟩⟩), ?_⟩
      · exact (skipsGate_merlinRoute hroute).2
      · have htext : bearerFromAuthorization req.authorization = some tok := hbearer
        rw [AuthConfig.checkMerlinIngest, htext]
        dsimp only
        rw [AuthConfig.merlinMatches_iff.mpr htok, Bool.true_or, if_pos rfl]
    · intro hne hcarries hpath
      obtain ⟨hvis, hadm⟩ := h.mcp hne hcarries hpath
      have hbearer := bearerOf_eq_some.mpr ⟨hcarries, hvis⟩
      refine ⟨(AuthConfig.adminGate_eq_ok hreq).mpr (.inr ⟨_, hbearer, .inl hadm⟩), ?_⟩
      rw [checkMcp, hbearer, Option.getD_some, AuthConfig.mcpMatches_iff.mpr rfl]
      rfl
    · exact fun tok hcarries hadmin hown is his => refused_of_other hreq hcarries hadmin hown his

/-- **Credentials work where they are meant**, for every configuration that the environment
gives, exactly where they can be read and the MCP token is also the admin token. -/
theorem credentials_work_iff {socketLoopback : String → Option Bool} {env : String → Option String}
    {listen : String} (henv : AuthConfig.fromEnv socketLoopback env listen = .ok gw.cfg.auth)
    (hreq : gw.cfg.auth.requireAdmin = true) :
    (∃ adm, gw.cfg.auth.adminToken = some adm ∧ adm ≠ "") ∧
      (CredentialsWork gw req s ↔ Readable gw.cfg.auth req) :=
  ⟨AuthConfig.fromEnv_admin henv hreq, credentialsWork_iff hreq⟩

end Works

/-- A request with the bearer token `tok`. -/
def bearerRequest (method : Method) (path tok : String) : HttpRequest :=
  ⟨method, path, "", [("authorization", asBytes ("Bearer " ++ tok))], []⟩

/-- An environment with the three tokens. -/
def threeTokens (name : String) : Option String :=
  if name = "CORPUS_ADMIN_TOKEN" then some " admin"
  else if name = "CORPUS_MCP_TOKEN" then some "mcp"
  else if name = "CORPUS_MERLIN_INGEST_TOKEN" then some "merlin"
  else none

/-- `0.0.0.0:8080` is an address, and not a loopback one. -/
def anyAddress (listen : String) : Option Bool :=
  if listen = "0.0.0.0:8080" then some false else none

/-- The admin token runs a hunt. -/
theorem credentials_work_admin :
    CredentialsWork (Gateway.plain []) (bearerRequest .post "/api/v1/hunts" "admin")
      (twoTenants, ()) := by
  have henv : AuthConfig.fromEnv anyAddress threeTokens "0.0.0.0:8080"
      = .ok (Gateway.plain []).cfg.auth := rfl
  refine (credentials_work_iff henv rfl).2.mpr ⟨?_, ?_, ?_⟩
  · rintro tok htok - -
    obtain rfl : "admin" = tok := Option.some.inj htok
    decide +kernel
  · rintro tok - - (hpath | hpath)
    · exact absurd hpath (by decide)
    · exact absurd hpath (by decide)
  · exact fun _ _ hpath => absurd hpath (by decide)

/-- The MCP token does not open `/mcp`. -/
theorem mcp_token_refused :
    AuthConfig.fromEnv anyAddress threeTokens "0.0.0.0:8080"
        = .ok (Gateway.plain []).cfg.auth ∧
      (Gateway.plain []).cfg.auth.requireAdmin = true ∧
      (Gateway.plain []).cfg.auth.mcpToken = "mcp" ∧
      (bearerRequest .post "/mcp" "mcp").Carries "mcp" ∧
      ¬ CredentialsWork (Gateway.plain []) (bearerRequest .post "/mcp" "mcp")
        (twoTenants, ()) := by
  refine ⟨rfl, rfl, rfl, rfl, fun h => ?_⟩
  have hgate := (h.mcp (by decide) rfl rfl).1
  have herr : (adminGate (Gateway.plain []).cfg.auth (bearerRequest .post "/mcp" "mcp")).isOk
      = false := by decide +kernel
  rw [hgate] at herr
  cases herr

end Corpus
