/-
The agents that the answers of `enroll` speak of.

No request deletes the row of an agent, or changes its tenant or its token: the heartbeat sets
other columns, and everything else leaves the table alone (`serveAccess_cases`).  So what an
answer of `enroll` says of the row that was inserted is true ever after.

* `enrolled_backed` — in every interleaving of requests, the answer of an enrollment that has
  returned is backed by a row, and its certificate was signed for that row's id;
* `enrolled_apart` — two enrollments that have returned the same id are one.
-/
import Corpus.Enrollment
import Corpus.FreshKeys
import Corpus.Rely

namespace Corpus

open Agent (AgentIdentity GapEvent)

/-- What a row of `agent` keeps for good, beside its id. -/
def AgentRow.core (a : AgentRow) : Uuid × Bytes := (a.tenant, a.tokenSha256)

/-- Agents stay, with their tenants and tokens. -/
def AgentsStay (s s' : AccessDb) : Prop := s.agents.Persists AgentRow.core s'.agents

theorem AgentsStay.refl (s : AccessDb) : AgentsStay s s := Table.Persists.refl _ _

theorem AgentsStay.trans {s s' s'' : AccessDb} (h : AgentsStay s s') (h' : AgentsStay s' s'') :
    AgentsStay s s'' := Table.Persists.trans h h'

/-! ### Requests other than enrollment -/

/-- A program under which agents stay. -/
abbrev StaysWithin {α : Type} (p : AccessProg α) : Prop :=
  p.Within (fun _ => True) (fun _ s s' => AgentsStay s s') True

section Requests

variable {cfg : AccessConfig} {α : Type}

theorem staysWithin_exec {l : AccessPt} {f : AccessDb → AccessEnv → Except Error (α × AccessDb)}
    (h : ∀ s i a s', f s i = .ok (a, s') → AgentsStay s s') : StaysWithin (Prog.exec l f) := by
  refine Prog.within_exec trivial fun s i => ?_
  cases hf : f s i with
  | ok r => exact h s i r.1 r.2 hf
  | error e => exact ⟨.refl s, trivial⟩

/-- Ingest does not touch the table. -/
theorem staysWithin_onDb (p : Srv α) : StaysWithin (onDb p) := by
  induction p with
  | ret a => trivial
  | err e => trivial
  | stmt l f k ih => exact ⟨trivial, fun s i => ⟨.refl _, ih _ _⟩⟩

theorem staysWithin_getTenant (cfg : AccessConfig) (l : AccessPt) (id : Uuid) :
    StaysWithin (getTenant cfg l id) := by
  refine staysWithin_exec fun s i a s' h => ?_
  split at h
  · cases h
    exact .refl s
  · cases h

theorem staysWithin_resolveTenant (headers : HeaderMap) :
    StaysWithin (resolveTenant cfg headers) := by
  have hlookup : ∀ header, StaysWithin (lookupTenant cfg header) := by
    intro header
    unfold lookupTenant
    split
    · exact staysWithin_getTenant _ _ _
    · exact staysWithin_getTenant _ _ _
    · split
      · exact staysWithin_getTenant _ _ _
      · refine staysWithin_exec fun s i a s' h => ?_
        dsimp only at h
        split at h
        · cases h
          exact .refl s
        · cases h
  have hactive : ∀ header, StaysWithin (resolveActiveTenant cfg header) := by
    refine fun header => Prog.within_bind (hlookup header) fun row => ?_
    cases requireActive row with
    | error e => trivial
    | ok _ => trivial
  unfold resolveTenant
  split
  · exact hactive _
  · split
    · exact hactive _
    · trivial

theorem staysWithin_authenticate (tok : String) : StaysWithin (authenticate cfg tok) := by
  unfold authenticate
  split
  · trivial
  · refine staysWithin_exec fun s i a s' h => ?_
    split at h
    · cases h
      exact .refl s
    · cases h

theorem staysWithin_peerIdentity (peer : Option Bytes) : StaysWithin (peerIdentity cfg peer) := by
  unfold peerIdentity
  split
  · trivial
  · split
    · trivial
    · refine staysWithin_exec fun s i a s' h => ?_
      split at h
      · cases h
        exact .refl s
      · cases h

theorem staysWithin_ingestAuth (headers : HeaderMap) : StaysWithin (ingestAuth cfg headers) := by
  have hdev : StaysWithin (resolveTenant cfg headers >>= fun t => Prog.ret (IngestAuth.dev t)) :=
    Prog.within_bind (staysWithin_resolveTenant headers) fun _ => trivial
  unfold ingestAuth
  split
  · split
    · trivial
    · split
      · exact hdev
      · exact Prog.within_bind (staysWithin_authenticate _) fun _ => trivial
  · split
    · trivial
    · exact hdev

theorem staysWithin_heartbeat (ident : AgentIdentity) (hb : HeartbeatRequest) :
    StaysWithin (heartbeat ident hb) := by
  refine Prog.within_update trivial fun s i => ?_
  refine Table.Persists.updateWhere ?_ ?_
  · exact fun _ => rfl
  · exact fun _ => rfl

theorem staysWithin_recordGapsOf (cfg : AccessConfig) (ident : AgentIdentity) (gaps : List GapEvent) :
    StaysWithin (recordGapsOf cfg ident gaps) := by
  refine staysWithin_exec fun s i a s' h => ?_
  cases hd : Agent.recordGaps cfg.server.debug ident s.db.ingest gaps with
  | error e =>
    rw [hd] at h
    cases h
  | ok d =>
    rw [hd] at h
    cases h
    exact .refl s

/-- The identifier that a reply gives out. -/
def AccessReply.agentId : AccessReply → Option Uuid
  | enrolled r => some r.agentId
  | announced _ | noContent | finalized _ => none

/-- **Any request but an enrollment** leaves agents as they are, but for the columns of the
heartbeat, and gives out no identifier. -/
theorem serveAccess_cases (cfg : AccessConfig) (req : AccessRequest) :
    (∃ (α : Type) (p : AccessProg α) (g : α → AccessReply), StaysWithin p ∧
      (∀ a, (g a).agentId = none) ∧ serveAccess cfg req = p >>= fun a => Prog.ret (g a)) ∨
      ∃ r, req = .enroll r := by
  cases req with
  | enroll r => exact .inr ⟨r, rfl⟩
  | main h call =>
    refine .inl ?_
    cases call with
    | announce req =>
      refine ⟨_, _, _, ?_, fun _ => rfl, rfl⟩
      exact Prog.within_bind (staysWithin_ingestAuth h) fun _ => staysWithin_onDb _
    | upload upload body =>
      refine ⟨_, _, fun _ => .noContent, ?_, fun _ => rfl, rfl⟩
      exact Prog.within_bind (staysWithin_ingestAuth h) fun _ => staysWithin_onDb _
    | finalize req =>
      refine ⟨_, _, _, ?_, fun _ => rfl, rfl⟩
      exact Prog.within_bind (staysWithin_ingestAuth h) fun _ => staysWithin_onDb _
    | heartbeat hb =>
      refine ⟨_, agentHeartbeat cfg h hb, fun _ => .noContent, ?_, fun _ => rfl, rfl⟩
      unfold agentHeartbeat
      split
      · trivial
      · exact Prog.within_bind (staysWithin_authenticate _) fun _ => staysWithin_heartbeat _ _
    | gaps gaps =>
      refine ⟨_, reportGaps cfg h gaps, fun _ => .noContent, ?_, fun _ => rfl, rfl⟩
      unfold reportGaps
      split
      · split
        · trivial
        · exact Prog.within_bind (staysWithin_authenticate _) fun _ => staysWithin_recordGapsOf _ _ _
      · exact Prog.within_bind (staysWithin_resolveTenant h) fun _ => staysWithin_recordGapsOf _ _ _
  | mtls p call =>
    refine .inl ?_
    cases call with
    | announce req =>
      refine ⟨_, _, _, ?_, fun _ => rfl, rfl⟩
      exact Prog.within_bind (staysWithin_peerIdentity p) fun _ => staysWithin_onDb _
    | upload upload body =>
      refine ⟨_, _, fun _ => .noContent, ?_, fun _ => rfl, rfl⟩
      exact Prog.within_bind (staysWithin_peerIdentity p) fun _ => staysWithin_onDb _
    | finalize req =>
      refine ⟨_, _, _, ?_, fun _ => rfl, rfl⟩
      exact Prog.within_bind (staysWithin_peerIdentity p) fun _ => staysWithin_onDb _
    | heartbeat hb =>
      refine ⟨_, _, fun _ => .noContent, ?_, fun _ => rfl, rfl⟩
      exact Prog.within_bind (staysWithin_peerIdentity p) fun _ => staysWithin_heartbeat _ _
    | gaps gaps =>
      refine ⟨_, _, fun _ => .noContent, ?_, fun _ => rfl, rfl⟩
      exact Prog.within_bind (staysWithin_peerIdentity p) fun _ => staysWithin_recordGapsOf _ _ _

end Requests

/-! ### Identifiers -/

/-- The ids of the agents. -/
def AccessDb.agentIds (s : AccessDb) : Set Uuid := {u | (s.agents.get u).isSome}

theorem AgentsStay.agentIds_subset {s s' : AccessDb} (h : AgentsStay s s') :
    s.agentIds ⊆ s'.agentIds := by
  intro u hu
  obtain ⟨a, ha⟩ := Option.isSome_iff_exists.mp hu
  obtain ⟨a', ha', -⟩ := h u a ha
  exact Option.isSome_iff_exists.mpr ⟨a', ha'⟩

theorem StaysWithin.agentIds {α : Type} {p : AccessProg α} (h : StaysWithin p) :
    p.Within (fun _ => True) (fun _ s s' => s.agentIds ⊆ s'.agentIds) True :=
  h.mono (fun _ h => h) fun _ _ _ h => h.agentIds_subset

theorem AccessDb.agents_of_insertAgent {s s' : AccessDb} {a : AgentRow}
    (h : s.insertAgent a = .ok s') : s.agents.get a.id = none ∧ s'.agents.get a.id = some a ∧
      AgentsStay s s' := by
  obtain ⟨hnone, rfl⟩ := AccessDb.insertAgent_eq_ok h
  refine ⟨hnone, ?_, Table.Persists.insertNew _ _ _⟩
  show (s.agents.insertNew a).get a.id = some a
  rw [Table.get_insertNew, hnone]
  exact if_pos rfl

section Enroll

variable {cfg : AccessConfig}

theorem staysWithin_consume (req : EnrollRequest) : StaysWithin (Prog.exec (.consume req)
    fun s (env : AccessEnv) =>
      match s.consumeToken (cfg.hashToken req.enrollmentToken) env.env.now with
      | some r => .ok r
      | none => .error (.badRequest "invalid, expired, or consumed enrollment token")) := by
  refine staysWithin_exec fun s i t s' h => ?_
  cases hcons : s.consumeToken (cfg.hashToken req.enrollmentToken) i.env.now with
  | none =>
    rw [hcons] at h
    cases h
  | some r =>
    rw [hcons] at h
    obtain rfl := Except.ok.inj h
    obtain ⟨-, rfl⟩ := AccessDb.consumeToken_eq_some hcons
    exact .refl s

theorem staysWithin_setConsumedBy (req : EnrollRequest) (agent : Uuid) :
    StaysWithin (Prog.update (.consumedBy req agent) fun s (_ : AccessEnv) =>
      s.setConsumedBy (cfg.hashToken req.enrollmentToken) agent) :=
  Prog.within_update trivial fun s _ => AgentsStay.refl s

theorem staysWithin_sign (req : EnrollRequest) (agent : Uuid) :
    StaysWithin (Prog.exec (.sign req agent) fun s (env : AccessEnv) =>
      (cfg.signCert agent env).map fun c => (c, s)) := by
  refine staysWithin_exec fun s i c s' h => ?_
  cases hcert : cfg.signCert agent i with
  | error e =>
    rw [hcert] at h
    cases h
  | ok c' =>
    rw [hcert] at h
    cases h
    exact .refl s

theorem serveAccess_mints (cfg : AccessConfig) (req : AccessRequest) :
    (serveAccess cfg req).Mints AccessDb.agentIds AccessReply.agentId := by
  obtain ⟨α, p, g, hp, hg, heq⟩ | ⟨req, rfl⟩ := serveAccess_cases cfg req
  · rw [heq]
    exact Prog.mints_bind hp.agentIds hg
  · show (enroll cfg req >>= fun r => Prog.ret (AccessReply.enrolled r)).Mints _ _
    unfold enroll
    rw [Prog.bind_assoc']
    refine Prog.mints_bind (staysWithin_consume req).agentIds fun t => ?_
    rw [Prog.bind_assoc']
    refine Prog.mints_bind (staysWithin_getTenant _ _ _).agentIds fun row => ?_
    obtain ⟨-, hreq⟩ | ⟨-, e, hreq⟩ := requireActive_cases row
    · rw [hreq]
      dsimp only
      unfold mintAgent
      rw [Prog.bind_assoc']
      refine Prog.mints_exec_bind fun s env minted s' h => ?_
      cases hins : s.insertAgent (cfg.newAgent req t env.env).1 with
      | error e =>
        rw [hins] at h
        cases h
      | ok s₁ =>
        rw [hins] at h
        cases h
        obtain ⟨hnone, hsome, hstay⟩ := AccessDb.agents_of_insertAgent hins
        refine ⟨hstay.agentIds_subset, env.env.uuid 0, ?_, ?_, ?_⟩
        · exact Option.not_isSome_iff_eq_none.mpr hnone
        · exact Option.isSome_iff_exists.mpr ⟨_, hsome⟩
        · -- What follows the insert only goes on to the answer with this id.
          rw [Prog.bind_assoc']
          refine Prog.gives_bind (staysWithin_setConsumedBy req _).agentIds fun _ => ?_
          rw [Prog.bind_assoc']
          exact Prog.gives_bind (staysWithin_sign req _).agentIds fun _ => rfl
    · rw [hreq]
      trivial

/-! ### Answers -/

/-- The answer speaks of a row that is there. -/
def Backed (cfg : AccessConfig) (r : EnrollResponse) (s : AccessDb) : Prop :=
  ∃ a, s.agents.get r.agentId = some a ∧ a.tenant = r.tenantId ∧
    a.tokenSha256 = cfg.hashToken r.agentToken

theorem Backed.stay {r : EnrollResponse} {s s' : AccessDb} (h : Backed cfg r s)
    (hs : AgentsStay s s') : Backed cfg r s' := by
  obtain ⟨a, ha, ht, hh⟩ := h
  obtain ⟨a', ha', hcore⟩ := hs _ a ha
  obtain ⟨ht', hh'⟩ := Prod.mk.inj hcore
  exact ⟨a', ha', ht'.trans ht, hh'.trans hh⟩

/-- The answer has the server's CA, and a certificate and its key that were signed for its agent,
at a time of `signed`. -/
structure Issued (cfg : AccessConfig) (signed : Uuid → Time → Prop) (r : EnrollResponse) :
    Prop where
  ca : r.caCertPem = cfg.ca.certPem
  cert : ∃ t draw, signed r.agentId t ∧ signClientCert cfg.pki cfg.ca (cfg.showUuid r.agentId)
    defaultTtlDays t draw = .ok (r.clientCertPem, r.clientKeyPem)

/-- Certificates are signed at the times of `signed`. -/
def SignsAt (signed : Uuid → Time → Prop) (_ : AccessRequest) (l : AccessPt) (i : AccessEnv)
    (_ : AccessDb) : Prop :=
  ∀ req agent, l = .sign req agent → signed agent i.env.now

/-- The answer is backed, and issued. -/
def Vouched (cfg : AccessConfig) (signed : Uuid → Time → Prop) (reply : AccessReply)
    (s : AccessDb) : Prop :=
  ∀ r, reply = .enrolled r → Backed cfg r s ∧ Issued cfg signed r

theorem serveAccess_vouched (cfg : AccessConfig) (signed : Uuid → Time → Prop)
    (req : AccessRequest) (s : AccessDb) :
    (serveAccess cfg req).Keeps AgentsStay (SignsAt signed req) (Vouched cfg signed) s := by
  have hstays : ∀ {α : Type} {p : AccessProg α} (s : AccessDb), StaysWithin p →
      p.Keeps AgentsStay (SignsAt signed req) (fun _ _ => True) s :=
    fun s hp => Prog.Within.keeps (R := AgentsStay) (J := fun _ => True) (fun _ _ _ _ => trivial)
      (fun _ _ _ h _ => h) hp trivial
  obtain ⟨α, p, g, hp, hg, heq⟩ | ⟨req, rfl⟩ := serveAccess_cases cfg req
  · rw [heq]
    refine Prog.keeps_bind (hstays s hp) fun a s _ r hr => ?_
    have hnone := hg a
    rw [hr] at hnone
    cases hnone
  · refine Prog.keeps_bind (Q := fun r s => Backed cfg r s ∧ Issued cfg signed r) ?_ ?_
    · unfold enroll
      refine Prog.keeps_bind (hstays s (staysWithin_consume req)) fun t s₁ _ => ?_
      refine Prog.keeps_bind (hstays s₁ (staysWithin_getTenant _ _ _)) fun row s₂ _ => ?_
      obtain ⟨-, hreq⟩ | ⟨-, e, hreq⟩ := requireActive_cases row
      · rw [hreq]
        refine Prog.keeps_bind (Q := fun minted s => ∃ a, s.agents.get minted.1 = some a ∧
          a.core = (t, cfg.hashToken minted.2)) ?_ ?_
        · refine Prog.keeps_exec .refl fun s' _ env _ minted s'' h => ?_
          cases hins : s'.insertAgent (cfg.newAgent req t env.env).1 with
          | error e =>
            rw [hins] at h
            cases h
          | ok s₃ =>
            rw [hins] at h
            cases h
            obtain ⟨-, hsome, hstay⟩ := AccessDb.agents_of_insertAgent hins
            exact ⟨hstay, _, hsome, rfl⟩
        · rintro ⟨agent, token⟩ s₃ ⟨a, ha, hcore⟩
          have hrow : ∀ {s'}, AgentsStay s₃ s' → ∃ a, s'.agents.get agent = some a ∧
              a.core = (t, cfg.hashToken token) := by
            intro s' hs'
            obtain ⟨a', ha', hcore'⟩ := hs' _ a ha
            exact ⟨a', ha', hcore'.trans hcore⟩
          refine Prog.keeps_bind (Q := fun _ s => AgentsStay s₃ s) ?_ fun _ s₄ hs₄ => ?_
          · exact fun s' hs' i _ => ⟨.refl s', hs'⟩
          refine Prog.keeps_bind (Q := fun c s => AgentsStay s₃ s ∧ ∃ t draw, signed agent t ∧
            signClientCert cfg.pki cfg.ca (cfg.showUuid agent) defaultTtlDays t draw = .ok c) ?_ ?_
          · refine Prog.keeps_exec .refl fun s' hs' i hi c s'' h => ?_
            cases hcert : cfg.signCert agent i with
            | error e =>
              rw [hcert] at h
              cases h
            | ok c' =>
              rw [hcert] at h
              cases h
              exact ⟨.refl s', hs₄.trans hs', _, _, hi req agent rfl, hcert⟩
          · rintro c s₅ ⟨hs₅, hcert⟩
            obtain ⟨a', ha', hcore'⟩ := hrow hs₅
            obtain ⟨ht, hh⟩ := Prod.mk.inj hcore'
            exact ⟨⟨a', ha', ht, hh⟩, rfl, hcert⟩
      · rw [hreq]
        trivial
    · rintro r s' h r' hr'
      cases hr'
      exact h

end Enroll

/-! ### Runs -/

abbrev AccessHist := Pool.Hist AccessRequest AccessPt AccessDb AccessEnv Error AccessReply

abbrev AccessPool := Pool AccessRequest AccessPt AccessDb AccessEnv Error AccessReply

/-- The call `n` has returned the answer. -/
def Enrolled (p : AccessPool) (n : ℕ) (r : EnrollResponse) : Prop :=
  ∃ c, p.procs[n]? = some ⟨c, some (.ret (.enrolled r))⟩

/-- In the history, a certificate was signed for the agent at this time. -/
def SignedAt (h : AccessHist) (agent : Uuid) (t : Time) : Prop :=
  ∃ e ∈ h, ∃ n i req, e.2 = .exec n i ∧ e.1.ctl n = .at (.sign req agent) ∧ i.env.now = t

theorem stepOk_signsAt {h : AccessHist} {e : AccessPool × Act AccessRequest AccessEnv}
    (he : e ∈ h) : Pool.StepOk (SignsAt (SignedAt h)) e.1 e.2 := by
  cases hact : e.2 with
  | spawn c => trivial
  | kill n => trivial
  | exec n i =>
    intro c l f k hn req agent hl
    refine ⟨e, he, n, i, req, hact, ?_, rfl⟩
    rw [Pool.ctl, hn, hl]
    rfl

/-- **Answers are backed**, at any later time, among all requests. -/
theorem enrolled_backed {cfg : AccessConfig} {s₀ : AccessDb} {h : AccessHist} {p : AccessPool}
    (hr : Pool.Reach (serveAccess cfg) s₀ h p) {n : ℕ} {r : EnrollResponse} (hn : Enrolled p n r) :
    Backed cfg r p.store ∧ Issued cfg (SignedAt h) r := by
  obtain ⟨c, hn⟩ := hn
  obtain ⟨s, hs, hv⟩ := hr.returned .refl (fun _ _ _ => .trans)
    (fun req s _ => serveAccess_vouched cfg (SignedAt h) req s) (fun _ he => stepOk_signsAt he) hn
  obtain ⟨hback, hissued⟩ := hv r rfl
  exact ⟨hback.stay hs, hissued⟩

/-- **Identifiers are told apart.** -/
theorem enrolled_apart {cfg : AccessConfig} {s₀ : AccessDb} {h : AccessHist} {p : AccessPool}
    (hr : Pool.Reach (serveAccess cfg) s₀ h p) {n m : ℕ} {r r' : EnrollResponse}
    (hn : Enrolled p n r) (hm : Enrolled p m r') (hid : r.agentId = r'.agentId) : n = m := by
  obtain ⟨c, hn⟩ := hn
  obtain ⟨c', hm⟩ := hm
  exact hr.key_apart (serveAccess_mints cfg) hn hm rfl (congrArg some hid.symm)

end Corpus
