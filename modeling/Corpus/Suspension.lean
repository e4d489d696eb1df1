/-
Suspended tenants.

A tenant whose status is not `active` is refused by `resolve_active_tenant` and by
`enroll`.  An agent of such a tenant is not: `authenticate` and `authenticate_cert` look
its row up and never read the tenant's status.

* `AccessDb.Apart t` — what every statement keeps that works for another tenant than `t`:
  the rows of `t`, and which tenant each session and each agent belongs to;
* `suspension_stops_writes` — where no agent of a suspended tenant is let in for a call
  that may write, no interleaving of requests changes a row of a suspended tenant;
* `suspended_agent_announces` — an agent of a suspended tenant is let in, and opens an
  upload session.
-/
import Corpus.Enrollment
import Corpus.FinalizeFailure

namespace Corpus

open Agent (GapEvent AgentIdentity applyAgentIdentity recordGaps gapSha gapAttempt)

/-! ### The rows of a tenant -/

namespace IngestDb

/-- The rows of the tenant are the same. -/
structure SameRows (t : Uuid) (d d' : IngestDb) : Prop where
  artifacts : (d'.artifacts.rows.filter fun a => a.tenant = t) =
    d.artifacts.rows.filter fun a => a.tenant = t
  occurrences : (d'.occurrences.rows.filter fun o => o.tenant = t) =
    d.occurrences.rows.filter fun o => o.tenant = t
  attempts : (d'.attempts.filter fun a => a.tenant = t) = d.attempts.filter fun a => a.tenant = t
  sessions : (d'.sessions.rows.filter fun r => r.tenant = t) =
    d.sessions.rows.filter fun r => r.tenant = t

/-- The rows of the tenant are the same, and every session stays with its tenant. -/
structure Apart (t : Uuid) (d d' : IngestDb) : Prop extends SameRows t d d' where
  owners : d.sessions.Persists UploadSession.tenant d'.sessions

variable {t t' : Uuid} {d d' d'' : IngestDb}

theorem Apart.refl (t : Uuid) (d : IngestDb) : Apart t d d :=
  ⟨⟨rfl, rfl, rfl, rfl⟩, .refl _ _⟩

theorem Apart.trans (h : Apart t d d') (h' : Apart t d' d'') : Apart t d d'' where
  artifacts := h'.artifacts.trans h.artifacts
  occurrences := h'.occurrences.trans h.occurrences
  attempts := h'.attempts.trans h.attempts
  sessions := h'.sessions.trans h.sessions
  owners := h.owners.trans h'.owners

/-- Only files have changed, or the sequence of artifacts. -/
theorem Apart.of_files (t : Uuid) (d : IngestDb) (seq : ℕ) (cas : Cas) :
    Apart t d { d with nextSeq := seq, cas } :=
  ⟨⟨rfl, rfl, rfl, rfl⟩, .refl _ _⟩

theorem apart_insertOccurrence (h : t' ≠ t) (d : IngestDb) (artifact : Uuid) (sha : Bytes)
    (occ : Option OccurrenceInfo) (now : Time) :
    Apart t d (d.insertOccurrence t' artifact sha occ now) := by
  cases occ with
  | none => exact .refl _ _
  | some o =>
    refine ⟨⟨rfl, ?_, rfl, rfl⟩, .refl _ _⟩
    exact Table.filter_insertNew (decide_eq_false h)

theorem apart_insertCaptureAttempt {a : CaptureAttempt} (h : a.tenant ≠ t) (d : IngestDb) :
    Apart t d (d.insertCaptureAttempt a) := by
  refine ⟨⟨rfl, rfl, ?_, rfl⟩, .refl _ _⟩
  show (d.attempts ++ [a]).filter _ = _
  rw [List.filter_append, List.filter_singleton, decide_eq_false h]
  exact List.append_nil _

theorem apart_addArtifact {a : Artifact} (h : a.tenant ≠ t) (d : IngestDb) :
    Apart t d (d.addArtifact a) :=
  ⟨⟨Table.filter_insertNew (decide_eq_false h), rfl, rfl, rfl⟩, .refl _ _⟩

theorem apart_insertSession {r : UploadSession} (h : r.tenant ≠ t) (d : IngestDb) :
    Apart t d { d with sessions := d.sessions.insertNew r } :=
  ⟨⟨rfl, rfl, rfl, Table.filter_insertNew (decide_eq_false h)⟩, .insertNew _ _ r⟩

/-- The session belongs to another tenant than `t`. -/
def Foreign (t upload : Uuid) (d : IngestDb) : Prop :=
  ∃ r, d.sessions.get upload = some r ∧ r.tenant ≠ t

theorem Foreign.apart {upload : Uuid} (h : Foreign t upload d) (hd : Apart t d d') :
    Foreign t upload d' := by
  obtain ⟨r, hr, ht⟩ := h
  obtain ⟨r', hr', heq⟩ := hd.owners upload r hr
  exact ⟨r', hr', heq.trans_ne ht⟩

theorem apart_setSession {upload : Uuid} (h : Foreign t upload d) (state : SessionState) :
    Apart t d (d.setSession upload state) := by
  obtain ⟨r, hr, ht⟩ := h
  constructor
  · refine ⟨rfl, rfl, rfl, Table.filter_updateWhere ?_ fun x hx hq => ?_⟩
    · exact fun _ => rfl
    · -- the session is the only row of its id
      obtain ⟨hr, hid⟩ := Table.mem_of_get hr
      obtain rfl : x = r := Table.eq_of_mem hx hr ((of_decide_eq_true hq).trans hid.symm)
      exact ⟨decide_eq_false ht, decide_eq_false ht⟩
  · refine Table.Persists.updateWhere ?_ fun _ => rfl
    exact fun _ => rfl

theorem foreign_of_sessionOf {upload : Uuid} {r : UploadSession} (h : t' ≠ t)
    (hr : d.sessionOf t' upload = some r) : Foreign t upload d := by
  obtain ⟨hget, htenant⟩ := Option.filter_eq_some_iff.mp hr
  exact ⟨r, hget, (of_decide_eq_true htenant).trans_ne h⟩

theorem apart_recordPresent (h : t' ≠ t) (d : IngestDb) (artifact : Uuid) (sha : Bytes)
    (req : AnnounceRequest) (now : Time) : Apart t d (d.recordPresent t' artifact sha req now) := by
  refine (apart_insertOccurrence h d artifact sha req.occurrence now).trans ?_
  refine apart_insertCaptureAttempt ?_ _
  rwa [captureAttempt_tenant]

theorem apart_recordCapture (h : t' ≠ t) {req : FinalizeRequest} (hd : Foreign t req.uploadId d)
    (cfg : Config) (bytes : Bytes) (artifact : Uuid) (now : Time) :
    Apart t d (d.recordCapture cfg t' req bytes artifact now) := by
  have hocc := apart_insertOccurrence h d artifact (cfg.sha256 bytes) req.occurrence now
  have hattempt : ∀ d', Apart t d' (d'.insertCaptureAttempt (captureAttempt t' req.occurrence
      req.provenance now .captured (some (cfg.sha256 bytes)) none
      (.obj [("artifact_class", .str (classify bytes).asStr)]))) :=
    fun d' => apart_insertCaptureAttempt (by rwa [captureAttempt_tenant]) d'
  refine (hocc.trans (hattempt _)).trans (apart_setSession ?_ _)
  exact hd.apart (hocc.trans (hattempt _))

/-- A batch of gaps that is accepted adds attempts of the agent's tenant. -/
theorem apart_recordGaps {debug : String → String} {ident : AgentIdentity} (h : ident.tenantId ≠ t) :
    ∀ (gaps : List GapEvent) {d d' : IngestDb}, recordGaps debug ident d gaps = .ok d' →
      Apart t d d' := by
  intro gaps
  induction gaps with
  | nil =>
    intro d d' hrun
    obtain rfl : d = d' := Except.ok.inj hrun
    exact .refl _ _
  | cons g gaps ih =>
    intro d d' hrun
    unfold recordGaps at hrun
    cases hsha : gapSha debug g with
    | error e =>
      rw [hsha] at hrun
      cases hrun
    | ok sha =>
      rw [hsha] at hrun
      exact (apart_insertCaptureAttempt (a := gapAttempt ident g sha) h d).trans (ih hrun)

end IngestDb

/-! ### The functions of ingest -/

section Ingest

variable {cfg : Config} {t t' : Uuid}

/-- The relation on the store of ingest. -/
abbrev Db.Apart (t : Uuid) (s s' : Db) : Prop := s.ingest.Apart t s'.ingest

/-- A program whose statements work for other tenants than `t`. -/
abbrev WorksApart {α : Type} (t : Uuid) (p : Srv α) : Prop :=
  p.Within (fun _ => True) (fun _ s s' => s.Apart t s') True

theorem announce_apart (h : t' ≠ t) (req : AnnounceRequest) :
    WorksApart t (announce cfg t' req) := by
  unfold announce
  split
  · trivial
  · next sha hsha =>
    refine Prog.within_bind (Prog.within_query trivial fun s => .refl _ _) fun existing => ?_
    cases existing with
    | some artifact =>
      refine Prog.within_bind (Prog.within_update trivial fun s env => ?_) fun _ => trivial
      exact IngestDb.apart_recordPresent h _ _ _ _ _
    | none =>
      refine Prog.within_bind (Prog.within_exec trivial fun s env => ?_) fun _ => trivial
      dsimp only
      split
      · next hrun =>
        split at hrun
        · cases hrun
        · cases hrun
          exact IngestDb.apart_insertSession h _
      · exact ⟨.refl _ _, trivial⟩

/-- Staging writes files only. -/
theorem stageUpload_apart (t t' upload : Uuid) (bytes : Bytes) :
    WorksApart t (stageUpload t' upload bytes) := by
  refine Prog.within_bind (Prog.within_query trivial fun s => .refl _ _) fun state => ?_
  cases state with
  | none => trivial
  | some state =>
    dsimp only
    split
    · exact Prog.within_update trivial fun s env => .of_files _ _ _ _
    · trivial

theorem commitArtifact_apart (h : t' ≠ t) {req : FinalizeRequest} {bytes : Bytes} {scope : Scope}
    {seq : ℕ} {env : Env} {s s' : Db} {a : Uuid} (hs : s.ingest.Foreign t req.uploadId)
    (hrun : s.commitArtifact cfg t' req bytes scope seq env = .ok (a, s')) : s.Apart t s' := by
  unfold Db.commitArtifact at hrun
  split at hrun
  · cases hrun
    exact IngestDb.apart_recordCapture h hs _ _ _ _
  · split at hrun
    · cases hrun
    · cases hrun
      have hadd : s.ingest.Apart t (s.ingest.addArtifact
          (newArtifact cfg t' req bytes scope seq (env.uuid 0) env.now)) :=
        IngestDb.apart_addArtifact h _
      exact hadd.trans (IngestDb.apart_recordCapture h (hs.apart hadd) _ _ _ _)

/-- A statement of `finalize` works for another tenant as long as its session does. -/
abbrev SessionApart {α : Type} (t upload : Uuid) (p : Srv α) : Prop :=
  p.Within (fun _ => True) (fun _ s s' => s.ingest.Foreign t upload → s.Apart t s') True

theorem commitUpload_apart (h : t' ≠ t) (req : FinalizeRequest) (key : Uuid) (bytes : Bytes)
    (scope : Scope) : SessionApart t req.uploadId (commitUpload cfg t' req key bytes scope) := by
  refine Prog.within_bind (Prog.within_call trivial (fun s env _ => .of_files _ _ _ _) trivial)
    fun _ => ?_
  refine Prog.within_bind ⟨trivial, fun s env => ⟨fun _ => .of_files _ _ _ _, trivial⟩⟩ fun seq => ?_
  refine Prog.within_bind (Prog.within_exec trivial fun s env => ?_) fun artifact => ?_
  · cases hrun : s.commitArtifact cfg t' req bytes scope seq env with
    | error e => exact ⟨fun _ => .refl _ _, trivial⟩
    | ok r => exact fun hs => commitArtifact_apart h hs hrun
  · refine (afterCommit_within t' artifact bytes _).mono (fun _ _ => trivial) ?_
    intro _ s s' heq _
    show s.ingest.Apart t s'.ingest
    rw [heq]
    exact .refl _ _

/-- `finalize` behind its look-up. -/
theorem verifyAndCommit_apart (h : t' ≠ t) (req : FinalizeRequest) (key : Uuid) (bytes : Bytes) :
    SessionApart t req.uploadId (verifyAndCommit cfg t' req key bytes) := by
  unfold verifyAndCommit
  dsimp only
  split
  · refine Prog.within_bind (Prog.within_update trivial fun s env _ => .of_files _ _ _ _) fun _ => ?_
    refine Prog.within_bind (Prog.within_update trivial fun s env hs => ?_) fun _ => trivial
    exact IngestDb.apart_setSession hs _
  · split
    · refine Prog.within_bind (Prog.within_update trivial fun s env hs => ?_) fun _ => ?_
      · have hattempt : ∀ a : CaptureAttempt, a.tenant ≠ t →
            s.ingest.Apart t ((s.ingest.insertCaptureAttempt a).setSession req.uploadId .failed) := by
          intro a ha
          have hadd := IngestDb.apart_insertCaptureAttempt ha s.ingest
          exact hadd.trans (IngestDb.apart_setSession (hs.apart hadd) _)
        refine hattempt _ ?_
        rwa [captureAttempt_tenant]
      · exact Prog.within_bind (Prog.within_update trivial fun s env _ => .of_files _ _ _ _)
          fun _ => trivial
    · split
      · exact Prog.within_bind (Prog.within_update trivial fun s env _ => .of_files _ _ _ _)
          fun _ => trivial
      · exact commitUpload_apart h req key bytes _

/-- `finalize`, among other requests: the session it has found stays with its tenant. -/
theorem finalize_keeps {Ok : Pt → Env → Db → Prop} (h : t' ≠ t) (req : FinalizeRequest) (s : Db) :
    (finalize cfg t' req).Keeps (Db.Apart t) Ok (fun _ _ => True) s := by
  have hrefl : ∀ s : Db, s.Apart t s := fun s => .refl _ _
  refine Prog.keeps_bind (Q := fun session s' => ∀ r, session = some r →
    s'.ingest.Foreign t req.uploadId) ?_ fun session s₁ hforeign => ?_
  · exact Prog.keeps_query hrefl fun s' _ r hr => IngestDb.foreign_of_sessionOf h hr
  cases session with
  | none => trivial
  | some r =>
    dsimp only
    split
    · trivial
    · refine Prog.keeps_bind (Q := fun _ s' => s'.ingest.Foreign t req.uploadId) ?_
        fun content s₂ hs₂ => ?_
      · exact Prog.keeps_query hrefl fun s' hs => (hforeign r rfl).apart hs
      cases content with
      | none => trivial
      | some bytes =>
        refine Prog.Keeps.mono (Q := fun _ s => s.ingest.Foreign t req.uploadId)
          (fun _ _ _ => trivial) ?_
        exact (verifyAndCommit_apart h req r.stagingKey bytes).keeps (fun _ _ hR hJ => hJ.apart hR)
          (fun _ _ _ hF hJ => hF hJ) hs₂

end Ingest

/-! ### The tables of access -/

namespace AccessDb

/-- The rows of the tenant are the same: artifacts, occurrences, capture attempts, upload
sessions and agents. -/
structure SameRows (t : Uuid) (s s' : AccessDb) : Prop where
  ingest : s.db.ingest.SameRows t s'.db.ingest
  agents : (s'.agents.rows.filter fun a => a.tenant = t) =
    s.agents.rows.filter fun a => a.tenant = t

/-- As `SameRows`, and all tenants are the same, and every session and every agent stays
with its own. -/
structure Apart (t : Uuid) (s s' : AccessDb) : Prop where
  tenants : s'.tenants = s.tenants
  ingest : s.db.ingest.Apart t s'.db.ingest
  agents : (s'.agents.rows.filter fun a => a.tenant = t) =
    s.agents.rows.filter fun a => a.tenant = t
  owners : s.agents.Persists AgentRow.tenant s'.agents

/-- The tenant is there, and not active. -/
def suspended (s : AccessDb) (t : Uuid) : Bool :=
  (s.tenants.get t).any fun row => row.status ≠ "active"

variable {t : Uuid} {s s' s'' : AccessDb}

theorem Apart.refl (t : Uuid) (s : AccessDb) : Apart t s s := ⟨rfl, .refl _ _, rfl, .refl _ _⟩

theorem Apart.trans (h : Apart t s s') (h' : Apart t s' s'') : Apart t s s'' where
  tenants := h'.tenants.trans h.tenants
  ingest := h.ingest.trans h'.ingest
  agents := h'.agents.trans h.agents
  owners := h.owners.trans h'.owners

theorem Apart.sameRows (h : Apart t s s') : SameRows t s s' := ⟨h.ingest.toSameRows, h.agents⟩

/-- Only tokens have changed. -/
theorem Apart.of_tokens (t : Uuid) (s : AccessDb) (tokens : Table EnrollmentToken.tokenSha256) :
    Apart t s { s with tokens } := ⟨rfl, .refl _ _, rfl, .refl _ _⟩

/-- Only ingest has changed. -/
theorem Apart.of_db {d : Db} (h : s.db.Apart t d) : Apart t s { s with db := d } :=
  ⟨rfl, h, rfl, .refl _ _⟩

theorem Apart.suspended_eq (h : Apart t s s') (t' : Uuid) : s'.suspended t' = s.suspended t' := by
  rw [suspended, suspended, h.tenants]

/-- An active tenant is another one. -/
theorem ne_of_active (h : s.suspended t = true) {row : TenantRow} {t' : Uuid}
    (hrow : s.tenants.get t' = some row) (hact : row.status = "active") : t' ≠ t := by
  rintro rfl
  rw [suspended, hrow] at h
  exact of_decide_eq_true h hact

/-- The agent is there and belongs to another tenant than `t`. -/
def ForeignAgent (t agent : Uuid) (s : AccessDb) : Prop :=
  ∃ a, s.agents.get agent = some a ∧ a.tenant ≠ t

theorem ForeignAgent.apart {agent : Uuid} (h : ForeignAgent t agent s) (hs : Apart t s s') :
    ForeignAgent t agent s' := by
  obtain ⟨a, ha, ht⟩ := h
  obtain ⟨a', ha', heq⟩ := hs.owners agent a ha
  exact ⟨a', ha', heq.trans_ne ht⟩

theorem apart_beat {agent : Uuid} (h : ForeignAgent t agent s) (hb : HeartbeatRequest)
    (now : Time) : Apart t s { s with
      agents := s.agents.updateWhere (fun a => a.id = agent) (fun a => a.beat hb now)
        fun _ => rfl } := by
  obtain ⟨a, ha, ht⟩ := h
  refine ⟨rfl, .refl _ _, Table.filter_updateWhere ?_ fun x hx hq => ?_, ?_⟩
  · exact fun _ => rfl
  -- The row that is updated is that agent's, of another tenant.
  · obtain ⟨hmem, hid⟩ := Table.mem_of_get ha
    obtain rfl : x = a := Table.eq_of_mem hx hmem ((of_decide_eq_true hq).trans hid.symm)
    exact ⟨decide_eq_false ht, decide_eq_false ht⟩
  · refine Table.Persists.updateWhere ?_ fun _ => rfl
    exact fun _ => rfl

theorem apart_insertAgent {a : AgentRow} (h : a.tenant ≠ t) (hrun : s.insertAgent a = .ok s') :
    Apart t s s' := by
  unfold insertAgent at hrun
  split at hrun
  · cases hrun
  · split at hrun
    · cases hrun
    · cases hrun
      exact ⟨rfl, .refl _ _, Table.filter_insertNew (decide_eq_false h), .insertNew _ _ a⟩

end AccessDb

/-! ### Requests -/

/-- The call may insert or update a row: it is not an upload, which only stages a file, and
its digests can be read. -/
def AgentCall.writes : AgentCall → Bool
  | .announce req => (hexToRaw req.sha256).isSome
  | .upload _ _ => false
  | .finalize _ => true
  | .heartbeat _ => true
  | .gaps events => !events.isEmpty && events.all Agent.GapEvent.readable

/-- The agent a statement of the request lets in, for a call that may write. -/
def letIn (cfg : AccessConfig) (s : AccessDb) : AccessRequest → AccessPt → Option AgentRow
  | .main headers call, .agentByToken =>
    if call.writes then (bearerOf headers).bind (bearerAgent cfg s) else none
  | .mtls peer call, .agentById => if call.writes then peerAgent cfg s peer else none
  | _, _ => none

/-- The statement lets no agent of a suspended tenant in. -/
def refusesSuspended (cfg : AccessConfig) (req : AccessRequest) (l : AccessPt) (_ : AccessEnv)
    (s : AccessDb) : Bool :=
  (letIn cfg s req l).all fun a => !s.suspended a.tenant

section Requests

variable {cfg : AccessConfig} {t : Uuid} {s : AccessDb} {Ok : AccessPt → AccessEnv → AccessDb → Prop}

/-- A function of ingest on its part of the store. -/
theorem keeps_onDb {α : Type} {p : Srv α} {Q : α → Db → Prop}
    (h : p.Keeps (Db.Apart t) (fun _ _ _ => True) Q s.db) :
    (onDb p).Keeps (AccessDb.Apart t) Ok (fun _ _ => True) s := by
  refine (Prog.Keeps.zoom (fun _ _ hs => hs.ingest) (fun _ _ hd => ?_) (fun _ _ _ _ => trivial)
    h).mono fun _ _ _ => trivial
  exact .of_db hd

theorem WorksApart.keeps {α : Type} {p : Srv α} (h : WorksApart t p) :
    (onDb p).Keeps (AccessDb.Apart t) Ok (fun _ _ => True) s := by
  refine keeps_onDb (Q := fun _ _ => True) ?_
  refine Prog.Within.keeps (J := fun _ => True) (fun _ _ _ _ => trivial) ?_ h trivial
  exact fun _ _ _ hF _ => hF

/-- What is assumed of the statements of a request. -/
abbrev RefusesSuspended (cfg : AccessConfig) (req : AccessRequest) (l : AccessPt) (env : AccessEnv)
    (s : AccessDb) : Prop :=
  refusesSuspended cfg req l env s = true

theorem RefusesSuspended.not_suspended {req : AccessRequest} {l : AccessPt} {env : AccessEnv}
    (h : RefusesSuspended cfg req l env s) {a : AgentRow} (ha : letIn cfg s req l = some a) :
    s.suspended a.tenant = false := by
  rw [RefusesSuspended, refusesSuspended, ha] at h
  simpa using h

/-- The request goes on as an agent of another tenant, if its call may write. -/
def AgentApart (t : Uuid) (call : AgentCall) (ident : AgentIdentity) (s : AccessDb) : Prop :=
  call.writes = true → ident.tenantId ≠ t ∧ s.ForeignAgent t ident.agentId

theorem agentApart_of_mem {call : AgentCall} {a : AgentRow} (hsus : s.suspended t = true)
    (ha : a ∈ s.agents.rows) (hok : call.writes = true → s.suspended a.tenant = false) :
    AgentApart t call a.identity s := by
  intro hw
  have hne : a.tenant ≠ t := by
    rintro rfl
    rw [hok hw] at hsus
    cases hsus
  exact ⟨hne, a, Table.mem_rows_iff.mp ha, hne⟩

theorem announceAs_keeps {t' : Uuid} {req : AnnounceRequest} (occ : Option OccurrenceInfo)
    (h : (AgentCall.announce req).writes = true → t' ≠ t) :
    (onDb (announce cfg.server t' { req with occurrence := occ })).Keeps (AccessDb.Apart t) Ok
      (fun _ _ => True) s := by
  cases hsha : hexToRaw req.sha256 with
  | some sha =>
    refine (announce_apart (h ?_) _).keeps
    show (hexToRaw req.sha256).isSome = true
    rw [hsha]
    rfl
  | none =>
    unfold announce
    simp only [hsha]
    trivial

theorem finalizeAs_keeps {t' : Uuid} {req : FinalizeRequest} (h : t' ≠ t) :
    (onDb (finalize cfg.server t' req)).Keeps (AccessDb.Apart t) Ok (fun _ _ => True) s :=
  keeps_onDb (finalize_keeps h req s.db)

theorem heartbeat_keeps {ident : AgentIdentity} (hb : HeartbeatRequest)
    (h : AgentApart t (.heartbeat hb) ident s) :
    (heartbeat ident hb).Keeps (AccessDb.Apart t) Ok (fun _ _ => True) s :=
  fun _ hs i _ => ⟨AccessDb.apart_beat ((h rfl).2.apart hs) hb i.env.now, trivial⟩

/-- A batch that may not write is refused, or empty. -/
theorem recordGaps_of_not_writes {debug : String → String} {ident : AgentIdentity} :
    ∀ {gaps : List GapEvent} {d d' : IngestDb}, (AgentCall.gaps gaps).writes = false →
      recordGaps debug ident d gaps = .ok d' → d' = d := by
  intro gaps d d' hw hrun
  cases gaps with
  | nil => exact (Except.ok.inj hrun).symm
  | cons g gaps =>
    -- A batch that is recorded has digests that can be read.
    obtain ⟨-, hall⟩ := Agent.recordGaps_ok _ hrun
    have hbad : ¬ ∀ g' ∈ g :: gaps, g'.readable = true := by
      simpa [AgentCall.writes] using hw
    refine absurd (fun g' hg' => ?_) hbad
    obtain ⟨sha, hsha, -⟩ := hall g' hg'
    rw [← Agent.isOk_gapSha debug, hsha]
    rfl

theorem recordGapsOf_keeps {ident : AgentIdentity} (gaps : List GapEvent)
    (h : (AgentCall.gaps gaps).writes = true → ident.tenantId ≠ t) :
    (recordGapsOf cfg ident gaps).Keeps (AccessDb.Apart t) Ok (fun _ _ => True) s := by
  refine Prog.keeps_exec (fun _ => .refl _ _) fun s' _ _ _ a s'' hrun => ⟨?_, trivial⟩
  cases hd : recordGaps cfg.server.debug ident s'.db.ingest gaps with
  | error e =>
    rw [hd] at hrun
    cases hrun
  | ok d =>
    rw [hd] at hrun
    cases hrun
    refine .of_db ?_
    cases hw : (AgentCall.gaps gaps).writes with
    | true => exact IngestDb.apart_recordGaps (h hw) gaps hd
    | false =>
      rw [recordGaps_of_not_writes hw hd]
      exact .refl _ _

/-! ### Who is let in -/

theorem resolveTenant_keeps (hsus : s.suspended t = true) (headers : HeaderMap) :
    (resolveTenant cfg headers).Keeps (AccessDb.Apart t) Ok (fun t' _ => t' ≠ t) s :=
  keeps_resolveTenant (fun _ => .refl _ _) fun _ _ hs hrow hact =>
    AccessDb.ne_of_active ((hs.suspended_eq t).trans hsus) (headerTenant_get hrow) hact

/-- A bearer token lets in an agent of another tenant, if the call may write. -/
theorem agentApart_of_bearer (hsus : s.suspended t = true) {s' : AccessDb} (hs : s.Apart t s')
    {headers : HeaderMap} {call : AgentCall} {env : AccessEnv} {tok : String} {a : AgentRow}
    (hok : RefusesSuspended cfg (.main headers call) .agentByToken env s')
    (htok : bearerOf headers = some tok) (ha : bearerAgent cfg s' tok = some a) :
    AgentApart t call a.identity s' := by
  refine agentApart_of_mem ((hs.suspended_eq t).trans hsus) (bearerAgent_mem ha)
    fun hw => hok.not_suspended ?_
  rw [letIn, if_pos hw, htok]
  exact ha

theorem ingestAuth_keeps (hsus : s.suspended t = true) (headers : HeaderMap) (call : AgentCall) :
    (ingestAuth cfg headers).Keeps (AccessDb.Apart t) (RefusesSuspended cfg (.main headers call))
      (fun auth _ => call.writes = true → auth.tenant ≠ t) s := by
  refine keeps_ingestAuth (fun _ => .refl _ _) ?_ ?_
  · intro s' env a tok hs hok htok ha hw
    exact (agentApart_of_bearer hsus hs hok htok ha hw).1
  · intro s' row hs hrow hact _ _
    exact AccessDb.ne_of_active ((hs.suspended_eq t).trans hsus) (headerTenant_get hrow) hact

theorem authenticate_keeps (hsus : s.suspended t = true) {headers : HeaderMap} {tok : String}
    (htok : bearerToken headers = .ok tok) (call : AgentCall) :
    (authenticate cfg tok).Keeps (AccessDb.Apart t) (RefusesSuspended cfg (.main headers call))
      (AgentApart t call) s := by
  have hbearer : bearerOf headers = some tok := by
    unfold bearerToken at htok
    split at htok
    · next tok' h =>
      rw [h, Except.ok.inj htok]
    · cases htok
  exact keeps_authenticate (fun _ => .refl _ _) fun s' env a hs hok ha =>
    agentApart_of_bearer hsus hs hok hbearer ha

theorem peerIdentity_keeps (hsus : s.suspended t = true) (peer : Option Bytes) (call : AgentCall) :
    (peerIdentity cfg peer).Keeps (AccessDb.Apart t) (RefusesSuspended cfg (.mtls peer call))
      (AgentApart t call) s := by
  refine keeps_peerIdentity (fun _ => .refl _ _) fun s' env a hs hok ha => ?_
  refine agentApart_of_mem ((hs.suspended_eq t).trans hsus) (peerAgent_mem ha)
    fun hw => hok.not_suspended ?_
  rw [letIn, if_pos hw]
  exact ha

/-- An enrollment token of a suspended tenant mints no agent. -/
theorem enroll_keeps (hsus : s.suspended t = true) (req : EnrollRequest) :
    (enroll cfg req).Keeps (AccessDb.Apart t) Ok (fun _ _ => True) s := by
  have hrefl : ∀ s, AccessDb.Apart t s s := fun s => .refl t s
  -- The token is consumed, the tenant looked up, and the agent inserted for an active one only.
  refine Prog.keeps_bind (Q := fun _ s' => s'.suspended t = true) ?_ fun t' s₁ hs₁ => ?_
  · refine Prog.keeps_exec hrefl fun s' hs env _ t' s'' hrun => ?_
    cases hcons : s'.consumeToken (cfg.hashToken req.enrollmentToken) env.env.now with
    | none =>
      rw [hcons] at hrun
      cases hrun
    | some r =>
      rw [hcons] at hrun
      obtain rfl := Except.ok.inj hrun
      obtain ⟨-, rfl⟩ := AccessDb.consumeToken_eq_some hcons
      have hmove := AccessDb.Apart.of_tokens t s' (s'.tokens.updateWhere
        (fun r => r.tokenSha256 = cfg.hashToken req.enrollmentToken)
        (fun r => { r with consumedAt := some env.env.now }) fun _ => rfl)
      exact ⟨hmove, (hmove.suspended_eq t).trans ((hs.suspended_eq t).trans hsus)⟩
  refine Prog.keeps_bind (Q := fun row _ => row.status = "active" → t' ≠ t) ?_
    fun row s₂ hactive => ?_
  · exact keeps_getTenant hrefl fun s' row hs hrow hact =>
      AccessDb.ne_of_active ((hs.suspended_eq t).trans hs₁) hrow hact
  obtain ⟨hact, hreq⟩ | ⟨-, e, hreq⟩ := requireActive_cases row
  · rw [hreq]
    refine Prog.keeps_bind (Q := fun _ _ => True) ?_ fun minted s₃ _ => ?_
    · refine Prog.keeps_exec hrefl fun s' _ env _ r s'' hrun => ⟨?_, trivial⟩
      cases hins : s'.insertAgent (cfg.newAgent req t' env.env).1 with
      | error e =>
        rw [hins] at hrun
        cases hrun
      | ok s₄ =>
        rw [hins] at hrun
        cases hrun
        exact AccessDb.apart_insertAgent (hactive hact) hins
    · refine Prog.keeps_bind (Q := fun _ _ => True) ?_ fun _ s₄ _ => ?_
      · exact fun s' _ env _ => ⟨.of_tokens _ _ _, trivial⟩
      refine Prog.keeps_bind (Q := fun _ _ => True) ?_ fun _ _ _ => trivial
      refine Prog.keeps_exec hrefl fun s' _ env _ r s'' hrun => ⟨?_, trivial⟩
      cases hcert : cfg.signCert minted.1 env with
      | error e =>
        rw [hcert] at hrun
        cases hrun
      | ok c =>
        rw [hcert] at hrun
        cases hrun
        exact .refl _ _
  · rw [hreq]
    trivial

/-- **Each request** keeps the rows of a suspended tenant, as long as no agent of one is
let in. -/
theorem serveAccess_keeps (hsus : s.suspended t = true) (req : AccessRequest) :
    (serveAccess cfg req).Keeps (AccessDb.Apart t) (RefusesSuspended cfg req) (fun _ _ => True)
      s := by
  have hret : ∀ {α : Type} (f : α → AccessReply) (a : α) (s : AccessDb), True →
      (Prog.ret (f a) : AccessProg AccessReply).Keeps (AccessDb.Apart t)
        (RefusesSuspended cfg req) (fun _ _ => True) s := fun _ _ _ h => h
  cases req with
  | enroll req => exact Prog.keeps_bind (enroll_keeps hsus req) (hret _)
  | main headers call =>
    cases call with
    | announce req =>
      refine Prog.keeps_bind ?_ (hret _)
      exact Prog.keeps_bind (ingestAuth_keeps hsus headers (.announce req))
        fun auth _ hauth => announceAs_keeps _ hauth
    | upload upload body =>
      refine Prog.keeps_bind ?_ (hret fun _ => .noContent)
      exact Prog.keeps_bind (ingestAuth_keeps hsus headers (.upload upload body))
        fun auth _ _ => (stageUpload_apart t auth.tenant upload body).keeps
    | finalize req =>
      refine Prog.keeps_bind ?_ (hret _)
      exact Prog.keeps_bind (ingestAuth_keeps hsus headers (.finalize req))
        fun auth _ hauth => finalizeAs_keeps (hauth rfl)
    | heartbeat hb =>
      refine Prog.keeps_bind ?_ (hret fun _ => .noContent)
      unfold agentHeartbeat
      split
      · trivial
      · next tok htok =>
        exact Prog.keeps_bind (authenticate_keeps hsus htok (.heartbeat hb))
          fun ident _ hident => heartbeat_keeps hb hident
    | gaps gaps =>
      refine Prog.keeps_bind ?_ (hret fun _ => .noContent)
      unfold reportGaps
      split
      · split
        · trivial
        · next tok htok =>
          exact Prog.keeps_bind (authenticate_keeps hsus htok (.gaps gaps))
            fun ident _ hident => recordGapsOf_keeps gaps fun hw => (hident hw).1
      · exact Prog.keeps_bind (resolveTenant_keeps hsus headers)
          fun t' _ ht' => recordGapsOf_keeps gaps fun _ => ht'
  | mtls peer call =>
    -- A client certificate lets in an agent, never a tenant of a header.
    have hpeer : (peerIdentity cfg peer).Keeps (AccessDb.Apart t)
        (RefusesSuspended cfg (.mtls peer call)) (AgentApart t call) s :=
      peerIdentity_keeps hsus peer call
    cases call with
    | announce req =>
      refine Prog.keeps_bind ?_ (hret _)
      exact Prog.keeps_bind hpeer fun ident _ hident => announceAs_keeps _ fun hw => (hident hw).1
    | upload upload body =>
      refine Prog.keeps_bind ?_ (hret fun _ => .noContent)
      exact Prog.keeps_bind hpeer
        fun ident _ _ => (stageUpload_apart t ident.tenantId upload body).keeps
    | finalize req =>
      refine Prog.keeps_bind ?_ (hret _)
      exact Prog.keeps_bind hpeer fun ident _ hident => finalizeAs_keeps (hident rfl).1
    | heartbeat hb =>
      refine Prog.keeps_bind ?_ (hret fun _ => .noContent)
      exact Prog.keeps_bind hpeer fun ident _ hident => heartbeat_keeps hb hident
    | gaps gaps =>
      refine Prog.keeps_bind ?_ (hret fun _ => .noContent)
      exact Prog.keeps_bind hpeer
        fun ident _ hident => recordGapsOf_keeps gaps fun hw => (hident hw).1

end Requests

/-! ### Runs -/

/-- **Suspension stops writes**, in every interleaving of requests to both listeners in
which no agent of a suspended tenant is let in for a call that may write. -/
theorem suspension_stops_writes {cfg : AccessConfig} {s₀ : AccessDb}
    {h : Pool.Hist AccessRequest AccessPt AccessDb AccessEnv Error AccessReply}
    {p : Pool AccessRequest AccessPt AccessDb AccessEnv Error AccessReply}
    (hr : Pool.Reach (serveAccess cfg) s₀ h p)
    (hok : ∀ e ∈ h, e.1.stepOk (refusesSuspended cfg) e.2 = true) :
    ∀ t, s₀.suspended t = true → s₀.SameRows t p.store := by
  intro t hsus
  -- What others do meanwhile keeps the rows, too, and no tenant changes its status.
  refine AccessDb.Apart.sameRows (Pool.Reach.kept (Q := fun _ _ _ => True) (.refl t)
    (fun _ _ _ => .trans) ?_ hr fun e he => Pool.StepOk.of_run (hok e he))
  intro req s hs
  exact serveAccess_keeps ((hs.suspended_eq t).trans hsus) req

/-- An active and a suspended tenant, with the agents `2` and `3`. -/
def twoAgents : AccessDb :=
  { twoTenants with
    agents := (Table.empty.insertNew
        { id := 2, tenant := 1, hostName := "a", tokenSha256 := asBytes "two", version := "1",
          enrolledAt := 0 }).insertNew
      { id := 3, tenant := 5, hostName := "b", tokenSha256 := asBytes "three", version := "1",
        enrolledAt := 0 } }

/-- An agent announces a file, under its client certificate. -/
def announceAs (agent : ℕ) : List (Act AccessRequest AccessEnv) :=
  .spawn (.mtls (some (List.replicate agent 0)) (.announce ⟨hexEncode [1], 1, none⟩)) ::
    List.replicate 3 (.exec 0 ⟨.drawing 9, ⟨.ok [], 0⟩⟩)

/-- The agent of the active tenant opens a session. -/
theorem suspension_stops_writes_active :
    ∃ h p, Pool.Reach (serveAccess .plain) twoAgents h p ∧ p.store.db.ingest.sessions.rows ≠ [] ∧
      twoAgents.suspended 5 = true ∧ twoAgents.SameRows 5 p.store := by
  obtain ⟨h, p, hreach, hchk⟩ := Pool.exists_reach (serveAccess .plain) twoAgents (announceAs 2)
    (fun h p => h.all (fun e => e.1.stepOk (refusesSuspended .plain) e.2) &&
      !p.store.db.ingest.sessions.rows.isEmpty) (by decide)
  simp only [Bool.and_eq_true, List.all_eq_true] at hchk
  refine ⟨h, p, hreach, ?_, by decide, suspension_stops_writes hreach hchk.1 5 (by decide)⟩
  intro hnil
  rw [hnil] at hchk
  exact absurd hchk.2 (by decide)

/-- The agent of the suspended tenant opens one too. -/
theorem suspended_agent_announces :
    ∃ h p, Pool.Reach (serveAccess .plain) twoAgents h p ∧ twoAgents.suspended 5 = true ∧
      ¬ twoAgents.SameRows 5 p.store := by
  obtain ⟨h, p, hreach, hchk⟩ := Pool.exists_reach (serveAccess .plain) twoAgents (announceAs 3)
    (fun _ p => (p.store.db.ingest.sessions.rows.filter fun r => r.tenant = 5).length = 1) (by decide)
  refine ⟨h, p, hreach, by decide, fun hsame => ?_⟩
  have hlen := congrArg List.length hsame.ingest.sessions
  rw [of_decide_eq_true hchk] at hlen
  exact absurd hlen (by decide)

end Corpus
