/-
The server as its agents see it.

`corpusServer` answers the requests of an agent with the programs of the server,
under the identity the bearer token stands for.  A request is served as a whole,
with no other request in between.

* `recordGaps` — `record_gaps_scoped` of `agents.rs`, one transaction;
* `recordGaps_ok` — a batch that is accepted is in the ledger, event by event.
-/
import Corpus.Agent.World

namespace Corpus.Agent

/-- `AgentIdentity`. -/
structure AgentIdentity where
  agentId : Uuid
  tenantId : Uuid
  hostName : String

/-- `apply_agent_identity`. -/
def applyAgentIdentity (ident : AgentIdentity) (occ : Option OccurrenceInfo) :
    Option OccurrenceInfo :=
  occ.map fun o => { o with agentId := ident.agentId, hostName := ident.hostName }

/-! ### Gaps -/

/-- The row `record_gaps_scoped` inserts for an event. -/
def gapAttempt (ident : AgentIdentity) (g : GapEvent) (sha : Option Bytes) : CaptureAttempt :=
  ⟨ident.tenantId, ident.hostName, ident.agentId, g.observedAt, g.captureReason,
    .gap g.terminalOutcome, sha, g.path, g.detailCode, g.detail.getD (.obj [])⟩

/-- The digest of an event, as bytes; `debug` is what `{:?}` prints. -/
def gapSha (debug : String → String) (g : GapEvent) : Except Error (Option Bytes) :=
  match g.artifactSha256 with
  | none => .ok none
  | some text =>
    match hexToRaw text with
    | some sha => .ok (some sha)
    | none =>
      let quoted := debug text
      .error (.badRequest s!"invalid sha256 hex: {quoted}")

/-- The digest of the event, if it has one, is hexadecimal. -/
def GapEvent.readable (g : GapEvent) : Bool := g.artifactSha256.all fun text => (hexToRaw text).isSome

theorem isOk_gapSha (debug : String → String) (g : GapEvent) :
    (gapSha debug g).isOk = g.readable := by
  unfold gapSha GapEvent.readable
  cases g.artifactSha256 with
  | none => rfl
  | some text =>
    show (match hexToRaw text with
      | some sha => Except.ok (some sha)
      | none => _ : Except Error (Option Bytes)).isOk = (hexToRaw text).isSome
    cases hexToRaw text <;> rfl

/-- `record_gaps_scoped`: an error rolls the whole batch back. -/
def recordGaps (debug : String → String) (ident : AgentIdentity) :
    IngestDb → List GapEvent → Except Error IngestDb
  | d, [] => .ok d
  | d, g :: gaps =>
    match gapSha debug g with
    | .error e => .error e
    | .ok sha => recordGaps debug ident (d.insertCaptureAttempt (gapAttempt ident g sha)) gaps

/-- The event is in the ledger. -/
def Ledgered (debug : String → String) (ident : AgentIdentity) (d : IngestDb) (g : GapEvent) : Prop :=
  ∃ sha, gapSha debug g = .ok sha ∧ gapAttempt ident g sha ∈ d.attempts

/-- **A batch that is accepted is in the ledger**, beside what was there. -/
theorem recordGaps_ok {debug : String → String} {ident : AgentIdentity} :
    ∀ (gaps : List GapEvent) {d d' : IngestDb},
    recordGaps debug ident d gaps = .ok d' →
      (∀ a ∈ d.attempts, a ∈ d'.attempts) ∧ ∀ g ∈ gaps, Ledgered debug ident d' g := by
  intro gaps
  induction gaps with
  | nil =>
    intro d d' h
    obtain rfl : d = d' := Except.ok.inj h
    exact ⟨fun a ha => ha, fun g hg => absurd hg List.not_mem_nil⟩
  | cons g gaps ih =>
    intro d d' h
    unfold recordGaps at h
    cases hsha : gapSha debug g with
    | error e =>
      rw [hsha] at h
      cases h
    | ok sha =>
      rw [hsha] at h
      obtain ⟨hkeep, hall⟩ := ih h
      have hold : ∀ a ∈ d.attempts, a ∈ d'.attempts :=
        fun a ha => hkeep a (List.mem_append_left _ ha)
      refine ⟨hold, fun g' hg' => ?_⟩
      rcases List.mem_cons.mp hg' with rfl | hg'
      · exact ⟨sha, hsha, hkeep _ (List.mem_append_right _ (List.mem_singleton_self _))⟩
      · exact hall g' hg'

/-! ### Requests -/

/-- Serve a request to its end; `describe` is the error the agent gets to see. -/
def respond {α β : Type} (describe : Error → String) (f : α → β) (p : Srv α) (envs : List Env)
    (s : Db) : Except String β × Db :=
  match p.run envs s with
  | some (_, .ok a, s') => (.ok (f a), s')
  | some (_, .error e, s') => (.error (describe e), s')
  | none => (.error "error sending request", s)

/-- The server, for the agent of this identity. -/
def corpusServer (cfg : Config) (ident : AgentIdentity) (describe : Error → String) : Server Db where
  announce req := respond describe id
    (announce cfg ident.tenantId { req with occurrence := applyAgentIdentity ident req.occurrence })
  upload upload bytes := respond describe id (stageUpload ident.tenantId upload bytes)
  finalize req := respond describe (fun _ => ())
    (finalize cfg ident.tenantId
      { req with occurrence := applyAgentIdentity ident req.occurrence })
  reportGaps gaps _ s :=
    match recordGaps cfg.debug ident s.ingest gaps with
    | .ok d => (.ok (), { s with ingest := d })
    | .error e => (.error (describe e), s)

end Corpus.Agent
