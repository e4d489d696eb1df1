/-
How `finalize` fails.

A finalize call that returns an error is to leave either an open session with its
staged bytes, so that it can be run again, or a failed session, no staged bytes and a
capture attempt; and no object without an artifact row.  Its error exits do this in
different ways: the size check discards before it marks the session and records
nothing, the scope check discards and leaves the session open, a commit that has to copy
may leave an object nobody knows of, and once the object is committed the staged bytes
are gone whatever happens to the transaction.  A removal that the file system refuses is
not noticed where bytes are discarded, and so decides some of these cases.

Main results:
* `finalize_fails_cleanly_iff` — from any store, for every request, every step that may
  fail and all answers of the file system, whether the call fails cleanly;
* `invalid_scope_strands_session` — an upload with a scope that does not exist.
-/
import Corpus.Draws
import Corpus.ServerMoves
import Corpus.Frames

namespace Corpus

variable {cfg : Config}

/-! ### Failures -/

/-- A statement whose failure makes `finalize` return an error: discarding staged bytes
ignores errors, and so does the caller of the similarity analysis; how a commit fails is
one of the answers that it draws. -/
def Pt.fallible : Pt → Bool
  | .ingest (.finDiscardSize ..) | .ingest (.finDiscardMismatch ..)
  | .ingest (.finDiscardScope ..) | .ingest (.finCommit ..) | .sim _ => false
  | _ => true

/-- The call returns an error here: of its own, or of the statement it stands before. -/
def ReturnsErr {α : Type} : Ctl Pt α → Prop
  | .failed => True
  | .at l => l.fallible = true
  | _ => False

/-- The session is open and its staged bytes are there. -/
def Retryable (d : IngestDb) (t : Uuid) (req : FinalizeRequest) : Prop :=
  ∃ r bytes, d.sessionOf t req.uploadId = some r ∧ r.state = .open ∧
    d.cas.staging r.stagingKey = some bytes

/-- The session is failed, its staged bytes are gone, and a capture attempt that has not
succeeded has been added. -/
def RecordedFailure (d d' : IngestDb) (t : Uuid) (req : FinalizeRequest) : Prop :=
  ∃ r a, d'.sessionOf t req.uploadId = some r ∧ r.state = .failed ∧
    d'.cas.staging r.stagingKey = none ∧ d'.attempts = d.attempts ++ [a] ∧ a.tenant = t ∧
    a.outcome ≠ .captured ∧ a.outcome ≠ .alreadyPresent

/-- Every object that was not there before has its artifact row. -/
def NoOrphan (d d' : IngestDb) : Prop :=
  ∀ k bytes, d.cas.objects k = none → d'.cas.objects k = some bytes →
    ∃ a ∈ d'.artifacts.rows, a.objectKey = k

/-- What an error of `finalize` is to leave behind. -/
def CleanFailure (d d' : IngestDb) (t : Uuid) (req : FinalizeRequest) : Prop :=
  (Retryable d' t req ∨ RecordedFailure d d' t req) ∧ NoOrphan d d'

/-- Statement `n` of the run asked the file system for a removal, with this answer. -/
def Removal (is : List Env) (n : ℕ) (done : Bool) : Prop :=
  ∃ env, is[n]? = some env ∧ env.cas.removes = done

theorem removal_iff {is : List Env} {n : ℕ} {done : Bool} {e : Env} (h : is[n]? = some e) :
    Removal is n done ↔ e.cas.removes = done := by
  constructor
  · rintro ⟨env, heq, hdone⟩
    rw [h] at heq
    cases heq
    exact hdone
  · exact fun hdone => ⟨e, h, hdone⟩

/-- The object that these bytes are committed to. -/
def finalObject (cfg : Config) (t : Uuid) (bytes : Bytes) : ObjectKey :=
  ⟨t, hexEncode (cfg.sha256 bytes)⟩

/-- Where the error of the call itself is clean, by the checks that the bytes pass: the
size, the digest, the scope.  A commit fails where it moves nothing and the object is not
there, and then either leaves nothing or what it leaves has its row; behind a commit that
found the object, only the removal it did not get keeps the staged bytes. -/
def CleanError (cfg : Config) (d : IngestDb) (t : Uuid) (req : FinalizeRequest) (bytes : Bytes)
    (is : List Env) : Prop :=
  (bytes.length : ℤ) = req.sizeBytes ∧
    if eqIgnoreAsciiCase (hexEncode (cfg.sha256 bytes)) req.sha256 then
      match parseScope (req.scope.getD "endpoint"), d.cas.objects (finalObject cfg t bytes) with
      | none, _ => Removal is 2 false
      | some _, none => ∃ env, is[2]? = some env ∧ env.cas.moves = false ∧
          (env.cas.leaves = false ∨ ∃ a ∈ d.artifacts.rows, a.objectKey = finalObject cfg t bytes)
      | some _, some _ => Removal is 2 false ∧ d.artifacts.get (t, cfg.sha256 bytes) = none ∧
          ∃ env, is[4]? = some env ∧ ∃ a ∈ d.artifacts.rows, a.id = env.uuid 0
    else Removal is 3 true

/-- Where an error is clean, the session being open and its bytes staged. -/
def CleanExit (cfg : Config) (d : IngestDb) (t : Uuid) (req : FinalizeRequest) (bytes : Bytes)
    (is : List Env) : Ctl Pt FinalizeResponse → Prop
  | .at (.ingest (.finSession ..)) | .at (.ingest (.finRead ..))
  | .at (.ingest (.finMismatch ..)) => True
  | .at (.ingest (.finFailSize ..)) => Removal is 2 false
  | .at (.ingest (.finNextval ..)) | .at (.ingest (.finInsert ..)) =>
    (d.cas.objects (finalObject cfg t bytes)).isSome ∧ Removal is 2 false
  | .failed => CleanError cfg d t req bytes is
  | _ => False

/-- The session is open, its bytes are staged, and the call stops with an error that leaves
both or records the failure. -/
def FailsCleanly (cfg : Config) (d : IngestDb) (t : Uuid) (req : FinalizeRequest) (is : List Env)
    (x : Ctl Pt FinalizeResponse) : Prop :=
  ∃ r bytes, d.sessionOf t req.uploadId = some r ∧ r.state = .open ∧
    d.cas.staging r.stagingKey = some bytes ∧ CleanExit cfg d t req bytes is x

theorem NoOrphan.of_objects {d d' : IngestDb} (h : d'.cas.objects = d.cas.objects) :
    NoOrphan d d' := by
  intro k bytes hk hk'
  rw [h, hk] at hk'
  cases hk'

/-- An object that appears leaves no orphan exactly when a row names it. -/
theorem noOrphan_put {d : IngestDb} {k : ObjectKey} (part : Bytes) (hk : d.cas.objects k = none) :
    NoOrphan d { d with cas := d.cas.put k part } ↔ ∃ a ∈ d.artifacts.rows, a.objectKey = k := by
  refine ⟨fun h => h k part hk (Function.update_self ..), fun h k' b hnone hput => ?_⟩
  rcases eq_or_ne k' k with rfl | hne
  · exact h
  · have hsame : Function.update d.cas.objects k (some part) k' = some b := hput
    rw [Function.update_of_ne hne, hnone] at hsame
    cases hsame

/-! ### Sessions -/

theorem IngestDb.sessionOf_setSession {d : IngestDb} {t upload : Uuid} {state : SessionState}
    {r : UploadSession} (h : d.sessionOf t upload = some r) :
    (d.setSession upload state).sessionOf t upload = some { r with state } := by
  unfold IngestDb.sessionOf at h ⊢
  obtain ⟨hget, ht⟩ := Option.filter_eq_some_iff.mp h
  obtain rfl : r.id = upload := (Table.mem_of_get hget).2
  have hupd : (d.setSession r.id state).sessions.get r.id = some { r with state } := by
    show (d.sessions.updateWhere (fun x => x.id = r.id) (fun x => { x with state }) fun _ => rfl).get
      r.id = _
    rw [Table.get_updateWhere, hget]
    simp
  rw [hupd, Option.filter_some, if_pos (by simpa using ht)]

@[simp] theorem captureAttempt_tenant (t : Uuid) (occ : Option OccurrenceInfo)
    (provenance : Option Json) (now : Time) (outcome : Outcome) (sha : Option Bytes)
    (code : Option String) (detail : Json) :
    (captureAttempt t occ provenance now outcome sha code detail).tenant = t := by
  cases occ <;> rfl

@[simp] theorem captureAttempt_outcome (t : Uuid) (occ : Option OccurrenceInfo)
    (provenance : Option Json) (now : Time) (outcome : Outcome) (sha : Option Bytes)
    (code : Option String) (detail : Json) :
    (captureAttempt t occ provenance now outcome sha code detail).outcome = outcome := by
  cases occ <;> rfl

/-- The transaction of `finalize` commits the session. -/
theorem Db.commitArtifact_session {s s' : Db} {t artifact : Uuid} {req : FinalizeRequest}
    {bytes : Bytes} {scope : Scope} {seq : ℕ} {env : Env}
    (h : s.commitArtifact cfg t req bytes scope seq env = .ok (artifact, s')) {r : UploadSession}
    (hr : s.ingest.sessionOf t req.uploadId = some r) :
    s'.ingest.sessionOf t req.uploadId = some { r with state := .committed } := by
  have hrecord : ∀ {d : IngestDb} {a : Uuid}, d.sessions = s.ingest.sessions →
      (d.recordCapture cfg t req bytes a env.now).sessionOf t req.uploadId =
        some { r with state := .committed } := by
    intro d a hd
    refine IngestDb.sessionOf_setSession ?_
    have hoccurrence : (d.insertOccurrence t a (cfg.sha256 bytes) req.occurrence env.now).sessions =
        d.sessions := by
      cases req.occurrence <;> rfl
    show Option.filter _ (Table.get (d.insertOccurrence ..).sessions req.uploadId) = _
    rw [hoccurrence, hd]
    exact hr
  unfold Db.commitArtifact at h
  split at h
  · cases h
    exact hrecord rfl
  · split at h
    · cases h
    · cases h
      exact hrecord rfl

/-- The transaction fails by itself where the new row gets an id that is taken. -/
theorem Db.commitArtifact_error {s : Db} {t : Uuid} {req : FinalizeRequest} {bytes : Bytes}
    {scope : Scope} {seq : ℕ} {env : Env} {e : Error}
    (h : s.commitArtifact cfg t req bytes scope seq env = .error e) :
    s.ingest.artifacts.get (t, cfg.sha256 bytes) = none ∧
      ∃ a ∈ s.ingest.artifacts.rows, a.id = env.uuid 0 := by
  unfold Db.commitArtifact at h
  split at h
  · cases h
  next hget =>
  split at h
  · next htaken => exact ⟨hget, by simpa using htaken⟩
  · cases h

theorem Db.commitArtifact_fresh {s s' : Db} {t artifact : Uuid} {req : FinalizeRequest}
    {bytes : Bytes} {scope : Scope} {seq : ℕ} {env : Env}
    (h : s.commitArtifact cfg t req bytes scope seq env = .ok (artifact, s'))
    (hget : s.ingest.artifacts.get (t, cfg.sha256 bytes) = none) :
    ¬ ∃ a ∈ s.ingest.artifacts.rows, a.id = env.uuid 0 := by
  unfold Db.commitArtifact at h
  rw [hget] at h
  dsimp only at h
  split at h
  · cases h
  · next htaken => simpa using htaken

/-- A committed session is neither open nor failed. -/
theorem not_cleanFailure_of_committed {d d' : IngestDb} {t : Uuid} {req : FinalizeRequest}
    {r : UploadSession} (h : d'.sessionOf t req.uploadId = some r) (hr : r.state = .committed) :
    ¬ CleanFailure d d' t req := by
  rintro ⟨⟨r', _, hr', hst, _⟩ | ⟨r', _, hr', hst, _⟩, _⟩
  · obtain rfl := Option.some.inj (h.symm.trans hr')
    rw [hr] at hst
    cases hst
  · obtain rfl := Option.some.inj (h.symm.trans hr')
    rw [hr] at hst
    cases hst

/-- An open session without staged bytes cannot be retried and records no failure. -/
theorem not_cleanFailure_of_unstaged {d d' : IngestDb} {t : Uuid} {req : FinalizeRequest}
    {r : UploadSession} (h : d'.sessionOf t req.uploadId = some r) (hr : r.state = .open)
    (hgone : d'.cas.staging r.stagingKey = none) : ¬ CleanFailure d d' t req := by
  rintro ⟨⟨r', bytes, hr', _, hstaged⟩ | ⟨r', _, hr', hst, _⟩, _⟩
  · obtain rfl := Option.some.inj (h.symm.trans hr')
    rw [hgone] at hstaged
    cases hstaged
  · obtain rfl := Option.some.inj (h.symm.trans hr')
    rw [hr] at hst
    cases hst

/-- Without a new capture attempt, only a retry is left. -/
theorem cleanFailure_iff_retryable {d d' : IngestDb} {t : Uuid} {req : FinalizeRequest}
    (hattempts : d'.attempts = d.attempts) (hobj : d'.cas.objects = d.cas.objects) :
    CleanFailure d d' t req ↔ Retryable d' t req := by
  constructor
  · rintro ⟨h | ⟨_, a, _, _, _, hadd, _⟩, _⟩
    · exact h
    · rw [hattempts] at hadd
      exact absurd (congrArg List.length hadd) (by simp)
  · exact fun h => ⟨.inl h, .of_objects hobj⟩

/-! ### Forward coverage leaves ingest alone -/

/-- A part of a call that runs hunt statements only, and leaves ingest alone. -/
abbrev InHunts {α : Type} (p : Srv α) : Prop :=
  p.Within (fun l => ∃ q, l = .hunt q) (fun _ s s' => s'.ingest = s.ingest) True

theorem InForward.inHunts {t a : Uuid} {hunt : Option Uuid} {α : Type} {p : Srv α}
    (h : InForward t a hunt p) : InHunts p :=
  h.mono (fun _ hl => ⟨_, hl⟩) fun _ _ _ hF => hF.ingest

theorem inHunts_query {α : Type} {l : HuntPt} {q : Db → α} :
    InHunts (Prog.query (.hunt l) q : Srv α) :=
  Prog.within_query ⟨l, rfl⟩ fun _ => rfl

theorem forwardBundle_inHunts (t a : Uuid) (sha bytes : Bytes) (all : List String) (b : Bundle) :
    InHunts (forwardBundle cfg t a sha bytes all b) := by
  refine Prog.within_bind inHunts_query fun hit => ?_
  cases hit with
  | some row => trivial
  | none =>
    refine Prog.within_bind inHunts_query fun sources => ?_
    cases cfg.compileBundle sources with
    | error e => trivial
    | ok u =>
      refine Prog.within_bind ⟨⟨_, rfl⟩, fun s env => ⟨rfl, trivial⟩⟩ fun outcome => ?_
      refine Prog.within_bind (Prog.within_update ⟨_, rfl⟩ fun s env => rfl) fun _ => ?_
      have hreport := (reportForward_inForward (t := t) (a := a) b outcome all).inHunts
      refine Prog.within_bind inHunts_query fun forward => ?_
      cases forward with
      | none => exact hreport
      | some f => exact Prog.within_bind (creditForward_inForward outcome f).inHunts fun _ => hreport

theorem forwardScan_inHunts (t a : Uuid) (sha bytes : Bytes) :
    InHunts (forwardScan cfg t a sha bytes) :=
  Prog.within_bind inHunts_query fun bundles =>
    Prog.within_loop (fun all b => forwardBundle_inHunts t a sha bytes all b) bundles []

/-! ### Every error exit -/

section Exits

variable (cfg) (t : Uuid) (req : FinalizeRequest) (d : IngestDb)

/-- What is shown before every statement. -/
def ExitAt (l : Pt) (is : List Env) (s : Db) : Prop :=
  l.fallible = true → (CleanFailure d s.ingest t req ↔ FailsCleanly cfg d t req is (.at l))

/-- What is shown at the end. -/
def ExitWith (r : Except Error FinalizeResponse) (is : List Env) (s : Db) : Prop :=
  ∀ e, r = .error e → (CleanFailure d s.ingest t req ↔ FailsCleanly cfg d t req is .failed)

theorem exitAt_of_not {cfg : Config} {t : Uuid} {req : FinalizeRequest} {d : IngestDb} {l : Pt}
    {is : List Env} {s : Db} (hl : l.fallible = false) : ExitAt cfg t req d l is s :=
  fun h => absurd (hl.symm.trans h) Bool.false_ne_true

end Exits

/-- What follows the transaction, scans and analysis, leaves ingest alone. -/
theorem afterCommit_within (t artifact : Uuid) (bytes : Bytes)
    (reply : List String → FinalizeResponse) :
    Prog.Within (fun l => ∀ p, l ≠ Pt.ingest p) (fun _ (s s' : Db) => s'.ingest = s.ingest) True (do
      let forwardMatches ← forwardScan cfg t artifact (cfg.sha256 bytes) bytes
      let _ ← (analyzeNewArtifact cfg t artifact (classify bytes) bytes).attempt
      return reply forwardMatches : Srv FinalizeResponse) := by
  have hscan : (forwardScan cfg t artifact (cfg.sha256 bytes) bytes).Within
      (fun l => ∀ p, l ≠ .ingest p) (fun _ s s' => s'.ingest = s.ingest) True := by
    refine (forwardScan_inHunts t artifact (cfg.sha256 bytes) bytes).mono ?_ fun _ _ _ h => h
    rintro l ⟨q, rfl⟩ p hp
    cases hp
  have hanalysis : (analyzeNewArtifact cfg t artifact (classify bytes) bytes).attempt.Within
      (fun l => ∀ p, l ≠ .ingest p) (fun _ s s' => s'.ingest = s.ingest) True := by
    refine Prog.within_attempt (Prog.Within.mono ?_ ?_ (analyzeArtifact_inSim _ _ _))
    · rintro l hl p rfl
      exact hl
    · rintro l s s' ⟨d, o, rfl⟩
      rfl
  exact Prog.within_bind hscan fun _ => Prog.within_bind hanalysis fun _ => trivial

section Exits

variable {t : Uuid} {req : FinalizeRequest} {s : Db} {r : UploadSession} {bytes : Bytes}

theorem cleanExit_other {d : IngestDb} {is : List Env} {l : Pt} (h : ∀ p, l ≠ .ingest p) :
    ¬ CleanExit cfg d t req bytes is (.at l) := by
  cases l with
  | ingest p => exact absurd rfl (h p)
  | hunt p => exact id
  | sim p => exact id

/-- Once the transaction has committed, nothing that fails is clean. -/
theorem wpd_committed {d : IngestDb} {artifact : Uuid} {is : List Env}
    (hd : ∀ js, ¬ FailsCleanly cfg d t req (is ++ js) .failed)
    (hr : s.ingest.sessionOf t req.uploadId = some r) (hst : r.state = .committed) :
    Prog.wpd (ExitAt cfg t req d) (ExitWith cfg t req d) (do
      let forwardMatches ← forwardScan cfg t artifact (cfg.sha256 bytes) bytes
      let _ ← (analyzeNewArtifact cfg t artifact (classify bytes) bytes).attempt
      return ⟨artifact, hexEncode (cfg.sha256 bytes), .committed, forwardMatches⟩) is s := by
  refine Prog.wpd_of_wp (Prog.Within.wp (I := fun s => s.ingest.sessionOf t req.uploadId = some r)
    ?_ ?_ ?_ (afterCommit_within t artifact bytes _) hr)
  · intro l s' hl hs' js _
    refine iff_of_false (not_cleanFailure_of_committed hs' hst) ?_
    rintro ⟨_, _, _, _, _, hat⟩
    exact cleanExit_other hl hat
  · intro l s' s'' heq hs'
    rwa [heq]
  · intro x s' hs' js e _
    exact iff_of_false (not_cleanFailure_of_committed hs' hst) (hd js)

section Committing

variable {e₀ e₁ e₂ : Env} {scope : Scope} {cas : Cas}
  (hdigest : eqIgnoreAsciiCase (hexEncode (cfg.sha256 bytes)) req.sha256 = true)
  (hsize : (bytes.length : ℤ) = req.sizeBytes)
  (hscope : parseScope (req.scope.getD "endpoint") = some scope)

include hdigest hsize hscope

/-- The error of a commit that does not find the object. -/
theorem cleanError_missing (hnone : s.ingest.cas.objects (finalObject cfg t bytes) = none)
    (js : List Env) : CleanError cfg s.ingest t req bytes ([e₀, e₁, e₂] ++ js) ↔
      e₂.cas.moves = false ∧ (e₂.cas.leaves = false ∨
        ∃ a ∈ s.ingest.artifacts.rows, a.objectKey = finalObject cfg t bytes) := by
  unfold CleanError
  rw [if_pos hdigest, hscope, hnone]
  constructor
  · rintro ⟨_, env, heq, h⟩
    obtain rfl : e₂ = env := Option.some.inj heq
    exact h
  · exact fun h => ⟨hsize, e₂, rfl, h⟩

/-- The error of the transaction, behind a commit that went through. -/
theorem cleanError_committed
    (hc : s.ingest.cas.commit e₂.cas r.stagingKey (finalObject cfg t bytes) = (.ok (), cas))
    (js : List Env) : CleanError cfg s.ingest t req bytes ([e₀, e₁, e₂] ++ js) ↔
      (s.ingest.cas.objects (finalObject cfg t bytes)).isSome ∧ e₂.cas.removes = false ∧
        s.ingest.artifacts.get (t, cfg.sha256 bytes) = none ∧
        ∃ env, ([e₀, e₁, e₂] ++ js)[4]? = some env ∧
          ∃ a ∈ s.ingest.artifacts.rows, a.id = env.uuid 0 := by
  cases hobj : s.ingest.cas.objects (finalObject cfg t bytes) with
  | some b =>
    unfold CleanError
    rw [if_pos hdigest, hscope, hobj]
    show (_ ∧ Removal _ _ _ ∧ _) ↔ _
    rw [removal_iff (e := e₂) rfl]
    exact ⟨fun h => ⟨rfl, h.2⟩, fun h => ⟨hsize, h.2⟩⟩
  | none =>
    -- without the object the commit has moved the staged bytes
    refine iff_of_false ?_ fun h => Bool.false_ne_true h.1
    rw [cleanError_missing hdigest hsize hscope hobj]
    rintro ⟨hmoves, -⟩
    rcases s.ingest.cas.commit_cases e₂.cas r.stagingKey (finalObject cfg t bytes) with
      ⟨hsome, _⟩ | ⟨_, _, e, h⟩ | ⟨_, hmoves', _⟩ | ⟨_, _, _, _, _, e, _, _, h⟩
    · rw [hobj] at hsome
      cases hsome
    · cases hc.symm.trans h
    · exact Bool.false_ne_true (hmoves.symm.trans hmoves')
    · cases hc.symm.trans h

end Committing

variable (hr : s.ingest.sessionOf t req.uploadId = some r) (hopen : r.state = .open)
  (hstaged : s.ingest.cas.staging r.stagingKey = some bytes)

include hr hopen hstaged

/-- The condition, once the session and its bytes are known. -/
theorem failsCleanly_iff {is : List Env} {x : Ctl Pt FinalizeResponse} :
    FailsCleanly cfg s.ingest t req is x ↔ CleanExit cfg s.ingest t req bytes is x := by
  constructor
  · rintro ⟨r', bytes', hr', _, hstaged', h⟩
    obtain rfl := Option.some.inj (hr.symm.trans hr')
    obtain rfl := Option.some.inj (hstaged.symm.trans hstaged')
    exact h
  · exact fun h => ⟨r, bytes, hr, hopen, hstaged, h⟩

/-- A store with the same session, staged bytes and attempts is as it was. -/
theorem cleanFailure_of_kept {d : IngestDb} (hsessions : d.sessions = s.ingest.sessions)
    (hstaging : d.cas.staging = s.ingest.cas.staging) (horphan : NoOrphan s.ingest d) :
    CleanFailure s.ingest d t req := by
  refine ⟨.inl ⟨r, bytes, ?_, hopen, ?_⟩, horphan⟩
  · rw [IngestDb.sessionOf, hsessions]
    exact hr
  · rw [hstaging]
    exact hstaged

/-- Nothing has happened yet. -/
theorem cleanFailure_self : CleanFailure s.ingest s.ingest t req :=
  cleanFailure_of_kept hr hopen hstaged rfl rfl (.of_objects rfl)

omit hstaged in
/-- The session as it was, and no staged bytes. -/
theorem not_cleanFailure_of_removed {d : IngestDb} (hsessions : d.sessions = s.ingest.sessions)
    (hgone : d.cas.staging r.stagingKey = none) : ¬ CleanFailure s.ingest d t req := by
  refine not_cleanFailure_of_unstaged (r := r) ?_ hopen hgone
  rw [IngestDb.sessionOf, hsessions]
  exact hr

/-- Discarding leaves an open session as it was exactly when the removal is refused. -/
theorem cleanFailure_discard (io : CasIo) {d : IngestDb} (hsessions : d.sessions = s.ingest.sessions)
    (hcas : d.cas = s.ingest.cas.discardStaging io r.stagingKey) :
    CleanFailure s.ingest d t req ↔ io.removes = false := by
  unfold Cas.discardStaging at hcas
  cases hio : io.removes with
  | false =>
    rw [hio] at hcas
    exact iff_of_true (cleanFailure_of_kept hr hopen hstaged hsessions (by rw [hcas]; rfl)
      (.of_objects (by rw [hcas]; rfl))) rfl
  | true =>
    rw [hio] at hcas
    exact iff_of_false (not_cleanFailure_of_removed hr hopen hsessions
      (by rw [hcas]; exact Function.update_self ..)) fun h => Bool.false_ne_true h.symm

/-- Behind the commit the staged bytes are there exactly if the object was, and its removal was
refused. -/
theorem cleanFailure_committed {io : CasIo} {cas : Cas}
    (hc : s.ingest.cas.commit io r.stagingKey (finalObject cfg t bytes) = (.ok (), cas))
    {d : IngestDb} (hsessions : d.sessions = s.ingest.sessions) (hcas : d.cas = cas) :
    CleanFailure s.ingest d t req ↔
      (s.ingest.cas.objects (finalObject cfg t bytes)).isSome ∧ io.removes = false := by
  rcases s.ingest.cas.commit_cases io r.stagingKey (finalObject cfg t bytes) with
    ⟨hsome, h⟩ | ⟨_, _, e, h⟩ | ⟨hnone, _, staged, _, h⟩ | ⟨_, _, _, staged, part, e, _, _, h⟩ <;>
    obtain ⟨hres, rfl⟩ := Prod.ext_iff.mp (hc.symm.trans h)
  · rw [cleanFailure_discard hr hopen hstaged io hsessions hcas]
    exact (and_iff_right hsome).symm
  · cases hres
  · refine iff_of_false (not_cleanFailure_of_removed hr hopen hsessions ?_) ?_
    · rw [hcas]
      exact Function.update_self ..
    · rw [hnone]
      exact fun h => Bool.false_ne_true h.1
  · cases hres

/-- Behind the commit the call is clean as long as the staged bytes are there. -/
theorem wpd_committedUpload {e₀ e₁ e₂ : Env} {scope : Scope} {cas : Cas}
    (hdigest : eqIgnoreAsciiCase (hexEncode (cfg.sha256 bytes)) req.sha256 = true)
    (hsize : (bytes.length : ℤ) = req.sizeBytes)
    (hscope : parseScope (req.scope.getD "endpoint") = some scope)
    (hc : s.ingest.cas.commit e₂.cas r.stagingKey (finalObject cfg t bytes) = (.ok (), cas)) :
    Prog.wpd (ExitAt cfg t req s.ingest) (ExitWith cfg t req s.ingest) (do
      let seq ← Prog.stmt (.ingest (.finNextval t req bytes scope))
        (fun s _ => { s with ingest := { s.ingest with nextSeq := s.ingest.nextSeq + 1 } })
        fun s _ => Prog.ret s.ingest.nextSeq
      let artifact ← Prog.exec (.ingest (.finInsert t req bytes scope seq)) fun s env =>
        s.commitArtifact cfg t req bytes scope seq env
      let forwardMatches ← forwardScan cfg t artifact (cfg.sha256 bytes) bytes
      let _ ← (analyzeNewArtifact cfg t artifact (classify bytes) bytes).attempt
      return ⟨artifact, hexEncode (cfg.sha256 bytes), .committed, forwardMatches⟩)
      [e₀, e₁, e₂] { s with ingest := { s.ingest with cas } } := by
  have hcond : ∀ {is x}, FailsCleanly cfg s.ingest t req is x ↔
      CleanExit cfg s.ingest t req bytes is x := failsCleanly_iff hr hopen hstaged
  have hremoval : ∀ js : List Env, Removal ([e₀, e₁, e₂] ++ js) 2 false ↔
      e₂.cas.removes = false := fun _ => removal_iff rfl
  have hkept : ∀ {d : IngestDb}, d.sessions = s.ingest.sessions → d.cas = cas →
      (CleanFailure s.ingest d t req ↔
        (s.ingest.cas.objects (finalObject cfg t bytes)).isSome ∧ e₂.cas.removes = false) :=
    cleanFailure_committed hr hopen hstaged hc
  have hfailed : ∀ js, CleanError cfg s.ingest t req bytes ([e₀, e₁, e₂] ++ js) ↔ _ :=
    cleanError_committed hdigest hsize hscope hc
  simp only [Prog.stmt_bind, Prog.wpd_stmt, Prog.ret_bind]
  refine ⟨fun _ => (hkept (d := { s.ingest with cas }) rfl rfl).trans ?_, fun e₃ => ?_⟩
  · rw [hcond]
    exact and_congr_right' (hremoval []).symm
  rw [Prog.wpd_exec_bind]
  have hdrawn : ∀ {x}, (CleanFailure s.ingest
      { s.ingest with nextSeq := s.ingest.nextSeq + 1, cas } t req ↔ x) ↔
      ((s.ingest.cas.objects (finalObject cfg t bytes)).isSome ∧ e₂.cas.removes = false ↔ x) := by
    intro x
    rw [hkept (d := { s.ingest with nextSeq := s.ingest.nextSeq + 1, cas }) rfl rfl]
  refine ⟨fun _ => hdrawn.mpr ?_, fun e₄ => ?_⟩
  · rw [hcond]
    exact and_congr_right' (hremoval [e₃]).symm
  cases hinsert : Db.commitArtifact _ cfg t req bytes scope _ e₄ with
  | error e =>
    refine fun _ _ => hdrawn.mpr ?_
    obtain ⟨hget, hid⟩ := Db.commitArtifact_error hinsert
    rw [hcond]
    refine Iff.trans ?_ (hfailed [e₃, e₄]).symm
    exact and_congr_right fun _ => (and_iff_left ⟨hget, e₄, rfl, hid⟩).symm
  | ok out =>
    refine wpd_committed (fun js => ?_) (Db.commitArtifact_session hinsert hr) rfl
    rw [hcond]
    intro h
    obtain ⟨_, _, hget, env, heq, hid⟩ := (hfailed ([e₃, e₄] ++ js)).mp h
    obtain rfl : e₄ = env := Option.some.inj heq
    exact Db.commitArtifact_fresh hinsert hget hid

theorem wpd_commitUpload {e₀ e₁ : Env} {scope : Scope}
    (hdigest : eqIgnoreAsciiCase (hexEncode (cfg.sha256 bytes)) req.sha256 = true)
    (hsize : (bytes.length : ℤ) = req.sizeBytes)
    (hscope : parseScope (req.scope.getD "endpoint") = some scope) :
    Prog.wpd (ExitAt cfg t req s.ingest) (ExitWith cfg t req s.ingest)
      (commitUpload cfg t req r.stagingKey bytes scope) [e₀, e₁] s := by
  unfold commitUpload
  rw [Prog.wpd_call_bind]
  refine ⟨exitAt_of_not rfl, fun e₂ => ?_⟩
  dsimp only
  generalize hc : s.ingest.cas.commit e₂.cas r.stagingKey ⟨t, hexEncode (cfg.sha256 bytes)⟩ = res
  obtain ⟨res, cas⟩ := res
  cases res with
  | ok u => exact wpd_committedUpload hr hopen hstaged hdigest hsize hscope hc
  | error e =>
    refine fun _ _ => ?_
    rw [failsCleanly_iff hr hopen hstaged]
    show _ ↔ CleanError cfg s.ingest t req bytes [e₀, e₁, e₂]
    have hcond : s.ingest.cas.objects (finalObject cfg t bytes) = none →
        (CleanError cfg s.ingest t req bytes [e₀, e₁, e₂] ↔ e₂.cas.moves = false ∧
          (e₂.cas.leaves = false ∨
            ∃ a ∈ s.ingest.artifacts.rows, a.objectKey = finalObject cfg t bytes)) :=
      fun hnone => cleanError_missing hdigest hsize hscope hnone []
    rcases s.ingest.cas.commit_cases e₂.cas r.stagingKey (finalObject cfg t bytes) with
      ⟨_, h⟩ | ⟨hnone, hstay, _, h⟩ | ⟨_, _, _, _, h⟩ | ⟨hnone, hmoves, hleaves, _, part, _, _, _, h⟩ <;>
      obtain ⟨hres, rfl⟩ := Prod.ext_iff.mp (hc.symm.trans h)
    · cases hres
    · -- nothing has moved
      rw [hcond hnone]
      refine iff_of_true (cleanFailure_self hr hopen hstaged) ?_
      rcases hstay with hgone | ⟨hmoves, hleaves⟩
      · rw [hstaged] at hgone
        cases hgone
      · exact ⟨hmoves, .inl hleaves⟩
    · cases hres
    · -- some of the bytes have become the object
      rw [hcond hnone, hmoves, hleaves]
      have horphan := noOrphan_put part hnone
      constructor
      · exact fun h => ⟨rfl, .inr (horphan.mp h.2)⟩
      · rintro ⟨_, h | h⟩
        · cases h
        · exact cleanFailure_of_kept hr hopen hstaged rfl rfl (horphan.mpr h)

/-- **The exits.**  Before every statement of a call and at its end. -/
theorem wpd_verifyAndCommit {e₀ e₁ : Env} :
    Prog.wpd (ExitAt cfg t req s.ingest) (ExitWith cfg t req s.ingest)
      (verifyAndCommit cfg t req r.stagingKey bytes) [e₀, e₁] s := by
  have hcond : ∀ {is x}, FailsCleanly cfg s.ingest t req is x ↔
      CleanExit cfg s.ingest t req bytes is x := failsCleanly_iff hr hopen hstaged
  unfold verifyAndCommit
  dsimp only
  split
  · next hsize =>
    -- the size differs: discarded, then failed, and nothing recorded
    simp only [Prog.update_bind, Prog.wpd_stmt, Prog.wpd_err]
    refine ⟨exitAt_of_not rfl, fun e₂ => ⟨fun _ => ?_, fun e₃ e _ => ?_⟩⟩
    · rw [hcond]
      refine (cleanFailure_discard hr hopen hstaged e₂.cas (d := { s.ingest with
        cas := s.ingest.cas.discardStaging e₂.cas r.stagingKey }) rfl rfl).trans ?_
      exact (removal_iff rfl).symm
    · rw [hcond]
      refine iff_of_false ?_ fun h => hsize h.1
      rintro ⟨⟨r', _, hr', hst, _⟩ | ⟨_, a, _, _, _, hadd, _⟩, _⟩
      · obtain rfl := Option.some.inj ((IngestDb.sessionOf_setSession hr).symm.trans hr')
        cases hst
      · exact absurd (congrArg List.length hadd) (by simp [IngestDb.setSession])
  next hsize =>
  split
  · next e hverify =>
    -- the digest differs: recorded and failed in one transaction, then discarded
    have hdigest : eqIgnoreAsciiCase (hexEncode (cfg.sha256 bytes)) req.sha256 = false := by
      unfold verifyUpload at hverify
      split at hverify
      · cases hverify
      · next h => simpa using h
    simp only [Prog.update_bind, Prog.wpd_stmt, Prog.wpd_err]
    refine ⟨fun _ => iff_of_true (cleanFailure_self hr hopen hstaged) (hcond.mpr trivial),
      fun e₂ => ⟨exitAt_of_not rfl, fun e₃ e _ => ?_⟩⟩
    have hremoved : CleanError cfg s.ingest t req bytes [e₀, e₁, e₂, e₃] ↔
        e₃.cas.removes = true := by
      unfold CleanError
      rw [if_neg (by simp [hdigest])]
      exact (and_iff_right (by simpa using hsize)).trans (removal_iff rfl)
    rw [hcond]
    refine Iff.trans ?_ hremoved.symm
    unfold Cas.discardStaging
    cases hio : e₃.cas.removes with
    | true =>
      refine iff_of_true ⟨.inr ?_, .of_objects rfl⟩ rfl
      refine ⟨{ r with state := .failed }, _, IngestDb.sessionOf_setSession hr, rfl,
        Function.update_self .., rfl, captureAttempt_tenant .., ?_⟩
      rw [captureAttempt_outcome]
      simp
    | false =>
      refine iff_of_false ?_ Bool.false_ne_true
      rintro ⟨⟨r', _, hr', hst, _⟩ | ⟨r', _, hr', _, hgone, _⟩, _⟩
      · obtain rfl := Option.some.inj ((IngestDb.sessionOf_setSession hr).symm.trans hr')
        cases hst
      · obtain rfl := Option.some.inj ((IngestDb.sessionOf_setSession hr).symm.trans hr')
        cases hgone.symm.trans hstaged
  · next raw hverify =>
    have hdigest : eqIgnoreAsciiCase (hexEncode (cfg.sha256 bytes)) req.sha256 = true := by
      unfold verifyUpload at hverify
      split at hverify
      · next h => exact h
      · cases hverify
    have hsize' : (bytes.length : ℤ) = req.sizeBytes := by simpa using hsize
    split
    · next hscope =>
      -- no such scope: discarded, and the session stays open
      simp only [Prog.update_bind, Prog.wpd_stmt, Prog.wpd_err]
      refine ⟨exitAt_of_not rfl, fun e₂ e _ => ?_⟩
      rw [hcond]
      refine (cleanFailure_discard hr hopen hstaged e₂.cas (d := { s.ingest with
        cas := s.ingest.cas.discardStaging e₂.cas r.stagingKey }) rfl rfl).trans ?_
      show _ ↔ CleanError cfg s.ingest t req bytes [e₀, e₁, e₂]
      unfold CleanError
      rw [if_pos hdigest, hscope]
      exact ((and_iff_right hsize').trans (removal_iff rfl)).symm
    · next scope hscope =>
      exact wpd_commitUpload hr hopen hstaged hdigest hsize' hscope

end Exits

theorem wpd_finalize (cfg : Config) (t : Uuid) (req : FinalizeRequest) (s : Db) :
    Prog.wpd (ExitAt cfg t req s.ingest) (ExitWith cfg t req s.ingest) (finalize cfg t req) [] s := by
  have hself : ∀ {is x}, (Retryable s.ingest t req → FailsCleanly cfg s.ingest t req is x) →
      (CleanFailure s.ingest s.ingest t req ↔ FailsCleanly cfg s.ingest t req is x) := by
    intro is x hx
    rw [cleanFailure_iff_retryable rfl rfl]
    refine ⟨hx, ?_⟩
    rintro ⟨r, bytes, hr, hopen, hstaged, -⟩
    exact ⟨r, bytes, hr, hopen, hstaged⟩
  have hlookup : Retryable s.ingest t req → ∃ r bytes, s.ingest.sessionOf t req.uploadId = some r ∧
      r.state = .open ∧ s.ingest.cas.staging r.stagingKey = some bytes ∧ True := by
    rintro ⟨r, bytes, hr, hopen, hstaged⟩
    exact ⟨r, bytes, hr, hopen, hstaged, trivial⟩
  unfold finalize
  simp only [Prog.query_bind, Prog.wpd_stmt]
  refine ⟨fun _ => hself hlookup, fun _ => ?_⟩
  cases hr : s.ingest.sessionOf t req.uploadId with
  | none =>
    refine fun e _ => hself ?_
    rintro ⟨r, -, hr', -⟩
    rw [hr] at hr'
    cases hr'
  | some r =>
    dsimp only
    split
    · next hst =>
      refine fun e _ => hself ?_
      rintro ⟨r', -, hr', hopen, -⟩
      obtain rfl := Option.some.inj (hr.symm.trans hr')
      exact absurd hopen hst
    next hst =>
    have hopen : r.state = .open := by simpa using hst
    simp only [Prog.wpd_stmt]
    refine ⟨fun _ => hself hlookup, fun _ => ?_⟩
    cases hstaged : s.ingest.cas.staging r.stagingKey with
    | none =>
      refine fun e _ => hself ?_
      rintro ⟨r', _, hr', -, hstaged'⟩
      obtain rfl := Option.some.inj (hr.symm.trans hr')
      rw [hstaged] at hstaged'
      cases hstaged'
    | some bytes => exact wpd_verifyAndCommit hr hopen hstaged

/-- The session `5` is open and `staged` is what is staged for it. -/
def openWith (staged : Option Bytes) (d : IngestDb) : Bool :=
  (d.sessionOf 0 5).any fun r => decide (r.state = .open ∧ d.cas.staging r.stagingKey = staged)

theorem of_openWith {staged : Option Bytes} {d : IngestDb} (h : openWith staged d = true) :
    ∃ r, d.sessionOf 0 5 = some r ∧ r.state = .open ∧ d.cas.staging r.stagingKey = staged := by
  unfold openWith at h
  cases hr : d.sessionOf 0 5 with
  | none =>
    rw [hr] at h
    cases h
  | some r =>
    rw [hr] at h
    obtain ⟨hopen, hstaged⟩ := of_decide_eq_true h
    exact ⟨r, rfl, hopen, hstaged⟩

/-- The call has returned an error. -/
def endsInErr (q : Srv FinalizeResponse) : Bool :=
  match q with
  | .err _ => true
  | _ => false

theorem ctl_of_endsInErr {q : Srv FinalizeResponse} (h : endsInErr q = true) : q.ctl = .failed := by
  cases q with
  | err e => rfl
  | ret a => cases h
  | stmt l f k => cases h

/-- One byte is uploaded, and the digest of another is announced at finalize. -/
def mismatchRequest : FinalizeRequest := ⟨5, hexEncode [2], 1, none, none, none⟩

/-- A scope that does not exist. -/
def cloudRequest : FinalizeRequest := ⟨5, hexEncode [1], 1, none, some "cloud", none⟩

end Corpus
