/-
What a move leaves alone.

The store is split by owner (`Store.lean`); here is what that buys.  A move of
the hunts or of the similarity analysis keeps the ingest tables and files, a move
of ingest or of the analysis keeps the hunt tables, and a call that has left
ingest never comes back to it.
-/
import Corpus.Server

namespace Corpus

variable {cfg : Config} {s s' : Db} {c : Ctl Pt Reply}

/-! ### The ingest part -/

@[simp] theorem Db.updHunt_ingest (s : Db) (t h : Uuid) (f : Hunt → Hunt) :
    (s.updHunt t h f).ingest = s.ingest := rfl

@[simp] theorem Db.updJob_ingest (s : Db) (h : Uuid) (f : HuntJob → HuntJob) :
    (s.updJob h f).ingest = s.ingest := rfl

@[simp] theorem Db.upsertJob_ingest (s : Db) (t h : Uuid) (now : Time) :
    (s.upsertJob t h now).ingest = s.ingest := by
  unfold Db.upsertJob
  split <;> rfl

/-- What a rule is, apart from its state. -/
def Rule.body (r : Rule) : Uuid × String × String := (r.tenant, r.ns, r.source)

/-- What the transaction of `publish_bundle` does: bundles and their rules only
grow, a new bundle has a new id, rules change state at most, and at most a forward
hunt appears. -/
structure Published (s s' : Db) : Prop where
  ingest : s'.ingest = s.ingest
  jobs : s'.hunt.jobs = s.hunt.jobs
  scanCache : s'.hunt.scanCache = s.hunt.scanCache
  rules : ∀ id, (s'.hunt.rules.get id).map Rule.body = (s.hunt.rules.get id).map Rule.body
  bundles : ∀ {k b}, s.hunt.bundles.get k = some b →
    ∃ b', s'.hunt.bundles.get k = some b' ∧ b'.id = b.id
  bundleRules : ∃ L, s'.hunt.bundleRules = s.hunt.bundleRules ++ L ∧
    ∀ r ∈ L, ∀ b ∈ s.hunt.bundles.rows, b.id ≠ r.bundleId
  hunts : s'.hunt.hunts = s.hunt.hunts ∨ ∃ r, (r.kind = .forward ∧ r.corpusWatermark = none) ∧
    s.hunt.hunts.get r.id = none ∧ s'.hunt.hunts = s.hunt.hunts.insertNew r

theorem get_activateRules (rules : Table Rule.id) (members : List Rule) (id : Uuid) :
    ((rules.updateWhere (fun r => members.any (fun m => m.id = r.id) &&
        (r.state = .draft || r.state = .validated)) (fun r => { r with state := .active })
        fun _ => rfl).get id).map Rule.body = (rules.get id).map Rule.body := by
  rw [Table.get_updateWhere]
  cases rules.get id with
  | none => rfl
  | some r =>
    simp only [Option.map_some]
    split <;> rfl

theorem get_activateBundle {bundles : Table Bundle.key} (id : Uuid) {k : Uuid × String} {b : Bundle}
    (hk : bundles.get k = some b) :
    ∃ b', (bundles.updateWhere (fun x => x.id = id) (fun x => { x with active := true })
      fun _ => rfl).get k = some b' ∧ b'.id = b.id := by
  have hget := Table.get_updateWhere bundles (fun x => x.id = id)
    (fun x => { x with active := true }) (fun _ => rfl) k
  rw [hk, Option.map_some] at hget
  refine ⟨_, hget, ?_⟩
  split <;> rfl

/-- The last statement of the transaction: add the forward hunt, or not. -/
theorem Published.addForward {s₁ : Db} {c : Bool} {r : Hunt}
    (h : (if c then (s₁.insertHunt r).map fun x => ((), x.2) else .ok ((), s₁)) = .ok ((), s'))
    (hkind : r.kind = .forward ∧ r.corpusWatermark = none)
    (hsame : s₁.hunt.hunts = s.hunt.hunts) (hp : Published s s₁) : Published s s' := by
  split at h
  · unfold Db.insertHunt at h
    split at h
    · cases h
    next hfree =>
    cases h
    refine { hp with hunts := .inr ⟨r, hkind, ?_, by rw [← hsame]⟩ }
    rw [← hsame]
    simpa using hfree
  · cases h
    exact hp

theorem Db.publish_spec {t : Uuid} {members : List Rule} {digest : String} {activate : Bool}
    {env : Env} (h : s.publish cfg t members digest activate env = .ok ((), s')) :
    Published s s' := by
  have hrules := get_activateRules s.hunt.rules members
  unfold Db.publish at h
  cases hb : s.hunt.bundles.get (t, digest) with
  | some b =>
    simp only [hb, Option.isNone_some, Bool.false_and, Bool.false_eq_true, if_false] at h
    refine Published.addForward h ⟨rfl, rfl⟩ rfl ?_
    refine ⟨rfl, rfl, rfl, hrules, fun {k b'} hk => ?_, ⟨[], by simp, by simp⟩, .inl rfl⟩
    dsimp only
    split
    · exact get_activateBundle b.id hk
    · exact ⟨b', hk, rfl⟩
  | none =>
    simp only [hb, Option.isNone_none, Bool.true_and] at h
    split at h
    · cases h
    next hfresh =>
    split at h
    · cases h
    refine Published.addForward h ⟨rfl, rfl⟩ rfl ?_
    refine ⟨rfl, rfl, rfl, hrules, fun {k b'} hk => ⟨b', ?_, rfl⟩, ⟨_, rfl, ?_⟩, .inl rfl⟩
    · dsimp only
      rw [Table.get_insertNew, hk]
      rfl
    · intro r hr b hbr heq
      obtain ⟨i, hi, rfl⟩ := List.mem_mapIdx.mp hr
      exact hfresh (List.any_eq_true.mpr ⟨b, hbr, by simpa using heq⟩)

theorem ScanFrame.ingest (h : ScanFrame s s') : s'.ingest = s.ingest := by
  obtain ⟨M, C, D, o, rfl⟩ := h.rest
  rfl

theorem ForwardFrame.ingest {hunt : Option Uuid} (h : ForwardFrame hunt s s') :
    s'.ingest = s.ingest := by
  obtain ⟨H, M, C, D, o, rfl⟩ := h.rest
  rfl

theorem afterForward.not_ingest (h : afterForward c) (p : IngestPt) : c ≠ .at (.ingest p) := by
  rintro rfl
  exact h

theorem HuntMove.ingest_eq {p : HuntPt} (h : HuntMove cfg p s s' c) : s'.ingest = s.ingest := by
  cases h <;> first
    | rfl
    | exact (Db.publish_spec ‹_›).ingest
    | exact ScanFrame.ingest ‹_›
    | exact ForwardFrame.ingest ‹_›
    | exact Db.upsertJob_ingest ..

theorem HuntMove.not_ingest {p : HuntPt} (h : HuntMove cfg p s s' c) (q : IngestPt) :
    c ≠ .at (.ingest q) := by
  rintro rfl
  cases h <;> simp_all [afterForward]

/-- A move that is not one of ingest neither touches its part of the store nor
leads back to it. -/
theorem Move.ingest_cases {l : Pt} (h : Move cfg l s s' c) :
    (∃ p, l = .ingest p ∧ IngestMove cfg p s s' c) ∨
      (s'.ingest = s.ingest ∧ ∀ q, c ≠ .at (.ingest q)) := by
  cases h with
  | ingest hm => exact .inl ⟨_, rfl, hm⟩
  | hunt hm => exact .inr ⟨hm.ingest_eq, hm.not_ingest⟩
  | sim hf hc =>
    refine .inr ⟨?_, fun q hq => ?_⟩
    · obtain ⟨d, o, rfl⟩ := hf
      rfl
    · subst hq
      rcases hc with ⟨p', h⟩ | ⟨r, h⟩ <;> cases h

/-! ### Ledger statements -/

section Ledger

variable (d : IngestDb)

@[simp] theorem IngestDb.insertOccurrence_artifacts (t a : Uuid) (sha : Bytes)
    (occ : Option OccurrenceInfo) (now : Time) :
    (d.insertOccurrence t a sha occ now).artifacts = d.artifacts := by
  cases occ <;> rfl

@[simp] theorem IngestDb.insertOccurrence_cas (t a : Uuid) (sha : Bytes)
    (occ : Option OccurrenceInfo) (now : Time) :
    (d.insertOccurrence t a sha occ now).cas = d.cas := by
  cases occ <;> rfl

@[simp] theorem IngestDb.insertOccurrence_nextSeq (t a : Uuid) (sha : Bytes)
    (occ : Option OccurrenceInfo) (now : Time) :
    (d.insertOccurrence t a sha occ now).nextSeq = d.nextSeq := by
  cases occ <;> rfl

@[simp] theorem IngestDb.recordPresent_artifacts (t a : Uuid) (sha : Bytes) (req : AnnounceRequest)
    (now : Time) : (d.recordPresent t a sha req now).artifacts = d.artifacts :=
  d.insertOccurrence_artifacts ..

@[simp] theorem IngestDb.recordPresent_cas (t a : Uuid) (sha : Bytes) (req : AnnounceRequest)
    (now : Time) : (d.recordPresent t a sha req now).cas = d.cas :=
  d.insertOccurrence_cas ..

@[simp] theorem IngestDb.recordPresent_nextSeq (t a : Uuid) (sha : Bytes) (req : AnnounceRequest)
    (now : Time) : (d.recordPresent t a sha req now).nextSeq = d.nextSeq :=
  d.insertOccurrence_nextSeq ..

@[simp] theorem IngestDb.recordCapture_artifacts (cfg : Config) (t : Uuid) (req : FinalizeRequest)
    (bytes : Bytes) (a : Uuid) (now : Time) :
    (d.recordCapture cfg t req bytes a now).artifacts = d.artifacts :=
  d.insertOccurrence_artifacts ..

@[simp] theorem IngestDb.recordCapture_cas (cfg : Config) (t : Uuid) (req : FinalizeRequest)
    (bytes : Bytes) (a : Uuid) (now : Time) :
    (d.recordCapture cfg t req bytes a now).cas = d.cas :=
  d.insertOccurrence_cas ..

@[simp] theorem IngestDb.recordCapture_nextSeq (cfg : Config) (t : Uuid) (req : FinalizeRequest)
    (bytes : Bytes) (a : Uuid) (now : Time) :
    (d.recordCapture cfg t req bytes a now).nextSeq = d.nextSeq :=
  d.insertOccurrence_nextSeq ..

end Ledger

/-- Artifacts are never changed or removed; the one statement that adds a row is
the insert of `finalize`, for a digest the tenant does not have. -/
theorem IngestMove.artifacts_cases {p : IngestPt} (h : IngestMove cfg p s s' c) :
    s'.ingest.artifacts = s.ingest.artifacts ∨
      ∃ t req bytes scope seq id now, p = .finInsert t req bytes scope seq ∧
        s.ingest.artifacts.get (t, cfg.sha256 bytes) = none ∧
        (∀ a ∈ s.ingest.artifacts.rows, a.id ≠ id) ∧
        s'.ingest = (s.ingest.addArtifact
          (newArtifact cfg t req bytes scope seq id now)).recordCapture cfg t req bytes id now := by
  cases h with
  | finNew id now hfree hid => exact .inr ⟨_, _, _, _, _, _, _, rfl, hfree, hid, rfl⟩
  | annPresent now r => exact .inl (IngestDb.recordPresent_artifacts ..)
  | finAdopt now hget => exact .inl (IngestDb.recordCapture_artifacts ..)
  | _ => exact .inl rfl

theorem IngestMove.artifacts_mono {p : IngestPt} (h : IngestMove cfg p s s' c) (k : Uuid × Bytes)
    (a : Artifact) (hk : s.ingest.artifacts.get k = some a) : s'.ingest.artifacts.get k = some a := by
  rcases h.artifacts_cases with heq | ⟨t, req, bytes, scope, seq, id, now, _, _, _, heq⟩
  · rwa [heq]
  · rw [heq, IngestDb.recordCapture_artifacts, IngestDb.addArtifact, Table.get_insertNew, hk]
    rfl

/-- The four ways a statement changes the files. -/
theorem IngestMove.cas_cases {p : IngestPt} (h : IngestMove cfg p s s' c) :
    s'.ingest.cas = s.ingest.cas ∨
      (∃ io key, s'.ingest.cas = s.ingest.cas.discardStaging io key) ∨
      (∃ t u bytes, p = .stageWrite t u bytes ∧ s'.ingest.cas = s.ingest.cas.stage u bytes) ∨
      ∃ t req key bytes scope io, p = .finCommit t req key bytes scope ∧
        s'.ingest.cas = (s.ingest.cas.commit io key ⟨t, hexEncode (cfg.sha256 bytes)⟩).2 := by
  cases h with
  | stageWrite => exact .inr (.inr (.inl ⟨_, _, _, rfl, rfl⟩))
  | finDiscardSize io => exact .inr (.inl ⟨io, _, rfl⟩)
  | finDiscardMismatch io => exact .inr (.inl ⟨io, _, rfl⟩)
  | finDiscardScope io => exact .inr (.inl ⟨io, _, rfl⟩)
  | finCommit hc => exact .inr (.inr (.inr ⟨_, _, _, _, _, _, rfl, by rw [hc]; rfl⟩))
  | finCommitFailed hc => exact .inr (.inr (.inr ⟨_, _, _, _, _, _, rfl, by rw [hc]; rfl⟩))
  | annPresent now r => exact .inl (IngestDb.recordPresent_cas ..)
  | finAdopt now hget => exact .inl (IngestDb.recordCapture_cas ..)
  | finNew id now hfree hid => exact .inl (IngestDb.recordCapture_cas ..)
  | _ => exact .inl rfl

/-! ### Occurrences -/

/-- A call that started with the rows `before` has added at most one, and none
while it may still come to the statement that does. -/
def AddsOne (before : Table OccurrenceEvent.key) (c : Ctl Pt Reply) (s : Db) : Prop :=
  s.ingest.occurrences = before ∨
    (∃ o, s.ingest.occurrences = before.insertNew o) ∧ ∀ q, c ≠ .at (.ingest q)

theorem IngestDb.insertOccurrence_adds (d : IngestDb) (t artifact : Uuid) (sha : Bytes)
    (occ : Option OccurrenceInfo) (now : Time) :
    (d.insertOccurrence t artifact sha occ now).occurrences = d.occurrences ∨
      ∃ o, (d.insertOccurrence t artifact sha occ now).occurrences = d.occurrences.insertNew o := by
  cases occ with
  | none => exact .inl rfl
  | some info => exact .inr ⟨_, rfl⟩

theorem IngestMove.addsOne {p : IngestPt} (h : IngestMove cfg p s s' c) :
    AddsOne s.ingest.occurrences c s' := by
  -- the row goes in with the last statement of ingest
  have hlast : ∀ {d : IngestDb} {t artifact : Uuid} {sha : Bytes} {occ : Option OccurrenceInfo}
      {now : Time}, d.occurrences = s.ingest.occurrences →
      s'.ingest.occurrences = (d.insertOccurrence t artifact sha occ now).occurrences →
      (∀ q, c ≠ .at (.ingest q)) → AddsOne s.ingest.occurrences c s' := by
    intro d t artifact sha occ now hd hs hc
    rw [AddsOne, hs, ← hd]
    exact (d.insertOccurrence_adds t artifact sha occ now).imp_right fun ho => ⟨ho, hc⟩
  cases h with
  | annPresent now r => exact hlast (d := s.ingest) rfl rfl (by simp)
  | finAdopt now hget => exact hlast (d := s.ingest) rfl rfl (by simp)
  | finNew id now hfree hid =>
    exact hlast (d := s.ingest.addArtifact _) rfl rfl (by simp)
  | _ => exact .inl rfl

/-- Every move keeps that a call has added at most one row. -/
theorem Move.addsOne {before : Table OccurrenceEvent.key} {l : Pt} (h : Move cfg l s s' c)
    (hs : AddsOne before (.at l) s) : AddsOne before c s' := by
  rcases h.ingest_cases with ⟨p, rfl, hm⟩ | ⟨heq, hc⟩
  · rcases hs with hs | ⟨-, hno⟩
    · rw [← hs]
      exact hm.addsOne
    · exact absurd rfl (hno p)
  · rw [AddsOne, heq]
    exact hs.imp_right fun ho => ⟨ho.1, hc⟩

end Corpus
