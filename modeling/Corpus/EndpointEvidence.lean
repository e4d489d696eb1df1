/-
Endpoint evidence is huntable.

A host occurrence is evidence that a file was seen on an endpoint.  The readers
that look for evidence, the planned set of a retro hunt and `hash_hunt`
(`intel.rs`), filter artifacts by their scope, and the scope of an artifact is
that of the request that first inserted its digest.  An occurrence of a later
request is attached to the row that is there.

Main results:
* `endpoint_evidence_huntable` — as long as occurrences are attached to endpoint
  artifacts only, every artifact with a host occurrence is found by all readers;
* `intel_import_hides_evidence` — an intel import first, then the same digest on
  a host.
-/
import Corpus.Frames
import Corpus.ServerMoves

namespace Corpus

variable {cfg : Config}

/-! ### The hash hunt -/

/-- `HashHuntHit`. -/
structure HashHuntHit where
  value : String
  artifactId : Uuid
  artifactSha256 : String
  firstCommittedAt : Time

/-- What `hash_hunt` reports of an artifact. -/
def hashHit (value : String) (a : Artifact) : HashHuntHit :=
  ⟨value, a.id, hexEncode a.sha256, a.firstCommittedAt⟩

/-- `artifact WHERE tenant_id AND sha256 AND scope = 'endpoint' AND storage_state =
'committed'`. -/
def Db.hashMatches (s : Db) (t : Uuid) (sha : Bytes) : List Artifact :=
  s.ingest.artifacts.rows.filter fun a =>
    a.tenant = t && a.sha256 = sha && a.scope = .endpoint && a.storageState = .committed

/-- `intel::hash_hunt`; `debug` is what `{:?}` prints. -/
def hashHunt (debug : String → String) (t : Uuid) (hashes : List String) : Srv (List HashHuntHit) :=
  Prog.loop (fun hits value =>
    match hexToRaw value with
    | none =>
      let quoted := debug value
      Prog.err (.badRequest s!"invalid sha256 hex: {quoted}")
    | some raw => do
      let rows ← Prog.query (.hunt (.hashFind t raw)) fun s => s.hashMatches t raw
      return hits ++ rows.map (hashHit value)) hashes []

/-- `hash_hunt` over well-formed indicators reports every match of each of them. -/
theorem wp_hashHunt_all {debug : String → String} {s : Db} {t : Uuid} {hashes : List String}
    (hhex : ∀ v ∈ hashes, (hexToRaw v).isSome) :
    (hashHunt debug t hashes).wp (fun _ _ => True)
      (fun r s' => s' = s ∧ ∃ hits, r = .ok hits ∧ ∀ v ∈ hashes, ∀ raw, hexToRaw v = some raw →
        ∀ a ∈ s.hashMatches t raw, hashHit v a ∈ hits) s := by
  -- with the indicators `xs` to come, the hits are there already or still to come
  refine Prog.wp_loop (I := fun xs hits s' => s' = s ∧ (∀ v ∈ xs, (hexToRaw v).isSome) ∧
    ∀ v ∈ hashes, ∀ raw, hexToRaw v = some raw → ∀ a ∈ s.hashMatches t raw,
      hashHit v a ∈ hits ∨ v ∈ xs) ?_ ?_ hashes [] s
    ⟨rfl, hhex, fun v hv _ _ _ _ => .inr hv⟩
  · rintro hits s' ⟨rfl, -, hall⟩
    exact ⟨rfl, hits, rfl, fun v hv raw hraw a ha =>
      (hall v hv raw hraw a ha).resolve_right List.not_mem_nil⟩
  · rintro v vs hits s' ⟨rfl, hsome, hall⟩
    obtain ⟨raw', hraw'⟩ := Option.isSome_iff_exists.mp (hsome v List.mem_cons_self)
    simp only [hraw', Prog.query_bind, Prog.pure_eq, Prog.wp_stmt, Prog.wp_ret, true_and]
    refine fun _ => ⟨fun v' hv' => hsome v' (List.mem_cons_of_mem _ hv'), fun w hw raw hraw a ha => ?_⟩
    obtain hhit | hin := hall w hw raw hraw a ha
    · exact .inl (List.mem_append_left _ hhit)
    · obtain rfl | hlater := List.mem_cons.mp hin
      · obtain rfl : raw = raw' := Option.some.inj (hraw.symm.trans hraw')
        exact .inl (List.mem_append_right _ (List.mem_map_of_mem ha))
      · exact .inr hlater

theorem wp_hashHunt {debug : String → String} {s : Db} {t : Uuid} {hashes : List String}
    (hhex : ∀ v ∈ hashes, (hexToRaw v).isSome) {value : String} (hv : value ∈ hashes)
    {a : Artifact} {raw : Bytes} (hraw : hexToRaw value = some raw) (ha : a ∈ s.hashMatches t raw) :
    (hashHunt debug t hashes).wp (fun _ _ => True)
      (fun r _ => ∃ hits, r = .ok hits ∧ hashHit value a ∈ hits) s := by
  refine Prog.wp_mono (fun _ _ h => h) ?_ (wp_hashHunt_all (s := s) hhex)
  rintro r s' ⟨-, hits, rfl, hall⟩
  exact ⟨hits, rfl, hall value hv raw hraw a ha⟩

/-! ### Evidence -/

/-- All readers find the artifact: the loop of `execute_hunt` and the count of
`enqueue_hunt` at any watermark it lies below, and `hash_hunt` for its digest. -/
structure Huntable (s : Db) (t : Uuid) (a : Artifact) : Prop where
  evaluated : ∀ w, a.seq ≤ w →
    a ∈ (s.plannedArtifacts t w).insertionSort fun x y => x.seq ≤ y.seq
  counted : ∀ w, a.seq ≤ w → a ∈ s.plannedArtifacts t w
  found : ∀ debug hashes, (∀ v ∈ hashes, (hexToRaw v).isSome) → ∀ v ∈ hashes,
    hexToRaw v = some a.sha256 → (hashHunt debug t hashes).wp (fun _ _ => True)
      (fun r _ => ∃ hits, r = .ok hits ∧ hashHit v a ∈ hits) s

/-- Every committed artifact with a host occurrence of its tenant is huntable. -/
def EvidenceHuntable (s : Db) : Prop :=
  ∀ a ∈ s.ingest.artifacts.rows, a.storageState = .committed →
    (∃ o ∈ s.ingest.occurrences.rows, o.tenant = a.tenant ∧ o.artifactId = some a.id) →
      Huntable s a.tenant a

/-- An endpoint artifact is huntable. -/
theorem huntable_of_endpoint {s : Db} {a : Artifact} (ha : a ∈ s.ingest.artifacts.rows)
    (hst : a.storageState = .committed) (hscope : a.scope = .endpoint) : Huntable s a.tenant a := by
  have hplanned : ∀ w, a.seq ≤ w → a ∈ s.plannedArtifacts a.tenant w := by
    intro w hw
    simp [Db.plannedArtifacts, ha, hst, hscope, hw]
  have hmatch : a ∈ s.hashMatches a.tenant a.sha256 := by
    simp [Db.hashMatches, ha, hst, hscope]
  refine ⟨fun w hw => ?_, hplanned, fun _ hashes hhex v hv hraw => wp_hashHunt hhex hv hraw hmatch⟩
  rw [List.mem_insertionSort]
  exact hplanned w hw

/-- An occurrence that would be new to the ledger. -/
def IngestDb.NewOccurrence (d : IngestDb) (t : Uuid) (occ : Option OccurrenceInfo) : Prop :=
  ∃ o, occ = some o ∧ d.occurrences.get (t, o.agentId, o.bootId, o.agentSequence) = none

/-- The condition on a step: a request brings a new occurrence only of a digest
whose artifact is an endpoint artifact, or inserts it as one. -/
def EndpointOnly (cfg : Config) (s : Db) (pts : ℕ → Ctl Pt Reply) : Act Call Env → Prop
  | .exec n _ =>
    (∀ t req sha id, pts n = .at (.ingest (.annPresent t req sha id)) →
      s.ingest.NewOccurrence t req.occurrence →
        ∀ a, s.ingest.artifacts.get (t, sha) = some a → a.scope = .endpoint) ∧
    (∀ t req bytes scope seq, pts n = .at (.ingest (.finInsert t req bytes scope seq)) →
      s.ingest.NewOccurrence t req.occurrence →
        ((s.ingest.artifacts.get (t, cfg.sha256 bytes)).map Artifact.scope).getD scope = .endpoint)
  | _ => True

/-! ### One step -/

/-- The ledger: artifact ids are unique, and an occurrence points to an endpoint
artifact. -/
structure Ledger (d : IngestDb) : Prop where
  ids : ∀ a ∈ d.artifacts.rows, ∀ b ∈ d.artifacts.rows, a.id = b.id → a = b
  attached : ∀ o ∈ d.occurrences.rows, ∀ id, o.artifactId = some id →
    ∃ a ∈ d.artifacts.rows, a.id = id ∧ a.scope = .endpoint

/-- Only the artifacts and the occurrences matter. -/
theorem Ledger.congr {d d' : IngestDb} (h : Ledger d) (ha : d'.artifacts = d.artifacts)
    (ho : d'.occurrences = d.occurrences) : Ledger d' :=
  ⟨by rw [ha]; exact h.ids, by rw [ha, ho]; exact h.attached⟩

theorem Ledger.evidenceHuntable {s : Db} (h : Ledger s.ingest) : EvidenceHuntable s := by
  intro a ha hst ⟨o, ho, _, hid⟩
  obtain ⟨b, hb, hbid, hscope⟩ := h.attached o ho a.id hid
  obtain rfl := h.ids b hb a ha hbid
  exact huntable_of_endpoint hb hst hscope

/-- A new occurrence of an endpoint artifact keeps the ledger. -/
theorem Ledger.insertOccurrence {d : IngestDb} (h : Ledger d) {t id : Uuid} {sha : Bytes}
    {occ : Option OccurrenceInfo} {now : Time}
    (hscope : d.NewOccurrence t occ → ∃ a ∈ d.artifacts.rows, a.id = id ∧ a.scope = .endpoint) :
    Ledger (d.insertOccurrence t id sha occ now) := by
  cases occ with
  | none => exact h
  | some o =>
    refine ⟨h.ids, fun x hx i hi => ?_⟩
    cases hfree : d.occurrences.get (t, o.agentId, o.bootId, o.agentSequence) with
    | some y =>
      -- the key is taken, so nothing was inserted
      have hsame : d.occurrences.insertNew ⟨t, o, some id, some sha, now⟩ = d.occurrences :=
        Table.rows_insertNew_of_get hfree
      rw [IngestDb.insertOccurrence, hsame] at hx
      exact h.attached x hx i hi
    | none =>
      rcases Table.mem_insertNew hx with hold | rfl
      · exact h.attached x hold i hi
      · obtain rfl : id = i := Option.some.inj hi
        exact hscope ⟨o, rfl, hfree⟩

/-- A new artifact with an id of its own keeps the ledger. -/
theorem Ledger.addArtifact {d : IngestDb} (h : Ledger d) {a : Artifact}
    (hfree : d.artifacts.get a.key = none) (hid : ∀ b ∈ d.artifacts.rows, b.id ≠ a.id) :
    Ledger (d.addArtifact a) := by
  have hmem : ∀ {x}, x ∈ (d.addArtifact a).artifacts.rows ↔ x ∈ d.artifacts.rows ∨ x = a :=
    Table.mem_insertNew_of_none hfree
  refine ⟨fun x hx y hy hxy => ?_, fun o ho i hi => ?_⟩
  · rcases hmem.mp hx with hx' | hx' <;> rcases hmem.mp hy with hy' | hy'
    · exact h.ids x hx' y hy' hxy
    · exact absurd (hy' ▸ hxy) (hid x hx')
    · exact absurd (hx' ▸ hxy.symm) (hid y hy')
    · rw [hx', hy']
  · obtain ⟨x, hx, hrest⟩ := h.attached o ho i hi
    exact ⟨x, hmem.mpr (.inl hx), hrest⟩

/-- What `announce` knows when it records a digest that is present. -/
def Present : Ctl Pt Reply → Db → Prop
  | .at (.ingest (.annPresent t _ sha id)), s =>
    ∃ a, s.ingest.artifacts.get (t, sha) = some a ∧ a.id = id
  | _, _ => True

theorem present_of_not {c : Ctl Pt Reply} (h : ∀ p, c ≠ .at (.ingest p)) (s : Db) :
    Present c s := by
  unfold Present
  split
  · exact absurd rfl (h _)
  · trivial

theorem Present.mono {c : Ctl Pt Reply} {s s' : Db} (h : Present c s)
    (hrows : ∀ k a, s.ingest.artifacts.get k = some a → s'.ingest.artifacts.get k = some a) :
    Present c s' := by
  unfold Present at h ⊢
  split at h
  · obtain ⟨a, hget, hid⟩ := h
    exact ⟨a, hrows _ _ hget, hid⟩
  · trivial

theorem IngestMove.ledger {p : IngestPt} {s s' : Db} {c : Ctl Pt Reply} {pts : ℕ → Ctl Pt Reply}
    {n : ℕ} {env : Env} (h : IngestMove cfg p s s' c) (hn : pts n = .at (.ingest p))
    (hok : EndpointOnly cfg s pts (.exec n env)) (hled : Ledger s.ingest)
    (hp : Present (.at (.ingest p)) s) : Ledger s'.ingest := by
  cases h with
  | annPresent now r =>
    refine (hled.insertOccurrence fun hnew => ?_).congr rfl rfl
    obtain ⟨a, hget, hid⟩ := hp
    exact ⟨a, (Table.mem_of_get hget).1, hid, hok.1 _ _ _ _ hn hnew a hget⟩
  | @finAdopt _ t req bytes scope seq a now hget =>
    refine (hled.insertOccurrence fun hnew =>
      ⟨a, (Table.mem_of_get hget).1, rfl, ?_⟩).congr rfl rfl
    have hscope := hok.2 _ _ _ _ _ hn hnew
    rwa [hget] at hscope
  | @finNew _ t req bytes scope seq id now hfree hid =>
    have hadd := hled.addArtifact (a := newArtifact cfg t req bytes scope seq id now) hfree hid
    refine (hadd.insertOccurrence fun hnew => ?_).congr rfl rfl
    have hscope := hok.2 _ _ _ _ _ hn hnew
    rw [hfree] at hscope
    exact ⟨_, (Table.mem_insertNew_of_none hfree).mpr (.inr rfl), rfl, hscope⟩
  | _ => exact hled.congr rfl rfl

theorem IngestMove.present {p : IngestPt} {s s' : Db} {c : Ctl Pt Reply}
    (h : IngestMove cfg p s s' c) : Present c s' := by
  cases h with
  | annFound hget => exact ⟨_, hget, rfl⟩
  | _ => trivial

/-! ### Every history -/

/-- **Endpoint evidence is huntable.**  From any store with a sound ledger, along
every interleaving of server calls and crashes in which occurrences are attached
to endpoint artifacts only, every committed artifact with a host occurrence is
evaluated and counted by hunts at any watermark above it and found by its hash. -/
theorem endpoint_evidence_huntable {s₀ : Db} (h₀ : Ledger s₀.ingest)
    {h : Pool.Hist Call Pt Db Env Error Reply} {p : Pool Call Pt Db Env Error Reply}
    (hr : Pool.Reach (serve cfg) s₀ h p)
    (hok : ∀ e ∈ h, EndpointOnly cfg e.1.store e.1.ctl e.2) : EvidenceHuntable p.store := by
  have hentry : ∀ {c} s, Entry c → Present c s := by
    intro c s hc
    cases hc <;> trivial
  refine (Pool.Reach.outline (serve_takes cfg) (EndpointOnly cfg) (fun s => Ledger s.ingest)
    Present h₀ (fun _ => trivial) (fun _ => trivial) (fun c s => hentry s (serve_entry cfg c)) ?_
    hr hok).1.evidenceHuntable
  intro s s' pts n l c env hG hA hn hmove hstep
  rcases hmove.ingest_cases with ⟨q, rfl, hm⟩ | ⟨hsame, hnot⟩
  · exact ⟨hm.ledger hn hstep hG (hn ▸ hA n), hm.present,
      fun m _ => (hA m).mono hm.artifacts_mono⟩
  · refine ⟨by rwa [hsame], present_of_not hnot s', fun m _ => (hA m).mono ?_⟩
    intro k a hk
    rwa [hsame]

/-- An occurrence of some file on some host. -/
def sighting : OccurrenceInfo := ⟨"host", 1, 1, 1, "/bin/tool", 0, 1, none, "exec"⟩

/-- The same byte is then announced from a host. -/
def announceByte : List (Act Call Env) :=
  .spawn (.announce 0 ⟨"01", 1, some sighting⟩) :: steps 3 2 9

/-- A check that suffices for `EndpointOnly`: there is no intel artifact, and none
is about to be inserted. -/
def noIntel (p : Pool Call Pt Db Env Error Reply) : Bool :=
  (p.store.ingest.artifacts.rows.all fun a => a.scope = .endpoint) &&
    !p.anyAt fun
      | .ingest (.finInsert _ _ _ scope _) => scope ≠ .endpoint
      | _ => false

theorem endpointOnly_of_all {h : Pool.Hist Call Pt Db Env Error Reply}
    (hall : (h.all fun e => noIntel e.1) = true) :
    ∀ e ∈ h, EndpointOnly cfg e.1.store e.1.ctl e.2 := by
  intro e he
  have hno := List.all_eq_true.mp hall e he
  obtain ⟨p, a⟩ := e
  simp only [noIntel, Bool.and_eq_true, List.all_eq_true, decide_eq_true_eq,
    Bool.not_eq_true'] at hno
  cases a with
  | exec n env =>
    refine ⟨fun t req sha id _ _ a hget => hno.1 a (Table.mem_of_get hget).1,
      fun t req bytes scope seq hn _ => ?_⟩
    cases hget : p.store.ingest.artifacts.get (t, cfg.sha256 bytes) with
    | none => simpa using Pool.not_of_anyAt hno.2 hn
    | some a => exact hno.1 a (Table.mem_of_get hget).1
  | spawn c => trivial
  | kill n => trivial

theorem Ledger.empty : Ledger Db.empty.ingest :=
  ⟨fun _ ha => absurd ha List.not_mem_nil, fun _ ho => absurd ho List.not_mem_nil⟩

theorem endpoint_evidence_huntable_twice :
    ∃ h p, Pool.Reach (serve Config.plain) Db.empty h p ∧
      (∃ a ∈ p.store.ingest.artifacts.rows, a.seq ≤ 1 ∧ a ∈ p.store.plannedArtifacts 0 1) ∧
      EvidenceHuntable p.store := by
  obtain ⟨h, p, hreach, hchk⟩ := Pool.exists_reach (serve Config.plain) Db.empty
    (importByte 0 5 9 1 (some sighting) none ++ announceByte)
    (fun h p => (h.all fun e => noIntel e.1) &&
      p.store.ingest.artifacts.rows.any fun a => decide (a.seq ≤ 1 ∧ a.tenant = 0 ∧
        a.storageState = .committed ∧
        p.store.ingest.occurrences.rows.any fun o => o.tenant = 0 && o.artifactId = some a.id))
    (by decide)
  simp only [Bool.and_eq_true, List.any_eq_true, decide_eq_true_eq] at hchk
  obtain ⟨hall, a, ha, hseq, ht, hst, o, ho, hto, hid⟩ := hchk
  have hfound := endpoint_evidence_huntable Ledger.empty hreach (endpointOnly_of_all hall)
  refine ⟨h, p, hreach, ⟨a, ha, hseq, ?_⟩, hfound⟩
  have hhunt := hfound a ha hst ⟨o, ho, by rw [hto, ht], hid⟩
  rw [ht] at hhunt
  exact hhunt.counted 1 hseq

/-- An intel import brings the byte first; then a host announces it.  The host's
occurrence is attached to the intel artifact, which no hunt looks at. -/
theorem intel_import_hides_evidence :
    ∃ h p, Pool.Reach (serve Config.plain) Db.empty h p ∧ (∀ n, (p.ctl n).settled = true) ∧
      ¬ EvidenceHuntable p.store := by
  obtain ⟨h, p, hreach, hchk⟩ := Pool.exists_reach (serve Config.plain) Db.empty
    (importByte 0 5 9 1 none (some "intel") ++ announceByte)
    (fun _ p => (p.procs.all fun q => (Pool.procCtl q).settled) &&
      p.store.ingest.artifacts.rows.any fun a => decide (a.scope = .intel ∧
        a.storageState = .committed ∧ p.store.ingest.occurrences.rows.any fun o =>
          o.tenant = a.tenant && o.artifactId = some a.id)) (by decide)
  simp only [Bool.and_eq_true, List.any_eq_true, decide_eq_true_eq] at hchk
  obtain ⟨hdone, a, ha, hscope, hst, o, ho, hto, hid⟩ := hchk
  refine ⟨h, p, hreach, Pool.settled_of_all hdone, fun hall => ?_⟩
  have hcounted := (hall a ha hst ⟨o, ho, hto, hid⟩).counted a.seq le_rfl
  simp [Db.plannedArtifacts, hscope] at hcounted

end Corpus
