/-
Re-running a hunt.

Once `execute_hunt` has returned, every artifact of the planned set has a cached
terminal result and the hunt a match row for each of its rules (`Settled`).
`Finished` says so of a store; re-runs keep it, and a re-run from such a store

* cannot fail (`wp_rerun`);
* reads no artifact bytes, adds no cache row and no match row;
* counts what the first run counted, because the counters are one function of
  the cache (`tally`).

One thing a run does not do is to write its counters when the planned set is
empty: `rerun_replays` says exactly when that matters.
-/
import Corpus.ScanLoop
import Corpus.Server

namespace Corpus

variable {cfg : Config} {t h : Uuid}

/-! ### One run -/

/-- The statement reads the bytes of an artifact. -/
def Pt.readsBytes : Pt → Bool
  | .hunt (.exeItem _ _ _ _ .read) => true
  | .ingest (.finRead ..) => true
  | _ => false

/-- The artifacts a hunt evaluates: those at or below its watermark. -/
def Db.plannedOf (s : Db) (t h : Uuid) : List Artifact :=
  match (s.huntOf t h).bind Hunt.corpusWatermark with
  | some w => s.plannedArtifacts t w
  | none => []

/-- What no run of a hunt changes in its row. -/
def Hunt.plan (r : Hunt) : HuntKind × Uuid × String × Option ℕ :=
  (r.kind, r.bundleId, r.bundleDigest, r.corpusWatermark)

/-- `execute_hunt` gets as far as scanning. -/
structure Runnable (cfg : Config) (t h : Uuid) (s : Db) (r : Hunt) (w : ℕ) : Prop where
  row : s.huntOf t h = some r
  kind : r.kind = .retro
  watermark : r.corpusWatermark = some w
  compiles : cfg.compileBundle (s.bundleSources t r.bundleId) = .ok ()
  tier : cfg.minTier = none

/-- What a finished run has done: `r` is the row it started from. -/
structure RunDone (cfg : Config) (t h : Uuid) (s : Db) (r : Hunt) (w : ℕ) (hunt : Hunt)
    (s' : Db) : Prop where
  row : s'.huntOf t h = some hunt
  plan : hunt.plan = r.plan
  inputs : s'.inputs = s.inputs
  counters : hunt.counters = if s.plannedArtifacts t w = [] then r.counters
    else tally cfg t r.bundleDigest s s' (s.plannedArtifacts t w)
  state : hunt.state = finalState (tally cfg t r.bundleDigest s s' (s.plannedArtifacts t w))
  settled : ∀ a ∈ s.plannedArtifacts t w, Settled cfg t h r.bundleDigest s' a
  replay : (∀ a ∈ s.plannedArtifacts t w, Settled cfg t h r.bundleDigest s a) →
    s'.hunt.huntMatches = s.hunt.huntMatches ∧ s'.hunt.scanCache = s.hunt.scanCache

/-- The row holds the tally of the run, unless the run had nothing to do. -/
theorem RunDone.tallied {s s' : Db} {r hunt : Hunt} {w : ℕ} (hdone : RunDone cfg t h s r w hunt s')
    (hzero : s.plannedArtifacts t w ≠ [] ∨ r.counters = {}) :
    hunt.counters = tally cfg t r.bundleDigest s s' (s.plannedArtifacts t w) := by
  rw [hdone.counters]
  by_cases hnil : s.plannedArtifacts t w = []
  · rw [if_pos hnil, hnil]
    exact hzero.resolve_left (not_not.mpr hnil)
  · rw [if_neg hnil]

theorem Db.plannedArtifacts_congr {s s' : Db} (hin : s'.inputs = s.inputs) (w : ℕ) :
    s'.plannedArtifacts t w = s.plannedArtifacts t w := by
  have hing : s'.ingest = s.ingest := congrArg Prod.fst hin
  rw [plannedArtifacts, hing, plannedArtifacts]

theorem Db.bundleSources_congr {s s' : Db} (hin : s'.inputs = s.inputs) (b : Uuid) :
    s'.bundleSources t b = s.bundleSources t b := by
  have hrules : s'.hunt.rules = s.hunt.rules := congrArg (fun x => x.2.1) hin
  have hmembers : s'.hunt.bundleRules = s.hunt.bundleRules := congrArg (fun x => x.2.2) hin
  rw [bundleSources, hrules, hmembers, bundleSources]

/-- The planned artifacts of a tenant have distinct digests. -/
theorem Db.planned_nodup (s : Db) (t : Uuid) (w : ℕ) :
    ((s.plannedArtifacts t w).map Artifact.sha256).Nodup := by
  have hkeys : ((s.plannedArtifacts t w).map Artifact.key).Nodup :=
    s.ingest.artifacts.nodup.sublist ((List.filter_sublist).map _)
  refine List.Nodup.of_map (fun x => (t, x)) ?_
  rw [List.map_map]
  refine (List.map_congr_left fun a ha => ?_) ▸ hkeys
  have ht : a.tenant = t := by
    have := (List.mem_filter.mp ha).2
    simp only [Bool.and_eq_true, decide_eq_true_eq] at this
    exact this.1.1.1
  simp [Artifact.key, ht]

theorem Db.huntOf_updHunt_of {s : Db} {r : Hunt} (hrow : s.huntOf t h = some r)
    {f : Hunt → Hunt} (hf : ∀ r, (f r).tenant = r.tenant) :
    (s.updHunt t h f).huntOf t h = some { f r with id := r.id } := by
  rw [huntOf_updHunt s t h hf, hrow]
  rfl

/-- The upsert of a job touches jobs only. -/
theorem Db.upsertJob_eq (s : Db) (t h : Uuid) (now : Time) :
    ∃ J, s.upsertJob t h now = { s with hunt := { s.hunt with jobs := J } } := by
  unfold upsertJob
  split
  · exact ⟨_, rfl⟩
  · exact ⟨_, rfl⟩

theorem wp_getHunt {P : Pt → Db → Prop} {Q : Except Error Hunt → Db → Prop} {l : HuntPt} {s : Db}
    {r : Hunt} (hP : P (.hunt l) s) (hrow : s.huntOf t h = some r) (hQ : Q (.ok r) s) :
    Prog.wp P Q (getHunt l t h) s := by
  unfold getHunt
  simp only [Prog.query_bind, Prog.wp_stmt, hrow]
  exact ⟨hP, fun _ => hQ⟩

/-- **The scanning part** of a run.  Bytes are read only when an artifact of the
planned set has no cached result. -/
theorem wp_scanHunt {P : Pt → Db → Prop} {who : Who} {s : Db} {r : Hunt} {w : ℕ}
    (hrow : s.huntOf t h = some r)
    (hP : ∀ l s', (l.readsBytes = true →
      ∃ a ∈ s.plannedArtifacts t w, s.cached cfg t r.bundleDigest a = none) → P l s') :
    Prog.wp P (fun res s' => match res with
      | .ok hunt => RunDone cfg t h s r w hunt s'
      | .error _ => False)
      (scanHunt cfg who t h r.bundleDigest w) s := by
  have hperm : ((s.plannedArtifacts t w).insertionSort fun x y => x.seq ≤ y.seq).Perm
      (s.plannedArtifacts t w) := List.perm_insertionSort _ _
  have hmem : ∀ a, a ∈ (s.plannedArtifacts t w).insertionSort (fun x y => x.seq ≤ y.seq) ↔
      a ∈ s.plannedArtifacts t w := fun a => hperm.mem_iff
  have hnil : (s.plannedArtifacts t w).insertionSort (fun x y => x.seq ≤ y.seq) = [] ↔
      s.plannedArtifacts t w = [] := by
    rw [← List.length_eq_zero_iff, hperm.length_eq, List.length_eq_zero_iff]
  have hnot : ∀ l s', l.readsBytes = false → P l s' :=
    fun l s' hl => hP l s' fun hr => by rw [hl] at hr; cases hr
  unfold scanHunt
  simp only [Prog.update_bind, Prog.query_bind, Prog.wp_stmt]
  refine ⟨hnot _ _ rfl, fun env => ⟨hnot _ _ rfl,
    fun env' => ⟨hnot _ _ rfl, fun _ => ?_⟩⟩⟩
  set s₂ := (s.updHunt t h fun r =>
    { r with state := .running, startedAt := r.startedAt.or (some env.now) }).updJob h fun r =>
      { r with claimedAt := some env'.now, claimedBy := some "local-worker" } with hs₂
  have hrow₂ : s₂.huntOf t h =
      some { r with state := .running, startedAt := r.startedAt.or (some env.now) } := by
    have := s.huntOf_updHunt t h (f := fun r =>
      { r with state := .running, startedAt := r.startedAt.or (some env.now) }) fun _ => rfl
    rw [hrow] at this
    exact this
  refine Prog.wp_bind (Prog.wp_mono (fun _ _ hP => hP) ?_ (wp_scanArtifacts
    (hperm.map _ |>.nodup_iff.mpr (s.planned_nodup t w)) (fun c step s' hstep => ?_)
    fun c s' => hnot _ _ rfl))
  · intro res s₃ hres
    cases res with
    | error e => exact hres.elim
    | ok c =>
      refine ⟨hnot _ _ rfl, fun env₃ =>
        ⟨hnot _ _ rfl, fun env₄ => ?_⟩⟩
      have htally : c = tally cfg t r.bundleDigest s s₃ (s.plannedArtifacts t w) :=
        hres.tally.trans (tally_perm hperm)
      have hrow₃ := s₃.huntOf_updHunt t h (f := fun r =>
        { r with state := finalState c, completedAt := some env₃.now }) fun _ => rfl
      rw [hres.row, hrow₂, Option.map_some, Option.map_some] at hrow₃
      refine wp_getHunt (hnot _ _ rfl) hrow₃ ⟨hrow₃, ?_, hres.inputs, ?_, ?_,
        fun a ha => hres.settled a ((hmem a).mpr ha),
        fun hall => hres.replay fun a ha => hall a ((hmem a).mp ha)⟩
      · by_cases hn : s.plannedArtifacts t w = []
        · simp [hnil.mpr hn, Hunt.plan]
        · simp [mt hnil.mp hn, Hunt.plan]
      · by_cases hn : s.plannedArtifacts t w = []
        · simp [hn]
        · simp only [mt hnil.mp hn, hn, if_false]
          exact htally
      · exact congrArg finalState htally
  · refine hP _ _ fun hread => ?_
    have hstep' : step = .read := by
      cases step with
      | read => rfl
      | _ => cases hread
    obtain ⟨a, ha, hnone⟩ := hstep hstep'
    exact ⟨a, (hmem a).mp ha, hnone⟩

/-- **A run**: it cannot fail from a runnable hunt. -/
theorem wp_executeHunt {P : Pt → Db → Prop} {who : Who} {s : Db} {r : Hunt} {w : ℕ}
    (hready : Runnable cfg t h s r w)
    (hP : ∀ l s', (l.readsBytes = true →
      ∃ a ∈ s.plannedArtifacts t w, s.cached cfg t r.bundleDigest a = none) → P l s') :
    Prog.wp P (fun res s' => match res with
      | .ok hunt => RunDone cfg t h s r w hunt s'
      | .error _ => False)
      (executeHunt cfg who t h) s := by
  have hnot : ∀ l s', l.readsBytes = false → P l s' :=
    fun l s' hl => hP l s' fun hr => by rw [hl] at hr; cases hr
  refine Prog.wp_bind (wp_getHunt (hnot _ _ rfl) hready.row ?_)
  dsimp only
  rw [if_neg (by simp [hready.kind])]
  simp only [Prog.query_bind, Prog.wp_stmt, hready.row, Option.map_some, hready.compiles,
    hready.watermark, hready.tier]
  exact ⟨hnot _ _ rfl, fun _ =>
    ⟨hnot _ _ rfl, fun _ => wp_scanHunt hready.row hP⟩⟩

/-- A run that returned started from a runnable hunt. -/
theorem runnable_of_returns {who : Who} {s s' : Db} {ls : List Pt} {hunt : Hunt}
    (hrun : (executeHunt cfg who t h).Returns s ls hunt s') : ∃ r w, Runnable cfg t h s r w := by
  have hwp : Prog.wp (fun _ _ => True)
      (fun res _ => ∀ x, res = .ok x → ∃ r w, Runnable cfg t h s r w) (executeHunt cfg who t h) s := by
    unfold executeHunt getHunt
    simp only [Prog.query_bind, Prog.stmt_bind, Prog.wp_stmt]
    refine ⟨trivial, fun _ => ?_⟩
    cases hrow : s.huntOf t h with
    | none => exact fun x hx => by cases hx
    | some r =>
      simp only [Prog.pure_eq, Prog.ret_bind]
      split
      · exact fun x hx => by cases hx
      · next hkind =>
        simp only [Prog.wp_stmt, hrow, Option.map_some, true_and]
        intro _ _
        cases hcomp : cfg.compileBundle (s.bundleSources t r.bundleId) with
        | error e => exact ⟨trivial, fun _ x hx => by cases hx⟩
        | ok u =>
          cases hw : r.corpusWatermark with
          | none => exact fun x hx => by cases hx
          | some w =>
            cases htier : cfg.minTier with
            | some msg => exact ⟨trivial, fun _ x hx => by cases hx⟩
            | none =>
              exact Prog.wp_trivial (fun _ _ => trivial)
                (fun _ _ _ _ => ⟨r, w, hrow, not_not.mp hkind, hw, hcomp, htier⟩) _ _
  exact Prog.wp_returns hrun hwp hunt rfl

/-! ### Planning again -/

/-- `enqueue_hunt`, then `execute_hunt`. -/
def rerun (cfg : Config) (who who' : Who) (t h : Uuid) : Srv Hunt := do
  let _ ← enqueueHunt cfg who t h
  executeHunt cfg who' t h

/-- What enqueueing a pinned hunt leaves: the hunt is runnable with zeroed
counters, nothing else that a run reads has changed. -/
structure Replanned (cfg : Config) (t h : Uuid) (s : Db) (r : Hunt) (w : ℕ) (s' : Db) :
    Prop where
  runnable : ∃ r', Runnable cfg t h s' r' w ∧ r'.plan = r.plan ∧ r'.counters = {}
  inputs : s'.inputs = s.inputs
  cache : s'.hunt.scanCache = s.hunt.scanCache
  hits : s'.hunt.huntMatches = s.hunt.huntMatches

/-- Pinned at `w`, the hunt is counted, planned and queued anew. -/
theorem wp_planHunt {P : Pt → Db → Prop} {who : Who} {s : Db} {r : Hunt} {w : ℕ}
    (hrow : s.huntOf t h = some r) (hP : ∀ l s', l.readsBytes = false → P l s') :
    Prog.wp P (fun res s' => match res with
      | .ok _ => s'.huntOf t h = some { r with
            state := .queued, corpusWatermark := some w, counters := {}, error := none,
            plannedArtifacts := (s.plannedArtifacts t w).length, completedAt := none } ∧
          s'.inputs = s.inputs ∧ s'.hunt.scanCache = s.hunt.scanCache ∧
          s'.hunt.huntMatches = s.hunt.huntMatches
      | .error _ => False)
      (planHunt who t h (some w)) s := by
  simp only [planHunt, Prog.pure_eq, Prog.ret_bind, Prog.update_bind, Prog.query_bind,
    Prog.wp_stmt]
  refine ⟨hP _ _ rfl, fun _ => ⟨hP _ _ rfl, fun _ => ⟨hP _ _ rfl, fun _ => ⟨hP _ _ rfl,
    fun env => ?_⟩⟩⟩⟩
  have hrow₁ := Db.huntOf_updHunt_of hrow (f := fun r => { r with
    state := .planned, corpusWatermark := some w, plannedArtifacts := (s.plannedArtifacts t w).length,
    counters := {}, error := none, completedAt := none }) fun _ => rfl
  have hrow₂ := Db.huntOf_updHunt_of hrow₁ (f := fun r => { r with state := .queued }) fun _ => rfl
  obtain ⟨J, hjob⟩ := Db.upsertJob_eq (((s.updHunt t h fun r => { r with
    state := .planned, corpusWatermark := some w, plannedArtifacts := (s.plannedArtifacts t w).length,
    counters := {}, error := none, completedAt := none }).updHunt t h fun r =>
      { r with state := .queued })) t h env.now
  rw [hjob]
  exact wp_getHunt (hP _ _ rfl) hrow₂ ⟨hrow₂, rfl, rfl, rfl⟩

theorem wp_enqueueHunt {P : Pt → Db → Prop} {who : Who} {s : Db} {r : Hunt} {w : ℕ}
    (hready : Runnable cfg t h s r w) (hstate : r.state ≠ .running ∧ r.state ≠ .queued)
    (hP : ∀ l s', l.readsBytes = false → P l s') :
    Prog.wp P (fun res s' => match res with
      | .ok _ => Replanned cfg t h s r w s'
      | .error _ => False)
      (enqueueHunt cfg who t h) s := by
  refine Prog.wp_bind (wp_getHunt (hP _ _ rfl) hready.row ?_)
  dsimp only
  rw [if_neg (by simp [hready.kind]), if_neg (by simp [hstate])]
  simp only [hready.tier, hready.watermark, validateHunt, Prog.update_bind, Prog.query_bind,
    Prog.wp_stmt]
  have hrow₁ : (s.updHunt t h fun r => { r with state := .validating }).huntOf t h =
      some { r with state := .validating } := Db.huntOf_updHunt_of hready.row fun _ => rfl
  refine ⟨hP _ _ rfl, fun env => ⟨hP _ _ rfl, fun _ => ?_⟩⟩
  simp only [hrow₁, Option.map_some, Prog.wp_stmt]
  refine ⟨hP _ _ rfl, fun _ => ?_⟩
  have hsources : (s.updHunt t h fun r => { r with state := .validating }).bundleSources t
      r.bundleId = s.bundleSources t r.bundleId := rfl
  simp only [hsources, hready.compiles]
  refine Prog.wp_mono (fun _ _ hP => hP) ?_ (wp_planHunt hrow₁ hP)
  intro res s' hres
  cases res with
  | error e => exact hres
  | ok hunt =>
    obtain ⟨hrow', hin, hcache, hhits⟩ := hres
    have hin' : s'.inputs = s.inputs := hin
    have hcompiles := hready.compiles
    rw [← Db.bundleSources_congr hin'] at hcompiles
    refine ⟨⟨_, ⟨hrow', hready.kind, rfl, hcompiles, hready.tier⟩, ?_, rfl⟩, hin, hcache, hhits⟩
    simp [Hunt.plan, hready.watermark]

/-! ### Re-runs -/

/-- Any number of complete re-runs. -/
inductive Reruns (cfg : Config) (t h : Uuid) (s₁ : Db) : Db → Prop where
  | refl : Reruns cfg t h s₁ s₁
  | step {s s' : Db} {who who' : Who} {ls : List Pt} {hunt : Hunt} :
      Reruns cfg t h s₁ s → (rerun cfg who who' t h).Returns s ls hunt s' → Reruns cfg t h s₁ s'

/-- Timeouts and errors among `as` that the run from `s` to `s'` produced. -/
def freshFailures (cfg : Config) (t : Uuid) (digest : String) (s s' : Db) (as : List Artifact) : ℕ :=
  as.countP fun a => (s.cached cfg t digest a).isNone &&
    (s'.hasStatus cfg t digest .timeout a || s'.hasStatus cfg t digest .error a)

/-- What the row of a hunt says after a run, in terms of the cache. -/
structure RunReport (cfg : Config) (t h : Uuid) (s : Db) (hunt : Hunt) (s' : Db) : Prop where
  stored : s'.huntOf t h = some hunt
  terminal : hunt.state = .completed ∨ hunt.state = .completedPartial
  completed : hunt.state = .completed ↔ ∀ a ∈ s.plannedOf t h,
    s'.hasStatus cfg t hunt.bundleDigest .clean a ∨ s'.hasStatus cfg t hunt.bundleDigest .matched a
  total : hunt.counters.scanned + hunt.counters.cacheHits +
    freshFailures cfg t hunt.bundleDigest s s' (s.plannedOf t h) = (s.plannedOf t h).length

/-- A later run reports what the first run reported, without new work. -/
structure Replays (hunt₀ hunt : Hunt) (s s' : Db) (ls : List Pt) : Prop where
  state : hunt.state = hunt₀.state
  matched : hunt.counters.matched = hunt₀.counters.matched
  timedOut : hunt.counters.timedOut = hunt₀.counters.timedOut
  failed : hunt.counters.failed = hunt₀.counters.failed
  hits : s'.hunt.huntMatches = s.hunt.huntMatches
  noRead : ∀ l ∈ ls, l.readsBytes = false

/-- The hunt replays: its first run, from `s₀` to `s₁`, reports its results, and
every re-run after it succeeds and reports the same. -/
def HuntReplays (cfg : Config) (t h : Uuid) (s₀ : Db) (hunt₀ : Hunt) (s₁ : Db) : Prop :=
  RunReport cfg t h s₀ hunt₀ s₁ ∧ ∀ s, Reruns cfg t h s₁ s → ∀ who who' ls,
    (∀ e s', ¬ (rerun cfg who who' t h).Steps s ls (.err e) s') ∧
      ∀ hunt s', (rerun cfg who who' t h).Returns s ls hunt s' →
        RunReport cfg t h s hunt s' ∧ Replays hunt₀ hunt s s' ls

/-! ### What the counters say -/

/-- Four statuses. -/
theorem hasStatus_cases {digest : String} {s : Db} {a : Artifact}
    (ha : (s.cached cfg t digest a).isSome) :
    s.hasStatus cfg t digest .clean a ∨ s.hasStatus cfg t digest .matched a ∨
      s.hasStatus cfg t digest .timeout a ∨ s.hasStatus cfg t digest .error a := by
  obtain ⟨row, hrow⟩ := Option.isSome_iff_exists.mp ha
  unfold Db.hasStatus
  rw [hrow]
  cases hst : row.status <;> simp [hst]

theorem hasStatus_unique {digest : String} {s : Db} {a : Artifact} {st st' : ScanStatus}
    (h : s.hasStatus cfg t digest st a) (h' : s.hasStatus cfg t digest st' a) : st = st' := by
  unfold Db.hasStatus at h h'
  cases hrow : s.cached cfg t digest a with
  | none =>
    rw [hrow] at h
    cases h
  | some row =>
    rw [hrow] at h h'
    exact (of_decide_eq_true h).symm.trans (of_decide_eq_true h')

/-- Every artifact of a pass is a scan, a cache hit or a failure of this pass. -/
theorem tally_total {digest : String} {s s' : Db} {as : List Artifact}
    (hall : ∀ a ∈ as, (s'.cached cfg t digest a).isSome) :
    (tally cfg t digest s s' as).scanned + (tally cfg t digest s s' as).cacheHits +
      freshFailures cfg t digest s s' as = as.length := by
  unfold tally freshFailures
  dsimp only
  induction as with
  | nil => rfl
  | cons a as ih =>
    have hrest := ih fun x hx => hall x (List.mem_cons_of_mem _ hx)
    obtain ⟨row, hrow⟩ := Option.isSome_iff_exists.mp (hall a List.mem_cons_self)
    simp only [List.countP_cons, List.length_cons, Db.hasStatus, hrow, Option.any_some] at hrest ⊢
    cases s.cached cfg t digest a with
    | none => cases row.status <;> simp <;> omega
    | some x => simp; omega

/-- A pass is complete when everything in it is clean or matched. -/
theorem finalState_tally {digest : String} {s s' : Db} {as : List Artifact}
    (hall : ∀ a ∈ as, (s'.cached cfg t digest a).isSome) :
    finalState (tally cfg t digest s s' as) = .completed ↔ ∀ a ∈ as,
      s'.hasStatus cfg t digest .clean a ∨ s'.hasStatus cfg t digest .matched a := by
  have hzero : finalState (tally cfg t digest s s' as) = .completed ↔
      as.countP (s'.hasStatus cfg t digest .timeout) = 0 ∧
        as.countP (s'.hasStatus cfg t digest .error) = 0 := by
    unfold finalState tally
    split
    · next hpos =>
      dsimp only at hpos
      exact ⟨fun hc => (by cases hc), fun hc => by omega⟩
    · next hpos =>
      dsimp only at hpos
      exact ⟨fun _ => (by omega), fun _ => rfl⟩
  rw [hzero, List.countP_eq_zero, List.countP_eq_zero]
  constructor
  · rintro ⟨hto, herr⟩ a ha
    rcases hasStatus_cases (hall a ha) with hst | hst | hst | hst
    · exact .inl hst
    · exact .inr hst
    · exact absurd hst (hto a ha)
    · exact absurd hst (herr a ha)
  · intro hok
    constructor
    · intro a ha hst
      rcases hok a ha with h' | h' <;> cases hasStatus_unique hst h'
    · intro a ha hst
      rcases hok a ha with h' | h' <;> cases hasStatus_unique hst h'

/-- What a run counts and where it ends depends on the cache it leaves behind. -/
theorem tally_replay (cfg : Config) (t : Uuid) (digest : String) (s₀ s : Db) {s₁ s' : Db}
    (hcache : s'.hunt.scanCache = s₁.hunt.scanCache) (as : List Artifact) :
    (tally cfg t digest s s' as).matched = (tally cfg t digest s₀ s₁ as).matched ∧
      (tally cfg t digest s s' as).timedOut = (tally cfg t digest s₀ s₁ as).timedOut ∧
      (tally cfg t digest s s' as).failed = (tally cfg t digest s₀ s₁ as).failed := by
  have hsame : ∀ a ∈ as, s'.cached cfg t digest a = s₁.cached cfg t digest a := by
    intro a _
    rw [Db.cached, hcache, Db.cached]
  rw [tally_congr hsame]
  exact ⟨rfl, rfl, rfl⟩

theorem Db.plannedOf_eq {s : Db} {r : Hunt} {w : ℕ} (hrow : s.huntOf t h = some r)
    (hw : r.corpusWatermark = some w) : s.plannedOf t h = s.plannedArtifacts t w := by
  rw [plannedOf, hrow, Option.bind_some, hw]

/-- A run whose row holds its own tally reports it. -/
theorem runReport_of_tally {s s' : Db} {hunt : Hunt} {digest : String}
    (hrow : s'.huntOf t h = some hunt) (hdigest : hunt.bundleDigest = digest)
    (hsettled : ∀ a ∈ s.plannedOf t h, Settled cfg t h digest s' a)
    (hcounters : hunt.counters = tally cfg t digest s s' (s.plannedOf t h))
    (hstate : hunt.state = finalState (tally cfg t digest s s' (s.plannedOf t h))) :
    RunReport cfg t h s hunt s' := by
  have hcached : ∀ a ∈ s.plannedOf t h, (s'.cached cfg t digest a).isSome := by
    intro a ha
    obtain ⟨row, hrow', _⟩ := hsettled a ha
    rw [hrow']
    rfl
  refine ⟨hrow, ?_, ?_, ?_⟩
  · rw [hstate, finalState]
    split
    · exact .inr rfl
    · exact .inl rfl
  · rw [hdigest, hstate]
    exact finalState_tally hcached
  · rw [hdigest, hcounters]
    exact tally_total hcached

theorem RunDone.digest {s s' : Db} {r hunt : Hunt} {w : ℕ}
    (hdone : RunDone cfg t h s r w hunt s') : hunt.bundleDigest = r.bundleDigest :=
  congrArg (fun x => x.2.2.1) hdone.plan

/-! ### Re-runs keep a finished hunt finished -/

/-- After a finished run: everything planned is settled. -/
structure Finished (cfg : Config) (t h : Uuid) (w : ℕ) (digest : String) (s : Db) : Prop where
  row : ∃ r, Runnable cfg t h s r w ∧ r.bundleDigest = digest ∧
    (r.state = .completed ∨ r.state = .completedPartial)
  settled : ∀ a ∈ s.plannedArtifacts t w, Settled cfg t h digest s a

theorem RunDone.finished {s s' : Db} {r hunt : Hunt} {w : ℕ}
    (hdone : RunDone cfg t h s r w hunt s') (hready : Runnable cfg t h s r w) :
    Finished cfg t h w r.bundleDigest s' := by
  have hplan := hdone.plan
  simp only [Hunt.plan, Prod.mk.injEq] at hplan
  obtain ⟨hkind, hbundle, hdigest, hw⟩ := hplan
  have hcompiles := hready.compiles
  rw [← Db.bundleSources_congr hdone.inputs, ← hbundle] at hcompiles
  refine ⟨⟨hunt, ⟨hdone.row, hkind.trans hready.kind, hw.trans hready.watermark, hcompiles,
    hready.tier⟩, hdigest, ?_⟩, fun a ha => hdone.settled a ?_⟩
  · rw [hdone.state, finalState]
    split
    · exact .inr rfl
    · exact .inl rfl
  · rwa [Db.plannedArtifacts_congr hdone.inputs] at ha

/-- What one re-run of a finished hunt does. -/
structure RerunDone (cfg : Config) (t h : Uuid) (w : ℕ) (digest : String) (s : Db) (hunt : Hunt)
    (s' : Db) : Prop where
  finished : Finished cfg t h w digest s'
  inputs : s'.inputs = s.inputs
  cache : s'.hunt.scanCache = s.hunt.scanCache
  hits : s'.hunt.huntMatches = s.hunt.huntMatches
  counters : hunt.counters = tally cfg t digest s s' (s.plannedArtifacts t w)
  state : hunt.state = finalState (tally cfg t digest s s' (s.plannedArtifacts t w))
  report : RunReport cfg t h s hunt s'

/-- **A re-run** of a finished hunt cannot fail and reads no bytes. -/
theorem wp_rerun {P : Pt → Db → Prop} {w : ℕ} {digest : String} {s : Db}
    (hfin : Finished cfg t h w digest s) (hP : ∀ l s', l.readsBytes = false → P l s')
    (who who' : Who) :
    Prog.wp P (fun res s' => match res with
      | .ok hunt => RerunDone cfg t h w digest s hunt s'
      | .error _ => False)
      (rerun cfg who who' t h) s := by
  obtain ⟨⟨r, hready, rfl, hstate⟩, hsettled⟩ := hfin
  have hnot : r.state ≠ .running ∧ r.state ≠ .queued := by
    rcases hstate with hst | hst <;> simp [hst]
  refine Prog.wp_bind (Prog.wp_mono (fun _ _ hP => hP) ?_ (wp_enqueueHunt hready hnot hP))
  intro res s₁ hres
  cases res with
  | error e => exact hres.elim
  | ok hunt₁ =>
    obtain ⟨⟨r₁, hready₁, hplan, hzero⟩, hin, hcache, hhits⟩ := hres
    have hdigest : r₁.bundleDigest = r.bundleDigest := congrArg (fun x => x.2.2.1) hplan
    have hplanned : s₁.plannedArtifacts t w = s.plannedArtifacts t w :=
      Db.plannedArtifacts_congr hin w
    have hcached : ∀ a, s₁.cached cfg t r.bundleDigest a = s.cached cfg t r.bundleDigest a := by
      intro a
      rw [Db.cached, hcache, Db.cached]
    have hsettled₁ : ∀ a ∈ s₁.plannedArtifacts t w, Settled cfg t h r₁.bundleDigest s₁ a := by
      intro a ha
      rw [hplanned] at ha
      rw [hdigest]
      exact (hsettled a ha).mono (fun hk => hcache ▸ hk) fun hk => hhits ▸ hk
    refine Prog.wp_mono (fun _ _ hP => hP) ?_ (wp_executeHunt hready₁ fun l s' hl => hP l s' ?_)
    · intro res s₂ hres
      cases res with
      | error e => exact hres.elim
      | ok hunt =>
        obtain ⟨hhits₂, hcache₂⟩ := hres.replay hsettled₁
        have htally : tally cfg t r₁.bundleDigest s₁ s₂ (s₁.plannedArtifacts t w) =
            tally cfg t r.bundleDigest s s₂ (s.plannedArtifacts t w) := by
          rw [hdigest, hplanned]
          unfold tally
          simp only [hcached]
        have hof : s.plannedOf t h = s.plannedArtifacts t w :=
          Db.plannedOf_eq hready.row hready.watermark
        have hcount := (hres.tallied (.inr hzero)).trans htally
        have hstate' := hres.state.trans (congrArg finalState htally)
        refine ⟨hdigest ▸ hres.finished hready₁, hres.inputs.trans hin, hcache₂.trans hcache,
          hhits₂.trans hhits, hcount, hstate', runReport_of_tally hres.row
            (hres.digest.trans hdigest) ?_ (hof ▸ hcount) (hof ▸ hstate')⟩
        rw [hof, ← hplanned, ← hdigest]
        exact hres.settled
    · -- a read would need an artifact without a cached result
      by_contra hread
      obtain ⟨a, ha, hnone⟩ := hl (by simpa using hread)
      obtain ⟨row, hrow, _⟩ := hsettled₁ a ha
      rw [hnone] at hrow
      cases hrow

/-- A finished hunt stays finished, with the same cache and planned set. -/
theorem Reruns.finished {w : ℕ} {digest : String} {s₁ s : Db} (hruns : Reruns cfg t h s₁ s)
    (hfin : Finished cfg t h w digest s₁) :
    Finished cfg t h w digest s ∧ s.inputs = s₁.inputs ∧
      s.hunt.scanCache = s₁.hunt.scanCache := by
  induction hruns with
  | refl => exact ⟨hfin, rfl, rfl⟩
  | step _ hrun ih =>
    obtain ⟨hfin', hin, hcache⟩ := ih
    have hdone := Prog.wp_returns hrun (wp_rerun (P := fun _ _ => True) hfin' (fun _ _ _ => trivial) _ _)
    exact ⟨hdone.finished, hdone.inputs.trans hin, hdone.cache.trans hcache⟩

/-- A later run against the first one. -/
theorem RerunDone.replays {w : ℕ} {s₀ s₁ s s' : Db} {r hunt₀ hunt : Hunt} {ls : List Pt}
    (hdone : RunDone cfg t h s₀ r w hunt₀ s₁)
    (htallied : hunt₀.counters = tally cfg t r.bundleDigest s₀ s₁ (s₀.plannedArtifacts t w))
    (hin : s.inputs = s₁.inputs) (hcache : s.hunt.scanCache = s₁.hunt.scanCache)
    (hrerun : RerunDone cfg t h w r.bundleDigest s hunt s')
    (hread : ∀ l ∈ ls, l.readsBytes = false) : Replays hunt₀ hunt s s' ls := by
  have hplanned : s.plannedArtifacts t w = s₀.plannedArtifacts t w :=
    Db.plannedArtifacts_congr (hin.trans hdone.inputs) w
  have hcounters := hrerun.counters
  have hstate := hrerun.state
  rw [hplanned] at hcounters hstate
  obtain ⟨hmatched, htimedOut, hfailed⟩ := tally_replay cfg t r.bundleDigest s₀ s
    (hrerun.cache.trans hcache) (s₀.plannedArtifacts t w)
  refine ⟨?_, ?_, ?_, ?_, hrerun.hits, hread⟩
  · rw [hstate, hdone.state, finalState, finalState, htimedOut, hfailed]
  · rw [hcounters, htallied, hmatched]
  · rw [hcounters, htallied, htimedOut]
  · rw [hcounters, htallied, hfailed]

/-- **Replay**: a run that returned is replayed by every later re-run, unless it
had nothing to evaluate and its row came with counters of some other run. -/
theorem rerun_replays {who : Who} {s₀ s₁ : Db} {ls₀ : List Pt} {hunt₀ : Hunt}
    (hfirst : (executeHunt cfg who t h).Returns s₀ ls₀ hunt₀ s₁) :
    HuntReplays cfg t h s₀ hunt₀ s₁ ↔
      s₀.plannedOf t h ≠ [] ∨ (s₀.huntOf t h).map Hunt.counters = some {} := by
  obtain ⟨r, w, hready⟩ := runnable_of_returns hfirst
  have hdone : RunDone cfg t h s₀ r w hunt₀ s₁ :=
    Prog.wp_returns hfirst (wp_executeHunt (P := fun _ _ => True) hready fun _ _ _ => trivial)
  have hof : s₀.plannedOf t h = s₀.plannedArtifacts t w :=
    Db.plannedOf_eq hready.row hready.watermark
  have hfin := hdone.finished hready
  rw [hready.row, Option.map_some, Option.some_inj, hof]
  constructor
  · rintro ⟨hreport, hlater⟩
    by_contra hcon
    obtain ⟨hnil, hne⟩ := not_or.mp hcon
    rw [not_not] at hnil
    -- with nothing planned, the first run left the row's counters and a re-run resets them
    have hcounters : hunt₀.counters = r.counters := by rw [hdone.counters, if_pos hnil]
    have htotal := hreport.total
    rw [hof, hnil, hcounters] at htotal
    obtain ⟨ls, hunt, s', hrun, hre⟩ := Prog.exists_returns (Env.drawing 0) (fun _ _ hf => hf)
      (wp_rerun (P := fun _ _ => True) hfin (fun _ _ _ => trivial) .sync .sync)
    have hsame := ((hlater s₁ .refl .sync .sync ls).2 hunt s' hrun).2
    have hzero : hunt.counters = {} := by
      rw [hre.counters, Db.plannedArtifacts_congr hdone.inputs, hnil]
      rfl
    refine hne (Counters.ext ?_ ?_ ?_ ?_ ?_)
    · exact Nat.eq_zero_of_add_eq_zero_right (Nat.eq_zero_of_add_eq_zero_right htotal)
    · exact Nat.eq_zero_of_add_eq_zero_left (Nat.eq_zero_of_add_eq_zero_right htotal)
    · rw [← hcounters, ← hsame.matched, hzero]
    · rw [← hcounters, ← hsame.timedOut, hzero]
    · rw [← hcounters, ← hsame.failed, hzero]
  · intro hcond
    have htallied := hdone.tallied hcond
    refine ⟨runReport_of_tally hdone.row hdone.digest (hof ▸ hdone.settled) (hof ▸ htallied)
      (hof ▸ hdone.state), fun s hruns who who' ls => ?_⟩
    obtain ⟨hfin', hin, hcache⟩ := hruns.finished hfin
    have hwp := wp_rerun (P := fun l _ => l.readsBytes = false) hfin' (fun _ _ hl => hl) who who'
    refine ⟨fun e s' hrun => Prog.wp_sound hrun hwp, fun hunt s' hrun => ?_⟩
    have hre := Prog.wp_returns hrun hwp
    exact ⟨hre.report, RerunDone.replays hdone htallied hin hcache hre
      (Prog.wp_names hrun (fun _ _ hl => hl) hwp)⟩

/-- A run from a store alone, with what its result must pass. -/
def passes {α : Type} (p : Srv α) (k : ℕ) (s : Db) (chk : α → Bool) : Bool :=
  match p.run (List.replicate k (Env.drawing 0)) s with
  | some (_, .ok a, _) => chk a
  | _ => false

theorem returns_of_passes {α : Type} {p : Srv α} {k : ℕ} {s : Db} {chk : α → Bool}
    (h : passes p k s chk = true) : ∃ ls a s', p.Returns s ls a s' ∧ chk a = true := by
  unfold passes at h
  split at h
  · next ls a s' hrun => exact ⟨ls, a, s', Prog.returns_of_run _ hrun, h⟩
  · cases h

/-- Hunt `20` over one artifact, executed for the first time. -/
theorem rerun_replays_one :
    ∃ h p ls hunt s₁, Pool.Reach (serve Config.plain) Db.oneRule h p ∧
      (executeHunt Config.plain .worker 0 20).Returns p.store ls hunt s₁ ∧
      hunt.counters.scanned = 1 ∧ HuntReplays Config.plain 0 20 p.store hunt s₁ := by
  obtain ⟨h, p, hreach, hchk⟩ := Pool.exists_reach (serve Config.plain) Db.oneRule
    (draftHunt20 ++ importByte 2 5 9 1 none none ++ .spawn (.enqueueHunt 0 20) :: steps 5 10 0 ++
      .spawn (.worker "w") :: steps 6 1 0)
    (fun _ p => !(p.store.plannedOf 0 20).isEmpty &&
      passes (executeHunt Config.plain .worker 0 20) 14 p.store fun r => r.counters.scanned = 1)
    (by decide)
  simp only [Bool.and_eq_true, Bool.not_eq_true', List.isEmpty_eq_false_iff] at hchk
  obtain ⟨hplanned, hpass⟩ := hchk
  obtain ⟨ls, hunt, s₁, hrun, hone⟩ := returns_of_passes hpass
  exact ⟨h, p, ls, hunt, s₁, hreach, hrun, by simpa using hone,
    (rerun_replays hrun).mpr (.inl hplanned)⟩

/-- An enqueue of a draft hunt reads the maximal `seq` of an empty corpus; before it
plans, an artifact is committed and the hunt run over it; the enqueue then pins
the empty set and resets the counters, the run writes its own into them and the
job is queued again.  The next execution evaluates nothing and reports one
artifact scanned. -/
theorem empty_run_keeps_foreign_counters :
    ∃ h p ls hunt s₁, Pool.Reach (serve Config.plain) Db.oneRule h p ∧
      (executeHunt Config.plain .worker 0 20).Returns p.store ls hunt s₁ ∧
      ¬ HuntReplays Config.plain 0 20 p.store hunt s₁ := by
  obtain ⟨h, p, hreach, hchk⟩ := Pool.exists_reach (serve Config.plain) Db.oneRule
    (draftHunt20 ++ .spawn (.enqueueHunt 0 20) :: steps 2 5 0 ++ importByte 3 5 9 1 none none ++
      .spawn (.runHunt 0 20) :: steps 6 20 0 ++ steps 2 2 0 ++ steps 6 4 0 ++ steps 2 3 0 ++
      .spawn (.worker "w") :: steps 7 1 0)
    (fun _ p => (p.store.plannedOf 0 20).isEmpty &&
      passes (executeHunt Config.plain .worker 0 20) 9 p.store fun r => r.counters.scanned = 1)
    (by decide)
  simp only [Bool.and_eq_true, List.isEmpty_iff] at hchk
  obtain ⟨hplanned, hpass⟩ := hchk
  obtain ⟨ls, hunt, s₁, hrun, hone⟩ := returns_of_passes hpass
  refine ⟨h, p, ls, hunt, s₁, hreach, hrun, fun hreplays => ?_⟩
  have htotal := hreplays.1.total
  simp only [decide_eq_true_eq] at hone
  rw [hplanned, hone] at htotal
  simp at htotal

end Corpus
