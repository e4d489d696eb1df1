/-
The scan loop of `execute_hunt`.

For one artifact the loop either replays its cached terminal result or reads,
scans and caches; `ItemDone` says what both branches leave behind, and
`wp_huntItem` that they do.  The counters are one function of the cached rows
(`Counters.add`), the same for both branches but for `scanned` and `cacheHits`:
this is why a re-run reports what the first run reported.

`wp_scanArtifacts` lifts it to the whole loop, over any list of artifacts with
distinct digests.
-/
import Corpus.Hunts
import Corpus.VariantGroups
import Mathlib.Algebra.GroupWithZero.Nat

namespace Corpus

variable {cfg : Config} {t h : Uuid} {digest : String}

/-! ### Vocabulary -/

/-- The cached result of an artifact. -/
def Db.cached (s : Db) (cfg : Config) (t : Uuid) (digest : String) (a : Artifact) :
    Option ScanCacheRow :=
  s.hunt.scanCache.get (scanCacheKey cfg t a.sha256 digest)

/-- One terminal result added to the counters; `fresh` when this run produced it. -/
def Counters.add (c : Counters) (fresh : Bool) (row : ScanCacheRow) : Counters where
  scanned := c.scanned + if fresh && (row.status = .clean || row.status = .matched) then 1 else 0
  cacheHits := c.cacheHits + if fresh then 0 else 1
  matched := c.matched + if row.status = .matched then row.matchedRuleIds.length else 0
  timedOut := c.timedOut + if row.status = .timeout then 1 else 0
  failed := c.failed + if row.status = .error then 1 else 0

/-- The hunt has a match row for every rule a matched result names. -/
def Reported (s : Db) (h artifact : Uuid) (row : ScanCacheRow) : Prop :=
  row.status = .matched →
    ∀ rule ∈ row.matchedRuleIds, (s.hunt.huntMatches.get (h, artifact, rule)).isSome

/-- The store without what the loop writes for one artifact. -/
def Db.forgetScan (s : Db) : Db :=
  { s with
    hunt := { s.hunt with huntMatches := .empty, scanCache := .empty, detections := [] }
    outbox := [] }

/-- Match rows for `rules` have been added to the table, and fires to the outbox. -/
def MatchesAdded (s s' : Db) (h artifact : Uuid) (rules : List String) : Prop :=
  ∃ M o, s' = { s with hunt := { s.hunt with huntMatches := M }, outbox := o } ∧
    (∀ rule ∈ rules, (M.get (h, artifact, rule)).isSome) ∧
    (∀ k, (s.hunt.huntMatches.get k).isSome → (M.get k).isSome) ∧
    ((∀ rule ∈ rules, (s.hunt.huntMatches.get (h, artifact, rule)).isSome) →
      M = s.hunt.huntMatches)

theorem MatchesAdded.refl (s : Db) (h artifact : Uuid) : MatchesAdded s s h artifact [] :=
  ⟨s.hunt.huntMatches, s.outbox, rfl, fun _ hm => absurd hm List.not_mem_nil, fun _ hk => hk,
    fun _ => rfl⟩

/-- One more match. -/
theorem MatchesAdded.snoc {s s' : Db} {artifact : Uuid} {rules : List String}
    (hm : MatchesAdded s s' h artifact rules) {row : HuntMatch} {rule : String}
    (hrow : row.key = (h, artifact, rule)) (o : List OutboxRow) :
    MatchesAdded s
      { s' with
        hunt := { s'.hunt with huntMatches := s'.hunt.huntMatches.insertNew row }, outbox := o }
      h artifact (rules ++ [rule]) := by
  obtain ⟨M, o', rfl, hin, hkeep, hsame⟩ := hm
  have hget : ∀ k, ((M.insertNew row).get k).isSome ↔ (M.get k).isSome ∨ row.key = k := by
    intro k
    rw [Table.get_insertNew]
    cases M.get k with
    | some x => simp
    | none =>
      by_cases hk : row.key = k
      · simp [hk]
      · simp [hk]
  refine ⟨M.insertNew row, o, rfl, fun x hx => ?_, fun k hk => ?_, fun hall => ?_⟩
  · rw [hget]
    rcases List.mem_append.mp hx with hx | hx
    · exact .inl (hin x hx)
    · rw [List.mem_singleton.mp hx]
      exact .inr hrow
  · rw [hget]
    exact .inl (hkeep k hk)
  -- With all rows there already, an insert that does nothing on a conflict does nothing.
  · have hM := hsame fun x hx => hall x (List.mem_append_left _ hx)
    have hthere := hall rule (List.mem_append_right _ (List.mem_singleton_self rule))
    obtain ⟨x, hx⟩ := Option.isSome_iff_exists.mp hthere
    rw [hM, Table.rows_insertNew_of_get (x := x)]
    rw [hrow]
    exact hx

/-! ### Matches -/

theorem wp_commitMatches {P : Pt → Db → Prop} {l : ItemStep → Pt} {artifact : Uuid}
    (hhit : ∀ s, P (l .hit) s) (hfire : ∀ s, P (l .fire) s) (ms : List (String × Json))
    (c : Counters) (s : Db) :
    Prog.wp P (fun r s' => match r with
      | .ok c' => c' = { c with matched := c.matched + ms.length } ∧
          MatchesAdded s s' h artifact (ms.map Prod.fst)
      | .error _ => False)
      (commitMatches cfg t h artifact l ms c) s := by
  refine Prog.wp_loop (I := fun xs c' s' => ∃ ys, ms = ys ++ xs ∧
    c' = { c with matched := c.matched + ys.length } ∧
      MatchesAdded s s' h artifact (ys.map Prod.fst)) ?_ ?_ _ _ _
    ⟨[], rfl, rfl, MatchesAdded.refl s h artifact⟩
  · rintro c' s' ⟨ys, hms, rfl, hadd⟩
    obtain rfl : ms = ys := by simpa using hms
    exact ⟨rfl, hadd⟩
  · rintro m xs c' s' ⟨ys, hms, rfl, hadd⟩
    refine Prog.wp_bind (Prog.wp_exec.mpr ⟨hhit _, fun env => ?_⟩)
    refine Prog.wp_bind (wp_fire (fun o => hfire _) fun n o => ?_)
    refine ⟨ys ++ [m], by rw [hms, List.append_assoc, List.singleton_append], ?_, ?_⟩
    · simp [Nat.add_assoc]
    · rw [List.map_append, List.map_singleton]
      have hrow : HuntMatch.key ⟨h, t, artifact, m.1, cfg.engineVersion, m.2, env.now⟩ =
          (h, artifact, m.1) := rfl
      exact hadd.snoc hrow o

/-! ### One artifact -/

/-- What the loop leaves behind for one artifact. -/
structure ItemDone (cfg : Config) (t h : Uuid) (digest : String) (a : Artifact) (s : Db)
    (c : Counters) (s' : Db) (c' : Counters) : Prop where
  frame : s'.forgetScan = s.forgetScan
  row : ∃ row, s'.cached cfg t digest a = some row ∧ Reported s' h a.id row ∧
    c' = c.add (s.cached cfg t digest a).isNone row
  keep : ∀ {k row}, s.hunt.scanCache.get k = some row → s'.hunt.scanCache.get k = some row
  other : ∀ {k}, k ≠ scanCacheKey cfg t a.sha256 digest →
    s'.hunt.scanCache.get k = s.hunt.scanCache.get k
  keepMatch : ∀ {k}, (s.hunt.huntMatches.get k).isSome → (s'.hunt.huntMatches.get k).isSome
  settled : ∀ {row}, s.cached cfg t digest a = some row → Reported s h a.id row →
    s'.hunt.huntMatches = s.hunt.huntMatches ∧ s'.hunt.scanCache = s.hunt.scanCache

/-- The cached branch. -/
theorem wp_replayItem {P : Pt → Db → Prop} {l : ItemStep → Pt} (hhit : ∀ s, P (l .hit) s)
    (hfire : ∀ s, P (l .fire) s) {a : Artifact} {hit : ScanCacheRow} {s : Db}
    (hcached : s.cached cfg t digest a = some hit) (c : Counters) :
    Prog.wp P (fun r s' => match r with
      | .ok c' => ItemDone cfg t h digest a s c s' c'
      | .error _ => False)
      (replayItem cfg t h a.id l hit c) s := by
  have hsame : ∀ {c'}, hit.status ≠ .matched → c' = c.add false hit →
      ItemDone cfg t h digest a s c s c' := by
    intro c' hne hc
    refine ⟨rfl, ⟨hit, hcached, fun hm => absurd hm hne, ?_⟩, fun hk => hk, fun _ => rfl,
      fun hk => hk, fun _ _ => ⟨rfl, rfl⟩⟩
    rw [hcached]
    exact hc
  unfold replayItem
  cases hst : hit.status with
  | timeout => exact hsame (by simp [hst]) (by simp [Counters.add, hst])
  | error => exact hsame (by simp [hst]) (by simp [Counters.add, hst])
  | clean => exact hsame (by simp [hst]) (by simp [Counters.add, hst])
  | matched =>
    refine Prog.wp_mono (fun _ _ hP => hP) ?_ (wp_commitMatches hhit hfire _ _ _)
    intro r s' hr
    cases r with
    | error e => exact hr
    | ok c' =>
      -- The matches of the cached row are written again.
      obtain ⟨rfl, hadd⟩ := hr
      rw [List.map_map] at hadd
      have hrules : (hit.matchedRuleIds.map (Prod.fst ∘ fun rule =>
          (rule, Json.obj [("cached", .bool true)]))) = hit.matchedRuleIds := by
        simp [Function.comp_def]
      rw [hrules] at hadd
      obtain ⟨M, o, rfl, hin, hkeep, hM⟩ := hadd
      refine ⟨rfl, ⟨hit, hcached, fun _ => hin, ?_⟩, fun hk => hk, fun _ => rfl,
        fun hk => hkeep _ hk, fun {row} hrow hrep => ⟨?_, rfl⟩⟩
      · rw [hcached]
        simp [Counters.add, hst]
      · obtain rfl : hit = row := Option.some.inj (hcached.symm.trans hrow)
        exact hM (hrep hst)

/-- A row added to the cache under a free key. -/
theorem get_cacheInsert {s : Db} {row : ScanCacheRow} (hfree : s.hunt.scanCache.get row.key = none)
    (k : ScanCacheKey) : (s.hunt.scanCache.insertNew row).get k =
      if row.key = k then some row else s.hunt.scanCache.get k := by
  rw [Table.get_insertNew]
  by_cases hk : row.key = k
  · subst hk
    rw [hfree, if_pos rfl]
    rfl
  · rw [if_neg hk, if_neg hk, Option.or_none]

/-- The fresh branch, once the terminal result is known: its row is cached, then
detections and matches follow. -/
theorem itemDone_fresh {a : Artifact} {s s' : Db} {c c' : Counters} {row : ScanCacheRow}
    {M : Table HuntMatch.key} {D : List Detection} {o : List OutboxRow}
    (hkey : row.key = scanCacheKey cfg t a.sha256 digest)
    (hfree : s.cached cfg t digest a = none)
    (hs' : s' = { s with
      hunt := { s.hunt with
        scanCache := s.hunt.scanCache.insertNew row, huntMatches := M, detections := D }
      outbox := o })
    (hkeep : ∀ k, (s.hunt.huntMatches.get k).isSome → (M.get k).isSome)
    (hrep : row.status = .matched → ∀ rule ∈ row.matchedRuleIds, (M.get (h, a.id, rule)).isSome)
    (hc : c' = c.add true row) : ItemDone cfg t h digest a s c s' c' := by
  have hfree' : s.hunt.scanCache.get row.key = none := hkey ▸ hfree
  have hget := get_cacheInsert hfree'
  subst hs'
  refine ⟨rfl, ⟨row, ?_, hrep, by rw [hfree]; exact hc⟩, fun {k r} hk => ?_, fun {k} hk => ?_,
    fun hk => hkeep _ hk, fun {r} hr => ?_⟩
  · show (s.hunt.scanCache.insertNew row).get _ = _
    rw [hget, if_pos hkey]
  · show (s.hunt.scanCache.insertNew row).get _ = _
    rw [hget, if_neg, hk]
    rintro rfl
    rw [hfree'] at hk
    cases hk
  · show (s.hunt.scanCache.insertNew row).get _ = _
    rw [hget, if_neg]
    rw [hkey]
    exact Ne.symm hk
  · rw [hfree] at hr
    cases hr

theorem wp_scanItem {P : Pt → Db → Prop} {l : ItemStep → Pt} (hP : ∀ step s, P (l step) s)
    {a : Artifact} {s : Db} (hfree : s.cached cfg t digest a = none) (object : ObjectKey)
    (c : Counters) :
    Prog.wp P (fun r s' => match r with
      | .ok c' => ItemDone cfg t h digest a s c s' c'
      | .error _ => False)
      (scanItem cfg t h a.id digest (scanCacheKey cfg t a.sha256 digest) object l c) s := by
  unfold scanItem
  simp only [Prog.query_bind, Prog.wp_stmt]
  refine ⟨hP _ _, fun _ => ?_⟩
  -- A missing object is a result of its own, an error.
  cases s.ingest.cas.objects object with
  | none =>
    refine ⟨hP _ _, fun env => ?_⟩
    refine itemDone_fresh rfl hfree rfl (fun _ hk => hk) ?_ ?_
    · exact fun hm => by cases hm
    · simp [Counters.add]
  | some bytes =>
    refine ⟨hP _ _, fun env => ⟨hP _ _, fun env' => ?_⟩⟩
    dsimp only
    generalize env.scan bytes = outcome
    cases hst : outcome.status with
    | clean =>
      refine itemDone_fresh rfl hfree rfl (fun _ hk => hk) ?_ ?_
      · exact fun hm => by cases hm
      · simp [Counters.add]
    | timeout =>
      refine itemDone_fresh rfl hfree rfl (fun _ hk => hk) ?_ ?_
      · exact fun hm => by cases hm
      · simp [Counters.add]
    | error =>
      refine itemDone_fresh rfl hfree rfl (fun _ hk => hk) ?_ ?_
      · exact fun hm => by cases hm
      · simp [Counters.add]
    | matched =>
      refine ⟨hP _ _, fun env'' => ?_⟩
      refine Prog.wp_mono (fun _ _ hP => hP) ?_ (wp_commitMatches (hP _) (hP _) _ _ _)
      intro r s' hr
      cases r with
      | error e => exact hr
      | ok c' =>
        obtain ⟨rfl, M, o, rfl, hin, hkeep, _⟩ := hr
        refine itemDone_fresh rfl hfree rfl hkeep (fun _ rule hrule => hin rule ?_) ?_
        · rw [List.map_map]
          exact hrule
        · simp [Counters.add, ScanOutcome.ruleIds]

/-- One artifact, by either branch.  Its bytes are read only when nothing is
cached for it. -/
theorem wp_huntItem {P : Pt → Db → Prop} {who : Who} {a : Artifact} {s : Db} {c : Counters}
    (hP : ∀ step s', (step = .read → s.cached cfg t digest a = none) →
      P (.hunt (.exeItem t h who c step)) s') :
    Prog.wp P (fun r s' => match r with
      | .ok c' => ItemDone cfg t h digest a s c s' c'
      | .error _ => False)
      (huntItem cfg who t h digest c a) s := by
  unfold huntItem cacheLookup
  simp only [Prog.query_bind, Prog.wp_stmt]
  refine ⟨hP _ _ (fun hr => by cases hr), fun _ => ?_⟩
  cases hcached : s.cached cfg t digest a with
  | some hit =>
    rw [show s.hunt.scanCache.get (scanCacheKey cfg t a.sha256 digest) = some hit from hcached]
    exact wp_replayItem (fun _ => hP _ _ fun hr => by cases hr)
      (fun _ => hP _ _ fun hr => by cases hr) hcached c
  | none =>
    rw [show s.hunt.scanCache.get (scanCacheKey cfg t a.sha256 digest) = none from hcached]
    exact wp_scanItem (fun _ _ => hP _ _ fun _ => hcached) hcached a.objectKey c

/-! ### The tally of a run -/

/-- The artifact has a cached result with this status. -/
def Db.hasStatus (s : Db) (cfg : Config) (t : Uuid) (digest : String) (st : ScanStatus)
    (a : Artifact) : Bool :=
  (s.cached cfg t digest a).any fun row => row.status = st

/-- The counters of a pass over `as`, from the caches before and after it. -/
def tally (cfg : Config) (t : Uuid) (digest : String) (s s' : Db) (as : List Artifact) :
    Counters where
  scanned := as.countP fun a => (s.cached cfg t digest a).isNone &&
    (s'.hasStatus cfg t digest .clean a || s'.hasStatus cfg t digest .matched a)
  cacheHits := as.countP fun a => (s.cached cfg t digest a).isSome
  matched := (as.map fun a => ((s'.cached cfg t digest a).filter fun row =>
    row.status = .matched).elim 0 fun row => row.matchedRuleIds.length).sum
  timedOut := as.countP (s'.hasStatus cfg t digest .timeout)
  failed := as.countP (s'.hasStatus cfg t digest .error)

/-- One more artifact. -/
theorem tally_snoc {s s' : Db} {a : Artifact} {row : ScanCacheRow}
    (hrow : s'.cached cfg t digest a = some row) (as : List Artifact) :
    tally cfg t digest s s' (as ++ [a]) =
      (tally cfg t digest s s' as).add (s.cached cfg t digest a).isNone row := by
  unfold tally Counters.add Db.hasStatus
  simp only [List.countP_append, List.countP_singleton, List.map_append, List.map_singleton,
    List.sum_append, List.sum_singleton, hrow, Option.any_some, Option.filter_some]
  cases s.cached cfg t digest a with
  | none => cases row.status <;> simp
  | some x => cases row.status <;> simp

/-- The tally looks at the later cache of its own artifacts only. -/
theorem tally_congr {s s' s'' : Db} {as : List Artifact}
    (h : ∀ a ∈ as, s''.cached cfg t digest a = s'.cached cfg t digest a) :
    tally cfg t digest s s'' as = tally cfg t digest s s' as := by
  have hstatus : ∀ st, ∀ a ∈ as, s''.hasStatus cfg t digest st a = s'.hasStatus cfg t digest st a := by
    intro st a ha
    rw [Db.hasStatus, h a ha, Db.hasStatus]
  unfold tally
  congr 1
  · exact List.countP_congr fun a ha => by rw [hstatus _ a ha, hstatus _ a ha]
  · exact congrArg List.sum (List.map_congr_left fun a ha => by rw [h a ha])
  · exact List.countP_congr fun a ha => by rw [hstatus _ a ha]
  · exact List.countP_congr fun a ha => by rw [hstatus _ a ha]

/-- The order of the pass does not matter. -/
theorem tally_perm {s s' : Db} {as bs : List Artifact} (h : as.Perm bs) :
    tally cfg t digest s s' as = tally cfg t digest s s' bs := by
  unfold tally
  congr 1
  · exact h.countP_eq _
  · exact h.countP_eq _
  · exact (h.map _).sum_nat
  · exact h.countP_eq _
  · exact h.countP_eq _

/-! ### The loop -/

/-- The tables a run of a hunt only reads. -/
def Db.inputs (s : Db) : IngestDb × Table Rule.id × List BundleRule :=
  (s.ingest, s.hunt.rules, s.hunt.bundleRules)

/-- The hunt has a cached and reported result for the artifact. -/
def Settled (cfg : Config) (t h : Uuid) (digest : String) (s : Db) (a : Artifact) : Prop :=
  ∃ row, s.cached cfg t digest a = some row ∧ Reported s h a.id row

/-- What the loop leaves behind once it has gone through `as`. -/
structure PassDone (cfg : Config) (t h : Uuid) (digest : String) (s : Db) (as : List Artifact)
    (s' : Db) (c : Counters) : Prop where
  inputs : s'.inputs = s.inputs
  row : s'.huntOf t h = (s.huntOf t h).map fun r =>
    if as = [] then r else { r with counters := c }
  tally : c = tally cfg t digest s s' as
  settled : ∀ a ∈ as, Settled cfg t h digest s' a
  keep : ∀ {k row}, s.hunt.scanCache.get k = some row → s'.hunt.scanCache.get k = some row
  other : ∀ {k}, (∀ a ∈ as, k ≠ scanCacheKey cfg t a.sha256 digest) →
    s'.hunt.scanCache.get k = s.hunt.scanCache.get k
  keepMatch : ∀ {k}, (s.hunt.huntMatches.get k).isSome → (s'.hunt.huntMatches.get k).isSome
  replay : (∀ a ∈ as, Settled cfg t h digest s a) →
    s'.hunt.huntMatches = s.hunt.huntMatches ∧ s'.hunt.scanCache = s.hunt.scanCache

theorem PassDone.nil (s : Db) : PassDone cfg t h digest s [] s {} where
  inputs := rfl
  row := by simp
  tally := rfl
  settled := fun _ ha => absurd ha List.not_mem_nil
  keep := fun hk => hk
  other := fun _ => rfl
  keepMatch := fun hk => hk
  replay := fun _ => ⟨rfl, rfl⟩

/-- What survives the rest of the loop. -/
theorem Settled.mono {s s' : Db} {a : Artifact}
    (hkeep : ∀ {k row}, s.hunt.scanCache.get k = some row → s'.hunt.scanCache.get k = some row)
    (hmatch : ∀ {k}, (s.hunt.huntMatches.get k).isSome → (s'.hunt.huntMatches.get k).isSome)
    (ha : Settled cfg t h digest s a) : Settled cfg t h digest s' a := by
  obtain ⟨row, hrow, hrep⟩ := ha
  exact ⟨row, hkeep hrow, fun hm rule hrule => hmatch (hrep hm rule hrule)⟩

/-- One turn of the loop: the artifact's own statements, then the progress
update. -/
theorem PassDone.snoc {s s₁ s₂ : Db} {as : List Artifact} {a : Artifact} {c c' : Counters}
    (hpass : PassDone cfg t h digest s as s₁ c) (hitem : ItemDone cfg t h digest a s₁ c s₂ c')
    (hnew : a.sha256 ∉ as.map Artifact.sha256) :
    PassDone cfg t h digest s (as ++ [a])
      (s₂.updHunt t h fun r => { r with counters := c' }) c' := by
  -- Digests are distinct, so the key of this artifact is not that of an earlier one.
  have hkey : ∀ x ∈ as, scanCacheKey cfg t a.sha256 digest ≠ scanCacheKey cfg t x.sha256 digest := by
    intro x hx heq
    have hsha : a.sha256 = x.sha256 := congrArg ScanCacheKey.artifactSha256 heq
    exact hnew (hsha ▸ List.mem_map_of_mem hx)
  obtain ⟨row, hrow, hrep, hc⟩ := hitem.row
  have hfresh : s₁.cached cfg t digest a = s.cached cfg t digest a := hpass.other hkey
  have hcache : ∀ x ∈ as, s₂.cached cfg t digest x = s₁.cached cfg t digest x :=
    fun x hx => hitem.other (hkey x hx).symm
  constructor
  · have hsame : s₂.forgetScan.inputs = s₁.forgetScan.inputs := by rw [hitem.frame]
    exact hsame.trans hpass.inputs
  · have hsame : s₂.forgetScan.huntOf t h = s₁.forgetScan.huntOf t h := by rw [hitem.frame]
    have hrow₂ : s₂.huntOf t h = _ := hsame.trans hpass.row
    rw [Db.huntOf_updHunt s₂ t h (f := fun r => { r with counters := c' }) fun _ => rfl, hrow₂]
    cases s.huntOf t h with
    | none => rfl
    | some r => by_cases has : as = [] <;> simp [has]
  · show c' = Corpus.tally cfg t digest s s₂ (as ++ [a])
    rw [tally_snoc hrow, tally_congr hcache, ← hpass.tally, hc, hfresh]
  · intro x hx
    rcases List.mem_append.mp hx with hx | hx
    · exact (hpass.settled x hx).mono hitem.keep hitem.keepMatch
    · rw [List.mem_singleton.mp hx]
      exact ⟨row, hrow, hrep⟩
  · exact fun hk => hitem.keep (hpass.keep hk)
  · intro k hk
    have h2 : s₂.hunt.scanCache.get k = s₁.hunt.scanCache.get k :=
      hitem.other (hk a (List.mem_append_right _ (List.mem_singleton_self a)))
    exact h2.trans (hpass.other fun x hx => hk x (List.mem_append_left _ hx))
  · exact fun hk => hitem.keepMatch (hpass.keepMatch hk)
  · intro hall
    -- Nothing was to be done for the earlier ones, and nothing is for this one.
    obtain ⟨hm, hsc⟩ := hpass.replay fun x hx => hall x (List.mem_append_left _ hx)
    obtain ⟨row', hrow', hrep'⟩ := (hall a (List.mem_append_right _ (List.mem_singleton_self a))).mono
      hpass.keep hpass.keepMatch
    obtain ⟨hm', hsc'⟩ := hitem.settled hrow' hrep'
    exact ⟨hm'.trans hm, hsc'.trans hsc⟩

/-- **The loop**, over artifacts with distinct digests.  Bytes are read only
when the pass meets an artifact without a cached result. -/
theorem wp_scanArtifacts {P : Pt → Db → Prop} {who : Who} {as : List Artifact}
    (hsha : (as.map Artifact.sha256).Nodup) {s : Db}
    (hitem : ∀ c step s', (step = .read → ∃ a ∈ as, s.cached cfg t digest a = none) →
      P (.hunt (.exeItem t h who c step)) s')
    (hprog : ∀ c s', P (.hunt (.exeProgress t h who c)) s') :
    Prog.wp P (fun r s' => match r with
      | .ok c => PassDone cfg t h digest s as s' c
      | .error _ => False)
      (Prog.loop (huntStep cfg who t h digest) as {}) s := by
  refine Prog.wp_loop (I := fun xs c s' => ∃ ys, as = ys ++ xs ∧
    PassDone cfg t h digest s ys s' c) ?_ ?_ _ _ _ ⟨[], rfl, PassDone.nil s⟩
  · rintro c s' ⟨ys, has, hpass⟩
    obtain rfl : as = ys := by simpa using has
    exact hpass
  · rintro a xs c s₁ ⟨ys, rfl, hpass⟩
    have hnew : a.sha256 ∉ ys.map Artifact.sha256 := by
      rw [List.map_append, List.map_cons] at hsha
      exact fun hmem => (List.nodup_append.mp hsha).2.2 _ hmem _ List.mem_cons_self rfl
    have hother : s₁.cached cfg t digest a = s.cached cfg t digest a := by
      refine hpass.other fun x hx heq => ?_
      have hsame : a.sha256 = x.sha256 := congrArg ScanCacheKey.artifactSha256 heq
      exact hnew (hsame ▸ List.mem_map_of_mem hx)
    refine Prog.wp_bind (Prog.wp_mono (fun _ _ hP => hP) ?_ (wp_huntItem fun step s' hstep =>
      hitem c step s' fun hr => ⟨a, by simp, hother ▸ hstep hr⟩))
    intro r s₂ hr
    cases r with
    | error e => exact hr.elim
    | ok c' =>
      refine ⟨hprog _ _, fun _ => ?_⟩
      exact ⟨ys ++ [a], by simp, hpass.snoc hr hnew⟩

end Corpus
