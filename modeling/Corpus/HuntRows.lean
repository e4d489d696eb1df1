/-
What a move does to hunts and jobs.

The hunt tables are written by few kinds of statement.  `RowStep` lists what a
move can do to one hunt row, `JobStep` what it can do to one job; with
`HuntMove.row_new` for the rows that appear, they are all that later invariants
need to know of a move besides where it leads.
-/
import Corpus.Frames

namespace Corpus

variable {cfg : Config} {s s' : Db} {c : Ctl Pt Reply}

/-- A move that is not one of the hunts keeps their tables, and leads to them
only at the start of `forward_scan`. -/
theorem Move.hunt_cases {l : Pt} (h : Move cfg l s s' c) :
    (∃ p, l = .hunt p ∧ HuntMove cfg p s s' c) ∨
      (s'.hunt = s.hunt ∧ (∀ q, l ≠ .hunt q) ∧
        ∀ q, c = .at (.hunt q) → ∃ t a, q = .forward t a none) := by
  cases h with
  | hunt hm => exact .inl ⟨_, rfl, hm⟩
  | ingest hm =>
    refine .inr ⟨by cases hm <;> rfl, fun q hq => (by cases hq), fun q hq => ?_⟩
    subst hq
    cases hm with
    | finAdopt now hget => exact ⟨_, _, rfl⟩
    | finNew id now hfree hid => exact ⟨_, _, rfl⟩
  | sim hf hc =>
    refine .inr ⟨?_, fun q hq => (by cases hq), fun q hq => ?_⟩
    · obtain ⟨d, o, rfl⟩ := hf
      rfl
    · subst hq
      rcases hc with ⟨p', h⟩ | ⟨r, h⟩ <;> cases h

/-! ### Hunt rows -/

theorem Db.huntOf_some {t h : Uuid} {r : Hunt} (hr : s.huntOf t h = some r) :
    s.hunt.hunts.get h = some r ∧ r.tenant = t := by
  have := Option.filter_eq_some_iff.mp hr
  simpa using this

theorem Db.huntOf_eq {h : Uuid} {r : Hunt} (hr : s.hunt.hunts.get h = some r) :
    s.huntOf r.tenant h = some r :=
  Option.filter_eq_some_iff.mpr ⟨hr, by simp⟩

/-- What a statement can do to the row `r` of a hunt. -/
inductive RowStep (s : Db) : HuntPt → Hunt → Hunt → Prop where
  | same {p : HuntPt} {r : Hunt} : RowStep s p r r
  | validate {r : Hunt} {who : Who} {pinned : Option ℕ} :
      RowStep s (.enqValidate r.tenant r.id who pinned) r { r with state := .validating }
  | enqFail {r : Hunt} {who : Who} (msg : String) (now : Time) :
      RowStep s (.enqFail r.tenant r.id who) r
        { r with state := .failed, error := some msg, completedAt := some now }
  | plan {r : Hunt} {who : Who} {pinned : Option ℕ} {w planned : ℕ} :
      RowStep s (.enqPlan r.tenant r.id who pinned w planned) r { r with
        state := .planned, corpusWatermark := some w, plannedArtifacts := planned, counters := {},
        error := none, completedAt := none }
  | queue {r : Hunt} {who : Who} :
      RowStep s (.enqQueue r.tenant r.id who) r { r with state := .queued }
  | claim {r : Hunt} {worker : String} {j : HuntJob} (now : Time) : s.nextJob = some j →
      j.huntId = r.id → j.tenant = r.tenant → r.state = .queued →
      RowStep s (.claim worker) r
        { r with state := .running, startedAt := r.startedAt.or (some now) }
  | exeFail {r : Hunt} {who : Who} (msg : String) (now : Time) :
      RowStep s (.exeFail r.tenant r.id who) r
        { r with state := .failed, error := some msg, completedAt := some now }
  | running {r : Hunt} {who : Who} {w : ℕ} (now : Time) :
      RowStep s (.exeRunning r.tenant r.id who w) r
        { r with state := .running, startedAt := r.startedAt.or (some now) }
  | progress {r : Hunt} {who : Who} {k : Counters} :
      RowStep s (.exeProgress r.tenant r.id who k) r { r with counters := k }
  | final {r : Hunt} {who : Who} {k : Counters} (now : Time) :
      RowStep s (.exeFinal r.tenant r.id who k) r
        { r with state := finalState k, completedAt := some now }
  | forward {r : Hunt} {t a : Uuid} (k : Counters) :
      RowStep s (.forward t a (some r.id)) r { r with counters := k }

/-- No statement changes what a hunt is. -/
theorem RowStep.keeps {p : HuntPt} {r r' : Hunt} (h : RowStep s p r r') :
    r'.tenant = r.tenant ∧ r'.kind = r.kind ∧ r'.bundleId = r.bundleId ∧
      r'.bundleDigest = r.bundleDigest := by
  cases h <;> exact ⟨rfl, rfl, rfl, rfl⟩

/-- An update of one hunt, seen from a row. -/
theorem row_updHunt {p : HuntPt} {t h id : Uuid} {r : Hunt} {f : Hunt → Hunt}
    (hr : s.hunt.hunts.get id = some r)
    (hf : r.id = h → r.tenant = t → RowStep s p r { f r with id := r.id }) :
    ∃ r', (s.updHunt t h f).hunt.hunts.get id = some r' ∧ RowStep s p r r' := by
  rw [Db.get_updHunt, hr, Option.map_some]
  refine ⟨_, rfl, ?_⟩
  dsimp only
  split
  · next hcond =>
    simp only [Bool.and_eq_true, decide_eq_true_eq] at hcond
    exact hf hcond.1 hcond.2
  · exact .same

/-- **A row keeps its place**: what each move does to a hunt that is there. -/
theorem HuntMove.row_of {p : HuntPt} (hm : HuntMove cfg p s s' c) {id : Uuid} {r : Hunt}
    (hr : s.hunt.hunts.get id = some r) :
    ∃ r', s'.hunt.hunts.get id = some r' ∧ RowStep s p r r' := by
  have hid : r.id = id := (Table.mem_of_get hr).2
  cases hm with
  | pubTx hpub =>
    rcases (Db.publish_spec hpub).hunts with heq | ⟨x, _, hfree, heq⟩
    · exact ⟨r, by rw [heq]; exact hr, .same⟩
    · exact ⟨r, by rw [heq, Table.get_insertNew, hr]; rfl, .same⟩
  | newInsert x now hfree hc =>
    refine ⟨r, ?_, .same⟩
    show (s.hunt.hunts.insertNew _).get id = some r
    rw [Table.get_insertNew, hr]
    rfl
  | enqValidate =>
    refine row_updHunt hr fun h1 h2 => ?_
    subst h1 h2
    exact .validate
  | enqFail msg now =>
    refine row_updHunt hr fun h1 h2 => ?_
    subst h1 h2
    exact .enqFail msg now
  | enqPlan =>
    refine row_updHunt hr fun h1 h2 => ?_
    subst h1 h2
    exact .plan
  | enqQueue =>
    refine row_updHunt hr fun h1 h2 => ?_
    subst h1 h2
    exact .queue
  | enqJob now =>
    refine ⟨r, ?_, .same⟩
    unfold Db.upsertJob
    split <;> exact hr
  | @claim _ worker j now hjob =>
    have hstep : ∀ hr' : (s.updJob j.huntId fun r => { r with
        claimedAt := some now, claimedBy := some worker }).hunt.hunts.get id = some r,
        ∃ r', ((s.updJob j.huntId fun r => { r with
          claimedAt := some now, claimedBy := some worker }).updHunt j.tenant j.huntId fun r =>
            if r.state = .queued then
              { r with state := .running, startedAt := r.startedAt.or (some now) }
            else r).hunt.hunts.get id = some r' ∧ RowStep s (.claim worker) r r' := by
      intro hr'
      rw [Db.get_updHunt, hr', Option.map_some]
      refine ⟨_, rfl, ?_⟩
      dsimp only
      split
      · next hcond =>
        simp only [Bool.and_eq_true, decide_eq_true_eq] at hcond
        split
        · next hq => exact .claim now hjob hcond.1.symm hcond.2.symm hq
        · exact .same
      · exact .same
    exact hstep hr
  | exeFail msg now =>
    refine row_updHunt hr fun h1 h2 => ?_
    subst h1 h2
    exact .exeFail msg now
  | exeRunning now =>
    refine row_updHunt hr fun h1 h2 => ?_
    subst h1 h2
    exact .running now
  | exeProgress =>
    refine row_updHunt hr fun h1 h2 => ?_
    subst h1 h2
    exact .progress
  | exeLast =>
    refine row_updHunt hr fun h1 h2 => ?_
    subst h1 h2
    exact .progress
  | exeFinal now =>
    refine row_updHunt hr fun h1 h2 => ?_
    subst h1 h2
    exact .final now
  | exeItem hf =>
    obtain ⟨M, C, D, o, rfl⟩ := hf.rest
    exact ⟨r, hr, .same⟩
  | exeItemDone hf =>
    obtain ⟨M, C, D, o, rfl⟩ := hf.rest
    exact ⟨r, hr, .same⟩
  | @forward _ _ t a hunt hunt' hf hc =>
    obtain ⟨f, hget⟩ := hf.hunts
    refine ⟨_, by rw [hget, hr, Option.map_some], ?_⟩
    split
    · next hh =>
      subst hh
      exact .forward (f r)
    · exact .same
  | @forwardDone _ _ t a hunt _ hf hc =>
    obtain ⟨f, hget⟩ := hf.hunts
    refine ⟨_, by rw [hget, hr, Option.map_some], ?_⟩
    split
    · next hh =>
      subst hh
      exact .forward (f r)
    · exact .same
  | _ => exact ⟨r, hr, .same⟩

/-- Rows that appear are drafts of `create_hunt` and forward hunts. -/
theorem HuntMove.row_new {p : HuntPt} (hm : HuntMove cfg p s s' c) {id : Uuid} {r : Hunt}
    (hnone : s.hunt.hunts.get id = none) (hr : s'.hunt.hunts.get id = some r) :
    (∃ t digest bundle who now, p = .newInsert t digest bundle who ∧
      r = draftHunt id t bundle digest now) ∨
    ((∃ t digest act, p = .pubTx t digest act) ∧ r.kind = .forward ∧ r.corpusWatermark = none) := by
  have hupd : ∀ {t h : Uuid} {f : Hunt → Hunt}, (s.updHunt t h f).hunt.hunts.get id ≠ some r := by
    intro t h f
    rw [Db.get_updHunt, hnone]
    exact fun hc => by cases hc
  have hkeep : s'.hunt.hunts.get id ≠ none := by rw [hr]; exact fun hc => by cases hc
  cases hm with
  | pubTx hpub =>
    rcases (Db.publish_spec hpub).hunts with heq | ⟨x, hkind, hfree, heq⟩
    · exact absurd hnone (by rw [← heq]; exact hkeep)
    · rw [heq, Table.get_insertNew, hnone, Option.none_or] at hr
      split at hr
      · cases hr
        exact .inr ⟨⟨_, _, _, rfl⟩, hkind⟩
      · cases hr
  | @newInsert _ t digest bundle who x now _ hfree hc =>
    have hr' : (s.hunt.hunts.insertNew (draftHunt x t bundle digest now)).get id = some r := hr
    rw [Table.get_insertNew, hnone, Option.none_or] at hr'
    split at hr'
    · next heq =>
      cases hr'
      obtain rfl : x = id := heq
      exact .inl ⟨_, _, _, _, _, rfl, rfl⟩
    · cases hr'
  | enqJob now =>
    unfold Db.upsertJob at hkeep
    split at hkeep <;> exact absurd hnone hkeep
  | enqValidate => exact absurd hr hupd
  | enqFail msg now => exact absurd hr hupd
  | enqPlan => exact absurd hr hupd
  | enqQueue => exact absurd hr hupd
  | @claim _ worker j now hjob =>
    rw [Db.get_updHunt] at hr
    change Option.map _ (s.hunt.hunts.get id) = some r at hr
    rw [hnone] at hr
    cases hr
  | exeFail msg now => exact absurd hr hupd
  | exeRunning now => exact absurd hr hupd
  | exeProgress => exact absurd hr hupd
  | exeLast => exact absurd hr hupd
  | exeFinal now => exact absurd hr hupd
  | exeItem hf =>
    obtain ⟨M, C, D, o, rfl⟩ := hf.rest
    exact absurd hnone hkeep
  | exeItemDone hf =>
    obtain ⟨M, C, D, o, rfl⟩ := hf.rest
    exact absurd hnone hkeep
  | forward hf hc =>
    obtain ⟨f, hget⟩ := hf.hunts
    rw [hget, hnone] at hr
    cases hr
  | forwardDone hf hc =>
    obtain ⟨f, hget⟩ := hf.hunts
    rw [hget, hnone] at hr
    cases hr
  | _ => exact absurd hnone hkeep

/-! ### Jobs -/

/-- What a statement can do to the job of the hunt `id`. -/
inductive JobStep (s : Db) (id : Uuid) : HuntPt → Option HuntJob → Option HuntJob → Prop where
  | same {p : HuntPt} {j : Option HuntJob} : JobStep s id p j j
  | enqueue {t : Uuid} {who : Who} {j : Option HuntJob} {j' : HuntJob} : j'.claimable = true →
      j'.tenant = (j.map HuntJob.tenant).getD t → JobStep s id (.enqJob t id who) j (some j')
  | claim {worker : String} {j : HuntJob} (now : Time) : s.nextJob = some j → j.huntId = id →
      JobStep s id (.claim worker) (some j)
        (some { j with claimedAt := some now, claimedBy := some worker })
  | running {t : Uuid} {who : Who} {w : ℕ} {j : HuntJob} (now : Time) :
      JobStep s id (.exeClaim t id who w) (some j)
        (some { j with claimedAt := some now, claimedBy := some "local-worker" })
  | done {t : Uuid} {who : Who} {j : HuntJob} (now : Time) :
      JobStep s id (.exeJobDone t id who) (some j) (some { j with finishedAt := some now })

/-- The job the claim query picks is there and can be claimed. -/
theorem Db.nextJob_some {j : HuntJob} (h : s.nextJob = some j) :
    s.hunt.jobs.get j.huntId = some j ∧ j.claimable = true := by
  have hmem : j ∈ (s.hunt.jobs.rows.filter HuntJob.claimable).insertionSort
      fun x y => x.enqueuedAt ≤ y.enqueuedAt := List.mem_of_mem_head? h
  rw [List.mem_insertionSort, List.mem_filter] at hmem
  exact ⟨Table.mem_rows_iff.mp hmem.1, hmem.2⟩

/-- An update of one job, seen from a hunt. -/
theorem job_updJob {p : HuntPt} {h id : Uuid} {f : HuntJob → HuntJob}
    (hf : ∀ j, s.hunt.jobs.get id = some j → j.huntId = h → h = id →
      JobStep s id p (some j) (some { f j with huntId := j.huntId })) :
    JobStep s id p (s.hunt.jobs.get id) ((s.updJob h f).hunt.jobs.get id) := by
  rw [Db.get_updJob]
  cases hj : s.hunt.jobs.get id with
  | none => exact .same
  | some j =>
    rw [Option.map_some]
    split
    · next hjh => exact hf j hj hjh (hjh.symm.trans (Table.mem_of_get hj).2)
    · exact .same

/-- **What each move does to the job of a hunt.** -/
theorem HuntMove.job_of {p : HuntPt} (hm : HuntMove cfg p s s' c) (id : Uuid) :
    JobStep s id p (s.hunt.jobs.get id) (s'.hunt.jobs.get id) := by
  cases hm with
  | pubTx hpub =>
    rw [(Db.publish_spec hpub).jobs]
    exact .same
  | @enqJob _ t h who now =>
    unfold Db.upsertJob
    split
    · refine job_updJob fun j hj hjh hid => ?_
      subst hid
      exact .enqueue rfl rfl
    · next hnone =>
      show JobStep s id _ _ ((s.hunt.jobs.insertNew _).get id)
      rw [Table.get_insertNew]
      by_cases hid : h = id
      · subst hid
        have hfree : s.hunt.jobs.get h = none := by simpa using hnone
        rw [hfree, Option.none_or, if_pos rfl]
        exact .enqueue rfl rfl
      · rw [if_neg hid, Option.or_none]
        exact .same
  | @claim _ worker j now hjob =>
    refine job_updJob fun x hx hxj hid => ?_
    subst hid
    obtain rfl : j = x := Option.some.inj ((Db.nextJob_some hjob).1.symm.trans hx)
    exact .claim now hjob rfl
  | exeClaim now =>
    refine job_updJob fun j hj hjh hid => ?_
    subst hid
    exact .running now
  | exeJobDone now =>
    refine job_updJob fun j hj hjh hid => ?_
    subst hid
    exact .done now
  | exeItem hf =>
    obtain ⟨M, C, D, o, rfl⟩ := hf.rest
    exact .same
  | exeItemDone hf =>
    obtain ⟨M, C, D, o, rfl⟩ := hf.rest
    exact .same
  | forward hf hc =>
    obtain ⟨H, M, C, D, o, rfl⟩ := hf.rest
    exact .same
  | forwardDone hf hc =>
    obtain ⟨H, M, C, D, o, rfl⟩ := hf.rest
    exact .same
  | _ => exact .same

/-! ### Bundles -/

/-- The bundle `b` exists and its rules compile for the tenant. -/
def Compiles (cfg : Config) (s : Db) (t b : Uuid) : Prop :=
  (∃ k x, s.hunt.bundles.get k = some x ∧ x.id = b) ∧
    cfg.compileBundle (s.bundleSources t b) = .ok () ∧ cfg.minTier = none

/-- The sources of a bundle that exists are settled. -/
theorem Published.bundleSources (h : Published s s') {t b : Uuid}
    (hb : ∃ k x, s.hunt.bundles.get k = some x ∧ x.id = b) :
    s'.bundleSources t b = s.bundleSources t b := by
  obtain ⟨L, hL, hnew⟩ := h.bundleRules
  obtain ⟨k, x, hx, rfl⟩ := hb
  have hnone : L.filter (fun r => r.bundleId = x.id) = [] := by
    refine List.filter_eq_nil_iff.mpr fun r hr => ?_
    simpa using (hnew r hr x (Table.mem_of_get hx).1).symm
  have hsource : ∀ id, ((s'.hunt.rules.get id).filter fun r => r.tenant = t).map
      (fun r => (r.ns, r.source)) = ((s.hunt.rules.get id).filter fun r => r.tenant = t).map
        fun r => (r.ns, r.source) := by
    intro id
    have hbody := h.rules id
    cases h' : s'.hunt.rules.get id with
    | none =>
      rw [h', Option.map_none] at hbody
      rw [Option.map_eq_none_iff.mp hbody.symm]
    | some r' =>
      rw [h', Option.map_some] at hbody
      obtain ⟨r, hr, hrb⟩ := Option.map_eq_some_iff.mp hbody.symm
      obtain ⟨h1, h2, h3⟩ : r.tenant = r'.tenant ∧ r.ns = r'.ns ∧ r.source = r'.source := by
        simpa [Rule.body] using hrb
      rw [hr, Option.filter_some, Option.filter_some, h1]
      by_cases ht : r'.tenant = t
      · simp [ht, h2, h3]
      · simp [ht]
  simp only [Db.bundleSources, hL, List.filter_append, hnone, List.append_nil, hsource]

/-- Only the transaction of `publish_bundle` writes rules and bundles. -/
theorem HuntMove.registry {p : HuntPt} (hm : HuntMove cfg p s s' c) :
    (s'.hunt.bundles = s.hunt.bundles ∧ s'.hunt.bundleRules = s.hunt.bundleRules ∧
      s'.hunt.rules = s.hunt.rules) ∨ Published s s' := by
  cases hm with
  | pubTx hpub => exact .inr (Db.publish_spec hpub)
  | enqJob now =>
    unfold Db.upsertJob
    split <;> exact .inl ⟨rfl, rfl, rfl⟩
  | exeItem hf =>
    obtain ⟨M, C, D, o, rfl⟩ := hf.rest
    exact .inl ⟨rfl, rfl, rfl⟩
  | exeItemDone hf =>
    obtain ⟨M, C, D, o, rfl⟩ := hf.rest
    exact .inl ⟨rfl, rfl, rfl⟩
  | forward hf hc =>
    obtain ⟨H, M, C, D, o, rfl⟩ := hf.rest
    exact .inl ⟨rfl, rfl, rfl⟩
  | forwardDone hf hc =>
    obtain ⟨H, M, C, D, o, rfl⟩ := hf.rest
    exact .inl ⟨rfl, rfl, rfl⟩
  | _ => exact .inl ⟨rfl, rfl, rfl⟩

/-- A bundle that exists goes on existing. -/
theorem HuntMove.bundle_mono {p : HuntPt} (hm : HuntMove cfg p s s' c) {b : Uuid}
    (h : ∃ k x, s.hunt.bundles.get k = some x ∧ x.id = b) :
    ∃ k x, s'.hunt.bundles.get k = some x ∧ x.id = b := by
  obtain ⟨k, x, hx, hid⟩ := h
  rcases hm.registry with ⟨hb, _, _⟩ | hpub
  · exact ⟨k, x, by rw [hb]; exact hx, hid⟩
  · obtain ⟨x', hx', hid'⟩ := hpub.bundles hx
    exact ⟨k, x', hx', hid'.trans hid⟩

/-- What compiles goes on compiling. -/
theorem HuntMove.compiles {p : HuntPt} (hm : HuntMove cfg p s s' c) {t b : Uuid}
    (h : Compiles cfg s t b) : Compiles cfg s' t b := by
  refine ⟨hm.bundle_mono h.1, ?_, h.2.2⟩
  rcases hm.registry with ⟨_, hbr, hr⟩ | hpub
  · have hsame : s'.bundleSources t b = s.bundleSources t b := by
      simp only [Db.bundleSources, hbr, hr]
    rw [hsame]
    exact h.2.1
  · rw [hpub.bundleSources h.1]
    exact h.2.1

end Corpus
