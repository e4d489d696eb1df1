/-
Stranded hunts.

A hunt that is queued or running is refused by `enqueue_hunt`, so somebody has to
finish it: a worker that can still claim its job, or a call in flight that tends
it (`HuntPt.tends`).  `Attended` says that there is one.

Nothing in the server notices an executor that is gone.  `Relieved` is the
condition on a step: a call that tends a hunt is cut off only if its job can be
claimed or another call tends it, and a job is not marked finished while it is
the hunt's only way on.

Main results:
* `no_stranded_hunt` — along every history of such steps every retro hunt is
  attended;
* `crashed_worker_strands_hunt` — a worker that is cut off in its scan.
-/
import Corpus.HuntPhases
import Corpus.ServerMoves

namespace Corpus

variable {cfg : Config}

/-- The hunt, with its tenant, that the call will execute or insert the job of. -/
def HuntPt.tends (p : HuntPt) : Option (Uuid × Uuid) :=
  match p with
  | .enqJob t h _ => some (t, h)
  | p =>
    match p.phase with
    | some (t, h, .pre) | some (t, h, .exe) => some (t, h)
    | _ => none

/-- Some call in flight tends the hunt. -/
def Live (pts : ℕ → Ctl Pt Reply) (h : Uuid) : Prop :=
  ∃ m q t, pts m = .at (.hunt q) ∧ q.tends = some (t, h)

/-- The state in which `enqueue_hunt` answers with a conflict. -/
def HuntState.busy (st : HuntState) : Prop := st = .running ∨ st = .queued

/-- The hunt is terminal, or its job can be claimed, or `enqueue_hunt` accepts it, or
a call in flight tends it. -/
def Attended (s : Db) (pts : ℕ → Ctl Pt Reply) (r : Hunt) : Prop :=
  (r.state = .completed ∨ r.state = .completedPartial ∨ r.state = .failed) ∨
    Claimable s r.id ∨ ¬ r.state.busy ∨ Live pts r.id

/-- The condition on a step: when a call that tends a busy hunt is cut off, the job
can be claimed or another call tends the hunt; when a job that can be claimed is
marked finished, the hunt is not busy or a call tends it. -/
def Relieved (s : Db) (pts : ℕ → Ctl Pt Reply) : Act Call Env → Prop
  | .kill n => ∀ q t h r, pts n = .at (.hunt q) → q.tends = some (t, h) →
      s.hunt.hunts.get h = some r → r.state.busy →
        Claimable s h ∨ ∃ m q' t', m ≠ n ∧ pts m = .at (.hunt q') ∧ q'.tends = some (t', h)
  | .exec n _ => ∀ t h who r, pts n = .at (.hunt (.exeJobDone t h who)) →
      s.hunt.hunts.get h = some r → r.state.busy → Claimable s h → Live pts h
  | .spawn _ => True

/-! ### What stays true of a hunt -/

/-- The hunt is a retro hunt of the tenant. -/
def Retro (s : Db) (t h : Uuid) : Prop :=
  ∃ r, s.hunt.hunts.get h = some r ∧ r.tenant = t ∧ r.kind = .retro

/-- It has been planned at least once. -/
def Planned (s : Db) (t h : Uuid) : Prop :=
  ∃ r w, s.hunt.hunts.get h = some r ∧ r.tenant = t ∧ r.kind = .retro ∧ r.corpusWatermark = some w

/-- What a call knows of its hunt for good. -/
def Knows (s : Db) : HuntPt → Prop
  | .enqValidate t h _ _ | .enqBundle t h _ _ | .enqSources t h _ _ _ | .enqMax t h _
  | .enqCount t h _ _ _ | .enqPlan t h _ _ _ _ => Retro s t h
  | .enqQueue t h _ | .enqJob t h _ | .enqReturn t h _ | .exeGet t h _ | .exeFail t h _
  | .exeRunning t h _ _ | .exeClaim t h _ _ | .exeSelect t h _ _ | .exeItem t h _ _ _
  | .exeProgress t h _ _ | .exeFinal t h _ _ => Planned s t h
  | .exeBundle t h _ pinned | .exeSources t h _ pinned _ => Planned s t h ∧ pinned ≠ none
  | _ => True

theorem RowStep.pinned {s : Db} {p : HuntPt} {r r' : Hunt} (h : RowStep s p r r') {w : ℕ}
    (hw : r.corpusWatermark = some w) : ∃ w', r'.corpusWatermark = some w' := by
  cases h with
  | plan => exact ⟨_, rfl⟩
  | _ => exact ⟨w, hw⟩

section Step

variable {s s' : Db} {c : Ctl Pt Reply} {p : HuntPt} {pts : ℕ → Ctl Pt Reply} {n : ℕ}

theorem Retro.move {t h : Uuid} (hr : Retro s t h) (hm : HuntMove cfg p s s' c) : Retro s' t h := by
  obtain ⟨r, hr, ht, hk⟩ := hr
  obtain ⟨r', hr', hstep⟩ := hm.row_of hr
  exact ⟨r', hr', hstep.keeps.1.trans ht, hstep.keeps.2.1.trans hk⟩

theorem Planned.move {t h : Uuid} (hp : Planned s t h) (hm : HuntMove cfg p s s' c) :
    Planned s' t h := by
  obtain ⟨r, w, hr, ht, hk, hw⟩ := hp
  obtain ⟨r', hr', hstep⟩ := hm.row_of hr
  obtain ⟨w', hw'⟩ := hstep.pinned hw
  exact ⟨r', w', hr', hstep.keeps.1.trans ht, hstep.keeps.2.1.trans hk, hw'⟩

theorem Knows.move {q : HuntPt} (hq : Knows s q) (hm : HuntMove cfg p s s' c) : Knows s' q := by
  cases q with
  | enqValidate => exact Retro.move hq hm
  | enqBundle => exact Retro.move hq hm
  | enqSources => exact Retro.move hq hm
  | enqMax => exact Retro.move hq hm
  | enqCount => exact Retro.move hq hm
  | enqPlan => exact Retro.move hq hm
  | exeBundle => exact ⟨Planned.move hq.1 hm, hq.2⟩
  | exeSources => exact ⟨Planned.move hq.1 hm, hq.2⟩
  | enqQueue => exact Planned.move hq hm
  | enqJob => exact Planned.move hq hm
  | enqReturn => exact Planned.move hq hm
  | exeGet => exact Planned.move hq hm
  | exeFail => exact Planned.move hq hm
  | exeRunning => exact Planned.move hq hm
  | exeClaim => exact Planned.move hq hm
  | exeSelect => exact Planned.move hq hm
  | exeItem => exact Planned.move hq hm
  | exeProgress => exact Planned.move hq hm
  | exeFinal => exact Planned.move hq hm
  | _ => trivial

theorem Knows.congr {q : HuntPt} (hs : s'.hunt = s.hunt) : Knows s' q ↔ Knows s q := by
  cases q <;> simp only [Knows, Retro, Planned, hs]

/-- The invariant: what calls and jobs know, and every busy retro hunt is attended. -/
structure Tended (s : Db) (pts : ℕ → Ctl Pt Reply) : Prop where
  knows : ∀ {m q}, pts m = .at (.hunt q) → Knows s q
  job : ∀ {h j}, s.hunt.jobs.get h = some j → Planned s j.tenant h
  busy : ∀ {h r}, s.hunt.hunts.get h = some r → r.kind = .retro → r.state.busy →
    Claimable s h ∨ Live pts h

/-- The call goes on knowing what it needs. -/
theorem Tended.knows_next (hi : Tended s pts) (hn : pts n = .at (.hunt p)) {q : HuntPt}
    (hm : HuntMove cfg p s s' (.at (.hunt q))) : Knows s' q := by
  have hp := hi.knows hn
  -- What is known is of the hunt, and no move unmakes it; each point passes on what the next
  -- one needs.
  have hretro : ∀ {t h}, Retro s t h → Retro s' t h := fun hr => hr.move hm
  have hplanned : ∀ {t h}, Planned s t h → Planned s' t h := fun hr => hr.move hm
  cases hm with
  | enqGet hr hk hrun hqd htier => exact ⟨_, (Db.huntOf_some hr).1, (Db.huntOf_some hr).2, hk⟩
  | enqValidate => exact hretro hp
  | enqBundle hr => exact hp
  | enqFirst hc => exact hp
  | enqAgain hc => exact hp
  | enqMax => exact hp
  | enqCount => exact hp
  | enqPlan =>
    obtain ⟨r, hr, ht, hk⟩ := hp
    exact ⟨_, _, get_updHunt_self hr ht, ht, hk, rfl⟩
  | enqQueue => exact hplanned hp
  | enqJob now => exact hplanned hp
  | enqReturn hr hc =>
    rcases hc with ⟨_, hc⟩ | ⟨rfl, hc⟩ | ⟨_, digest, hc⟩ | ⟨_, digest, hc⟩
    · cases hc
    · cases hc
      exact hp
    · cases hc
      trivial
    · cases hc
      trivial
  | newInsert x now hfree hc =>
    rcases hc with hc | ⟨_, hc⟩
    · cases hc
    · cases hc
      trivial
  | claim now hj => exact hplanned (hi.job (Db.nextJob_some hj).1)
  | exeGet hrow hk =>
    refine ⟨hp, ?_⟩
    obtain ⟨r, w, hr, _, _, hw⟩ := hp
    obtain rfl := Option.some.inj ((Db.huntOf_some hrow).1.symm.trans hr)
    rw [hw]
    exact Option.some_ne_none w
  | exeBundle hrow => exact hp
  | exeInvalid hbad => exact hp.1
  | exeSources => exact hp.1
  | exeRunning now => exact hplanned hp
  | exeClaim now => exact hplanned hp
  | exeSelect => exact hp
  | exeSelectNone => exact hp
  | exeItem hf => exact hplanned hp
  | exeItemDone hf => exact hplanned hp
  | exeProgress => exact hplanned hp
  | exeLast => exact hplanned hp
  | exeReturn hc => rcases hc with hc | ⟨r, hc | hc⟩ <;> cases hc
  | forwardDone hf hc => exact absurd hc id
  | _ => trivial

theorem claimable_upsertJob (s : Db) (t h : Uuid) (now : Time) :
    Claimable (s.upsertJob t h now) h := by
  unfold Db.upsertJob
  split
  · next hsome =>
    obtain ⟨j, hj⟩ := Option.isSome_iff_exists.mp hsome
    refine ⟨_, by rw [Db.get_updJob, hj, Option.map_some, if_pos (Table.mem_of_get hj).2], rfl⟩
  · next hnone =>
    refine ⟨⟨h, t, now, none, none, none, none⟩, ?_, rfl⟩
    show (s.hunt.jobs.insertNew _).get h = _
    have hfree : s.hunt.jobs.get h = none := by simpa using hnone
    rw [Table.get_insertNew, hfree, Option.none_or, if_pos rfl]

/-- A call that tends a hunt goes on doing so, or leaves a claimable job, or leaves
the hunt in a state that is not busy. -/
theorem Tended.tends_next (hi : Tended s pts) (hn : pts n = .at (.hunt p))
    (hm : HuntMove cfg p s s' c) {t h : Uuid} (hp : p.tends = some (t, h)) {r' : Hunt}
    (hr' : s'.hunt.hunts.get h = some r') (hbusy : r'.state.busy) :
    Claimable s' h ∨ ∃ q t', c = .at (.hunt q) ∧ q.tends = some (t', h) := by
  have hk := hi.knows hn
  -- The last writes of a run leave a state that is not busy.
  have hfinal : ∀ {st : HuntState} {f : Hunt → Hunt}, Planned s t h → (∀ r, (f r).state = st) →
      (s.updHunt t h f).hunt.hunts.get h = some r' → r'.state = st := by
    rintro st f ⟨r, _, hr, ht, _⟩ hst hupd
    rw [get_updHunt_self hr ht] at hupd
    rw [← Option.some.inj hupd]
    exact hst r
  cases hm with
  | enqJob now =>
    cases hp
    exact .inl (claimable_upsertJob ..)
  | @enqReturn _ _ _ who _ _ hr hc =>
    rcases hc with ⟨rfl, hc⟩ | ⟨rfl, hc⟩ | ⟨rfl, digest, hc⟩ | ⟨rfl, digest, hc⟩
    · cases hp
    · cases hp
      exact .inr ⟨_, _, hc, rfl⟩
    · cases hp
    · cases hp
  | @enqReturnLost _ _ _ who hlost =>
    cases who with
    | sync =>
      cases hp
      obtain ⟨r, _, hr, rfl, _⟩ := hk
      rw [Db.huntOf_eq hr] at hlost
      cases hlost
    | _ => cases hp
  | @exeGet _ _ _ who _ hr hkind =>
    cases who <;> (cases hp; exact .inr ⟨_, _, rfl, rfl⟩)
  | @exeRefused _ _ _ who hno =>
    obtain ⟨r, _, hr, rfl, hkind, _⟩ := hk
    exact absurd hkind (hno r (Db.huntOf_eq hr))
  | @exeBundle _ _ _ who _ _ hr =>
    cases who <;> (cases hp; exact .inr ⟨_, _, rfl, rfl⟩)
  | @exeBundleLost _ _ _ who _ hlost =>
    obtain ⟨⟨r, _, hr, rfl, _⟩, _⟩ := hk
    rw [Db.huntOf_eq hr] at hlost
    cases hlost
  | @exeInvalid _ _ _ _ who _ hbad =>
    cases who <;> (cases hp; exact .inr ⟨_, _, rfl, rfl⟩)
  | exeUnpinned => exact absurd rfl hk.2
  | @exeSources _ _ _ _ who _ =>
    cases who <;> (cases hp; exact .inr ⟨_, _, rfl, rfl⟩)
  | @exeFail _ _ _ who msg now =>
    have hst : r'.state = .failed := by
      cases who <;> (cases hp; exact hfinal hk (fun _ => rfl) hr')
    rw [hst] at hbusy
    rcases hbusy with h | h <;> cases h
  | @exeRunning _ _ _ who _ now =>
    cases who <;> (cases hp; exact .inr ⟨_, _, rfl, rfl⟩)
  | @exeClaim _ _ _ who _ now =>
    cases who <;> (cases hp; exact .inr ⟨_, _, rfl, rfl⟩)
  | @exeFinal _ _ _ who k now =>
    cases hp
    have hst : r'.state = finalState k := hfinal hk (fun _ => rfl) hr'
    rw [hst, finalState] at hbusy
    split at hbusy <;> rcases hbusy with h | h <;> cases h
  | exeSelect => cases hp; exact .inr ⟨_, _, rfl, rfl⟩
  | exeSelectNone => cases hp; exact .inr ⟨_, _, rfl, rfl⟩
  | exeItem hf => cases hp; exact .inr ⟨_, _, rfl, rfl⟩
  | exeItemDone hf => cases hp; exact .inr ⟨_, _, rfl, rfl⟩
  | exeProgress => cases hp; exact .inr ⟨_, _, rfl, rfl⟩
  | exeLast => cases hp; exact .inr ⟨_, _, rfl, rfl⟩
  | _ => cases hp

/-- A claimable job stays so, unless it is claimed or marked finished. -/
theorem claimable_next (hm : HuntMove cfg p s s' c) {h : Uuid} (hc : Claimable s h) :
    Claimable s' h ∨ (∃ q t, c = .at (.hunt q) ∧ q.tends = some (t, h)) ∨
      ∃ t who, p = .exeJobDone t h who := by
  obtain ⟨j, hj, hclaim⟩ := hc
  have hstep := hm.job_of h
  rw [hj] at hstep
  generalize hj' : s'.hunt.jobs.get h = j' at hstep
  cases hstep with
  | same => exact .inl ⟨j, hj', hclaim⟩
  | enqueue h1 h2 => exact .inl ⟨_, hj', h1⟩
  | claim now hnext hid =>
    cases hm with
    | claimNone hnone =>
      rw [hnone] at hnext
      cases hnext
    | claim now' hnext' =>
      obtain rfl := Option.some.inj (hnext'.symm.trans hnext)
      exact .inr (.inl ⟨_, _, rfl, by rw [← hid]; rfl⟩)
  | running now =>
    cases hm with
    | exeClaim now' => exact .inr (.inl ⟨_, _, rfl, rfl⟩)
  | done now => exact .inr (.inr ⟨_, _, rfl⟩)

/-- A busy hunt stays attended. -/
theorem Tended.busy_next (hi : Tended s pts) (hn : pts n = .at (.hunt p))
    (hm : HuntMove cfg p s s' c) {env : Env} (hok : Relieved s pts (.exec n env)) {h : Uuid}
    {r' : Hunt} (hr' : s'.hunt.hunts.get h = some r') (hk : r'.kind = .retro)
    (hbusy : r'.state.busy) : Claimable s' h ∨ Live (Function.update pts n c) h := by
  have hself : ∀ {q t}, c = .at (.hunt q) → q.tends = some (t, h) →
      Live (Function.update pts n c) h := by
    intro q t hc hq
    exact ⟨n, q, t, by rw [Function.update_self, hc], hq⟩
  have hother : ∀ {m q t}, m ≠ n → pts m = .at (.hunt q) → q.tends = some (t, h) →
      Live (Function.update pts n c) h := by
    intro m q t hne hat hq
    exact ⟨m, q, t, by rw [Function.update_of_ne hne, hat], hq⟩
  cases hr : s.hunt.hunts.get h with
  | none =>
    rcases hm.row_new hr hr' with ⟨t, digest, b, who, now, _, rfl⟩ | ⟨_, hkf, _⟩
    · rcases hbusy with h | h <;> cases h
    · rw [hk] at hkf
      cases hkf
  | some r =>
    obtain ⟨r'', hr'', hstep⟩ := hm.row_of hr
    obtain rfl := Option.some.inj (hr''.symm.trans hr')
    obtain rfl : r.id = h := (Table.mem_of_get hr).2
    -- The hunt was busy before, or this step has made it so.
    by_cases hb : r.state.busy
    · rcases hi.busy hr (hstep.keeps.2.1 ▸ hk) hb with hclaim | ⟨m, q, t, hat, hq⟩
      · rcases claimable_next hm hclaim with hclaim' | ⟨q, t, hc, hq⟩ | ⟨t, who, rfl⟩
        · exact .inl hclaim'
        · exact .inr (hself hc hq)
        · -- the job is marked finished: the condition names another call
          obtain ⟨m, q, t', hat, hq⟩ := hok t _ who r hn hr hb hclaim
          refine .inr (hother ?_ hat hq)
          rintro rfl
          rw [hn] at hat
          cases hat
          cases hq
      -- The call that tends it takes this step, or stays where it is.
      · rcases eq_or_ne m n with rfl | hne
        · rw [hn] at hat
          cases hat
          rcases hi.tends_next hn hm hq hr' hbusy with hclaim | ⟨q', t', hc, hq'⟩
          · exact .inl hclaim
          · exact .inr (hself hc hq')
        · exact .inr (hother hne hat hq)
    · cases hstep with
      | queue =>
        cases hm with
        | enqQueue => exact .inr (hself rfl rfl)
      | claim now hnext hid ht hqd => exact absurd (.inr hqd) hb
      | @running _ who w now =>
        cases hm with
        | exeRunning now' => cases who <;> exact .inr (hself rfl rfl)
      | same => exact absurd hbusy hb
      | progress => exact absurd hbusy hb
      | forward k => exact absurd hbusy hb
      | @final _ who k now =>
        rcases hbusy with h | h <;> (simp only [finalState] at h; split at h <;> cases h)
      | _ => rcases hbusy with h | h <;> cases h

theorem Tended.exec (hi : Tended s pts) (hn : pts n = .at (.hunt p)) (hm : HuntMove cfg p s s' c)
    {env : Env} (hok : Relieved s pts (.exec n env)) : Tended s' (Function.update pts n c) where
  knows {m q} hat := by
    rcases View.at_update hat with ⟨rfl, rfl⟩ | ⟨hne, hat'⟩
    · exact hi.knows_next hn hm
    · exact (hi.knows hat').move hm
  job {h j'} hj' := by
    have hstep := hm.job_of h
    rw [hj'] at hstep
    generalize hj : s.hunt.jobs.get h = j at hstep
    cases hstep with
    | enqueue hc ht =>
      have hplan : Planned s _ h := hi.knows hn
      rw [ht]
      cases j with
      | none => exact hplan.move hm
      | some j₀ => exact (hi.job hj).move hm
    | same => exact (hi.job hj).move hm
    | claim now h1 h2 => exact (hi.job hj).move hm
    | running now => exact (hi.job hj).move hm
    | done now => exact (hi.job hj).move hm
  busy hr' hk hbusy := hi.busy_next hn hm hok hr' hk hbusy

/-- Calls that start or do something else. -/
theorem Tended.other (hi : Tended s pts) (hs : s'.hunt = s.hunt)
    (hc : ∀ q, c = .at (.hunt q) → q.idle = true)
    (hlive : ∀ {h r}, s.hunt.hunts.get h = some r → r.state.busy → Live pts h →
      Claimable s h ∨ Live (Function.update pts n c) h) : Tended s' (Function.update pts n c) where
  knows {m q} hat := by
    rcases View.at_update hat with ⟨rfl, rfl⟩ | ⟨hne, hat'⟩
    · have hidle := hc q rfl
      cases q <;> trivial
    · exact (Knows.congr hs).mpr (hi.knows hat')
  job hj := by
    rw [hs] at hj
    simpa only [Planned, hs] using hi.job hj
  busy {h r} hr hk hbusy := by
    rw [hs] at hr
    rw [Claimable, hs]
    rcases hi.busy hr hk hbusy with hclaim | hl
    · exact .inl hclaim
    · exact hlive hr hbusy hl

end Step

/-! ### Every history -/

/-- A call that does not tend a hunt is not missed. -/
theorem Live.of_idle {pts : ℕ → Ctl Pt Reply} {n : ℕ} {c : Ctl Pt Reply} {h : Uuid}
    (hl : Live pts h) (hn : ∀ q, pts n ≠ .at (.hunt q)) : Live (Function.update pts n c) h := by
  obtain ⟨m, q, t, hat, hq⟩ := hl
  refine ⟨m, q, t, ?_, hq⟩
  rw [Function.update_of_ne, hat]
  rintro rfl
  exact hn q hat

/-- **No stranded hunt.**  From any store without hunts and jobs, along every
interleaving of server calls, crashes and failed statements whose steps satisfy
`Relieved`, every retro hunt is terminal, or claimable, or accepted by
`enqueue_hunt`, or tended by a call in flight. -/
theorem no_stranded_hunt {s₀ : Db} (hhunts : s₀.hunt.hunts.rows = [])
    (hjobs : s₀.hunt.jobs.rows = []) {h : Pool.Hist Call Pt Db Env Error Reply}
    {p : Pool Call Pt Db Env Error Reply} (hr : Pool.Reach (serve cfg) s₀ h p)
    (hok : ∀ e ∈ h, Relieved e.1.store e.1.ctl e.2) :
    ∀ r ∈ p.store.hunt.hunts.rows, r.kind = .retro → Attended p.store p.ctl r := by
  have hinv : Tended p.view.store p.view.pts := by
    refine View.VReach.invariant (fun v a => Relieved v.store v.pts a)
      (fun _ v => Tended v.store v.pts) ?_ ?_ ?_ ?_ (hr.view (serve_takes cfg))
      (Pool.forall_view Relieved hok)
    · refine ⟨fun hat => (by cases hat), fun {x j} hj => ?_, fun {x r} hr => ?_⟩
      · have hnone : s₀.hunt.jobs.get x = none := by simp [Table.get, hjobs]
        exact absurd (hnone.symm.trans hj) (Option.some_ne_none j).symm
      · have hnone : s₀.hunt.hunts.get x = none := by simp [Table.get, hhunts]
        exact absurd (hnone.symm.trans hr) (Option.some_ne_none r).symm
    · intro tr v c hi hidle _
      refine hi.other rfl (serve_entry cfg c).idle fun _ _ hl => .inr (hl.of_idle fun q hq => ?_)
      rw [hidle] at hq
      cases hq
    · intro tr v n l c s' env hi hn hm hok
      rcases hm.hunt_cases with ⟨q, rfl, hh⟩ | ⟨hsame, hnot, honly⟩
      · exact hi.exec hn hh hok
      · refine hi.other hsame (fun q hq => ?_) fun _ _ hl => .inr (hl.of_idle fun q hq => ?_)
        · obtain ⟨t, a, rfl⟩ := honly q hq
          rfl
        · rw [hn] at hq
          cases hq
          exact hnot q rfl
    · intro tr v n l hi hn hok
      -- A call is cut off: by the condition it is not the only one that tends the hunt.
      refine hi.other rfl (fun q hq => (by cases hq)) fun {x r} hr hbusy hl => ?_
      obtain ⟨m, q, t, hat, hq⟩ := hl
      rcases eq_or_ne m n with rfl | hne
      · rcases hok q t x r hat hq hr hbusy with hclaim | ⟨m', q', t', hne, hat', hq'⟩
        · exact .inl hclaim
        · exact .inr ⟨m', q', t', by rw [Function.update_of_ne hne, hat'], hq'⟩
      · exact .inr ⟨m, q, t, by rw [Function.update_of_ne hne, hat], hq⟩
  intro r hrow hk
  by_cases hbusy : r.state.busy
  · rcases hinv.busy (Table.mem_rows_iff.mp hrow) hk hbusy with hclaim | hl
    · exact .inr (.inl hclaim)
    · exact .inr (.inr (.inr hl))
  · exact .inr (.inr (.inl hbusy))

/-- A check that suffices for `Relieved`: no call is cut off, and no job is marked
finished while it can be claimed. -/
def relieves (p : Pool Call Pt Db Env Error Reply) : Act Call Env → Bool
  | .exec n _ => match p.ctl n with
    | .at (.hunt (.exeJobDone ..)) => p.store.hunt.jobs.rows.all fun j => !j.claimable
    | _ => true
  | .kill _ => false
  | .spawn _ => true

theorem relieved_of_all {h : Pool.Hist Call Pt Db Env Error Reply}
    (hall : (h.all fun e => relieves e.1 e.2) = true) :
    ∀ e ∈ h, Relieved e.1.store e.1.ctl e.2 := by
  intro e he
  have hrel := List.all_eq_true.mp hall e he
  obtain ⟨p, a⟩ := e
  cases a with
  | exec n env =>
    intro t hunt who r hn _ _ hclaim
    obtain ⟨j, hj, hc⟩ := hclaim
    simp only [relieves, hn, List.all_eq_true] at hrel
    have hnot := hrel j (Table.mem_of_get hj).1
    rw [hc] at hnot
    cases hnot
  | spawn c => trivial
  | kill n => cases hrel

theorem no_stranded_hunt_queued :
    ∃ h p, Pool.Reach (serve Config.plain) Db.oneRule h p ∧
      ∃ r ∈ p.store.hunt.hunts.rows, r.state = .queued ∧ Attended p.store p.ctl r := by
  obtain ⟨h, p, hreach, hchk⟩ := Pool.exists_reach (serve Config.plain) Db.oneRule
    (draftHunt20 ++ .spawn (.enqueueHunt 0 20) :: steps 2 10 0 ++ .spawn (.worker "w") ::
      steps 3 10 0 ++ .spawn (.enqueueHunt 0 20) :: steps 4 9 0)
    (fun h p => (h.all fun e => relieves e.1 e.2) && p.store.hunt.hunts.rows.any fun r =>
      decide (r.kind = .retro ∧ r.state = .queued)) (by decide)
  simp only [Bool.and_eq_true, List.any_eq_true, decide_eq_true_eq] at hchk
  obtain ⟨hall, r, hr, hk, hq⟩ := hchk
  exact ⟨h, p, hreach, r, hr, hq, no_stranded_hunt rfl rfl hreach (relieved_of_all hall) r hr hk⟩

/-- A worker claims the job of a hunt and is cut off in its scan: the hunt stays
running, its job stays claimed, and no call is left. -/
theorem crashed_worker_strands_hunt :
    ∃ h p, Pool.Reach (serve Config.plain) Db.oneRule h p ∧
      ∃ r ∈ p.store.hunt.hunts.rows, r.kind = .retro ∧ ¬ Attended p.store p.ctl r := by
  obtain ⟨h, p, hreach, hchk⟩ := Pool.exists_reach (serve Config.plain) Db.oneRule
    (draftHunt20 ++ importByte 2 5 9 1 none none ++ .spawn (.enqueueHunt 0 20) :: steps 5 10 0 ++
      .spawn (.worker "w") :: steps 6 8 0 ++ [.kill 6])
    (fun _ p => (!p.anyAt fun _ => true) && (p.store.hunt.jobs.rows.all fun j => !j.claimable) &&
      p.store.hunt.hunts.rows.any fun r => decide (r.kind = .retro ∧ r.state = .running))
    (by decide)
  simp only [Bool.and_eq_true, List.any_eq_true, decide_eq_true_eq, Bool.not_eq_true',
    List.all_eq_true] at hchk
  obtain ⟨⟨hnone, hjobs⟩, r, hr, hk, hrun⟩ := hchk
  refine ⟨h, p, hreach, r, hr, hk, ?_⟩
  rintro (hterm | ⟨j, hj, hc⟩ | hfree | ⟨m, q, t, hat, _⟩)
  · rw [hrun] at hterm
    rcases hterm with h | h | h <;> cases h
  · rw [hjobs j (Table.mem_of_get hj).1] at hc
    cases hc
  · exact hfree (.inl hrun)
  · cases Pool.not_of_anyAt hnone hat

end Corpus
