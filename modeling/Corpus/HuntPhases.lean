/-
The phases of a hunt.

Whether a hunt may be executed is spread over its state, its job and a check in
`enqueue_hunt`; `execute_hunt` itself tests none of them.  A call works on a hunt
in one of three phases (`HuntPt.phase`): it enqueues it, it is a synchronous run
that has enqueued and not yet claimed, or it executes it.  `Exclusive` says that a
hunt has at most one such call, what the call may rely on (`Wants`), and that a
claimable job excludes enqueueing and executing.  `Exclusive.exec` keeps it along
every move that meets `ExecuteApart`.
-/
import Corpus.HuntRows

namespace Corpus

variable {cfg : Config}

/-! ### Phases -/

/-- What a call is doing to a hunt. -/
inductive Phase where
  | enq
  | pre
  | exe
  deriving DecidableEq

/-- The phase of a synchronous run before its claim, or of a worker after it. -/
def Who.phase : Who → Phase
  | .sync => .pre
  | _ => .exe

/-- The hunt a call works on, with its tenant, and the phase it is in. -/
def HuntPt.phase : HuntPt → Option (Uuid × Uuid × Phase)
  | .enqValidate t h _ _ | .enqBundle t h _ _ | .enqSources t h _ _ _ | .enqFail t h _
  | .enqMax t h _ | .enqCount t h _ _ _ | .enqPlan t h _ _ _ _ | .enqQueue t h _
  | .enqJob t h _ => some (t, h, .enq)
  | .enqReturn t h .sync => some (t, h, .pre)
  | .exeGet t h who | .exeBundle t h who _ | .exeSources t h who _ _ | .exeFail t h who
  | .exeRunning t h who _ | .exeClaim t h who _ => some (t, h, who.phase)
  | .exeSelect t h _ _ | .exeItem t h _ _ _ | .exeProgress t h _ _
  | .exeFinal t h _ _ => some (t, h, .exe)
  | _ => none

/-- The hunt whose artifacts the call is scanning. -/
def HuntPt.scanning : HuntPt → Option Uuid
  | .exeSelect _ h _ _ | .exeItem _ h _ _ _ | .exeProgress _ h _ _ | .exeFinal _ h _ _ => some h
  | _ => none

theorem phase_of_scanning {p : HuntPt} {h : Uuid} (hp : p.scanning = some h) :
    ∃ t, p.phase = some (t, h, .exe) := by
  cases p <;> simp [HuntPt.scanning] at hp <;> subst hp <;> exact ⟨_, rfl⟩

/-- The condition on a step: a worker claims the job of a hunt only while no
synchronous run is about to execute it, and an enqueue passes the state check only
while no other enqueue of the hunt is under way. -/
def ExecuteApart (s : Db) (pts : ℕ → Ctl Pt Reply) : Act Call Env → Prop
  | .exec n _ =>
    (∀ worker j, pts n = .at (.hunt (.claim worker)) → s.nextJob = some j → ∀ m p t,
      pts m = .at (.hunt p) → p.phase ≠ some (t, j.huntId, .pre)) ∧
    (∀ t h who r, pts n = .at (.hunt (.enqGet t h who)) → s.huntOf t h = some r →
      r.state ≠ .running → r.state ≠ .queued → ∀ m p t', pts m = .at (.hunt p) →
        p.phase ≠ some (t', h, .enq))
  | _ => True

/-! ### What a call relies on -/

/-- The hunt is pinned and its bundle compiles. -/
def Ready (cfg : Config) (s : Db) (r : Hunt) : Prop :=
  (∃ w, r.corpusWatermark = some w) ∧ Compiles cfg s r.tenant r.bundleId

/-- The hunt has been planned and nobody has started on it; a synchronous run may
find it still queued. -/
def Fresh (cfg : Config) (s : Db) (who : Who) (r : Hunt) : Prop :=
  Ready cfg s r ∧ r.counters = {} ∧ (r.state = .running ∨ who = .sync ∧ r.state = .queued)

theorem Ready.keep {s s' : Db} {r r' : Hunt} (h : Ready cfg s r)
    (hc : ∀ t b, Compiles cfg s t b → Compiles cfg s' t b) (ht : r'.tenant = r.tenant)
    (hb : r'.bundleId = r.bundleId) (hw : r'.corpusWatermark = r.corpusWatermark) :
    Ready cfg s' r' := by
  refine ⟨hw ▸ h.1, ?_⟩
  rw [ht, hb]
  exact hc _ _ h.2

/-- What a call relies on about the row of its hunt. -/
def Wants (cfg : Config) (s : Db) : HuntPt → Hunt → Prop
  | .enqSources _ _ _ _ b, r => cfg.minTier = none ∧ r.bundleId = b
  | .enqMax .., r | .enqCount .., r | .enqPlan .., r => Compiles cfg s r.tenant r.bundleId
  | .enqQueue .., r => Ready cfg s r ∧ r.counters = {}
  | .enqJob .., r => Ready cfg s r ∧ r.counters = {} ∧ r.state = .queued
  | .enqReturn _ _ who, r | .exeGet _ _ who, r | .exeRunning _ _ who _, r => Fresh cfg s who r
  | .exeBundle _ _ who pinned, r => Fresh cfg s who r ∧ r.corpusWatermark = pinned
  | .exeSources _ _ who pinned b, r =>
    Fresh cfg s who r ∧ r.corpusWatermark = pinned ∧ r.bundleId = b
  | .exeFail .., _ => False
  | .exeClaim .., r | .exeSelect .., r => r.counters = {} ∧ r.state = .running
  | .exeItem _ _ _ c _, r | .exeFinal _ _ _ c, r => r.counters = c ∧ r.state = .running
  | .exeProgress .., r => r.state = .running
  | _, _ => cfg.minTier = none

/-- The row of the hunt is there, is a retro hunt, and is as the call wants it. -/
def HuntHere (cfg : Config) (s : Db) (p : HuntPt) : Prop :=
  ∀ t h f, p.phase = some (t, h, f) →
    ∃ r, s.hunt.hunts.get h = some r ∧ r.tenant = t ∧ r.kind = .retro ∧ Wants cfg s p r

theorem Wants.mono {s s' : Db} {p : HuntPt} {r : Hunt} (h : Wants cfg s p r)
    (hc : ∀ t b, Compiles cfg s t b → Compiles cfg s' t b) : Wants cfg s' p r := by
  cases p with
  | enqMax => exact hc _ _ h
  | enqCount => exact hc _ _ h
  | enqPlan => exact hc _ _ h
  | enqQueue => exact ⟨⟨h.1.1, hc _ _ h.1.2⟩, h.2⟩
  | enqJob => exact ⟨⟨h.1.1, hc _ _ h.1.2⟩, h.2⟩
  | enqReturn => exact ⟨⟨h.1.1, hc _ _ h.1.2⟩, h.2⟩
  | exeGet => exact ⟨⟨h.1.1, hc _ _ h.1.2⟩, h.2⟩
  | exeRunning => exact ⟨⟨h.1.1, hc _ _ h.1.2⟩, h.2⟩
  | exeBundle => exact ⟨⟨⟨h.1.1.1, hc _ _ h.1.1.2⟩, h.1.2⟩, h.2⟩
  | exeSources => exact ⟨⟨⟨h.1.1.1, hc _ _ h.1.1.2⟩, h.1.2⟩, h.2⟩
  | _ => exact h

/-- The job of the hunt can be claimed. -/
def Claimable (s : Db) (h : Uuid) : Prop := ∃ j, s.hunt.jobs.get h = some j ∧ j.claimable = true

/-- The invariant. -/
structure Exclusive (cfg : Config) (s : Db) (pts : ℕ → Ctl Pt Reply) : Prop where
  here : ∀ {m p}, pts m = .at (.hunt p) → HuntHere cfg s p
  alone : ∀ {m m' p p' t t' h f f'}, m ≠ m' → pts m = .at (.hunt p) → pts m' = .at (.hunt p') →
    p.phase = some (t, h, f) → p'.phase ≠ some (t', h, f')
  noJob : ∀ {m p t h f}, pts m = .at (.hunt p) → p.phase = some (t, h, f) → f ≠ .pre →
    ¬ Claimable s h
  job : ∀ {h j}, s.hunt.jobs.get h = some j → ∃ r, s.hunt.hunts.get h = some r ∧
    r.tenant = j.tenant ∧ r.kind = .retro ∧ (j.claimable = true → Fresh cfg s .sync r)
  bundle : ∀ {h r}, s.hunt.hunts.get h = some r → r.kind = .retro →
    ∃ k x, s.hunt.bundles.get k = some x ∧ x.id = r.bundleId
  draft : ∀ {m t digest b who}, pts m = .at (.hunt (.newInsert t digest b who)) →
    ∃ k x, s.hunt.bundles.get k = some x ∧ x.id = b
  forward : ∀ {m t a f}, pts m = .at (.hunt (.forward t a (some f))) →
    ∃ r, s.hunt.hunts.get f = some r ∧ r.kind = .forward

/-! ### Moves and phases -/

/-- A call enters a phase through the state check of an enqueue or a claim; any
other move within a phase stays with its hunt. -/
theorem HuntMove.phase_of {p q : HuntPt} {s s' : Db} {t h : Uuid} {f : Phase}
    (hm : HuntMove cfg p s s' (.at (.hunt q))) (hq : q.phase = some (t, h, f)) :
    (∃ f', p.phase = some (t, h, f')) ∨
    (∃ who r, p = .enqGet t h who ∧ s.huntOf t h = some r ∧ r.state ≠ .running ∧
      r.state ≠ .queued ∧ f = .enq ∧ s' = s) ∨
    (∃ worker j, p = .claim worker ∧ s.nextJob = some j ∧ j.huntId = h ∧ f = .exe) := by
  cases hm with
  | enqGet hr hk hrun hqd htier =>
    cases hq
    exact .inr (.inl ⟨_, _, rfl, hr, hrun, hqd, rfl, rfl⟩)
  | claim now hj =>
    cases hq
    exact .inr (.inr ⟨_, _, rfl, hj, rfl, rfl⟩)
  | newInsert x now hfree hc =>
    rcases hc with hc | ⟨_, hc⟩
    · cases hc
    · cases hc
      cases hq
  | enqReturn hr hc =>
    rcases hc with ⟨_, hc⟩ | ⟨rfl, hc⟩ | ⟨_, digest, hc⟩ | ⟨_, digest, hc⟩
    · cases hc
    · cases hc
      cases hq
      exact .inl ⟨_, rfl⟩
    · cases hc
      cases hq
    · cases hc
      cases hq
  | @enqJob _ _ _ who now =>
    cases who with
    | sync =>
      cases hq
      exact .inl ⟨_, rfl⟩
    | _ => cases hq
  | exeReturn hc => rcases hc with hc | ⟨r, hc | hc⟩ <;> cases hc
  | forwardDone hf hc => exact absurd hc id
  | _ => first
    | (cases hq; exact .inl ⟨_, rfl⟩)
    | cases hq

/-- An update of the hunt a call works on. -/
theorem get_updHunt_self {s : Db} {t h : Uuid} {r : Hunt} {f : Hunt → Hunt}
    (hr : s.hunt.hunts.get h = some r) (ht : r.tenant = t) :
    (s.updHunt t h f).hunt.hunts.get h = some { f r with id := r.id } := by
  rw [Db.get_updHunt, hr, Option.map_some]
  simp [(Table.mem_of_get hr).2, ht]

/-- The claim leaves a job that nobody can claim. -/
theorem HuntMove.not_claimable_of_claim {s s' : Db} {c : Ctl Pt Reply} {worker : String}
    {j : HuntJob} (hm : HuntMove cfg (.claim worker) s s' c) (hj : s.nextJob = some j) :
    ¬ Claimable s' j.huntId := by
  rintro ⟨j', hj', hc⟩
  cases hm with
  | claimNone hnone =>
    rw [hnone] at hj
    cases hj
  | @claim _ _ j₀ now hj₀ =>
    obtain rfl : j₀ = j := Option.some.inj (hj₀.symm.trans hj)
    change (s.updJob j₀.huntId _).hunt.jobs.get j₀.huntId = some j' at hj'
    rw [Db.get_updJob, (Db.nextJob_some hj).1, Option.map_some, if_pos rfl] at hj'
    cases hj'
    simp [HuntJob.claimable] at hc

/-- A synchronous run leaves its first phase by claiming its own job. -/
theorem HuntMove.claims_own {p q : HuntPt} {s s' : Db} {t h : Uuid} {f : Phase}
    (hm : HuntMove cfg p s s' (.at (.hunt q))) (hp : p.phase = some (t, h, .pre))
    (hq : q.phase = some (t, h, f)) (hf : f ≠ .pre) : ¬ Claimable s' h := by
  have hstay : q.phase ≠ some (t, h, .pre) := by
    rw [hq]
    simpa using hf
  cases hm with
  | exeClaim now =>
    cases hq
    rintro ⟨j, hj, hc⟩
    rw [Db.get_updJob] at hj
    obtain ⟨j₀, hj₀, heq⟩ := Option.map_eq_some_iff.mp hj
    rw [if_pos (Table.mem_of_get hj₀).2] at heq
    rw [← heq] at hc
    simp [HuntJob.claimable] at hc
  | enqReturn hrow hc =>
    rcases hc with ⟨_, hc⟩ | ⟨rfl, hc⟩ | ⟨rfl, digest, hc⟩ | ⟨rfl, digest, hc⟩
    · cases hc
    · cases hc
      exact absurd hp hstay
    · cases hp
    · cases hp
  | newInsert x now hfree hc => cases hp
  | exeReturn hc => cases hp
  | forwardDone hfr hc => cases hp
  | exeGet hrow hk => exact absurd hp hstay
  | exeBundle hrow => exact absurd hp hstay
  | exeInvalid hbad => exact absurd hp hstay
  | exeSources => exact absurd hp hstay
  | exeRunning now => exact absurd hp hstay
  | _ => cases hp

theorem Who.phase_ne_enq (who : Who) : who.phase ≠ .enq := by
  cases who <;> exact nofun

/-- A call that goes on enqueueing finds the row as it wants it, and so does the synchronous run
that has enqueued it. -/
theorem Exclusive.here_enqueue {s s' : Db} {pts : ℕ → Ctl Pt Reply} {p q : HuntPt} {t h : Uuid}
    (hi : Exclusive cfg s pts) (hh : HuntHere cfg s p)
    (hm : HuntMove cfg p s s' (.at (.hunt q))) (hp : p.phase = some (t, h, .enq)) :
    HuntHere cfg s' q := by
  have hcomp : ∀ t b, Compiles cfg s t b → Compiles cfg s' t b := fun t b h => hm.compiles h
  intro t h f hq
  cases hm with
  | enqValidate =>
    cases hq
    obtain ⟨r, hr, ht, hk, hw⟩ := hh _ _ _ rfl
    exact ⟨_, get_updHunt_self hr ht, ht, hk, hw⟩
  | enqBundle hrow =>
    cases hq
    obtain ⟨r, hr, ht, hk, hw⟩ := hh _ _ _ rfl
    obtain rfl := Option.some.inj ((Db.huntOf_some hrow).1.symm.trans hr)
    exact ⟨_, hr, ht, hk, hw, rfl⟩
  | enqInvalid =>
    cases hq
    obtain ⟨r, hr, ht, hk, hw⟩ := hh _ _ _ rfl
    exact ⟨r, hr, ht, hk, hw.1⟩
  | enqFirst hc =>
    cases hq
    obtain ⟨r, hr, rfl, hk, htier, rfl⟩ := hh _ _ _ rfl
    exact ⟨r, hr, rfl, hk, hi.bundle hr hk, hc, htier⟩
  | enqAgain hc =>
    cases hq
    obtain ⟨r, hr, rfl, hk, htier, rfl⟩ := hh _ _ _ rfl
    exact ⟨r, hr, rfl, hk, hi.bundle hr hk, hc, htier⟩
  | enqMax =>
    cases hq
    exact hh _ _ _ rfl
  | enqCount =>
    cases hq
    exact hh _ _ _ rfl
  | enqPlan =>
    cases hq
    obtain ⟨r, hr, ht, hk, hw⟩ := hh _ _ _ rfl
    exact ⟨_, get_updHunt_self hr ht, ht, hk, ⟨⟨_, rfl⟩, hcomp _ _ hw⟩, rfl⟩
  | enqQueue =>
    cases hq
    obtain ⟨r, hr, ht, hk, hw⟩ := hh _ _ _ rfl
    exact ⟨_, get_updHunt_self hr ht, ht, hk, ⟨hw.1.1, hcomp _ _ hw.1.2⟩, hw.2, rfl⟩
  | @enqJob _ _ _ who now =>
    cases who with
    | sync =>
      cases hq
      obtain ⟨r, hr, ht, hk, hw⟩ := hh _ _ _ rfl
      refine ⟨r, ?_, ht, hk, ⟨hw.1.1, hcomp _ _ hw.1.2⟩, hw.2.1, .inr ⟨rfl, hw.2.2⟩⟩
      unfold Db.upsertJob
      split <;> exact hr
    | _ => cases hq
  | @enqReturn _ _ _ who => cases who <;> cases hp
  | _ => first
    | cases hp
    | exact absurd (congrArg (fun x => x.2.2) (Option.some.inj hp)) (Who.phase_ne_enq _)

/-- A call that goes on executing finds the row as it wants it. -/
theorem HuntHere.execute {s s' : Db} {p q : HuntPt} {t h : Uuid} {f : Phase}
    (hh : HuntHere cfg s p) (hm : HuntMove cfg p s s' (.at (.hunt q)))
    (hp : p.phase = some (t, h, f)) (hf : f ≠ .enq) : HuntHere cfg s' q := by
  intro t h f hq
  cases hm with
  | enqReturn hrow hc =>
    rcases hc with ⟨_, hc⟩ | ⟨rfl, hc⟩ | ⟨_, digest, hc⟩ | ⟨_, digest, hc⟩
    · cases hc
    · cases hc
      cases hq
      exact hh _ _ _ rfl
    · cases hc
      cases hq
    · cases hc
      cases hq
  | @exeGet _ _ _ who r hrow hk =>
    cases hq
    obtain ⟨r', hr, ht, hk, hw⟩ := hh _ _ _ rfl
    obtain rfl := Option.some.inj ((Db.huntOf_some hrow).1.symm.trans hr)
    exact ⟨_, hr, ht, hk, hw, rfl⟩
  | exeBundle hrow =>
    cases hq
    obtain ⟨r', hr, ht, hk, hw⟩ := hh _ _ _ rfl
    obtain rfl := Option.some.inj ((Db.huntOf_some hrow).1.symm.trans hr)
    exact ⟨_, hr, ht, hk, hw.1, hw.2, rfl⟩
  | exeInvalid hbad =>
    cases hq
    -- the bundle compiled when the hunt was enqueued, so it compiles now
    obtain ⟨r, hr, rfl, hk, hfresh, hpin, rfl⟩ := hh _ _ _ rfl
    rcases hbad with hbad | hbad
    · exact absurd hfresh.1.2.2.1 hbad
    · exact absurd hfresh.1.2.2.2 hbad
  | exeSources =>
    cases hq
    obtain ⟨r, hr, ht, hk, hw⟩ := hh _ _ _ rfl
    exact ⟨r, hr, ht, hk, hw.1⟩
  | exeRunning now =>
    cases hq
    obtain ⟨r, hr, ht, hk, hw⟩ := hh _ _ _ rfl
    exact ⟨_, get_updHunt_self hr ht, ht, hk, hw.2.1, rfl⟩
  | exeClaim now =>
    cases hq
    exact hh _ _ _ rfl
  | exeSelect =>
    cases hq
    exact hh _ _ _ rfl
  | exeSelectNone =>
    cases hq
    exact hh _ _ _ rfl
  | exeItem hrest =>
    cases hq
    obtain ⟨M, C, D, o, rfl⟩ := hrest.rest
    exact hh _ _ _ rfl
  | exeItemDone hrest =>
    cases hq
    obtain ⟨M, C, D, o, rfl⟩ := hrest.rest
    obtain ⟨r, hr, ht, hk, hw⟩ := hh _ _ _ rfl
    exact ⟨r, hr, ht, hk, hw.2⟩
  | exeProgress =>
    cases hq
    obtain ⟨r, hr, ht, hk, hw⟩ := hh _ _ _ rfl
    exact ⟨_, get_updHunt_self hr ht, ht, hk, rfl, hw⟩
  | exeLast =>
    cases hq
    obtain ⟨r, hr, ht, hk, hw⟩ := hh _ _ _ rfl
    exact ⟨_, get_updHunt_self hr ht, ht, hk, rfl, hw⟩
  | exeReturn hc => rcases hc with hc | ⟨r, hc | hc⟩ <;> cases hc
  | exeFinal => cases hq
  | _ => cases hp <;> exact absurd rfl hf

/-- The worker that has claimed a job finds the row as it wants it. -/
theorem Exclusive.here_claim {s s' : Db} {pts : ℕ → Ctl Pt Reply} {worker : String} {q : HuntPt}
    (hi : Exclusive cfg s pts) (hm : HuntMove cfg (.claim worker) s s' (.at (.hunt q))) :
    HuntHere cfg s' q := by
  have hcomp : ∀ t b, Compiles cfg s t b → Compiles cfg s' t b := fun t b h => hm.compiles h
  intro t h f hq
  cases hm with
  | @claim _ worker j now hj =>
    cases hq
    obtain ⟨hjob, hclaim⟩ := Db.nextJob_some hj
    obtain ⟨r, hr, ht, hk, hfresh⟩ := hi.job hjob
    obtain ⟨hready, hcount, hstate⟩ := hfresh hclaim
    refine ⟨_, get_updHunt_self hr ht, ?_, ?_, ?_⟩
    · dsimp only
      split <;> exact ht
    · dsimp only
      split <;> exact hk
    · dsimp only
      split
      · exact ⟨hready.keep hcomp rfl rfl rfl, hcount, .inl rfl⟩
      · next hnq =>
        refine ⟨hready.keep hcomp rfl rfl rfl, hcount, ?_⟩
        rcases hstate with hrun | ⟨_, hqd⟩
        · exact .inl hrun
        · exact absurd hqd hnq

/-- A call that moves on within a phase finds the row as it wants it. -/
theorem Exclusive.here_next {s s' : Db} {pts : ℕ → Ctl Pt Reply} {n : ℕ} {p q : HuntPt}
    (hi : Exclusive cfg s pts) (hn : pts n = .at (.hunt p))
    (hm : HuntMove cfg p s s' (.at (.hunt q))) : HuntHere cfg s' q := by
  intro t h f hq
  obtain ⟨f', hp⟩ | ⟨who, r, rfl, -⟩ | ⟨worker, j, rfl, -⟩ := hm.phase_of hq
  · by_cases henq : f' = .enq
    · exact hi.here_enqueue (hi.here hn) hm (henq ▸ hp) t h f hq
    · exact (hi.here hn).execute hm hp henq t h f hq
  · cases hm with
    | enqGet hr hk hrun hqd htier =>
      cases hq
      exact ⟨_, (Db.huntOf_some hr).1, (Db.huntOf_some hr).2, hk, htier⟩
  · exact hi.here_claim hm t h f hq

/-! ### One step -/

section Step

variable {s s' : Db} {pts : ℕ → Ctl Pt Reply} {n : ℕ} {p : HuntPt} {c : Ctl Pt Reply} {env : Env}

/-- Nobody writes the row of a hunt another call works on. -/
theorem Exclusive.row_kept (hi : Exclusive cfg s pts) (hn : pts n = .at (.hunt p))
    (hm : HuntMove cfg p s s' c) (hok : ExecuteApart s pts (.exec n env)) {m : ℕ} {q : HuntPt}
    {t h : Uuid} {f : Phase} {r : Hunt} (hne : m ≠ n) (hat : pts m = .at (.hunt q))
    (hq : q.phase = some (t, h, f)) (hr : s.hunt.hunts.get h = some r) :
    s'.hunt.hunts.get h = some r := by
  obtain ⟨r', hr', hstep⟩ := hm.row_of hr
  obtain rfl : r.id = h := (Table.mem_of_get hr).2
  have hclash : ∀ {f'}, p.phase ≠ some (r.tenant, r.id, f') := fun hp =>
    hi.alone hne hat hn hq hp
  cases hstep with
  | same => exact hr'
  | claim now hj hid ht hqd =>
    -- a claimable job excludes enqueueing and executing; the condition excludes the rest
    have hjob : Claimable s r.id := hid ▸ ⟨_, (Db.nextJob_some hj).1, (Db.nextJob_some hj).2⟩
    cases f with
    | pre => exact absurd (hid ▸ hq) (hok.1 _ _ hn hj m q t hat)
    | enq => exact absurd hjob (hi.noJob hat hq (by decide))
    | exe => exact absurd hjob (hi.noJob hat hq (by decide))
  | forward k =>
    obtain ⟨r₁, hr₁, _, hk, _⟩ := hi.here hat _ _ _ hq
    obtain ⟨r₂, hr₂, hkf⟩ := hi.forward hn
    obtain rfl := Option.some.inj (hr₁.symm.trans hr₂)
    rw [hk] at hkf
    cases hkf
  | _ => exact absurd rfl hclash

/-- Only the last statement of an enqueue makes a job claimable. -/
theorem claimable_of_move (hm : HuntMove cfg p s s' c) {h : Uuid} (hc : Claimable s' h) :
    Claimable s h ∨ ∃ t who, p = .enqJob t h who := by
  obtain ⟨j', hj', hclaim⟩ := hc
  have hstep := hm.job_of h
  rw [hj'] at hstep
  generalize hj : s.hunt.jobs.get h = j at hstep
  cases hstep with
  | same => exact .inl ⟨j', hj, hclaim⟩
  | enqueue h1 h2 => exact .inr ⟨_, _, rfl⟩
  | claim now h1 h2 => simp [HuntJob.claimable] at hclaim
  | running now => simp [HuntJob.claimable] at hclaim
  | done now => simp [HuntJob.claimable] at hclaim

/-- The hunt of a call that passes the state check of an enqueue has no claimable
job and no other call. -/
theorem Exclusive.free_of_check (hi : Exclusive cfg s pts) {t h : Uuid} {r : Hunt}
    (hr : s.huntOf t h = some r) (hrun : r.state ≠ .running) (hqd : r.state ≠ .queued) :
    ¬ Claimable s h ∧ ∀ {m q t' f}, pts m = .at (.hunt q) → q.phase = some (t', h, f) → f = .enq := by
  have hrow := (Db.huntOf_some hr).1
  have hidle : ∀ {who}, ¬ Fresh cfg s who r := by
    rintro who ⟨_, _, hst | ⟨_, hst⟩⟩
    · exact hrun hst
    · exact hqd hst
  refine ⟨fun ⟨j, hj, hc⟩ => ?_, fun {m q t' f} hat hq => ?_⟩
  · obtain ⟨r', hr', _, _, hfresh⟩ := hi.job hj
    obtain rfl := Option.some.inj (hrow.symm.trans hr')
    exact hidle (hfresh hc)
  · obtain ⟨r', hr', _, _, hw⟩ := hi.here hat _ _ _ hq
    obtain rfl := Option.some.inj (hrow.symm.trans hr')
    cases q with
    | enqReturn t h who =>
      cases who with
      | sync => exact absurd hw hidle
      | _ => cases hq
    | exeGet => exact absurd hw hidle
    | exeRunning => exact absurd hw hidle
    | exeBundle => exact absurd hw.1 hidle
    | exeSources => exact absurd hw.1 hidle
    | exeFail => exact absurd hw id
    | exeClaim => exact absurd hw.2 hrun
    | exeSelect => exact absurd hw.2 hrun
    | exeItem => exact absurd hw.2 hrun
    | exeFinal => exact absurd hw.2 hrun
    | exeProgress => exact absurd hw hrun
    | _ => first
      | (cases hq; rfl)
      | cases hq

/-- Where a call is in a phase after a move, no other call works on its hunt. -/
theorem Exclusive.alone_next (hi : Exclusive cfg s pts) (hn : pts n = .at (.hunt p)) {q : HuntPt}
    (hm : HuntMove cfg p s s' (.at (.hunt q))) (hok : ExecuteApart s pts (.exec n env))
    {t h : Uuid} {f : Phase} (hq : q.phase = some (t, h, f)) {m : ℕ} {q' : HuntPt} {t' : Uuid}
    {f' : Phase} (hne : m ≠ n) (hat : pts m = .at (.hunt q')) : q'.phase ≠ some (t', h, f') := by
  intro hq'
  rcases hm.phase_of hq with ⟨f₀, hp⟩ | ⟨who, r, rfl, hr, hrun, hqd, _, _⟩ |
    ⟨worker, j, rfl, hj, rfl, _⟩
  · exact hi.alone hne hat hn hq' hp
  · obtain rfl := (hi.free_of_check hr hrun hqd).2 hat hq'
    exact hok.2 _ _ _ _ hn hr hrun hqd _ _ _ hat hq'
  · have hjob : Claimable s j.huntId := ⟨_, (Db.nextJob_some hj).1, (Db.nextJob_some hj).2⟩
    cases f' with
    | pre => exact hok.1 _ _ hn hj _ _ _ hat hq'
    | enq => exact hi.noJob hat hq' (by decide) hjob
    | exe => exact hi.noJob hat hq' (by decide) hjob

/-- Where a call enqueues or executes after a move, its job cannot be claimed. -/
theorem Exclusive.noJob_next (hi : Exclusive cfg s pts) (hn : pts n = .at (.hunt p)) {q : HuntPt}
    (hm : HuntMove cfg p s s' (.at (.hunt q))) {t h : Uuid} {f : Phase}
    (hq : q.phase = some (t, h, f)) (hf : f ≠ .pre) : ¬ Claimable s' h := by
  intro hc
  rcases hm.phase_of hq with ⟨f₀, hp⟩ | ⟨who, r, rfl, hr, hrun, hqd, _, rfl⟩ |
    ⟨worker, j, rfl, hj, rfl, _⟩
  · rcases claimable_of_move hm hc with hold | ⟨t', who, rfl⟩
    · by_cases hpre : f₀ = .pre
      · subst hpre
        exact hm.claims_own hp hq hf hc
      · exact hi.noJob hn hp hpre hold
    · cases hm with
      | enqJob now =>
        cases who with
        | sync =>
          cases hq
          exact hf rfl
        | _ => cases hq
  · exact (hi.free_of_check hr hrun hqd).1 hc
  · exact hm.not_claimable_of_claim hj hc

/-- A job keeps its hunt, and a claimable one keeps it fresh. -/
theorem Exclusive.job_next (hi : Exclusive cfg s pts) (hn : pts n = .at (.hunt p))
    (hm : HuntMove cfg p s s' c) {h : Uuid} {j' : HuntJob} (hj' : s'.hunt.jobs.get h = some j') :
    ∃ r, s'.hunt.hunts.get h = some r ∧ r.tenant = j'.tenant ∧ r.kind = .retro ∧
      (j'.claimable = true → Fresh cfg s' .sync r) := by
  have hcomp : ∀ t b, Compiles cfg s t b → Compiles cfg s' t b := fun t b h => hm.compiles h
  -- a job that was there and is not claimable any more
  have hkeep : ∀ {j}, s.hunt.jobs.get h = some j → j'.tenant = j.tenant → j'.claimable = false →
      ∃ r, s'.hunt.hunts.get h = some r ∧ r.tenant = j'.tenant ∧ r.kind = .retro ∧
        (j'.claimable = true → Fresh cfg s' .sync r) := by
    intro j hj ht hnot
    obtain ⟨r, hr, hrt, hk, _⟩ := hi.job hj
    obtain ⟨r', hr', hstep⟩ := hm.row_of hr
    obtain ⟨h1, h2, _, _⟩ := hstep.keeps
    refine ⟨r', hr', by rw [h1, hrt, ht], h2.trans hk, fun hc => ?_⟩
    rw [hnot] at hc
    cases hc
  have hstep := hm.job_of h
  rw [hj'] at hstep
  generalize hj : s.hunt.jobs.get h = j at hstep
  cases hstep with
  | claim now h1 h2 => exact hkeep hj rfl (by simp [HuntJob.claimable])
  | running now => exact hkeep hj rfl (by simp [HuntJob.claimable])
  | done now => exact hkeep hj rfl (by simp [HuntJob.claimable])
  | enqueue hc ht =>
    obtain ⟨r, hr, hrt, hk, hready, hcount, hqd⟩ := hi.here hn _ _ _ rfl
    obtain ⟨r', hr', hstep⟩ := hm.row_of hr
    cases hstep
    refine ⟨r, hr', ?_, hk, fun _ => ⟨⟨hready.1, hcomp _ _ hready.2⟩, hcount, .inr ⟨rfl, hqd⟩⟩⟩
    cases j with
    | none => exact hrt.trans ht.symm
    | some j₀ =>
      obtain ⟨r₀, hr₀, hrt₀, _, _⟩ := hi.job hj
      obtain rfl := Option.some.inj (hr.symm.trans hr₀)
      exact hrt₀.trans ht.symm
  | same =>
    obtain ⟨r, hr, hrt, hk, hfresh⟩ := hi.job hj
    obtain ⟨r', hr', hrow⟩ := hm.row_of hr
    obtain ⟨h1, h2, _, _⟩ := hrow.keeps
    refine ⟨r', hr', by rw [h1, hrt], h2.trans hk, fun hc => ?_⟩
    obtain ⟨hready, hcount, hstate⟩ := hfresh hc
    have hjob : Claimable s r.id := (Table.mem_of_get hr).2 ▸ ⟨j', hj, hc⟩
    have hnone : ∀ {f}, p.phase = some (r.tenant, r.id, f) → f = .pre := by
      intro f hp
      by_contra hf
      exact hi.noJob hn hp hf hjob
    cases hrow with
    | same => exact ⟨⟨hready.1, hcomp _ _ hready.2⟩, hcount, hstate⟩
    | running now => exact ⟨⟨hready.1, hcomp _ _ hready.2⟩, hcount, .inl rfl⟩
    | claim now hnext hid ht hqd =>
      refine absurd ⟨j', ?_, hc⟩ (hm.not_claimable_of_claim hnext)
      rw [hid, (Table.mem_of_get hr).2]
      exact hj'
    | exeFail msg now =>
      obtain ⟨_, _, _, _, hfalse⟩ := hi.here hn _ _ _ rfl
      exact absurd hfalse id
    | forward k =>
      obtain ⟨r₂, hr₂, hkf⟩ := hi.forward hn
      rw [(Table.mem_of_get hr).2] at hr₂
      obtain rfl := Option.some.inj (hr.symm.trans hr₂)
      rw [hk] at hkf
      cases hkf
    | _ => cases hnone rfl

/-- A move of the hunts keeps the invariant. -/
theorem Exclusive.exec (hi : Exclusive cfg s pts) (hn : pts n = .at (.hunt p))
    (hm : HuntMove cfg p s s' c) (hok : ExecuteApart s pts (.exec n env)) :
    Exclusive cfg s' (Function.update pts n c) where
  here {m q} hat := by
    rcases View.at_update hat with ⟨rfl, rfl⟩ | ⟨hne, hat'⟩
    · exact hi.here_next hn hm
    · intro t h f hq
      obtain ⟨r, hr, ht, hk, hw⟩ := hi.here hat' t h f hq
      exact ⟨r, hi.row_kept hn hm hok hne hat' hq hr, ht, hk, hw.mono fun t b h => hm.compiles h⟩
  alone {m m' q q' t t' h f f'} hne hat hat' hq := by
    rcases View.at_update hat with ⟨rfl, rfl⟩ | ⟨h1, hat1⟩
    · rcases View.at_update hat' with ⟨rfl, _⟩ | ⟨h2, hat2⟩
      · exact absurd rfl hne
      · exact hi.alone_next hn hm hok hq h2 hat2
    · rcases View.at_update hat' with ⟨rfl, rfl⟩ | ⟨h2, hat2⟩
      · exact fun hq' => hi.alone_next hn hm hok hq' h1 hat1 hq
      · exact hi.alone hne hat1 hat2 hq
  noJob {m q t h f} hat hq hf := by
    rcases View.at_update hat with ⟨rfl, rfl⟩ | ⟨hne, hat'⟩
    · exact hi.noJob_next hn hm hq hf
    · intro hc
      rcases claimable_of_move hm hc with hold | ⟨t', who, rfl⟩
      · exact hi.noJob hat' hq hf hold
      · exact hi.alone hne hat' hn hq rfl
  job hj' := hi.job_next hn hm hj'
  bundle {h r'} hr' hk := by
    cases hr : s.hunt.hunts.get h with
    | none =>
      rcases hm.row_new hr hr' with ⟨t, digest, b, who, now, rfl, rfl⟩ | ⟨_, hkf, _⟩
      · exact hm.bundle_mono (hi.draft hn)
      · rw [hk] at hkf
        cases hkf
    | some r =>
      obtain ⟨r'', hr'', hstep⟩ := hm.row_of hr
      obtain rfl := Option.some.inj (hr''.symm.trans hr')
      obtain ⟨_, h2, h3, _⟩ := hstep.keeps
      rw [h3]
      exact hm.bundle_mono (hi.bundle hr (h2 ▸ hk))
  draft {m t digest b who} hat := by
    rcases View.at_update hat with ⟨rfl, rfl⟩ | ⟨hne, hat'⟩
    · cases hm with
      | newBundle hb => exact ⟨_, _, hb, rfl⟩
      | newInsert x now hfree hc => simp at hc
      | enqReturn hr hc => simp at hc
      | exeReturn hc => simp at hc
      | forwardDone hf hc => exact absurd hc id
    · exact hm.bundle_mono (hi.draft hat')
  forward {m t a f} hat := by
    have hold : (∃ r, s.hunt.hunts.get f = some r ∧ r.kind = .forward) →
        ∃ r, s'.hunt.hunts.get f = some r ∧ r.kind = .forward := by
      rintro ⟨r, hr, hk⟩
      obtain ⟨r', hr', hstep⟩ := hm.row_of hr
      exact ⟨r', hr', hstep.keeps.2.1.trans hk⟩
    refine hold ?_
    rcases View.at_update hat with ⟨rfl, rfl⟩ | ⟨hne, hat'⟩
    · cases hm with
      | forward hf hc =>
        rcases hc with hc | rfl | ⟨g, hg, hk, hc⟩
        · cases hc
        · exact hi.forward hn
        · cases hc
          exact ⟨g, hg, hk⟩
      | newInsert x now hfree hc => simp at hc
      | enqReturn hr hc => simp at hc
      | exeReturn hc => simp at hc
      | forwardDone hf hc => exact absurd hc id
    · exact hi.forward hat'

end Step

/-- A point that works on no hunt and has read nothing of the tables. -/
def HuntPt.idle : HuntPt → Bool
  | .pubRule .. | .newBundle .. | .enqGet .. | .claim .. | .forward _ _ none => true
  | _ => false

theorem HuntPt.phase_of_idle {p : HuntPt} (h : p.idle = true) : p.phase = none := by
  cases p <;> first | rfl | cases h

/-- Calls that start, are cut off or do something else keep the invariant. -/
theorem Exclusive.other {s s' : Db} {pts : ℕ → Ctl Pt Reply} {n : ℕ} {c : Ctl Pt Reply}
    (hi : Exclusive cfg s pts) (hs : s'.hunt = s.hunt)
    (hc : ∀ q, c = .at (.hunt q) → q.idle = true) :
    Exclusive cfg s' (Function.update pts n c) := by
  have hat : ∀ {m q}, Function.update pts n c m = .at (.hunt q) →
      q.idle = true ∨ pts m = .at (.hunt q) := by
    intro m q h
    rcases View.at_update h with ⟨_, h⟩ | ⟨_, h⟩
    · exact .inl (hc q h)
    · exact .inr h
  have hphase : ∀ {m q x}, Function.update pts n c m = .at (.hunt q) → q.phase = some x →
      pts m = .at (.hunt q) := by
    intro m q x h hq
    rcases hat h with hidle | h
    · rw [HuntPt.phase_of_idle hidle] at hq
      cases hq
    · exact h
  have hcomp : ∀ t b, Compiles cfg s t b → Compiles cfg s' t b := by
    intro t b h
    simpa only [Compiles, Db.bundleSources, hs] using h
  refine ⟨fun h t hunt f hq => ?_, fun hne h h' hq hq' => ?_, fun h hq hf => ?_, fun hj => ?_,
    fun hr hk => ?_, fun h => ?_, fun h => ?_⟩
  · obtain ⟨r, hr, ht, hk, hw⟩ := hi.here (hphase h hq) t hunt f hq
    exact ⟨r, by rw [hs]; exact hr, ht, hk, hw.mono hcomp⟩
  · exact hi.alone hne (hphase h hq) (hphase h' hq') hq hq'
  · have := hi.noJob (hphase h hq) hq hf
    rwa [Claimable, ← hs] at this
  · rw [hs] at hj
    obtain ⟨r, hr, ht, hk, hfresh⟩ := hi.job hj
    refine ⟨r, by rw [hs]; exact hr, ht, hk, fun h => ?_⟩
    exact ⟨⟨(hfresh h).1.1, hcomp _ _ (hfresh h).1.2⟩, (hfresh h).2⟩
  · rw [hs] at hr ⊢
    exact hi.bundle hr hk
  · rcases hat h with hidle | h
    · cases hidle
    · rw [hs]
      exact hi.draft h
  · rcases hat h with hidle | h
    · cases hidle
    · rw [hs]
      exact hi.forward h

theorem Entry.idle {c : Ctl Pt Reply} (h : Entry c) (q : HuntPt) (hq : c = .at (.hunt q)) :
    q.idle = true := by
  subst hq
  cases h <;> rfl

end Corpus
