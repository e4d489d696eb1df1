/-
Exclusive hunt execution.

`execute_hunt` is run by synchronous callers and by workers, and nothing in it
keeps two of them apart.  What does is the order of the other statements, as long
as every step meets `ExecuteApart`.

Main results:
* `hunt_execution_exclusive` — then no two scans of a hunt overlap, and the
  counters of a finished hunt are those of one complete pass;
* `worker_joins_synchronous_run` — a worker that claims the job a synchronous run
  has just enqueued for itself.
-/
import Corpus.HuntPhases
import Corpus.ServerMoves

namespace Corpus

variable {cfg : Config}

/-! ### Complete passes -/

/-- Some execution has ended its pass over the hunt with the counters of the row. -/
def Passed (tr : List Event) (r : Hunt) : Prop :=
  ∃ v n env who, (v, .exec n env) ∈ tr ∧
    v.pts n = .at (.hunt (.exeFinal r.tenant r.id who r.counters)) ∧
    r.state = finalState r.counters

/-- A finished retro hunt has been passed. -/
def Finishes (tr : List Event) (s : Db) : Prop :=
  ∀ h r, s.hunt.hunts.get h = some r → r.kind = .retro →
    r.state = .completed ∨ r.state = .completedPartial → Passed tr r

theorem Passed.snoc {tr : List Event} {r : Hunt} (h : Passed tr r) (e : Event) :
    Passed (tr ++ [e]) r := by
  obtain ⟨v, n, env, who, hmem, hrest⟩ := h
  exact ⟨v, n, env, who, List.mem_append_left _ hmem, hrest⟩

theorem Finishes.exec {tr : List Event} {v : View Pt Db Reply} {n : ℕ} {p : HuntPt}
    {c : Ctl Pt Reply} {s' : Db} {env : Env} (hf : Finishes tr v.store)
    (hi : Exclusive cfg v.store v.pts) (hn : v.pts n = .at (.hunt p))
    (hm : HuntMove cfg p v.store s' c) : Finishes (tr ++ [(v, .exec n env)]) s' := by
  intro h r' hr' hk hdone
  have hopen : ∀ {st : HuntState}, st = .completed ∨ st = .completedPartial → st.isOpen = false ∧
      st ≠ .failed := by
    rintro st (rfl | rfl) <;> exact ⟨rfl, by decide⟩
  cases hr : v.store.hunt.hunts.get h with
  | none =>
    rcases hm.row_new hr hr' with ⟨t, digest, b, who, now, rfl, rfl⟩ | ⟨_, hkf, _⟩
    · cases (hopen hdone).1
    · rw [hk] at hkf
      cases hkf
  | some r =>
    obtain ⟨r'', hr'', hstep⟩ := hm.row_of hr
    obtain rfl := Option.some.inj (hr''.symm.trans hr')
    obtain rfl : r.id = h := (Table.mem_of_get hr).2
    cases hstep with
    | same => exact (hf _ r hr hk hdone).snoc _
    | @final _ who k now =>
      -- the counters of the row are those the pass has counted
      obtain ⟨r₀, hr₀, _, _, hcount, _⟩ := hi.here hn _ _ _ rfl
      obtain rfl := Option.some.inj (hr.symm.trans hr₀)
      obtain rfl : r.counters = k := hcount
      exact ⟨v, n, env, who, List.mem_append_right _ (List.mem_singleton_self _), hn, rfl⟩
    | progress =>
      obtain ⟨r₀, hr₀, _, _, hrun⟩ := hi.here hn _ _ _ rfl
      obtain rfl := Option.some.inj (hr.symm.trans hr₀)
      have hrun' : r.state = .running := hrun
      have hdone' : r.state = .completed ∨ r.state = .completedPartial := hdone
      rw [hrun'] at hdone'
      cases (hopen hdone').1
    | forward k =>
      obtain ⟨r₀, hr₀, hkf⟩ := hi.forward hn
      obtain rfl := Option.some.inj (hr.symm.trans hr₀)
      have hk' : r.kind = .retro := hk
      rw [hk'] at hkf
      cases hkf
    | enqFail msg now => exact absurd rfl (hopen hdone).2
    | exeFail msg now => exact absurd rfl (hopen hdone).2
    | _ => cases (hopen hdone).1

/-! ### Every history -/

/-- **Hunt execution is exclusive.**  From any store without hunts and jobs, along
every interleaving of server calls and crashes whose steps satisfy `ExecuteApart`:
no two calls scan the same hunt, and the counters of a finished hunt are those
with which one call ended its pass. -/
theorem hunt_execution_exclusive {s₀ : Db} (hhunts : s₀.hunt.hunts.rows = [])
    (hjobs : s₀.hunt.jobs.rows = []) {h : Pool.Hist Call Pt Db Env Error Reply}
    {p : Pool Call Pt Db Env Error Reply} (hr : Pool.Reach (serve cfg) s₀ h p)
    (hok : ∀ e ∈ h, ExecuteApart e.1.store e.1.ctl e.2) :
    (∀ n m q q' hunt, p.ctl n = .at (.hunt q) → p.ctl m = .at (.hunt q') →
      q.scanning = some hunt → q'.scanning = some hunt → n = m) ∧
    ∀ r ∈ p.store.hunt.hunts.rows, r.kind = .retro →
      r.state = .completed ∨ r.state = .completedPartial → Passed (trace h) r := by
  have hinv : Exclusive cfg p.view.store p.view.pts ∧ Finishes (trace h) p.view.store := by
    refine View.VReach.invariant (fun v a => ExecuteApart v.store v.pts a)
      (fun tr v => Exclusive cfg v.store v.pts ∧ Finishes tr v.store) ?_ ?_ ?_ ?_
      (hr.view (serve_takes cfg)) (Pool.forall_view ExecuteApart hok)
    · have hnohunt : ∀ x, s₀.hunt.hunts.get x = none := fun x => by simp [Table.get, hhunts]
      have hnojob : ∀ x, s₀.hunt.jobs.get x = none := fun x => by simp [Table.get, hjobs]
      have hidle : ∀ {m l}, (View.start s₀ : View Pt Db Reply).pts m ≠ .at l := by
        intro m l hat
        cases hat
      refine ⟨⟨fun hat => absurd hat hidle, fun _ hat => absurd hat hidle,
        fun hat => absurd hat hidle, fun {x j} hj => ?_, fun {x r} hr => ?_,
        fun hat => absurd hat hidle, fun hat => absurd hat hidle⟩, fun x r hr => ?_⟩
      · rw [show (View.start s₀ : View Pt Db Reply).store = s₀ from rfl, hnojob] at hj
        cases hj
      · rw [show (View.start s₀ : View Pt Db Reply).store = s₀ from rfl, hnohunt] at hr
        cases hr
      · rw [show (View.start s₀ : View Pt Db Reply).store = s₀ from rfl, hnohunt] at hr
        cases hr
    · intro tr v c hi _ _
      exact ⟨hi.1.other rfl (serve_entry cfg c).idle,
        fun x r hr hk hd => (hi.2 x r hr hk hd).snoc _⟩
    · intro tr v n l c s' env hi hn hm hok
      rcases hm.hunt_cases with ⟨q, rfl, hh⟩ | ⟨hsame, _, honly⟩
      · exact ⟨hi.1.exec hn hh hok, hi.2.exec hi.1 hn hh⟩
      · refine ⟨hi.1.other hsame fun q hq => ?_, fun x r hr hk hd => ?_⟩
        · obtain ⟨t, a, rfl⟩ := honly q hq
          rfl
        · exact (hi.2 x r (hsame ▸ hr) hk hd).snoc _
    · intro tr v n l hi hn _
      exact ⟨hi.1.other rfl fun q hq => (by cases hq),
        fun x r hr hk hd => (hi.2 x r hr hk hd).snoc _⟩
  refine ⟨fun n m q q' hunt hn hm hq hq' => ?_, fun r hr hk hd => ?_⟩
  · obtain ⟨t, hp⟩ := phase_of_scanning hq
    obtain ⟨t', hp'⟩ := phase_of_scanning hq'
    by_contra hne
    exact hinv.1.alone hne hn hm hp hp'
  · exact hinv.2 r.id r (Table.mem_rows_iff.mp hr) hk hd

/-- A check that suffices for `ExecuteApart`: at a claim no call is in its first
phase of a synchronous run, at a state check none enqueues. -/
def executesAlone (p : Pool Call Pt Db Env Error Reply) : Act Call Env → Bool
  | .exec n _ => match p.ctl n with
    | .at (.hunt (.claim _)) => !p.anyAt fun
      | .hunt q => decide ((q.phase.map fun x => x.2.2) = some .pre)
      | _ => false
    | .at (.hunt (.enqGet ..)) => !p.anyAt fun
      | .hunt q => decide ((q.phase.map fun x => x.2.2) = some .enq)
      | _ => false
    | _ => true
  | _ => true

theorem executeApart_of_all {h : Pool.Hist Call Pt Db Env Error Reply}
    (hall : (h.all fun e => executesAlone e.1 e.2) = true) :
    ∀ e ∈ h, ExecuteApart e.1.store e.1.ctl e.2 := by
  intro e he
  have halone := List.all_eq_true.mp hall e he
  obtain ⟨p, a⟩ := e
  cases a with
  | exec n env =>
    refine ⟨fun worker j hn _ m q t hm hq => ?_, fun t h who r hn _ _ _ m q t' hm hq => ?_⟩
    · simp only [executesAlone, hn, Bool.not_eq_true'] at halone
      simpa [hq] using Pool.not_of_anyAt halone hm
    · simp only [executesAlone, hn, Bool.not_eq_true'] at halone
      simpa [hq] using Pool.not_of_anyAt halone hm
  | spawn c => trivial
  | kill n => trivial

/-- The call scans hunt `20`. -/
def scans20 (c : Ctl Pt Reply) : Bool :=
  match c with
  | .at (.hunt q) => q.scanning = some 20
  | _ => false

theorem scanning_of_scans20 {c : Ctl Pt Reply} (h : scans20 c = true) :
    ∃ q, c = .at (.hunt q) ∧ q.scanning = some 20 := by
  unfold scans20 at h
  split at h
  · next q => exact ⟨q, rfl, by simpa using h⟩
  · cases h

theorem hunt_execution_exclusive_alone :
    ∃ h p, Pool.Reach (serve Config.plain) Db.oneRule h p ∧
      ∃ r ∈ p.store.hunt.hunts.rows, r.state = .completed ∧ r.counters.scanned = 1 ∧
        Passed (trace h) r := by
  obtain ⟨h, p, hreach, hchk⟩ := Pool.exists_reach (serve Config.plain) Db.oneRule
    (draftHunt20 ++ importByte 2 5 9 1 none none ++ .spawn (.enqueueHunt 0 20) :: steps 5 10 0 ++
      .spawn (.worker "w") :: steps 6 15 0)
    (fun h p => (h.all fun e => executesAlone e.1 e.2) && p.store.hunt.hunts.rows.any fun r =>
      decide (r.kind = .retro ∧ r.state = .completed ∧ r.counters.scanned = 1)) (by decide)
  simp only [Bool.and_eq_true, List.any_eq_true, decide_eq_true_eq] at hchk
  obtain ⟨hall, r, hr, hk, hdone, hone⟩ := hchk
  have hexcl := hunt_execution_exclusive rfl rfl hreach (executeApart_of_all hall)
  exact ⟨h, p, hreach, r, hr, hdone, hone, hexcl.2 r hr hk (.inl hdone)⟩

/-- A synchronous run has enqueued its hunt; before it claims the job, a worker
does.  Both then scan the same hunt. -/
theorem worker_joins_synchronous_run :
    ∃ h p, Pool.Reach (serve Config.plain) Db.oneRule h p ∧
      ∃ n m q q', n ≠ m ∧ p.ctl n = .at (.hunt q) ∧ p.ctl m = .at (.hunt q') ∧
        q.scanning = some 20 ∧ q'.scanning = some 20 := by
  obtain ⟨h, p, hreach, hchk⟩ := Pool.exists_reach (serve Config.plain) Db.oneRule
    (draftHunt20 ++ importByte 2 5 9 1 none none ++ .spawn (.runHunt 0 20) :: steps 5 10 0 ++
      .spawn (.worker "w") :: steps 6 7 0 ++ steps 5 6 0)
    (fun _ p => scans20 (p.ctl 5) && scans20 (p.ctl 6)) (by decide)
  simp only [Bool.and_eq_true] at hchk
  obtain ⟨q, hn, hq⟩ := scanning_of_scans20 hchk.1
  obtain ⟨q', hm, hq'⟩ := scanning_of_scans20 hchk.2
  exact ⟨h, p, hreach, 5, 6, q, q', by decide, hn, hm, hq, hq'⟩

end Corpus
