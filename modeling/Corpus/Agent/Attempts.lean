/-
Bounded retries.

A lease of a candidate ends in one of three ways: the candidate is deferred because
the spool is full, it is put back with one attempt more, or it is over.  Putting back
checks `max_attempts`, except on one path: an error that leaves `process_candidate`
by `?` makes `worker_loop` put the candidate back without a check.  With a working
state database that is a spool file that cannot be read or decrypted.

`Counted` keeps the books: the leases of a candidate are its attempts, its deferrals,
and one more while it is held or once it is over.  `failing_candidates_end` reads off
what follows.
-/
import Corpus.Agent.GapLedger
import Corpus.Agent.SpoolFiles

namespace Corpus.Agent

variable {S : Type} {rt : Runtime S}

/-! ### What is counted -/

/-- The candidate a step leases. -/
def leaseOf (v : View Pt (World S) Unit) : Act Call Input → Option ℕ
  | .exec n i =>
    match v.pts n, i.dbFails, v.store.db.leaseNextDue v.store.clock 120 with
    | .at (.lease _), false, some (some c, _) => some c.id
    | _, _, _ => none
  | _ => none

theorem leaseOf_eq_some {v : View Pt (World S) Unit} {a : Act Call Input} {k : ℕ} :
    leaseOf v a = some k ↔ ∃ n i boot c d, a = .exec n i ∧ v.pts n = .at (.lease boot) ∧
      i.dbFails = false ∧ v.store.db.leaseNextDue v.store.clock 120 = some (some c, d) ∧
      c.id = k := by
  constructor
  · intro h
    unfold leaseOf at h
    split at h
    · next n i =>
      split at h
      · next boot c d hn hdb hl => exact ⟨n, i, boot, c, d, rfl, hn, hdb, hl, Option.some.inj h⟩
      · cases h
    · cases h
  · rintro ⟨n, i, boot, c, d, rfl, hn, hdb, hl, rfl⟩
    simp [leaseOf, hn, hdb, hl]

/-- The candidate a step defers because the spool is full. -/
def deferOf (v : View Pt (World S) Unit) : Act Call Input → Option ℕ
  | .exec n i =>
    match v.pts n, i.dbFails with
    | .at (.proc t .deferFull), false => some t.cand.id
    | _, _ => none
  | _ => none

theorem deferOf_eq_some {v : View Pt (World S) Unit} {a : Act Call Input} {k : ℕ} :
    deferOf v a = some k ↔ ∃ n i t, a = .exec n i ∧ v.pts n = .at (.proc t .deferFull) ∧
      i.dbFails = false ∧ t.cand.id = k := by
  constructor
  · intro h
    unfold deferOf at h
    split at h
    · next n i =>
      split at h
      · next t hn hdb => exact ⟨n, i, t, rfl, hn, hdb, Option.some.inj h⟩
      · cases h
    · cases h
  · rintro ⟨n, i, t, rfl, hn, hdb, rfl⟩
    simp [deferOf, hn, hdb]

/-- How often the candidate was leased. -/
def leases (h : Trace S) (k : ℕ) : ℕ := h.countP fun e => decide (leaseOf e.1 e.2 = some k)

/-- How often the candidate was deferred. -/
def deferrals (h : Trace S) (k : ℕ) : ℕ := h.countP fun e => decide (deferOf e.1 e.2 = some k)

/-- The candidate a call holds. -/
def Ctl.holds : Ctl Pt Unit → Option ℕ
  | .at l => l.holds
  | _ => none

/-- Some call holds the candidate. -/
def Held (pts : ℕ → Ctl Pt Unit) (k : ℕ) : Prop := ∃ m, Ctl.holds (pts m) = some k

theorem leases_append (h : Trace S) (e : View Pt (World S) Unit × Act Call Input) (k : ℕ) :
    leases (h ++ [e]) k = leases h k + if leaseOf e.1 e.2 = some k then 1 else 0 := by
  simp [leases, List.countP_append, List.countP_singleton]

theorem deferrals_append (h : Trace S) (e : View Pt (World S) Unit × Act Call Input) (k : ℕ) :
    deferrals (h ++ [e]) k = deferrals h k + if deferOf e.1 e.2 = some k then 1 else 0 := by
  simp [deferrals, List.countP_append, List.countP_singleton]

/-! ### The condition -/

/-- The spool file can be read and decrypted. -/
def Readable (rt : Runtime S) (s : World S) (i : Input) (name : Uuid) : Prop :=
  i.io = none ∧ ∃ f, s.spool.get name = some f ∧
    ∀ c, rt.cipher = some c → ∃ bytes, decryptFile c f.bytes = .ok bytes

/-- Leases are free, the state database works, no task is cut off, and the spool file
of a candidate can be read when it is uploaded. -/
def RetriesChecked (rt : Runtime S) (s : World S) (pts : ℕ → Ctl Pt Unit) (a : Act Call Input) :
    Prop :=
  LeaseFree s pts a ∧ match a with
    | .spawn _ => True
    | .kill n => ∀ l, pts n = .at l → l.holds = none
    | .exec n i => i.dbFails = false ∧
      ∀ t upload name, pts n = .at (.proc t (.readSpool upload name)) → Readable rt s i name

/-! ### One step of a task -/

section Step

variable {t : Task} {p : ProcPt} {i : Input} {s s' : World S} {r : Candidate}

/-- With a working database and a readable spool file, no step fails. -/
theorem ProcMove.not_failed (hm : ProcMove rt t p i s s' .failed)
    (hr : s.db.get t.cand.id = some r) (hok : RowOk r) (hk : Knows t p r)
    (hdb : i.dbFails = false)
    (hread : ∀ upload name, p = .readSpool upload name → Readable rt s i name) : False := by
  have hfails : i.dbFails = true → False := by
    intro h
    rw [hdb] at h
    cases h
  generalize hc : (Ctl.failed : Ctl Pt Unit) = c at hm
  cases hm with
  | rowErr hw herr => exact herr.elim hfails (hk.write hr hw)
  | row _ _ _ hn =>
    cases hn with
    | resumeComplete hrem => cases hrem <;> cases hc
    | noUploadId hf => cases hf <;> cases hc
    | noSpool _ hf => cases hf <;> cases hc
    | _ => cases hc
  | reloadErr h => exact hfails h
  | reloadNoSha hget hsha _ =>
    -- a row at `reload` has its digest
    obtain rfl : r = _ := Option.some.inj (hr.symm.trans hget)
    have hst : r.state.stage = .late ∨ r.state.stage = .queued := by
      have := hk.stage
      simpa [ProcPt.stages] using this
    obtain ⟨⟨sha, hs⟩, -⟩ := hok.2 hst
    rw [hsha] at hs
    cases hs
  | announceSeqErr h _ => exact hfails h
  | countPresentErr h => exact hfails h
  | setUploadIdErr h => exact hfails h
  | readSpoolErr herr =>
    obtain ⟨hio, f, hf, hdec⟩ := hread _ _ rfl
    rcases herr with herr | herr | ⟨f', c, e, hf', hc', herr⟩
    · exact herr hio
    · rw [hf] at herr
      cases herr
    · rw [hf] at hf'
      cases hf'
      obtain ⟨bytes, hbytes⟩ := hdec c hc'
      rw [hbytes] at herr
      cases herr
  | finalizeSeqErr h _ => exact hfails h
  | countCapturedErr h => exact hfails h
  | lastUploadErr h => exact hfails h
  | stableDone _ ha => cases ha <;> cases hc
  | announceErr _ _ hf => cases hf <;> cases hc
  | uploadErr _ _ hf => cases hf <;> cases hc
  | finalizeErr _ _ hf => cases hf <;> cases hc
  | countPresent _ hrem => cases hrem <;> cases hc
  | lastUpload _ hrem => cases hrem <;> cases hc
  | _ => cases hc

/-- How a step of a task leaves its candidate: in its hands, deferred, put back, or
over. -/
inductive Accounted (p : ProcPt) (r r' : Candidate) : Ctl Pt Unit → Prop where
  | goesOn {l} : r'.attempts = r.attempts → p ≠ .deferFull → Accounted p r r' (.at l)
  | deferred : p = .deferFull → r'.attempts = r.attempts → r'.state.active = true →
      Accounted p r r' (.done ())
  | putBack : p = .ioRetry ∨ p = .failRetry → r'.attempts = r.attempts + 1 →
      r'.state.active = true → Accounted p r r' (.done ())
  | over : p ≠ .deferFull → r'.attempts = r.attempts → r'.state.active = false →
      Accounted p r r' (.done ())

theorem CaptureState.inactive_of_complete {st : CaptureState} (h : st.stage = .complete) :
    st.active = false := by
  cases st <;> first | rfl | cases h

theorem ProcMove.accounted {c : Ctl Pt Unit} (hm : ProcMove rt t p i s s' c)
    (hr : s.db.get t.cand.id = some r) (hok : RowOk r) (hk : Knows t p r)
    (hdb : i.dbFails = false)
    (hread : ∀ upload name, p = .readSpool upload name → Readable rt s i name) :
    ∃ r', s'.db.get t.cand.id = some r' ∧ Accounted p r r' c := by
  have hfail : c ≠ .failed := by
    rintro rfl
    exact hm.not_failed hr hok hk hdb hread
  -- steps that leave the rows alone
  have hgoes : s'.db.candidates = s.db.candidates → p ≠ .deferFull → ∀ {l}, c = .at l →
      ∃ r', s'.db.get t.cand.id = some r' ∧ Accounted p r r' c := by
    rintro hcs hp l rfl
    refine ⟨r, ?_, .goesOn rfl hp⟩
    rw [StateDb.get, hcs]
    exact hr
  have hover : s'.db.candidates = s.db.candidates → p ≠ .deferFull →
      r.state.stage = .complete → c = .done () →
      ∃ r', s'.db.get t.cand.id = some r' ∧ Accounted p r r' c := by
    rintro hcs hp hst rfl
    refine ⟨r, ?_, .over hp rfl (CaptureState.inactive_of_complete hst)⟩
    rw [StateDb.get, hcs]
    exact hr
  have hst := hk.stage
  cases hm with
  | row hw _ hd hn =>
    obtain ⟨cs, hcs, rfl⟩ := StateDb.write_some hd
    refine ⟨_, Candidates.get_write_self hcs hr, ?_⟩
    have hact := hk.active hw
    cases hn with
    | deferFull =>
      cases hw
      exact .deferred rfl rfl hact
    | ioRetry =>
      cases hw
      exact .putBack (.inl rfl) rfl hact
    | failRetry =>
      cases hw
      exact .putBack (.inr rfl) rfl hact
    | finishGap =>
      cases hw
      exact .over (by simp) rfl rfl
    | resumeComplete hrem =>
      cases hw
      cases hrem with
      | nothing _ => exact .over (by simp) rfl rfl
      | file _ => exact .goesOn rfl (by simp)
    | noUploadId hf =>
      cases hw
      cases hf <;> exact .goesOn rfl (by simp)
    | noSpool _ hf =>
      cases hw
      cases hf <;> exact .goesOn rfl (by simp)
    | _ =>
      cases hw
      exact .goesOn rfl (by simp)
  | stableAt hx => exact hgoes (by rw [hx.spool_only]) (by simp) rfl
  | stableDone hx ha => cases ha <;> exact hgoes (by rw [hx.spool_only]) (by simp) rfl
  | gapCount hs => exact hgoes (by rcases hs with rfl | rfl <;> rfl) (by simp) rfl
  | reloadGone hnone =>
    rw [hr] at hnone
    cases hnone
  | reloadEnd hget _ hq ha =>
    -- a row at `reload` announces or is queued
    obtain rfl : r = _ := Option.some.inj (hr.symm.trans hget)
    simp only [ProcPt.stages, List.mem_cons, List.not_mem_nil, or_false] at hst
    cases hs : r.state <;> rw [hs] at hst hq ha <;>
      simp [CaptureState.stage, CaptureState.announces] at hst hq ha
  | removeSpool hs =>
    exact hover (by rcases hs with ⟨rfl, -⟩ | rfl <;> rfl) (by simp) (List.mem_singleton.mp hst) rfl
  | countPresent _ hrem =>
    cases hrem with
    | nothing _ => exact hover rfl (by simp) (List.mem_singleton.mp hst) rfl
    | file _ => exact hgoes rfl (by simp) rfl
  | lastUpload _ hrem =>
    cases hrem with
    | nothing _ => exact hover rfl (by simp) (List.mem_singleton.mp hst) rfl
    | file _ => exact hgoes rfl (by simp) rfl
  | announceErr _ _ hf => cases hf <;> exact hgoes rfl (by simp) rfl
  | finalizeErr _ _ hf => cases hf <;> exact hgoes rfl (by simp) rfl
  | uploadErr _ hs hf =>
    subst hs
    cases hf <;> exact hgoes rfl (by simp) rfl
  | upload _ hs =>
    subst hs
    exact hgoes rfl (by simp) rfl
  | rowErr _ _ => exact absurd rfl hfail
  | reloadErr _ => exact absurd rfl hfail
  | reloadNoSha _ _ _ => exact absurd rfl hfail
  | announceSeqErr _ _ => exact absurd rfl hfail
  | countPresentErr _ => exact absurd rfl hfail
  | setUploadIdErr _ => exact absurd rfl hfail
  | readSpoolErr _ => exact absurd rfl hfail
  | finalizeSeqErr _ _ => exact absurd rfl hfail
  | countCapturedErr _ => exact absurd rfl hfail
  | lastUploadErr _ => exact absurd rfl hfail
  | _ => exact hgoes rfl (by simp) rfl

/-- A task is about to put its candidate back only below `max_attempts`. -/
theorem ProcMove.to_retry {t' : Task} {p' : ProcPt}
    (hm : ProcMove rt t p i s s' (.at (.proc t' p'))) (hp : p' = .ioRetry ∨ p' = .failRetry) :
    t'.cand.attempts < rt.maxAttempts := by
  generalize hc : (Ctl.at (.proc t' p') : Ctl Pt Unit) = c at hm
  have hfail : FailNext rt t c → t'.cand.attempts < rt.maxAttempts := by
    intro hf
    cases hf with
    | gap _ => cases hc; rcases hp with hp | hp <;> cases hp
    | retry hlt =>
      cases hc
      exact hlt
  cases hm with
  | row _ _ _ hn =>
    cases hn with
    | resumeComplete hrem => cases hrem <;> cases hc; rcases hp with hp | hp <;> cases hp
    | noUploadId hf => exact hfail hf
    | noSpool _ hf => exact hfail hf
    | _ => cases hc <;> rcases hp with hp | hp <;> cases hp
  | stableDone _ ha =>
    cases ha with
    | ioRetry hlt =>
      cases hc
      exact hlt
    | _ => cases hc; rcases hp with hp | hp <;> cases hp
  | announceErr _ _ hf => exact hfail hf
  | uploadErr _ _ hf => exact hfail hf
  | finalizeErr _ _ hf => exact hfail hf
  | countPresent _ hrem => cases hrem <;> cases hc; rcases hp with hp | hp <;> cases hp
  | lastUpload _ hrem => cases hrem <;> cases hc; rcases hp with hp | hp <;> cases hp
  | _ => cases hc <;> rcases hp with hp | hp <;> cases hp

end Step

/-! ### Who holds what -/

theorem held_update {pts : ℕ → Ctl Pt Unit} {n : ℕ} {c : Ctl Pt Unit} {k : ℕ} :
    Held (Function.update pts n c) k ↔
      Ctl.holds c = some k ∨ ∃ m, m ≠ n ∧ Ctl.holds (pts m) = some k := by
  constructor
  · rintro ⟨m, hm⟩
    rcases eq_or_ne m n with rfl | hne
    · rw [Function.update_self] at hm
      exact .inl hm
    · rw [Function.update_of_ne hne] at hm
      exact .inr ⟨m, hne, hm⟩
  · rintro (hc | ⟨m, hne, hm⟩)
    · exact ⟨n, by rw [Function.update_self]; exact hc⟩
    · exact ⟨m, by rw [Function.update_of_ne hne]; exact hm⟩

/-- A call that keeps what it holds changes nothing. -/
theorem held_update_iff {pts : ℕ → Ctl Pt Unit} {n : ℕ} {c : Ctl Pt Unit} {k : ℕ}
    (h : Ctl.holds c = some k ↔ Ctl.holds (pts n) = some k) :
    Held (Function.update pts n c) k ↔ Held pts k := by
  rw [held_update, h]
  constructor
  · rintro (hn | ⟨m, -, hm⟩)
    · exact ⟨n, hn⟩
    · exact ⟨m, hm⟩
  · rintro ⟨m, hm⟩
    rcases eq_or_ne m n with rfl | hne
    · exact .inl hm
    · exact .inr ⟨m, hne, hm⟩

/-- Steps outside of `process_candidate` keep what they hold, but for a lease and the
error path of the worker. -/
theorem Move.holds_keep {l : Pt} {i : Input} {s s' : World S} {c : Ctl Pt Unit}
    (h : Move rt l i s s' c) (hp : ∀ t p, l ≠ .proc t p)
    (hl : ∀ boot x d, l = .lease boot → i.dbFails = false →
      s.db.leaseNextDue s.clock 120 ≠ some (some x, d))
    (he : ∀ id, l ≠ .errRetry id) : Ctl.holds c = l.holds := by
  cases h with
  | proc _ => exact absurd rfl (hp _ _)
  | lease hdb hlease => exact absurd hlease (hl _ _ _ rfl hdb)
  | acquire hs => cases hs <;> rfl
  | @abort _ _ failed => cases failed <;> rfl
  | errRetryErr _ => exact absurd rfl (he _)
  | errRetry _ => exact absurd rfl (he _)
  | scanSkip _ hn => cases hn <;> rfl
  | scanSame _ hn => cases hn <;> rfl
  | scanEnqueue _ hn => cases hn <;> rfl
  | _ => rfl

/-- Only a task comes to the error path of the worker. -/
theorem Move.to_abort {l : Pt} {i : Input} {s s' : World S} {c : Ctl Pt Unit} {handle id : ℕ}
    (h : Move rt l i s s' c) (hc : c = .at (.abort handle id true)) : ∃ t p, l = .proc t p := by
  subst hc
  cases h.goes with
  | returned => exact ⟨_, _, rfl⟩

theorem Move.to_errRetry {l : Pt} {i : Input} {s s' : World S} {c : Ctl Pt Unit} {id : ℕ}
    (h : Move rt l i s s' c) (hc : c = .at (.errRetry id)) : ∃ handle, l = .abort handle id true := by
  subst hc
  cases h.goes with
  | @errRetry handle _ => exact ⟨handle, rfl⟩

/-- A row that no task updates stays as it is, up to its retry time, or is new. -/
theorem RowStep.unheld {l : Pt} {s : World S} {k : ℕ} {o o' : Option Candidate}
    (h : RowStep l s k o o') (hp : ∀ t p, l = .proc t p → t.cand.id ≠ k) (he : l ≠ .errRetry k) :
    (o' = none → o = none) ∧ ∀ r', o' = some r' → (∃ r, o = some r ∧ Alike r' r) ∨
      (o = none ∧ r'.attempts = 0 ∧ r'.state.active = true) := by
  cases h with
  | same => exact ⟨id, fun r' hr' => .inl ⟨r', hr', .refl r'⟩⟩
  | @due r r' ha _ =>
    refine ⟨fun h => (by cases h), fun x hx => ?_⟩
    cases hx
    exact .inl ⟨r, rfl, ha⟩
  | @new _ _ _ debouncing _ _ =>
    refine ⟨fun h => (by cases h), fun x hx => ?_⟩
    cases hx
    cases debouncing <;> exact .inr ⟨rfl, rfl, rfl⟩
  | write hl hid _ => exact absurd hid (hp _ _ hl)
  | retry hl => exact absurd hl he

/-! ### The books -/

/-- The books of the candidate `k` are in order. -/
def Booked (h : Trace S) (s : World S) (pts : ℕ → Ctl Pt Unit) (k : ℕ) : Prop :=
  (s.db.get k = none → leases h k = 0 ∧ deferrals h k = 0) ∧ ∀ r, s.db.get k = some r →
    (¬ Held pts k → r.state.active = true → leases h k = r.attempts + deferrals h k) ∧
    (Held pts k ∨ r.state.active = false → leases h k = r.attempts + deferrals h k + 1)

/-- The leases of every candidate are accounted for. -/
structure Counted (rt : Runtime S) (h : Trace S) (s : World S) (pts : ℕ → Ctl Pt Unit) : Prop where
  booked : ∀ k, Booked h s pts k
  bound : ∀ {k r}, s.db.get k = some r → r.attempts ≤ rt.maxAttempts
  retry : ∀ {m t p}, pts m = .at (.proc t p) → p = .ioRetry ∨ p = .failRetry →
    t.cand.attempts < rt.maxAttempts
  clean : ∀ {m l}, pts m = .at l → (∀ handle id, l ≠ .abort handle id true) ∧ ∀ id, l ≠ .errRetry id

section Books

variable {h : Trace S} {s s' : World S} {pts pts' : ℕ → Ctl Pt Unit} {k : ℕ}
  {e : View Pt (World S) Unit × Act Call Input}

/-- A step that neither leases nor defers the candidate, nor changes who holds it. -/
theorem Booked.keep (hb : Booked h s pts k) (hl : leaseOf e.1 e.2 ≠ some k)
    (hd : deferOf e.1 e.2 ≠ some k) (hheld : Held pts' k ↔ Held pts k)
    (hnone : s'.db.get k = none → s.db.get k = none)
    (hrow : ∀ r', s'.db.get k = some r' → (∃ r, s.db.get k = some r ∧ Alike r' r) ∨
      (s.db.get k = none ∧ r'.attempts = 0 ∧ r'.state.active = true))
    (hfresh : s.db.get k = none → ¬ Held pts k) : Booked (h ++ [e]) s' pts' k := by
  unfold Booked
  rw [leases_append, deferrals_append, if_neg hl, if_neg hd, Nat.add_zero, Nat.add_zero, hheld]
  refine ⟨fun hn => hb.1 (hnone hn), fun r' hr' => ?_⟩
  rcases hrow r' hr' with ⟨r, hr, ha⟩ | ⟨hn, hz, hact⟩
  · rw [ha]
    exact hb.2 r hr
  · obtain ⟨h1, h2⟩ := hb.1 hn
    refine ⟨fun _ _ => by omega, fun h => ?_⟩
    rcases h with h | h
    · exact absurd h (hfresh hn)
    · rw [hact] at h
      cases h

end Books

section Step

variable {h : Trace S} {v : View Pt (World S) Unit} {s' : World S} {n : ℕ} {l : Pt} {i : Input}
  {c : Ctl Pt Unit}

/-- A candidate that does not exist yet is not held. -/
theorem Counted.fresh (hi : Counted rt h v.store v.pts) (hown : Owned v.store v.pts) {k : ℕ}
    (hk : v.store.db.get k = none) : ¬ Held v.pts k := by
  rintro ⟨m, hm⟩
  cases hat : v.pts m with
  | «at» l =>
    rw [hat] at hm
    have hclean := hi.clean hat
    cases l with
    | acquire boot x =>
      obtain ⟨-, r, hr, -⟩ := hown.waits hat
      rw [Option.some.inj hm, hk] at hr
      cases hr
    | proc t p =>
      obtain ⟨r, hr, -⟩ := hown.knows hat
      rw [Option.some.inj hm, hk] at hr
      cases hr
    | abort handle id failed =>
      cases failed with
      | true => exact hclean.1 handle id rfl
      | false => cases hm
    | errRetry id => exact hclean.2 id rfl
    | _ => cases hm
  | _ =>
    rw [hat] at hm
    cases hm

/-- The books of the candidate of a task, after a step of the task. -/
theorem Booked.task {t : Task} {p : ProcPt} {r r' : Candidate} (hown : Owned v.store v.pts)
    (hb : Booked h v.store v.pts t.cand.id) (hn : v.pts n = .at (.proc t p))
    (hm : ProcMove rt t p i v.store s' c) (hdb : i.dbFails = false)
    (hr : v.store.db.get t.cand.id = some r) (hr' : s'.db.get t.cand.id = some r')
    (hacc : Accounted p r r' c) :
    Booked (h ++ [(v, .exec n i)]) s' (Function.update v.pts n (Ctl.afterProcess t c)) t.cand.id := by
  have hbook := (hb.2 r hr).2 (.inl ⟨n, by rw [hn]; rfl⟩)
  have hlease : leaseOf v (.exec n i) ≠ some t.cand.id := by
    intro hl
    obtain ⟨n', i', boot, x, d, ha, hat, -⟩ := leaseOf_eq_some.mp hl
    cases ha
    rw [hn] at hat
    cases hat
  have hdefer : p ≠ .deferFull → deferOf v (.exec n i) ≠ some t.cand.id := by
    intro hp hd
    obtain ⟨n', i', t', ha, hat, -⟩ := deferOf_eq_some.mp hd
    cases ha
    rw [hn] at hat
    cases hat
    exact hp rfl
  -- a task that ends lets its candidate go
  have hgone : c = .done () →
      ¬ Held (Function.update v.pts n (Ctl.afterProcess t c)) t.cand.id := by
    rintro rfl hheld
    rcases held_update.mp hheld with hc | ⟨m, hne, hm⟩
    · cases hc
    · cases hat : v.pts m with
      | «at» l' =>
        rw [hat] at hm
        exact hne (hown.once hat hn hm rfl)
      | _ =>
        rw [hat] at hm
        cases hm
  refine ⟨fun hnone => ?_, fun x hx => ?_⟩
  · rw [hr'] at hnone
    cases hnone
  obtain rfl : x = r' := Option.some.inj (hx.symm.trans hr')
  rw [leases_append, deferrals_append, if_neg hlease]
  cases hacc with
  | @goesOn l' hatt hp =>
    obtain ⟨t', p', rfl, hsame⟩ := hm.next
    have hheld : Held (Function.update v.pts n (Ctl.afterProcess t (.at (.proc t' p')))) t.cand.id :=
      held_update.mpr (.inl (congrArg some hsame.id))
    rw [if_neg (hdefer hp)]
    exact ⟨fun hnot => absurd hheld hnot, fun _ => by omega⟩
  | deferred hp hatt hact =>
    subst hp
    have hd : deferOf v (.exec n i) = some t.cand.id :=
      deferOf_eq_some.mpr ⟨n, i, t, rfl, hn, hdb, rfl⟩
    rw [if_pos hd]
    refine ⟨fun _ _ => by omega, fun hor => ?_⟩
    rcases hor with hor | hor
    · exact absurd hor (hgone rfl)
    · rw [hact] at hor
      cases hor
  | putBack hp hatt hact =>
    rw [if_neg (hdefer (by rcases hp with rfl | rfl <;> simp))]
    refine ⟨fun _ _ => by omega, fun hor => ?_⟩
    rcases hor with hor | hor
    · exact absurd hor (hgone rfl)
    · rw [hact] at hor
      cases hor
  | «over» hp hatt hact =>
    rw [if_neg (hdefer hp)]
    refine ⟨fun _ hor => ?_, fun _ => by omega⟩
    rw [hact] at hor
    cases hor

/-- Rows that the step does not update through a task. -/
theorem Counted.rows (hi : Counted rt h v.store v.pts) (hn : v.pts n = .at l)
    (hm : Move rt l i v.store s' c) {k : ℕ} (hp : ∀ t p, l = .proc t p → t.cand.id ≠ k) :
    (s'.db.get k = none → v.store.db.get k = none) ∧ ∀ r', s'.db.get k = some r' →
      (∃ r, v.store.db.get k = some r ∧ Alike r' r) ∨
        (v.store.db.get k = none ∧ r'.attempts = 0 ∧ r'.state.active = true) :=
  (hm.row_step k).unheld hp ((hi.clean hn).2 k)

/-- The books of a candidate that the step does not update through a task. -/
theorem Booked.other (hi : Counted rt h v.store v.pts) (hown : Owned v.store v.pts)
    (hn : v.pts n = .at l) (hm : Move rt l i v.store s' c)
    (hfree : LeaseFree v.store v.pts (.exec n i)) (hdb : i.dbFails = false) {k : ℕ}
    (hp : ∀ t p, l = .proc t p → t.cand.id ≠ k) :
    Booked (h ++ [(v, .exec n i)]) s' (Function.update v.pts n c) k := by
  obtain ⟨hnone, hrow⟩ := hi.rows hn hm hp
  have hdefer : deferOf v (.exec n i) ≠ some k := by
    intro hd
    obtain ⟨n', i', t, ha, hat, -, hid⟩ := deferOf_eq_some.mp hd
    cases ha
    rw [hn] at hat
    cases hat
    exact hp t _ rfl hid
  -- outside of a lease the candidate is held as before
  have hkeep : leaseOf v (.exec n i) ≠ some k → (Ctl.holds c = some k ↔ l.holds = some k) →
      Booked (h ++ [(v, .exec n i)]) s' (Function.update v.pts n c) k := by
    intro hl hiff
    refine (hi.booked k).keep hl hdefer (held_update_iff ?_) hnone hrow (hi.fresh hown)
    rw [hn]
    exact hiff
  by_cases hproc : ∃ t p, l = .proc t p
  · obtain ⟨t, p, rfl⟩ := hproc
    have hne := hp t p rfl
    refine hkeep ?_ ?_
    · intro hl
      obtain ⟨n', i', boot, x, d, ha, hat, -⟩ := leaseOf_eq_some.mp hl
      cases ha
      rw [hn] at hat
      cases hat
    · cases hm with
      | proc hpm =>
        have hnext := hpm.taskNext
        refine ⟨fun hc => ?_, fun hl => absurd (Option.some.inj hl) hne⟩
        generalize Ctl.afterProcess t _ = c' at hnext hc
        cases hnext with
        | proc hsame => exact absurd (hsame.id.symm.trans (Option.some.inj hc)) hne
        | done => cases hc
        | failed => exact absurd (Option.some.inj hc) hne
  · have hproc : ∀ t p, l ≠ .proc t p := fun t p h => hproc ⟨t, p, h⟩
    by_cases hlease : ∃ boot x d, l = .lease boot ∧
        v.store.db.leaseNextDue v.store.clock 120 = some (some x, d)
    · obtain ⟨boot, x, d, rfl, hl⟩ := hlease
      cases hm with
      | leaseNone hno =>
        rcases hno with hno | hno
        · rw [hdb] at hno
          cases hno
        · exact absurd hl (hno x d)
      | lease _ hl' =>
        rw [hl] at hl'
        cases hl'
        by_cases hid : x.id = k
        · -- the candidate was free and is held now
          subst hid
          have hnot : ¬ Held v.pts x.id := by
            rintro ⟨m, hm⟩
            cases hat : v.pts m with
            | «at» l' =>
              rw [hat] at hm
              exact hfree n i boot x d rfl hn hl m l' hat hm
            | _ =>
              rw [hat] at hm
              cases hm
          have hheld : Held (Function.update v.pts n (.at (.acquire boot x))) x.id :=
            held_update.mpr (.inl rfl)
          have hle : leaseOf v (.exec n i) = some x.id :=
            leaseOf_eq_some.mpr ⟨n, i, boot, x, d, rfl, hn, hdb, hl, rfl⟩
          obtain ⟨r, hget, hact, -, hx, -⟩ := StateDb.leaseNextDue_some hl
          have hget : v.store.db.get x.id = some r := by
            rw [hx]
            exact hget
          refine ⟨fun hz => ?_, fun r' hr' => ?_⟩
          · rw [hnone hz] at hget
            cases hget
          · rcases hrow r' hr' with ⟨r₀, hr₀, ha⟩ | ⟨hz, -⟩
            · rw [leases_append, deferrals_append, if_pos hle, if_neg hdefer]
              obtain rfl : r₀ = r := Option.some.inj (hr₀.symm.trans hget)
              have hact' : r₀.state.active = true := hact
              have hbook := ((hi.booked x.id).2 r₀ hget).1 hnot hact'
              have hatt : r'.attempts = r₀.attempts := by rw [ha]
              exact ⟨fun h => absurd hheld h, fun _ => by omega⟩
            · rw [hz] at hget
              cases hget
        · refine hkeep ?_ ⟨fun hc => absurd (Option.some.inj hc) hid, fun hc => by cases hc⟩
          intro hl'
          obtain ⟨n', i', boot', x', d', ha, hat, -, hl'', hid'⟩ := leaseOf_eq_some.mp hl'
          cases ha
          rw [hl] at hl''
          cases hl''
          exact hid hid'
    · refine hkeep ?_ ?_
      · intro hl
        obtain ⟨n', i', boot, x, d, ha, hat, -, hl', -⟩ := leaseOf_eq_some.mp hl
        cases ha
        rw [hn] at hat
        cases hat
        exact hlease ⟨boot, x, d, rfl, hl'⟩
      · rw [hm.holds_keep hproc (fun boot x d hl _ hl' => hlease ⟨boot, x, d, hl, hl'⟩)
          (hi.clean hn).2]

theorem Counted.exec (hi : Counted rt h v.store v.pts) (hown : Owned v.store v.pts)
    (hn : v.pts n = .at l) (hm : Move rt l i v.store s' c)
    (hok : RetriesChecked rt v.store v.pts (.exec n i)) :
    Counted rt (h ++ [(v, .exec n i)]) s' (Function.update v.pts n c) := by
  obtain ⟨hfree, hdb, hread⟩ := hok
  -- what a task does to its own candidate
  have htask : ∀ {t p}, l = .proc t p → ∃ r r' c', v.store.db.get t.cand.id = some r ∧
      Knows t p r ∧ s'.db.get t.cand.id = some r' ∧ Accounted p r r' c' ∧
      ProcMove rt t p i v.store s' c' ∧ c = Ctl.afterProcess t c' := by
    rintro t p rfl
    obtain ⟨r, hr, hk⟩ := hown.knows hn
    cases hm with
    | proc hp =>
      obtain ⟨r', hr', hacc⟩ := hp.accounted hr (hown.rowOk hr) hk hdb
        fun upload name hpt => hread t upload name (hpt ▸ hn)
      exact ⟨r, r', _, hr, hk, hr', hacc, hp, rfl⟩
  refine ⟨?_, ?_, ?_, ?_⟩
  · intro k
    by_cases hp : ∀ t p, l = .proc t p → t.cand.id ≠ k
    · exact .other hi hown hn hm hfree hdb hp
    · simp only [not_forall, not_not] at hp
      obtain ⟨t, p, hl, hid⟩ := hp
      obtain ⟨r, r', c', hr, -, hr', hacc, hp, rfl⟩ := htask hl
      subst hl hid
      exact (hi.booked _).task hown hn hp hdb hr hr' hacc
  · intro k x hx
    by_cases hp : ∀ t p, l = .proc t p → t.cand.id ≠ k
    · rcases (hi.rows hn hm hp).2 x hx with ⟨r, hr, ha⟩ | ⟨-, hz, -⟩
      · have hatt : x.attempts = r.attempts := by rw [ha]
        have hle := hi.bound hr
        omega
      · omega
    · simp only [not_forall, not_not] at hp
      obtain ⟨t, p, hl, hid⟩ := hp
      obtain ⟨r, r', c', hr, hk, hr', hacc, -, -⟩ := htask hl
      subst hl hid
      obtain rfl : x = r' := Option.some.inj (hx.symm.trans hr')
      have hle := hi.bound hr
      have hatt := hk.attempts
      cases hacc with
      | putBack hp hadd _ =>
        have hlt := hi.retry hn hp
        omega
      | goesOn heq _ => omega
      | deferred _ heq _ => omega
      | «over» _ heq _ => omega
  · intro m t p hat hp
    rcases View.at_update hat with ⟨rfl, rfl⟩ | ⟨-, hat'⟩
    · rcases hm.to_proc with ⟨boot, x, rfl, hs⟩ | ⟨t₀, p₀, rfl, hpm⟩
      · cases hs <;> rcases hp with hp | hp <;> cases hp
      · exact hpm.to_retry hp
    · exact hi.retry hat' hp
  · intro m l' hat
    rcases View.at_update hat with ⟨rfl, hc⟩ | ⟨-, hat'⟩
    · refine ⟨?_, ?_⟩
      · rintro handle id rfl
        obtain ⟨t, p, rfl⟩ := hm.to_abort hc
        obtain ⟨r, r', c', -, -, -, hacc, hp, hc'⟩ := htask rfl
        rw [hc] at hc'
        cases hacc with
        | goesOn _ _ =>
          obtain ⟨t', p', rfl, -⟩ := hp.next
          cases hc'
        | _ => cases hc'
      · rintro id rfl
        obtain ⟨handle, rfl⟩ := hm.to_errRetry hc
        exact (hi.clean hn).1 _ _ rfl
    · exact hi.clean hat'

/-- A call that starts holds nothing, and only such a call is cut off. -/
theorem Counted.idle (hi : Counted rt h v.store v.pts) (hown : Owned v.store v.pts)
    {a : Act Call Input} (ha : ∀ n i, a ≠ .exec n i) (hn : Ctl.holds (v.pts n) = none)
    (hc : ∀ l, c = .at l → l.holds = none ∧ (∀ t p, l ≠ .proc t p) ∧
      (∀ handle id, l ≠ .abort handle id true) ∧ ∀ id, l ≠ .errRetry id) :
    Counted rt (h ++ [(v, a)]) v.store (Function.update v.pts n c) where
  booked k := by
    refine (hi.booked k).keep ?_ ?_ (held_update_iff ?_) id
      (fun r hr => .inl ⟨r, hr, .refl r⟩) (hi.fresh hown)
    · intro hl
      obtain ⟨n', i', _, _, _, heq, -⟩ := leaseOf_eq_some.mp hl
      exact ha n' i' heq
    · intro hd
      obtain ⟨n', i', _, heq, -⟩ := deferOf_eq_some.mp hd
      exact ha n' i' heq
    · rw [hn]
      cases c with
      | «at» l =>
        rw [Ctl.holds, (hc l rfl).1]
      | _ => exact Iff.rfl
  bound hr := hi.bound hr
  retry hat hp := by
    rcases View.at_update hat with ⟨rfl, he⟩ | ⟨-, hat'⟩
    · exact absurd rfl ((hc _ he).2.1 _ _)
    · exact hi.retry hat' hp
  clean hat := by
    rcases View.at_update hat with ⟨rfl, he⟩ | ⟨-, hat'⟩
    · exact (hc _ he).2.2
    · exact hi.clean hat'

end Step

/-- **The books are in order**, along every history whose retries are checked. -/
theorem counted_of_history {s₀ : World S} (hrows : s₀.db.candidates.table.rows = [])
    {h : Trace S} {v : View Pt (World S) Unit}
    (hr : View.VReach (Move rt) (fun c => (agent rt c).ctl) s₀ h v)
    (hok : ∀ e ∈ h, RetriesChecked rt e.1.store e.1.pts e.2) :
    Owned v.store v.pts ∧ Counted rt h v.store v.pts := by
  refine View.VReach.invariant (fun v a => RetriesChecked rt v.store v.pts a)
    (fun h v => Owned v.store v.pts ∧ Counted rt h v.store v.pts) ⟨Owned.start hrows, ?_⟩ ?_ ?_ ?_
    hr hok
  · have hnone : ∀ k, s₀.db.get k = none := by
      intro k
      show s₀.db.candidates.table.get k = none
      rw [Table.get, hrows]
      rfl
    refine ⟨fun k => ⟨fun _ => ⟨rfl, rfl⟩, ?_⟩, ?_, fun hat => (by cases hat),
      fun hat => by cases hat⟩
    · intro r hr
      have hr : s₀.db.get k = some r := hr
      rw [hnone k] at hr
      cases hr
    · intro k r hr
      have hr : s₀.db.get k = some r := hr
      rw [hnone k] at hr
      cases hr
  · rintro h v c ⟨hown, hi⟩ hidle -
    refine ⟨hown.idle fun l hl => agent_entry rt c hl, hi.idle hown (by simp) ?_ fun l hl => ?_⟩
    · rw [hidle]
      rfl
    · cases agent_entryAt rt c hl <;> exact ⟨rfl, by simp, by simp, by simp⟩
  · rintro h v n l c s' i ⟨hown, hi⟩ hn hm hok
    exact ⟨hown.exec hn hm hok.1, hi.exec hown hn hm hok⟩
  · rintro h v n l ⟨hown, hi⟩ hn hok
    refine ⟨hown.idle (fun l hl => by cases hl), hi.idle hown (by simp) ?_ (fun l hl => by cases hl)⟩
    rw [hn]
    exact hok.2 l hn

/-- **Every failing candidate ends**, along every history whose retries are checked:
its attempts never exceed `max_attempts`, and when it has been leased more often than
that beyond its deferrals, without success and with no capture of it in progress, it
has ended in a gap and has its gap row. -/
theorem failing_candidates_end {s₀ : World S} (hrows : s₀.db.candidates.table.rows = [])
    {h : Pool.Hist Call Pt (World S) Input String Unit}
    {p : Pool Call Pt (World S) Input String Unit} (hr : Pool.Reach (agent rt) s₀ h p)
    (hok : ∀ e ∈ h, RetriesChecked rt e.1.store e.1.ctl e.2) {k : ℕ} {r : Candidate}
    (hk : p.store.db.get k = some r) :
    r.attempts ≤ rt.maxAttempts ∧ leases (trace h) k ≤ rt.maxAttempts + deferrals (trace h) k + 1 ∧
      (rt.maxAttempts + deferrals (trace h) k < leases (trace h) k → ¬ Held p.ctl k →
        r.state ≠ .complete → r.state = .gapRecorded ∧ HasGap rt (trace h) k) := by
  have hview := hr.view (agent_takes rt)
  obtain ⟨hown, hcount⟩ := counted_of_history hrows hview
    (Pool.forall_view (RetriesChecked rt) hok)
  have hle := hcount.bound hk
  obtain ⟨hfree, htaken⟩ := (hcount.booked k).2 r hk
  refine ⟨hle, ?_, fun hmany hnot hne => ?_⟩
  · by_cases hheld : Held p.view.pts k ∨ r.state.active = false
    · have := htaken hheld
      show leases (trace h) k ≤ _
      unfold trace
      omega
    · obtain ⟨h1, h2⟩ := not_or.mp hheld
      have := hfree h1 (by simpa using h2)
      show leases (trace h) k ≤ _
      unfold trace
      omega
  · -- a free active candidate has had no more leases than attempts and deferrals
    have hover : r.state.active = false := by
      by_contra hact
      have := hfree hnot (by simpa using hact)
      unfold trace at hmany
      omega
    have hgap : r.state = .gapRecorded := by
      cases hst : r.state <;> rw [hst] at hover hne <;> first | rfl | exact absurd rfl hne | cases hover
    have hstored : ∀ e ∈ h, GapStored e.1.store e.1.ctl e.2 := by
      intro e he n i t g ha hat
      have hc := hok e he
      rw [ha] at hc
      exact hc.2.1
    exact ⟨hgap, (recorded_of_history hrows hview (Pool.forall_view GapStored hstored)).ended hk hgap⟩

/-- Enough for `RetriesChecked`, computed: nothing fails but requests, and nothing is
uploaded. -/
def retriesChecked (p : Pool Call Pt (World S) Input String Unit) (a : Act Call Input) : Bool :=
  leaseFree p a && match a with
    | .spawn _ => true
    | .kill _ => false
    | .exec n i => !i.dbFails && match p.ctl n with
      | .at (.proc _ (.readSpool ..)) => false
      | _ => true

theorem retriesChecked_sound {p : Pool Call Pt (World S) Input String Unit} {a : Act Call Input}
    (h : retriesChecked p a = true) : RetriesChecked rt p.store p.ctl a := by
  unfold retriesChecked at h
  rw [Bool.and_eq_true] at h
  refine ⟨leaseFree_sound h.1, ?_⟩
  cases a with
  | spawn c => trivial
  | kill n => cases h.2
  | exec n i =>
    have h := h.2
    simp only [Bool.and_eq_true, Bool.not_eq_true'] at h
    refine ⟨h.1, fun t upload name hn => ?_⟩
    rw [hn] at h
    cases h.2

/-- One retry allowed: the announce of a candidate is refused twice. -/
theorem failing_candidates_end_twice :
    ∃ h p, Pool.Reach (agent (.small (.fixed (.error "") (.ok ())) none 1))
      (.fresh (.holding [1]) ()) h p ∧ leases (trace h) 1 = 2 ∧ deferrals (trace h) 1 = 0 ∧
      HasGap (.small (.fixed (.error "") (.ok ())) none 1) (trace h) 1 := by
  obtain ⟨h, p, hreach, hchk⟩ := Pool.exists_reach
    (agent (.small (.fixed (.error "") (.ok ())) none 1)) (.fresh (.holding [1]) ())
    (refusedAnnounce ++ fineSteps 1 2 0 ++ .spawn (.tick 5) :: fineSteps 2 1 0 ++
      .spawn (.worker 3) :: fineSteps 3 4 0 ++ refusedStep 3 :: fineSteps 3 4 0)
    (fun h p => (h.all fun e => retriesChecked e.1 e.2) && (!p.anyAt fun _ => true) &&
      decide (leases (trace h) 1 = 2) && decide (deferrals (trace h) 1 = 0) &&
      (p.store.db.get 1).any fun (r : Candidate) => decide (r.state ≠ CaptureState.complete))
    (by decide)
  simp only [Bool.and_eq_true, List.all_eq_true, Bool.not_eq_true', Option.any_eq_true,
    decide_eq_true_eq] at hchk
  obtain ⟨⟨⟨⟨hall, hnone⟩, hleases⟩, hdefer⟩, r, hget, hne⟩ := hchk
  refine ⟨h, p, hreach, hleases, hdefer, ?_⟩
  have hend := failing_candidates_end rfl hreach (fun e he => retriesChecked_sound (hall e he)) hget
  refine (hend.2.2 ?_ ?_ hne).2
  · rw [hleases, hdefer]
    decide
  · rintro ⟨m, hm⟩
    cases hat : p.ctl m with
    | «at» l => cases Pool.not_of_anyAt hnone hat
    | _ =>
      rw [hat] at hm
      cases hm

/-- The spool file cannot be read when it is uploaded: the candidate is put back
although no attempt is left. -/
theorem unreadable_spool_file_retries :
    ∃ h p r, Pool.Reach (agent (.small
        (.fixed (.ok ⟨.uploadRequired, some 4, none⟩) (.ok ())) none 0))
      (.fresh (.holding [1]) ()) h p ∧ (∀ e ∈ h, dbFine e.2 = true) ∧
      p.store.db.get 1 = some r ∧ 0 < r.attempts := by
  obtain ⟨h, p, hreach, hchk⟩ := Pool.exists_reach
    (agent (.small (.fixed (.ok ⟨.uploadRequired, some 4, none⟩) (.ok ())) none 0))
    (.fresh (.holding [1]) ())
    (.spawn (.enqueue "/a" 5 "sensor") :: fineSteps 0 1 0 ++ .spawn (.worker 3) ::
      fineSteps 1 20 9 ++
      .exec 1 { Input.fine 0 0 [] with io := some .notFound } :: fineSteps 1 2 0)
    (fun h p => (h.all fun e => dbFine e.2) &&
      (p.store.db.get 1).any fun (r : Candidate) => decide (0 < r.attempts)) (by decide)
  simp only [Bool.and_eq_true, List.all_eq_true, Option.any_eq_true, decide_eq_true_eq] at hchk
  obtain ⟨hall, r, hget, hlt⟩ := hchk
  exact ⟨h, p, r, hreach, hall, hget, hlt⟩

end Corpus.Agent
