/-
Leases and their renewal.

`worker_loop` leases a candidate for 120 seconds, then waits for a permit; only when
the capture starts does its renewal task go to sleep, for 30 seconds at a time.  The
lease of a running capture is renewed before it expires; the lease of a candidate
that waits for its permit is not.

`OnTime` is the condition on a history: permits are granted in time, renewal tasks
wake when they are due, and no lease expires between the failure of a capture and
`set_retry`.  `no_double_processing`: then no candidate is processed by two tasks,
and what is over stays over.
-/
import Corpus.Agent.GapLedger
import Mathlib.Tactic.Linarith

namespace Corpus.Agent

variable {S : Type} {rt : Runtime S}

/-! ### The condition -/

/-- The renewal task that belongs to a call. -/
def Pt.watch : Pt → Option ℕ
  | proc t _ => some t.handle
  | abort handle _ _ => some handle
  | _ => none

/-- The time to which a tick may take the clock. -/
def TickOk (s : World S) (pts : ℕ → Ctl Pt Unit) (now : Time) : Prop :=
  (∀ m boot c, pts m = .at (.acquire boot c) → now + 30 < c.nextRetryAt) ∧
  (∀ m l k handle w, pts m = .at l → l.holds = some k → l.watch = some handle →
    s.watchdogs.get handle = some w → now ≤ w.wakeAt) ∧
  ∀ m id r, pts m = .at (.errRetry id) → s.db.get id = some r → now < r.nextRetryAt

/-- Time moves forward and passes no permit that is due, no wake-up of a renewal task
and no lease of a failed capture; renewals succeed; a process starts anew only when
the captures of the old one are gone. -/
def OnTime (s : World S) (pts : ℕ → Ctl Pt Unit) (a : Act Call Input) : Prop :=
  ∀ n i, a = .exec n i →
    (∀ secs, pts n = .at (.tick secs) → 0 ≤ secs ∧ TickOk s pts (s.clock + secs)) ∧
    (∀ handle, pts n = .at (.renew handle) → i.dbFails = false) ∧
    (pts n = .at .restart → ∀ m l, pts m = .at l → l.holds = none)

/-! ### Unexpired leases -/

/-- The renewal task `handle` wakes before the lease of the candidate expires. -/
def Watched (s : World S) (handle id : ℕ) : Prop :=
  ∃ w r, s.watchdogs.get handle = some w ∧ w.cand = id ∧ s.clock ≤ w.wakeAt ∧
    w.wakeAt ≤ s.clock + 30 ∧ s.db.get id = some r ∧
    (r.state.active = true → w.wakeAt < r.nextRetryAt)

/-- The lease that the call holds has not expired. -/
def Pt.OnLease (s : World S) : Pt → Prop
  | acquire _ c => s.clock + 30 < c.nextRetryAt ∧ c.nextRetryAt ≤ s.clock + 120 ∧
      ∃ r, s.db.get c.id = some r ∧ (r.state.active = true → c.nextRetryAt ≤ r.nextRetryAt)
  | proc t _ => Watched s t.handle t.cand.id
  | abort handle id true => Watched s handle id
  | errRetry id => ∃ r, s.db.get id = some r ∧ (r.state.active = true → s.clock < r.nextRetryAt)
  | _ => True

/-- No held lease has expired, and every capture has its own renewal task. -/
structure Punctual (s : World S) (pts : ℕ → Ctl Pt Unit) : Prop where
  onLease : ∀ {m l}, pts m = .at l → l.OnLease s
  handles : ∀ {w}, w ∈ s.watchdogs.rows → w.handle < s.nextHandle
  issued : ∀ {m l handle}, pts m = .at l → l.watch = some handle → handle < s.nextHandle
  apart : ∀ {m m' l l' handle}, pts m = .at l → pts m' = .at l' → l.watch = some handle →
    l'.watch = some handle → m = m'

/-- **No held candidate is leased.** -/
theorem Punctual.leaseFree {s : World S} {pts : ℕ → Ctl Pt Unit} (h : Punctual s pts)
    (a : Act Call Input) : LeaseFree s pts a := by
  intro n i boot c d _ _ hl m l hm hk
  obtain ⟨r, hget, hact, hdue, hc, -⟩ := StateDb.leaseNextDue_some hl
  have hid : c.id = r.id := by
    rw [hc]
    rfl
  rw [hid] at hk
  have hon := h.onLease hm
  -- the row is due, so its lease has expired
  have hexpired : ∀ {r' : Candidate}, s.db.get r.id = some r' → r'.state.active = true ∧
      r'.nextRetryAt ≤ s.clock := by
    intro r' hr'
    obtain rfl : r' = r := Option.some.inj (hr'.symm.trans hget)
    exact ⟨hact, hdue⟩
  have hwatched : ∀ {handle}, ¬ Watched s handle r.id := by
    rintro handle ⟨w, r', -, -, hle, -, hr', hlt⟩
    obtain ⟨hact', hdue'⟩ := hexpired hr'
    have := hlt hact'
    linarith
  cases l with
  | acquire boot' c' =>
    obtain ⟨hlt, -, r', hr', hle⟩ := hon
    rw [Option.some.inj hk] at hr'
    obtain ⟨hact', hdue'⟩ := hexpired hr'
    have := hle hact'
    linarith
  | proc t p =>
    have hw : Watched s t.handle r.id := Option.some.inj hk ▸ hon
    exact hwatched hw
  | abort handle id failed =>
    cases failed with
    | true =>
      have hw : Watched s handle r.id := Option.some.inj hk ▸ hon
      exact hwatched hw
    | false => cases hk
  | errRetry id =>
    obtain ⟨r', hr', hlt⟩ := hon
    rw [Option.some.inj hk] at hr'
    obtain ⟨hact', hdue'⟩ := hexpired hr'
    have := hlt hact'
    linarith
  | _ => cases hk

/-! ### What a step does to clock and renewal tasks -/

theorem ProcMove.frame {t : Task} {p : ProcPt} {i : Input} {s s' : World S} {c : Ctl Pt Unit}
    (h : ProcMove rt t p i s s' c) :
    s'.clock = s.clock ∧ s'.watchdogs = s.watchdogs ∧ s'.nextHandle = s.nextHandle := by
  cases h with
  | stableAt hx =>
    rw [hx.spool_only]
    exact ⟨rfl, rfl, rfl⟩
  | stableDone hx _ =>
    rw [hx.spool_only]
    exact ⟨rfl, rfl, rfl⟩
  | gapCount hs => rcases hs with rfl | rfl <;> exact ⟨rfl, rfl, rfl⟩
  | removeSpool hs => rcases hs with ⟨rfl, -⟩ | rfl <;> exact ⟨rfl, rfl, rfl⟩
  | announceSeqErr _ hs => rcases hs with rfl | rfl <;> exact ⟨rfl, rfl, rfl⟩
  | finalizeSeqErr _ hs => rcases hs with rfl | rfl <;> exact ⟨rfl, rfl, rfl⟩
  | uploadErr _ hs _ =>
    subst hs
    exact ⟨rfl, rfl, rfl⟩
  | upload _ hs =>
    subst hs
    exact ⟨rfl, rfl, rfl⟩
  | _ => exact ⟨rfl, rfl, rfl⟩

/-- A task that goes on, or fails, leaves the lease of its row alone. -/
theorem ProcMove.lease_kept {t : Task} {p : ProcPt} {i : Input} {s s' : World S} {c : Ctl Pt Unit}
    {r : Candidate} (h : ProcMove rt t p i s s' c) (hc : c ≠ .done ())
    (hr : s.db.get t.cand.id = some r) (hk : Knows t p r) :
    ∃ r', s'.db.get t.cand.id = some r' ∧ (r'.state.active = true →
      r.state.active = true ∧ r'.nextRetryAt = r.nextRetryAt) := by
  rcases h.candidates with hcs | ⟨-, w, hw, hcs, hn⟩
  · refine ⟨r, ?_, fun hact => ⟨hact, rfl⟩⟩
    rw [StateDb.get, hcs]
    exact hr
  · have hact := hk.active hw
    refine ⟨w.apply r, Candidates.get_write_self hcs hr, fun _ => ⟨hact, ?_⟩⟩
    cases hn with
    | deferFull => exact absurd rfl hc
    | ioRetry => exact absurd rfl hc
    | failRetry => exact absurd rfl hc
    | finishGap => exact absurd rfl hc
    | _ =>
      cases hw
      rfl

/-- Only a tick moves the clock. -/
theorem Move.clock_same {l : Pt} {i : Input} {s s' : World S} {c : Ctl Pt Unit}
    (h : Move rt l i s s' c) (hl : ∀ secs, l ≠ .tick secs) : s'.clock = s.clock := by
  cases h with
  | proc hp => exact hp.frame.1
  | tick => exact absurd rfl (hl _)
  | renew =>
    unfold renewed
    split
    · rfl
    · split
      · rfl
      · dsimp only
        split
        · rfl
        · split <;> rfl
  | flushSendErr hs =>
    subst hs
    rfl
  | flushSend _ hs =>
    subst hs
    rfl
  | _ => rfl

/-- What a step does to the renewal task of another call. -/
theorem Move.watch_same {l : Pt} {i : Input} {s s' : World S} {c : Ctl Pt Unit}
    (h : Move rt l i s s' c) {handle : ℕ} {w : Watchdog} (hget : s.watchdogs.get handle = some w)
    (hown : l.watch ≠ some handle) (hrenew : ∀ x, l ≠ .renew x) (hrestart : l ≠ .restart) :
    s'.watchdogs.get handle = some w := by
  cases h with
  | proc hp =>
    rw [hp.frame.2.1]
    exact hget
  | acquire _ => rw [Table.get_insertNew, hget, Option.some_or]
  | @abort handle' _ _ =>
    have hne : w.handle ≠ handle' := by
      rw [(Table.mem_of_get hget).2]
      exact fun heq => hown (congrArg some heq.symm)
    rw [Table.get_deleteWhere, hget, Option.filter_some, if_pos (by simpa using hne)]
  | renew => exact absurd rfl (hrenew _)
  | restart => exact absurd rfl hrestart
  | flushSendErr hs =>
    subst hs
    exact hget
  | flushSend _ hs =>
    subst hs
    exact hget
  | _ => exact hget

/-- Handles are issued once, in order. -/
theorem Move.handles_step {l : Pt} {i : Input} {s s' : World S} {c : Ctl Pt Unit}
    (h : Move rt l i s s' c) : s.nextHandle ≤ s'.nextHandle ∧
      ((∀ w ∈ s.watchdogs.rows, w.handle < s.nextHandle) →
        ∀ w ∈ s'.watchdogs.rows, w.handle < s'.nextHandle) := by
  cases h with
  | proc hp =>
    rw [hp.frame.2.1, hp.frame.2.2]
    exact ⟨Nat.le_refl _, id⟩
  | acquire _ =>
    refine ⟨Nat.le_succ _, fun hall w hw => ?_⟩
    rcases Table.mem_insertNew hw with hw | rfl
    · exact Nat.lt_succ_of_lt (hall w hw)
    · exact Nat.lt_succ_self _
  | abort => exact ⟨Nat.le_refl _, fun hall w hw => hall w (List.mem_filter.mp hw).1⟩
  | restart => exact ⟨Nat.le_refl _, fun _ w hw => absurd hw List.not_mem_nil⟩
  | renew =>
    unfold renewed
    split
    · exact ⟨Nat.le_refl _, id⟩
    · split
      · exact ⟨Nat.le_refl _, id⟩
      · dsimp only
        split
        · exact ⟨Nat.le_refl _, fun hall w hw => hall w (List.mem_filter.mp hw).1⟩
        · split
          · exact ⟨Nat.le_refl _, fun hall w hw => hall w (List.mem_filter.mp hw).1⟩
          · refine ⟨Nat.le_refl _, fun hall w hw => ?_⟩
            obtain ⟨w₀, hw₀, rfl⟩ := List.mem_map.mp hw
            have := hall w₀ hw₀
            split
            · exact this
            · exact this
  | flushSendErr hs =>
    subst hs
    exact ⟨Nat.le_refl _, id⟩
  | flushSend _ hs =>
    subst hs
    exact ⟨Nat.le_refl _, id⟩
  | _ => exact ⟨Nat.le_refl _, id⟩

/-- A call keeps its renewal task, or gets a new one. -/
theorem Move.watch_next {l l' : Pt} {i : Input} {s s' : World S} (h : Move rt l i s s' (.at l'))
    {handle : ℕ} (hw : l'.watch = some handle) :
    l.watch = some handle ∨ handle = s.nextHandle ∧ s'.nextHandle = s.nextHandle + 1 := by
  cases h.goes with
  | start _ hs => exact .inr ⟨(Option.some.inj hw).symm, hs⟩
  | proc _ hsame =>
    left
    rw [← hw]
    exact congrArg some hsame.handle.symm
  | returned => exact .inl hw
  | _ => cases hw

/-! ### Leases of the other calls -/

section Others

variable {s s' : World S} {pts : ℕ → Ctl Pt Unit} {n : ℕ} {l l' : Pt} {i : Input} {c : Ctl Pt Unit}

/-- The row of a candidate is no closer to the end of its lease. -/
def RowKept (s s' : World S) (k : ℕ) : Prop :=
  ∀ r, s.db.get k = some r → ∃ r', s'.db.get k = some r' ∧ (r'.state.active = true →
    r.state.active = true ∧ (r'.nextRetryAt = r.nextRetryAt ∨ r'.nextRetryAt = s.clock + 120))

theorem Watched.frame {handle id : ℕ} (h : Watched s handle id) (hclock : s'.clock = s.clock)
    (hrow : RowKept s s' id)
    (hwatch : ∀ w, s.watchdogs.get handle = some w → s'.watchdogs.get handle = some w) :
    Watched s' handle id := by
  obtain ⟨w, r, hw, hid, hle, hup, hr, hlt⟩ := h
  obtain ⟨r', hr', hkept⟩ := hrow r hr
  refine ⟨w, r', hwatch w hw, hid, by rw [hclock]; exact hle, by rw [hclock]; exact hup, hr', ?_⟩
  intro hact
  obtain ⟨hact', hdue | hdue⟩ := hkept hact
  · rw [hdue]
    exact hlt hact'
  · rw [hdue]
    linarith

/-- What a call holds stays on lease while its row and its renewal task are kept. -/
theorem Pt.OnLease.frame (h : l'.OnLease s) (hclock : s'.clock = s.clock)
    (hrow : ∀ k, l'.holds = some k → RowKept s s' k)
    (hwatch : ∀ handle w, l'.watch = some handle → s.watchdogs.get handle = some w →
      s'.watchdogs.get handle = some w) : l'.OnLease s' := by
  cases l' with
  | acquire boot x =>
    obtain ⟨hlt, hup, r, hr, hle⟩ := h
    obtain ⟨r', hr', hkept⟩ := hrow _ rfl r hr
    refine ⟨by rw [hclock]; exact hlt, by rw [hclock]; exact hup, r', hr', fun hact => ?_⟩
    obtain ⟨hact', hdue | hdue⟩ := hkept hact
    · rw [hdue]
      exact hle hact'
    · rw [hdue]
      exact hup
  | proc t p => exact Watched.frame h hclock (hrow _ rfl) fun w hw => hwatch _ w rfl hw
  | abort handle id failed =>
    cases failed with
    | true => exact Watched.frame h hclock (hrow _ rfl) fun w hw => hwatch _ w rfl hw
    | false => trivial
  | errRetry id =>
    obtain ⟨r, hr, hlt⟩ := h
    obtain ⟨r', hr', hkept⟩ := hrow _ rfl r hr
    refine ⟨r', hr', fun hact => ?_⟩
    obtain ⟨hact', hdue | hdue⟩ := hkept hact
    · rw [hdue, hclock]
      exact hlt hact'
    · rw [hdue, hclock]
      linarith
  | _ => trivial

/-- A step keeps the rows it does not hold. -/
theorem Move.row_kept (hm : Move rt l i s s' c) {k : ℕ} (hk : l.holds ≠ some k) :
    RowKept s s' k := by
  intro r hr
  have hstep := hm.row_step k
  rw [hr] at hstep
  generalize s'.db.get k = o at hstep
  cases hstep with
  | same => exact ⟨r, rfl, fun hact => ⟨hact, .inl rfl⟩⟩
  | due ha hdue =>
    refine ⟨_, rfl, fun hact => ⟨?_, hdue⟩⟩
    rw [ha] at hact
    exact hact
  | write hl hid _ =>
    subst hl
    exact absurd (congrArg some hid) hk
  | retry hl =>
    subst hl
    exact absurd rfl hk

/-- A renewal never fails but by the database. -/
theorem renewLease_ne_none (d : StateDb) (now : Time) (id : ℕ) (secs : ℤ) :
    d.renewLease now id secs ≠ none := by
  have hact : ∀ c, d.candidates.get id = some c →
      ((RowWrite.renew (now + secs)).apply c).state.active = true → c.state.active = true := by
    intro c _ hc
    rw [alike_renew] at hc
    exact hc
  obtain ⟨t, ht⟩ := Candidates.write_of_active hact
  rw [StateDb.renewLease, StateDb.write, ht]
  simp

/-- A renewal that is due moves the wake-up and the lease together. -/
theorem Watched.renewed {handle id x : ℕ} (h : Watched s handle id) (hdb : i.dbFails = false)
    (hrow : RowKept s (renewed s i x) id) : Watched (renewed s i x) handle id := by
  unfold Agent.renewed at hrow ⊢
  cases hx : s.watchdogs.get x with
  | none => exact h
  | some w₀ =>
    simp only [hx] at hrow ⊢
    by_cases hsleep : s.clock < w₀.wakeAt
    · rw [if_pos hsleep]
      exact h
    · simp only [if_neg hsleep, hdb, Bool.false_eq_true, if_false] at hrow ⊢
      cases hd : s.db.renewLease s.clock w₀.cand 120 with
      | none => exact absurd hd (renewLease_ne_none _ _ _ _)
      | some d =>
        simp only [hd] at hrow ⊢
        by_cases hxh : x = handle
        · -- its own renewal task
          subst hxh
          obtain ⟨w, r, hw, hid, -, -, hr, -⟩ := h
          obtain rfl : w₀ = w := Option.some.inj (hx.symm.trans hw)
          obtain ⟨cs, hcs, rfl⟩ := StateDb.write_some hd
          rw [hid] at hcs
          have hname : w₀.handle = x := (Table.mem_of_get hx).2
          refine ⟨{ w₀ with wakeAt := s.clock + 30 }, (RowWrite.renew (s.clock + 120)).apply r, ?_, hid,
            ?_, le_refl _, Candidates.get_write_self hcs hr, fun hact => ?_⟩
          · dsimp only
            rw [Table.get_updateWhere, hx]
            simp [hname]
          · show s.clock ≤ s.clock + 30
            linarith
          · have hact' : r.state.active = true := by
              rw [alike_renew] at hact
              exact hact
            simp only [RowWrite.apply, hact', if_true]
            linarith
        · refine h.frame rfl hrow fun w hw => ?_
          have hname : w.handle ≠ x := by
            rw [(Table.mem_of_get hw).2]
            exact fun heq => hxh heq.symm
          dsimp only
          rw [Table.get_updateWhere, hw]
          simp [hname]

/-- What a call holds stays on lease while a renewal task runs. -/
theorem Pt.OnLease.renewed {x : ℕ} (h : l'.OnLease s) (hdb : i.dbFails = false)
    (hclock : (renewed s i x).clock = s.clock)
    (hrow : ∀ k, l'.holds = some k → RowKept s (renewed s i x) k) : l'.OnLease (renewed s i x) := by
  cases l' with
  | proc t p => exact Watched.renewed h hdb (hrow _ rfl)
  | abort handle id failed =>
    cases failed with
    | true => exact Watched.renewed h hdb (hrow _ rfl)
    | false => trivial
  | acquire boot c => exact Pt.OnLease.frame h hclock hrow fun handle w hw => by cases hw
  | errRetry id => exact Pt.OnLease.frame h hclock hrow fun handle w hw => by cases hw
  | _ => trivial

/-- What a call holds stays on lease while time passes. -/
theorem Pt.OnLease.tick {secs : ℤ} {m : ℕ} (h : l'.OnLease s) (hat : pts m = .at l')
    (hsecs : 0 ≤ secs) (hok : TickOk s pts (s.clock + secs)) :
    l'.OnLease { s with clock := s.clock + secs } := by
  obtain ⟨hwait, hwatch, hfail⟩ := hok
  have hwatched : ∀ {handle id}, l'.watch = some handle → l'.holds = some id →
      Watched s handle id → Watched { s with clock := s.clock + secs } handle id := by
    rintro handle id hw hk ⟨w, r, hget, hid, -, hup, hr, hlt⟩
    refine ⟨w, r, hget, hid, hwatch m l' id handle w hat hk hw hget, ?_, hr, hlt⟩
    show w.wakeAt ≤ s.clock + secs + 30
    linarith
  cases l' with
  | acquire boot c =>
    obtain ⟨-, hup, hrest⟩ := h
    refine ⟨hwait m boot c hat, ?_, hrest⟩
    show c.nextRetryAt ≤ s.clock + secs + 120
    linarith
  | proc t p => exact hwatched rfl rfl h
  | abort handle id failed =>
    cases failed with
    | true => exact hwatched rfl rfl h
    | false => trivial
  | errRetry id =>
    obtain ⟨r, hr, -⟩ := h
    exact ⟨r, hr, fun _ => hfail m id r hat hr⟩
  | _ => trivial

end Others

/-! ### The call that moves -/

/-- Where a step leads, the lease has not expired. -/
theorem Move.onLease_next {s s' : World S} {pts : ℕ → Ctl Pt Unit} {n : ℕ} {l l' : Pt} {i : Input}
    (hown : Owned s pts) (hi : Punctual s pts) (hn : pts n = .at l)
    (hm : Move rt l i s s' (.at l')) : l'.OnLease s' := by
  have hon := hi.onLease hn
  generalize hc : (Ctl.at l' : Ctl Pt Unit) = c at hm
  cases hm with
  | lease hdb hl =>
    cases hc
    obtain ⟨r, hget, hact, -, rfl, hw⟩ := StateDb.leaseNextDue_some hl
    obtain ⟨cs, hcs, rfl⟩ := StateDb.write_some hw
    refine ⟨?_, le_refl _, _, Candidates.get_write_self hcs hget, fun _ => le_refl _⟩
    show s.clock + 30 < s.clock + 120
    linarith
  | @acquire boot x _ _ k hs =>
    obtain ⟨hlt, -, r, hr, hle⟩ := hon
    have hnew : s.watchdogs.get s.nextHandle = none := by
      cases hg : s.watchdogs.get s.nextHandle with
      | none => rfl
      | some w =>
        obtain ⟨hmem, hname⟩ := Table.mem_of_get hg
        exact absurd hname (Nat.ne_of_lt (hi.handles hmem))
    have hwatched : Watched
        { s with
          watchdogs := s.watchdogs.insertNew ⟨s.nextHandle, x.id, s.clock + 30⟩
          nextHandle := s.nextHandle + 1 } s.nextHandle x.id := by
      refine ⟨⟨s.nextHandle, x.id, s.clock + 30⟩, r, ?_, rfl, ?_, le_refl _, hr, fun hact => ?_⟩
      · show (s.watchdogs.insertNew _).get _ = _
        rw [Table.get_insertNew, hnew]
        simp
      · show s.clock ≤ s.clock + 30
        linarith
      · exact lt_of_lt_of_le hlt (hle hact)
    cases hs <;> cases hc <;> exact hwatched
  | @proc t p _ _ _ c₀ hp =>
    have hw : Watched s t.handle t.cand.id := hon
    obtain ⟨r, hr, hk⟩ := hown.knows hn
    -- a task that goes on, or fails, keeps its lease
    have hkeep : c₀ ≠ .done () → Watched s' t.handle t.cand.id := by
      intro hc₀
      obtain ⟨r', hr', hlease⟩ := hp.lease_kept hc₀ hr hk
      refine hw.frame hp.frame.1 ?_ fun w hget => by rw [hp.frame.2.1]; exact hget
      intro r₀ hr₀
      obtain rfl : r₀ = r := Option.some.inj (hr₀.symm.trans hr)
      exact ⟨r', hr', fun hact => ⟨(hlease hact).1, .inl (hlease hact).2⟩⟩
    cases c₀ with
    | idle => cases hc
    | «at» l'' =>
      cases hc
      obtain ⟨t', p', rfl, hsame⟩ := hp.next
      have := hkeep (by simp)
      rw [← hsame.handle, ← hsame.id] at this
      exact this
    | done u =>
      cases hc
      trivial
    | failed =>
      cases hc
      exact hkeep (by simp)
  | @abort handle id failed =>
    cases failed with
    | true =>
      cases hc
      obtain ⟨w, r, -, -, hle, -, hr, hlt⟩ := hon
      exact ⟨r, hr, fun hact => lt_of_le_of_lt hle (hlt hact)⟩
    | false => cases hc
  | scanSkip _ hn => cases hn <;> cases hc; trivial
  | scanSame _ hn => cases hn <;> cases hc; trivial
  | scanEnqueue _ hn => cases hn <;> cases hc; trivial
  | _ => cases hc <;> trivial

/-! ### Histories -/

section Histories

variable {s s' : World S} {pts : ℕ → Ctl Pt Unit} {n : ℕ} {l : Pt} {i : Input} {c : Ctl Pt Unit}

theorem Punctual.exec (hi : Punctual s pts) (hown : Owned s pts) (hn : pts n = .at l)
    (hm : Move rt l i s s' c) (hok : OnTime s pts (.exec n i)) :
    Punctual s' (Function.update pts n c) := by
  obtain ⟨htick, hrenew, hrestart⟩ := hok n i rfl
  obtain ⟨hnext, hhandles⟩ := hm.handles_step
  refine ⟨?_, fun hw => hhandles (fun w hw => hi.handles hw) _ hw, ?_, ?_⟩
  · intro m l' hat
    rcases View.at_update hat with ⟨rfl, rfl⟩ | ⟨hne, hat'⟩
    · exact hm.onLease_next hown hi hn
    · have hon := hi.onLease hat'
      have hrow : ∀ k, l'.holds = some k → RowKept s s' k :=
        fun k hk => hm.row_kept fun hl => hne (hown.once hat' hn hk hl)
      by_cases ht : ∃ secs, l = .tick secs
      · obtain ⟨secs, rfl⟩ := ht
        obtain ⟨hsecs, htk⟩ := htick secs hn
        cases hm with
        | tick => exact hon.tick hat' hsecs htk
      · have hclock := hm.clock_same fun secs hl => ht ⟨secs, hl⟩
        by_cases hr : ∃ x, l = .renew x
        · obtain ⟨x, rfl⟩ := hr
          cases hm with
          | renew => exact hon.renewed (hrenew x hn) hclock hrow
        · by_cases hs : l = .restart
          · -- nothing is held when a process starts anew
            subst hs
            have hfree := hrestart hn m l' hat'
            cases l' with
            | acquire boot x => cases hfree
            | proc t p => cases hfree
            | abort handle id failed =>
              cases failed with
              | true => cases hfree
              | false => trivial
            | errRetry id => cases hfree
            | _ => trivial
          · refine hon.frame hclock hrow fun handle w hw hget => ?_
            exact hm.watch_same hget (fun hl => hne (hi.apart hat' hn hw hl))
              (fun x hl => hr ⟨x, hl⟩) hs
  · intro m l' handle hat hw
    rcases View.at_update hat with ⟨rfl, rfl⟩ | ⟨hne, hat'⟩
    · rcases hm.watch_next hw with hl | ⟨rfl, heq⟩
      · exact lt_of_lt_of_le (hi.issued hn hl) hnext
      · rw [heq]
        exact Nat.lt_succ_self _
    · exact lt_of_lt_of_le (hi.issued hat' hw) hnext
  · intro m m' l₁ l₂ handle hat hat' hw hw'
    -- the handle of the call that moved is its own or a new one
    have hown' : ∀ {l₃ m₃ l₄}, c = .at l₃ → l₃.watch = some handle → m₃ ≠ n → pts m₃ = .at l₄ →
        l₄.watch = some handle → False := by
      rintro l₃ m₃ l₄ rfl hw₃ hne hat₄ hw₄
      rcases hm.watch_next hw₃ with hl | ⟨rfl, -⟩
      · exact hne (hi.apart hat₄ hn hw₄ hl)
      · exact absurd (hi.issued hat₄ hw₄) (Nat.lt_irrefl _)
    rcases View.at_update hat with ⟨rfl, hc⟩ | ⟨hne, hat₁⟩
    · rcases View.at_update hat' with ⟨rfl, -⟩ | ⟨hne', hat₂⟩
      · rfl
      · exact (hown' hc hw hne' hat₂ hw').elim
    · rcases View.at_update hat' with ⟨rfl, hc'⟩ | ⟨hne', hat₂⟩
      · exact (hown' hc' hw' hne hat₁ hw).elim
      · exact hi.apart hat₁ hat₂ hw hw'

/-- A call that starts has no lease yet, and one that is cut off has none any more. -/
theorem Punctual.idle (hi : Punctual s pts)
    (hc : ∀ l, c = .at l → l.holds = none ∧ l.watch = none) :
    Punctual s (Function.update pts n c) where
  onLease {m l} hat := by
    rcases View.at_update hat with ⟨rfl, he⟩ | ⟨-, hat'⟩
    · have hfree := (hc _ he).1
      cases l with
      | acquire boot x => cases hfree
      | proc t p => cases hfree
      | abort handle id failed =>
        cases failed with
        | true => cases hfree
        | false => trivial
      | errRetry id => cases hfree
      | _ => trivial
    · exact hi.onLease hat'
  handles hw := hi.handles hw
  issued hat hw := by
    rcases View.at_update hat with ⟨rfl, he⟩ | ⟨-, hat'⟩
    · rw [(hc _ he).2] at hw
      cases hw
    · exact hi.issued hat' hw
  apart hat hat' hw hw' := by
    rcases View.at_update hat with ⟨rfl, he⟩ | ⟨-, hat₁⟩
    · rw [(hc _ he).2] at hw
      cases hw
    · rcases View.at_update hat' with ⟨rfl, he⟩ | ⟨-, hat₂⟩
      · rw [(hc _ he).2] at hw'
        cases hw'
      · exact hi.apart hat₁ hat₂ hw hw'

/-- A candidate that is over stays over. -/
def Over (s : World S) (k : ℕ) : Prop := ∃ r, s.db.get k = some r ∧ r.state.active = false

theorem Owned.over (hown : Owned s pts) (hn : pts n = .at l) (hm : Move rt l i s s' c) {k : ℕ}
    (h : Over s k) : Over s' k := by
  obtain ⟨r, hr, hover⟩ := h
  have hstep := hm.row_step k
  rw [hr] at hstep
  generalize hg : s'.db.get k = o at hstep
  cases hstep with
  | same => exact ⟨r, hg, hover⟩
  | due ha _ =>
    refine ⟨_, hg, ?_⟩
    rw [ha]
    exact hover
  | retry _ => exact ⟨_, hg, hover⟩
  | write hl hid hw =>
    -- a task updates active rows only
    subst hl hid
    obtain ⟨r', hr', hk⟩ := hown.knows hn
    obtain rfl : r' = r := Option.some.inj (hr'.symm.trans hr)
    rw [hk.active hw] at hover
    cases hover

/-- **Held candidates stay on lease, and what is over stays over**, along every
history that is on time. -/
theorem punctual_of_history {s₀ : World S} (hrows : s₀.db.candidates.table.rows = [])
    (hwatch : s₀.watchdogs.rows = []) {h : Trace S} {v : View Pt (World S) Unit}
    (hr : View.VReach (Move rt) (fun c => (agent rt c).ctl) s₀ h v)
    (hok : ∀ e ∈ h, OnTime e.1.store e.1.pts e.2) :
    (Owned v.store v.pts ∧ Punctual v.store v.pts) ∧
      ∀ e ∈ h, ∀ k, Over e.1.store k → Over v.store k := by
  -- an action that leaves the rows of `v` to `s'`
  have hover : ∀ {h : Trace S} {v : View Pt (World S) Unit} {a : Act Call Input} {s' : World S},
      (∀ e ∈ h, ∀ k, Over e.1.store k → Over v.store k) → (∀ k, Over v.store k → Over s' k) →
      ∀ e ∈ h ++ [(v, a)], ∀ k, Over e.1.store k → Over s' k := by
    intro h v a s' hi hstep e he k hk
    rcases List.mem_append.mp he with he | he
    · exact hstep k (hi e he k hk)
    · rw [List.mem_singleton.mp he] at hk
      exact hstep k hk
  refine View.VReach.invariant (fun v a => OnTime v.store v.pts a)
    (fun h v => (Owned v.store v.pts ∧ Punctual v.store v.pts) ∧
      ∀ e ∈ h, ∀ k, Over e.1.store k → Over v.store k)
    ⟨⟨Owned.start hrows, ?_⟩, fun e he => absurd he List.not_mem_nil⟩ ?_ ?_ ?_ hr hok
  · refine ⟨fun hat => (by cases hat), fun {w} hw => ?_, fun hat => (by cases hat),
      fun hat => by cases hat⟩
    have hw : w ∈ s₀.watchdogs.rows := hw
    rw [hwatch] at hw
    cases hw
  · rintro h v c ⟨⟨hown, hi⟩, hpast⟩ _ -
    refine ⟨⟨hown.idle fun l hl => agent_entry rt c hl, hi.idle fun l hl => ?_⟩,
      hover hpast fun k hk => hk⟩
    cases agent_entryAt rt c hl <;> exact ⟨rfl, rfl⟩
  · rintro h v n l c s' i ⟨⟨hown, hi⟩, hpast⟩ hn hm hok
    exact ⟨⟨hown.exec hn hm (hi.leaseFree _), hi.exec hown hn hm hok⟩,
      hover hpast fun k hk => hown.over hn hm hk⟩
  · rintro h v n l ⟨⟨hown, hi⟩, hpast⟩ _ -
    exact ⟨⟨hown.idle (fun l hl => by cases hl), hi.idle fun l hl => by cases hl⟩,
      hover hpast fun k hk => hk⟩

end Histories

/-- **No double processing**, along every history that is on time: no candidate is
processed by two tasks, and a candidate that is over never becomes active again. -/
theorem no_double_processing {s₀ : World S} (hrows : s₀.db.candidates.table.rows = [])
    (hwatch : s₀.watchdogs.rows = []) {h : Pool.Hist Call Pt (World S) Input String Unit}
    {p : Pool Call Pt (World S) Input String Unit} (hr : Pool.Reach (agent rt) s₀ h p)
    (hok : ∀ e ∈ h, OnTime e.1.store e.1.ctl e.2) :
    (∀ m m' t t' q q', p.ctl m = .at (.proc t q) → p.ctl m' = .at (.proc t' q') →
      t.cand.id = t'.cand.id → m = m') ∧
    ∀ e ∈ h, ∀ k, Over e.1.store k → Over p.store k := by
  obtain ⟨⟨hown, -⟩, hpast⟩ := punctual_of_history hrows hwatch (hr.view (agent_takes rt))
    (Pool.forall_view OnTime hok)
  refine ⟨?_, ?_⟩
  · intro m m' t t' q q' hat hat' hid
    exact hown.once hat hat' rfl (congrArg some hid.symm)
  · intro e he k hk
    exact hpast (e.1.view, e.2) (List.mem_map_of_mem he) k hk

/-- The candidate the `n`-th call is processing. -/
def processing (p : Pool Call Pt (World S) Input String Unit) (n : ℕ) : Option ℕ :=
  match p.ctl n with
  | .at (.proc t _) => some t.cand.id
  | _ => none

theorem processing_eq_some {p : Pool Call Pt (World S) Input String Unit} {n k : ℕ}
    (h : processing p n = some k) : ∃ t q, p.ctl n = .at (.proc t q) ∧ t.cand.id = k := by
  unfold processing at h
  split at h
  · next t q hn => exact ⟨t, q, hn, Option.some.inj h⟩
  · cases h

/-- Something that has to happen before `now` stands at `l`. -/
def lateAt (s : World S) (now : Time) (l : Pt) : Bool :=
  match l with
  | .acquire _ c => decide (c.nextRetryAt ≤ now + 30)
  | .errRetry id => (s.db.get id).any fun (r : Candidate) => decide (r.nextRetryAt ≤ now)
  | l => (l.watch.bind fun handle => s.watchdogs.get handle).any fun (w : Watchdog) =>
    decide (w.wakeAt < now)

/-- `OnTime`, computed. -/
def onTime (p : Pool Call Pt (World S) Input String Unit) : Act Call Input → Bool
  | .exec n i =>
    match p.ctl n with
    | .at (.tick secs) => decide (0 ≤ secs) && !p.anyAt fun l =>
      lateAt p.store (p.store.clock + secs) l
    | .at (.renew _) => !i.dbFails
    | .at .restart => !p.anyAt fun l => l.holds.isSome
    | _ => true
  | _ => true

theorem onTime_sound {p : Pool Call Pt (World S) Input String Unit} {a : Act Call Input}
    (h : onTime p a = true) : OnTime p.store p.ctl a := by
  rintro n i rfl
  refine ⟨fun secs hn => ?_, fun handle hn => ?_, fun hn m l hm => ?_⟩
  · simp only [onTime, hn, Bool.and_eq_true, decide_eq_true_eq, Bool.not_eq_true'] at h
    obtain ⟨hsecs, hlate⟩ := h
    refine ⟨hsecs, fun m boot c hm => ?_, fun m l k handle w hm hk hw hget => ?_,
      fun m id r hm hr => ?_⟩
    · simpa [lateAt] using Pool.not_of_anyAt hlate hm
    · have hno := Pool.not_of_anyAt hlate hm
      cases l with
      | proc t q =>
        cases hw
        simpa [lateAt, Pt.watch, hget] using hno
      | abort handle' id failed =>
        cases hw
        simpa [lateAt, Pt.watch, hget] using hno
      | _ => cases hw
    · simpa [lateAt, hr] using Pool.not_of_anyAt hlate hm
  · simpa [onTime, hn] using h
  · simp only [onTime, hn, Bool.not_eq_true'] at h
    simpa using Pool.not_of_anyAt h hm

/-- A permit after 60 seconds, a renewal 30 seconds later: a second worker gets the
other candidate. -/
theorem no_double_processing_renewed :
    ∃ h p t t' q q', Pool.Reach (agent (.small (.fixed (.error "") (.ok ())) none 8))
      (.fresh (.holding [1]) ()) h p ∧ p.ctl 2 = .at (.proc t q) ∧ p.ctl 6 = .at (.proc t' q') ∧
      t.cand.id ≠ t'.cand.id := by
  obtain ⟨h, p, hreach, hchk⟩ := Pool.exists_reach
    (agent (.small (.fixed (.error "") (.ok ())) none 8)) (.fresh (.holding [1]) ())
    (.spawn (.enqueue "/a" 5 "sensor") :: fineSteps 0 1 0 ++
      .spawn (.enqueue "/b" 5 "sensor") :: fineSteps 1 1 0 ++
      .spawn (.worker 3) :: fineSteps 2 1 0 ++ .spawn (.tick 60) :: fineSteps 3 1 0 ++
      fineSteps 2 2 0 ++ .spawn (.tick 30) :: fineSteps 4 1 0 ++
      .spawn (.renew 0) :: fineSteps 5 1 0 ++ .spawn (.worker 3) :: fineSteps 6 2 0)
    (fun h p => (h.all fun e => onTime e.1 e.2) && (processing p 2).isSome &&
      (processing p 6).isSome) (by decide)
  simp only [Bool.and_eq_true, List.all_eq_true, Option.isSome_iff_exists] at hchk
  obtain ⟨⟨hall, k, hk⟩, k', hk'⟩ := hchk
  obtain ⟨t, q, hat, -⟩ := processing_eq_some hk
  obtain ⟨t', q', hat', -⟩ := processing_eq_some hk'
  refine ⟨h, p, t, t', q, q', hreach, hat, hat', fun hid => ?_⟩
  have honce := (no_double_processing rfl rfl hreach fun e he => onTime_sound (hall e he)).1
  cases honce 2 6 t t' q q' hat hat' hid

/-- The permit comes 200 seconds after the lease: the worker leases the candidate
again, and two tasks process it. -/
theorem late_permit_processes_twice :
    ∃ h p t t' q q', Pool.Reach (agent (.small (.fixed (.error "") (.ok ())) none 8))
      (.fresh (.holding [1]) ()) h p ∧ p.ctl 1 = .at (.proc t q) ∧ p.ctl 3 = .at (.proc t' q') ∧
      t.cand.id = t'.cand.id := by
  obtain ⟨h, p, hreach, hchk⟩ := Pool.exists_reach
    (agent (.small (.fixed (.error "") (.ok ())) none 8)) (.fresh (.holding [1]) ())
    (.spawn (.enqueue "/a" 5 "sensor") :: fineSteps 0 1 0 ++
      .spawn (.worker 3) :: fineSteps 1 1 0 ++ .spawn (.tick 200) :: fineSteps 2 1 0 ++
      fineSteps 1 2 0 ++ .spawn (.worker 3) :: fineSteps 3 2 0)
    (fun _ p => decide (processing p 1 = some 1) && decide (processing p 3 = some 1)) (by decide)
  simp only [Bool.and_eq_true, decide_eq_true_eq] at hchk
  obtain ⟨t, q, hat, hid⟩ := processing_eq_some hchk.1
  obtain ⟨t', q', hat', hid'⟩ := processing_eq_some hchk.2
  exact ⟨h, p, t, t', q, q', hreach, hat, hat', hid.trans hid'.symm⟩

end Corpus.Agent
