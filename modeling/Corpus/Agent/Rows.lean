/-
Who owns a candidate row.

From its lease on, a capture task holds its candidate: only it updates the row,
apart from the renewal task, which moves `next_retry_at`.  That is so as long as no
candidate is leased while a task holds it (`LeaseFree`).

* `Move.row_other` — a step leaves the rows it does not hold alone, up to their
  retry time;
* `Owned` — every held row has one holder, and the holder's copy of the row and
  the point where it stands describe the row.

A row is `early` until its bytes are in the spool, `late` until the server has the
occurrence, then `queued` and `complete`; or it ends in a `gap`.
-/
import Corpus.Agent.Steps

namespace Corpus.Agent

variable {S : Type} {rt : Runtime S}

/-! ### Stages -/

inductive Stage where
  | early
  | late
  | queued
  | complete
  | gap
  deriving DecidableEq

def CaptureState.stage : CaptureState → Stage
  | observed | debouncing | opening | copyingAndHashing => .early
  | hashed | announced | uploadRequired | uploading | finalizing => .late
  | dedupHit | occurrenceQueued => .queued
  | complete => .complete
  | gapRecorded => .gap

theorem CaptureState.stage_of_announces {st : CaptureState} (h : st.announces = true) :
    st.stage = .late := by
  cases st <;> first | rfl | cases h

/-- The stages in which the row of a task can be at a step. -/
def ProcPt.stages : ProcPt → List Stage
  | toOpening | spoolUsed | toCopying | stable _ | setHashed _ | deferFull | ioRetry => [.early]
  | gapRow _ | gapCount _ | finishGap _ => [.early, .late]
  | reload => [.late, .queued]
  | announceSeq | announce _ | toAnnounced _ | toDedupHit | toUploadRequired _ | setUploadId _
  | toUploading _ | readSpool .. | upload .. | toFinalizing _ | finalizeSeq _ | finalize ..
  | finQueued | failRetry => [.late]
  | resumeComplete | dedupQueued | dedupComplete | finComplete => [.queued]
  | removeSpool _ | countPresent | countCaptured | lastUpload => [.complete]

/-- What the stage of a row says of its other columns. -/
def RowOk (r : Candidate) : Prop :=
  (r.state.stage = .early → r.sha256 = none ∧ r.spoolPath = none) ∧
    (r.state.stage = .late ∨ r.state.stage = .queued →
      (∃ sha, r.sha256 = some sha) ∧ ∃ name, r.spoolPath = some name)

/-- Two rows that differ at most in their retry time. -/
def Alike (r c : Candidate) : Prop := r = { c with nextRetryAt := r.nextRetryAt }

theorem Alike.refl (r : Candidate) : Alike r r := rfl

theorem Alike.trans {a b c : Candidate} (h : Alike a b) (h' : Alike b c) : Alike a c := by
  rw [Alike] at *
  rw [h, h']

theorem Alike.rowOk {r c : Candidate} (h : Alike r c) (hc : RowOk c) : RowOk r := by
  rw [h]
  exact hc

theorem alike_renew (t : Time) (r : Candidate) : Alike ((RowWrite.renew t).apply r) r := by
  unfold RowWrite.apply
  dsimp only
  split <;> rfl

theorem nextRetryAt_renew (t : Time) (r : Candidate) :
    ((RowWrite.renew t).apply r).nextRetryAt = r.nextRetryAt ∨
      ((RowWrite.renew t).apply r).nextRetryAt = t := by
  unfold RowWrite.apply
  dsimp only
  split
  · exact .inr rfl
  · exact .inl rfl

theorem alike_defer (t : Time) (r : Candidate) : Alike ((RowWrite.defer t).apply r) r := rfl

/-- The candidate a step holds. -/
def Pt.holds : Pt → Option ℕ
  | acquire _ c => some c.id
  | proc t _ => some t.cand.id
  | abort _ id true => some id
  | errRetry id => some id
  | _ => none

/-! ### What a step does to the rows -/

/-- A stable read touches nothing but the spool. -/
theorem ReadMove.spool_only {path : String} {p : ReadPt} {i : Input} {s s' : World S}
    {c : Ctl ReadPt (Except StableReadError StableReadResult)}
    (h : ReadMove rt path p i s s' c) : s' = { s with spool := s'.spool } := by
  cases h with
  | discard hs => rcases hs with ⟨rfl, -⟩ | rfl <;> rfl
  | again hs => rcases hs with ⟨rfl, -⟩ | rfl <;> rfl
  | _ => rfl

/-- The row written by a step of `process_candidate`. -/
theorem ProcMove.candidates {t : Task} {p : ProcPt} {i : Input} {s s' : World S} {c : Ctl Pt Unit}
    (h : ProcMove rt t p i s s' c) :
    s'.db.candidates = s.db.candidates ∨ i.dbFails = false ∧ ∃ w, p.rowWrite t s.clock = some w ∧
      s.db.candidates.write t.cand.id w = some s'.db.candidates ∧ RowNext rt t p c := by
  cases h with
  | row hw hdb hd hn =>
    obtain ⟨t', ht', rfl⟩ := StateDb.write_some hd
    exact .inr ⟨hdb, _, hw, ht', hn⟩
  | stableAt hm =>
    rw [hm.spool_only]
    exact .inl rfl
  | stableDone hm =>
    rw [hm.spool_only]
    exact .inl rfl
  | gapCount hs => rcases hs with rfl | rfl <;> exact .inl rfl
  | removeSpool hs => rcases hs with ⟨rfl, -⟩ | rfl <;> exact .inl rfl
  | announceSeqErr _ hs => rcases hs with rfl | rfl <;> exact .inl rfl
  | finalizeSeqErr _ hs => rcases hs with rfl | rfl <;> exact .inl rfl
  | uploadErr _ hs _ =>
    subst hs
    exact .inl rfl
  | upload _ hs =>
    subst hs
    exact .inl rfl
  | _ => exact .inl rfl

/-- What a step can do to the row of the candidate `k`. -/
inductive RowStep (l : Pt) (s : World S) (k : ℕ) : Option Candidate → Option Candidate → Prop where
  | same {r} : RowStep l s k r r
  | due {r r'} : Alike r' r → r'.nextRetryAt = r.nextRetryAt ∨ r'.nextRetryAt = s.clock + 120 →
      RowStep l s k (some r) (some r')
  | new {path priority reason debouncing due} : k = s.db.candidates.lastId + 1 →
      RowStep l s k none
        (some (s.db.candidates.newRow path priority reason debouncing due))
  | write {t p w r} : l = .proc t p → t.cand.id = k → p.rowWrite t s.clock = some w →
      RowStep l s k (some r) (some (w.apply r))
  | retry {r due} : l = .errRetry k → RowStep l s k (some r) (some ((RowWrite.retry due).apply r))

/-- An update of one row, seen from the row `k`. -/
theorem rowStep_of_write {l : Pt} {s : World S} {k id : ℕ} {w : RowWrite} {t : Candidates}
    (h : s.db.candidates.write id w = some t)
    (hk : ∀ r, s.db.get k = some r → k = id → RowStep l s k (some r) (some (w.apply r))) :
    RowStep l s k (s.db.get k) (t.get k) := by
  rw [Candidates.get_write h]
  have hget : s.db.get k = s.db.candidates.get k := rfl
  rw [← hget]
  cases hr : s.db.get k with
  | none => exact .same
  | some r =>
    by_cases hid : k = id
    · simp only [Option.map_some, if_pos hid]
      exact hk r hr hid
    · simp only [Option.map_some, if_neg hid]
      exact .same

theorem rowStep_of_enqueue {l : Pt} {s : World S} {k : ℕ} {now : Time} {path : String} {priority : ℤ}
    {reason : String} {debounceMs : ℕ} :
    RowStep l s k (s.db.get k) ((s.db.enqueue now path priority reason debounceMs).1.get k) := by
  rcases Candidates.get_insert s.db.candidates path priority reason (decide (0 < debounceMs))
    (now + (StateDb.asI64 debounceMs).tdiv 1000) k with h | ⟨hk, hnone, -, h⟩
  · have : (s.db.enqueue now path priority reason debounceMs).1.get k = s.db.get k := h
    rw [this]
    exact .same
  · have hn : s.db.get k = none := hnone
    have : (s.db.enqueue now path priority reason debounceMs).1.get k = some _ := h
    rw [hn, this]
    exact .new hk

/-- **Every step changes the row of a candidate in one of five ways.** -/
theorem Move.row_step {l : Pt} {i : Input} {s s' : World S} {c : Ctl Pt Unit}
    (h : Move rt l i s s' c) (k : ℕ) : RowStep l s k (s.db.get k) (s'.db.get k) := by
  cases h with
  | lease hdb hl =>
    obtain ⟨r, -, -, -, -, hw⟩ := StateDb.leaseNextDue_some hl
    obtain ⟨t, ht, rfl⟩ := StateDb.write_some hw
    exact rowStep_of_write ht fun r _ _ => .due (alike_defer _ r) (.inr rfl)
  | proc hp =>
    rcases hp.candidates with heq | ⟨-, w, hw, ht, -⟩
    · have hget : s'.db.get k = s.db.get k := by rw [StateDb.get, heq]; rfl
      rw [hget]
      exact .same
    · exact rowStep_of_write ht fun r _ hk => .write rfl hk.symm hw
  | errRetry hd =>
    obtain ⟨t, ht, rfl⟩ := StateDb.write_some hd
    exact rowStep_of_write ht fun r _ hk => .retry (by rw [hk])
  | renew =>
    unfold renewed
    split
    · exact .same
    · split
      · exact .same
      · dsimp only
        split
        · exact .same
        · split
          · exact .same
          · next d hd =>
            obtain ⟨t, ht, rfl⟩ := StateDb.write_some hd
            exact rowStep_of_write ht fun r _ _ => .due (alike_renew _ r) (nextRetryAt_renew _ r)
  | enqueue _ => exact rowStep_of_enqueue
  | scanEnqueue _ _ => exact rowStep_of_enqueue
  | flushSendErr hs =>
    subst hs
    exact .same
  | flushSend _ hs =>
    subst hs
    exact .same
  | _ => exact .same

/-- A step leaves the rows it does not hold alone, up to their retry time. -/
theorem Move.row_other {l : Pt} {i : Input} {s s' : World S} {c : Ctl Pt Unit}
    (h : Move rt l i s s' c) {k : ℕ} (hk : l.holds ≠ some k) {r : Candidate}
    (hr : s.db.get k = some r) : ∃ r', s'.db.get k = some r' ∧ Alike r' r := by
  have hstep := h.row_step k
  rw [hr] at hstep
  generalize s'.db.get k = o at hstep
  cases hstep with
  | same => exact ⟨r, rfl, .refl r⟩
  | due ha _ => exact ⟨_, rfl, ha⟩
  | write hl hid _ =>
    subst hl
    exact absurd (congrArg some hid) hk
  | retry hl =>
    subst hl
    exact absurd rfl hk

/-- Only captures touch the spool. -/
theorem Move.spool_same {l : Pt} {i : Input} {s s' : World S} {c : Ctl Pt Unit}
    (hm : Move rt l i s s' c) (hl : ∀ t p, l ≠ .proc t p) : s'.spool = s.spool := by
  cases hm with
  | proc _ => exact absurd rfl (hl _ _)
  | renew =>
    unfold renewed
    split
    · rfl
    · split
      · rfl
      · dsimp only
        split
        · rfl
        · split <;> rfl
  | flushSendErr hs =>
    subst hs
    rfl
  | flushSend _ hs =>
    subst hs
    rfl
  | _ => rfl

/-! ### Where a task goes -/

/-- The task `t'` is `t`, with a newer copy of the same row. -/
structure Task.Same (t t' : Task) : Prop where
  boot : t'.boot = t.boot
  handle : t'.handle = t.handle
  id : t'.cand.id = t.cand.id

theorem Task.Same.refl (t : Task) : t.Same t := ⟨rfl, rfl, rfl⟩

theorem FailNext.next {t : Task} {l : Pt} (h : FailNext rt t (.at l)) :
    ∃ p, l = .proc t p := by
  cases h with
  | gap _ => exact ⟨_, rfl⟩
  | retry _ => exact ⟨_, rfl⟩

theorem RemoveNext.next {t : Task} {l : Pt} (h : RemoveNext t (.at l)) : ∃ p, l = .proc t p := by
  cases h with
  | file _ => exact ⟨_, rfl⟩

theorem RowNext.next {t : Task} {p : ProcPt} {l : Pt} (h : RowNext rt t p (.at l)) :
    ∃ p', l = .proc t p' := by
  cases h with
  | resumeComplete h => exact h.next
  | noUploadId h => exact h.next
  | noSpool _ h => exact h.next
  | _ => exact ⟨_, rfl⟩

theorem AfterRead.next {t : Task} {r : Except StableReadError StableReadResult} {l : Pt}
    (h : AfterRead rt t r (.at l)) : ∃ p', l = .proc t p' := by
  cases h with
  | _ => exact ⟨_, rfl⟩

theorem ProcMove.next {t : Task} {p : ProcPt} {i : Input} {s s' : World S} {l : Pt}
    (h : ProcMove rt t p i s s' (.at l)) : ∃ t' p', l = .proc t' p' ∧ t.Same t' := by
  have hstay : (∃ p', l = .proc t p') → ∃ t' p', l = .proc t' p' ∧ t.Same t' :=
    fun ⟨p', h⟩ => ⟨t, p', h, .refl t⟩
  cases h with
  | row _ _ _ hn => exact hstay hn.next
  | stableDone _ ha => exact hstay ha.next
  | announceErr _ _ hf => exact hstay hf.next
  | uploadErr _ _ hf => exact hstay hf.next
  | finalizeErr _ _ hf => exact hstay hf.next
  | countPresent _ hr => exact hstay hr.next
  | lastUpload _ hr => exact hstay hr.next
  | reloadQueued hget _ => exact ⟨_, _, rfl, rfl, rfl, Candidates.get_id hget⟩
  | reloadAnnounce hget _ _ => exact ⟨_, _, rfl, rfl, rfl, Candidates.get_id hget⟩
  | _ => exact ⟨_, _, rfl, .refl t⟩

/-- Where a task goes from a step of `process_candidate`. -/
inductive TaskNext (t : Task) : Ctl Pt Unit → Prop where
  | proc {t' p} : t.Same t' → TaskNext t (.at (.proc t' p))
  | done : TaskNext t (.at (.abort t.handle t.cand.id false))
  | failed : TaskNext t (.at (.abort t.handle t.cand.id true))

theorem ProcMove.taskNext {t : Task} {p : ProcPt} {i : Input} {s s' : World S} {c : Ctl Pt Unit}
    (h : ProcMove rt t p i s s' c) : TaskNext t (Ctl.afterProcess t c) := by
  cases c with
  | idle =>
    cases h with
    | row _ _ _ hn =>
      cases hn with
      | resumeComplete h => cases h
      | noUploadId h => cases h
      | noSpool _ h => cases h
    | stableDone _ ha => cases ha
    | announceErr _ _ hf => cases hf
    | uploadErr _ _ hf => cases hf
    | finalizeErr _ _ hf => cases hf
    | countPresent _ hr => cases hr
    | lastUpload _ hr => cases hr
  | «at» l =>
    obtain ⟨t', p', rfl, hsame⟩ := h.next
    exact .proc hsame
  | done u => exact .done
  | failed => exact .failed

/-- Which point of a call comes after which, and what is known where it does. -/
inductive Goes (rt : Runtime S) (i : Input) (s s' : World S) : Pt → Pt → Prop where
  | lease {boot c d} : s.db.leaseNextDue s.clock 120 = some (some c, d) →
      s' = { s with db := d } → Goes rt i s s' (.lease boot) (.acquire boot c)
  | start {boot c p} : StartAt ⟨boot, s.nextHandle, c⟩ (.at (.proc ⟨boot, s.nextHandle, c⟩ p)) →
      s'.nextHandle = s.nextHandle + 1 →
      Goes rt i s s' (.acquire boot c) (.proc ⟨boot, s.nextHandle, c⟩ p)
  | proc {t t' p p'} : ProcMove rt t p i s s' (.at (.proc t' p')) → t.Same t' →
      Goes rt i s s' (.proc t p) (.proc t' p')
  | returned {t p failed} : Goes rt i s s' (.proc t p) (.abort t.handle t.cand.id failed)
  | errRetry {handle id} : Goes rt i s s' (.abort handle id true) (.errRetry id)
  | scanNext {l path rest} : Goes rt i s s' l (.scanStat path rest)
  | scanSeen {path obj rest} : s.fs.paths path = some obj → s' = s →
      Goes rt i s s' (.scanStat path rest) (.scanSeen path (s.fs.objs obj).key rest)
  | scanEnqueue {path key rest} :
      Goes rt i s s' (.scanSeen path key rest) (.scanEnqueue path rest)
  | flushSend : Goes rt i s s' .flushRead
      (.flushSend ((s.db.pendingGaps 100).filter fun g => (gapEvent rt g).isSome))
  | flushDelete {gap rest} :
      i.answer (rt.server.reportGaps ((gap :: rest).filterMap (gapEvent rt)) i.envs s.server).1 =
        .ok () →
      Goes rt i s s' (.flushSend (gap :: rest)) (.flushDelete gap rest)
  | flushNext {gap gap' rest} :
      Goes rt i s s' (.flushDelete gap (gap' :: rest)) (.flushDelete gap' rest)

theorem Move.goes {l l' : Pt} {i : Input} {s s' : World S} (h : Move rt l i s s' (.at l')) :
    Goes rt i s s' l l' := by
  have hscan : ∀ {rest c}, ScanNext rt rest c → (.at l' : Ctl Pt Unit) = c →
      Goes rt i s s' l l' := by
    intro rest c hn hc
    cases hn with
    | done _ => cases hc
    | next _ _ =>
      cases hc
      exact .scanNext
  generalize hc : (Ctl.at l' : Ctl Pt Unit) = c at h
  cases h with
  | lease _ hl =>
    cases hc
    exact .lease hl rfl
  | acquire hs =>
    cases hs with
    | fresh hstate =>
      cases hc
      exact .start (.fresh hstate) rfl
    | reread hstate =>
      cases hc
      exact .start (.reread hstate) rfl
    | resume h₁ h₂ h₃ h₄ =>
      cases hc
      exact .start (.resume h₁ h₂ h₃ h₄) rfl
  | @proc t p _ _ _ c₀ hp =>
    cases c₀ with
    | idle => cases hc
    | «at» l₀ =>
      cases hc
      obtain ⟨t', p', rfl, hsame⟩ := hp.next
      exact .proc hp hsame
    | done u =>
      cases hc
      exact .returned
    | failed =>
      cases hc
      exact .returned
  | @abort _ _ failed =>
    cases failed with
    | true =>
      cases hc
      exact .errRetry
    | false => cases hc
  | scanSkip _ hn => exact hscan hn hc
  | scanSame _ hn => exact hscan hn hc
  | scanEnqueue _ hn => exact hscan hn hc
  | scanStat hp =>
    cases hc
    exact .scanSeen hp rfl
  | scanChanged _ _ =>
    cases hc
    exact .scanEnqueue
  | flushRead =>
    cases hc
    exact .flushSend
  | flushSend ha _ =>
    cases hc
    exact .flushDelete ha
  | flushDelete =>
    cases hc
    exact .flushNext
  | _ => cases hc

/-- A step passes on the candidate it holds, or takes one by a lease. -/
theorem Move.holds_next {l l' : Pt} {i : Input} {s s' : World S} (h : Move rt l i s s' (.at l'))
    {k : ℕ} (hk : l'.holds = some k) : l.holds = some k ∨
      ∃ boot c d, l = .lease boot ∧ s.db.leaseNextDue s.clock 120 = some (some c, d) ∧ c.id = k := by
  cases h.goes with
  | lease hl _ => exact .inr ⟨_, _, _, rfl, hl, Option.some.inj hk⟩
  | start _ _ => exact .inl hk
  | proc _ hsame =>
    left
    rw [← hk]
    exact congrArg some hsame.id.symm
  | @returned _ _ failed =>
    cases failed with
    | true => exact .inl hk
    | false => cases hk
  | errRetry => exact .inl hk
  | _ => cases hk

/-- A task is at a step because it has just started, or by its own step. -/
theorem Move.to_proc {l : Pt} {i : Input} {s s' : World S} {t' : Task} {p' : ProcPt}
    (h : Move rt l i s s' (.at (.proc t' p'))) :
    (∃ boot x, l = .acquire boot x ∧ StartAt ⟨boot, s.nextHandle, x⟩ (.at (.proc t' p'))) ∨
      ∃ t p, l = .proc t p ∧ ProcMove rt t p i s s' (.at (.proc t' p')) := by
  cases h.goes with
  | start hs _ => exact .inl ⟨_, _, rfl, hs⟩
  | proc hp _ => exact .inr ⟨_, _, rfl, hp⟩

/-! ### What a task knows of its row -/

/-- The copy `t.cand` and the step `p` describe the row `r`. -/
structure Knows (t : Task) (p : ProcPt) (r : Candidate) : Prop where
  path : r.path = t.cand.path
  attempts : r.attempts = t.cand.attempts
  stage : r.state.stage ∈ p.stages
  copy : p ≠ .reload → r.sha256 = t.cand.sha256 ∧ r.spoolPath = t.cand.spoolPath
  named : ∀ name, p = .removeSpool name → t.cand.spoolPath = some name

theorem Knows.alike {t : Task} {p : ProcPt} {r r' : Candidate} (h : Knows t p r)
    (ha : Alike r' r) : Knows t p r' := by
  rw [ha]
  exact ⟨h.path, h.attempts, h.stage, h.copy, h.named⟩

/-- The same row, at another step that allows its stage. -/
theorem Knows.step {t : Task} {p q : ProcPt} {r : Candidate} (h : Knows t p r) (hp : p ≠ .reload)
    (hq : r.state.stage ∈ q.stages) (hn : ∀ name, q = .removeSpool name →
      t.cand.spoolPath = some name) : Knows t q r :=
  ⟨h.path, h.attempts, hq, fun _ => h.copy hp, hn⟩

/-- A transition of the row keeps what the task knows. -/
theorem Knows.transition {t : Task} {p q : ProcPt} {r : Candidate} {new : CaptureState}
    (h : Knows t p r) (hp : p ≠ .reload) (hq : new.stage ∈ q.stages)
    (hn : ∀ name, q = .removeSpool name → t.cand.spoolPath = some name) :
    Knows t q ((RowWrite.transition new).apply r) :=
  ⟨h.path, h.attempts, hq, fun _ => h.copy hp, hn⟩

theorem FailNext.knows {t t' : Task} {p q : ProcPt} {r : Candidate} (h : Knows t p r)
    (hp : p ≠ .reload) (hs : r.state.stage = .late) (hf : FailNext rt t (.at (.proc t' q))) :
    Knows t' q r := by
  cases hf with
  | gap _ => exact h.step hp (by simp [hs, ProcPt.stages]) (fun _ hc => by cases hc)
  | retry _ => exact h.step hp (by simp [hs, ProcPt.stages]) (fun _ hc => by cases hc)

theorem RemoveNext.knows {t t' : Task} {p q : ProcPt} {r : Candidate} (h : Knows t p r)
    (hp : p ≠ .reload) (hs : r.state.stage = .complete) (hf : RemoveNext t (.at (.proc t' q))) :
    Knows t' q r := by
  cases hf with
  | file hn =>
    refine h.step hp (by simp [hs, ProcPt.stages]) fun _ hc => ?_
    cases hc
    exact hn

theorem AfterRead.knows {t t' : Task} {p q : ProcPt} {r : Candidate}
    {x : Except StableReadError StableReadResult} (h : Knows t p r) (hp : p ≠ .reload)
    (hs : r.state.stage = .early) (hf : AfterRead rt t x (.at (.proc t' q))) : Knows t' q r := by
  cases hf <;> exact h.step hp (by simp [hs, ProcPt.stages]) (fun _ hc => by cases hc)

theorem RowOk.transition {r : Candidate} {new : CaptureState} (h : RowOk r)
    (he : new.stage = .early → r.state.stage = .early)
    (hl : new.stage = .late ∨ new.stage = .queued →
      r.state.stage = .late ∨ r.state.stage = .queued) :
    RowOk ((RowWrite.transition new).apply r) :=
  ⟨fun hs => h.1 (he hs), fun hs => h.2 (hl hs)⟩

/-- An update by the task keeps the row well formed, and the task knows it where it
goes. -/
theorem RowNext.knows {t : Task} {p : ProcPt} {c : Ctl Pt Unit} {r : Candidate} {w : RowWrite}
    {now : Time} (hn : RowNext rt t p c) (hw : p.rowWrite t now = some w) (hok : RowOk r)
    (h : Knows t p r) :
    RowOk (w.apply r) ∧ ∀ t' p', c = .at (.proc t' p') → Knows t' p' (w.apply r) := by
  have hst := h.stage
  -- a transition within or out of the stages the step allows
  have hto : ∀ {new : CaptureState}, w = .transition new → p ≠ .reload →
      (new.stage = .early → r.state.stage = .early) →
      (new.stage = .late ∨ new.stage = .queued → r.state.stage = .late ∨ r.state.stage = .queued) →
      (∀ t' p', c = .at (.proc t' p') → t' = t ∧ new.stage ∈ p'.stages ∧
        ∀ name, p' = .removeSpool name → t.cand.spoolPath = some name) →
      RowOk (w.apply r) ∧ ∀ t' p', c = .at (.proc t' p') → Knows t' p' (w.apply r) := by
    rintro new rfl hp he hl hnext
    refine ⟨hok.transition he hl, fun t' p' hc => ?_⟩
    obtain ⟨rfl, hs, hname⟩ := hnext t' p' hc
    exact h.transition hp hs hname
  cases hn with
  | toOpening =>
    cases hw
    refine hto rfl (by simp) (fun _ => List.mem_singleton.mp hst) (by simp [CaptureState.stage]) ?_
    rintro t' p' ⟨⟩
    exact ⟨rfl, by simp [CaptureState.stage, ProcPt.stages], fun _ hc => by cases hc⟩
  | toCopying =>
    cases hw
    refine hto rfl (by simp) (fun _ => List.mem_singleton.mp hst) (by simp [CaptureState.stage]) ?_
    rintro t' p' ⟨⟩
    exact ⟨rfl, by simp [CaptureState.stage, ProcPt.stages], fun _ hc => by cases hc⟩
  | setHashed =>
    cases hw
    refine ⟨⟨fun hs => (by cases hs), fun _ => ⟨⟨_, rfl⟩, _, rfl⟩⟩, ?_⟩
    rintro t' p' ⟨⟩
    exact ⟨h.path, h.attempts, by simp [RowWrite.apply, CaptureState.stage, ProcPt.stages],
      fun hne => absurd rfl hne, fun _ hc => by cases hc⟩
  | deferFull =>
    cases hw
    exact ⟨hok, fun t' p' hc => by cases hc⟩
  | ioRetry =>
    cases hw
    exact ⟨hok, fun t' p' hc => by cases hc⟩
  | failRetry =>
    cases hw
    exact ⟨hok, fun t' p' hc => by cases hc⟩
  | finishGap =>
    cases hw
    refine ⟨⟨fun hs => (by cases hs), fun hs => ?_⟩, fun t' p' hc => by cases hc⟩
    rcases hs with hs | hs <;> cases hs
  | resumeComplete hx =>
    cases hw
    refine hto rfl (by simp) (by simp [CaptureState.stage]) (by simp [CaptureState.stage]) ?_
    rintro t' p' rfl
    cases hx with
    | file hname =>
      refine ⟨rfl, by simp [CaptureState.stage, ProcPt.stages], fun _ hc => ?_⟩
      cases hc
      exact hname
  | finComplete =>
    cases hw
    refine hto rfl (by simp) (by simp [CaptureState.stage]) (by simp [CaptureState.stage]) ?_
    rintro t' p' ⟨⟩
    exact ⟨rfl, by simp [CaptureState.stage, ProcPt.stages], fun _ hc => by cases hc⟩
  | dedupComplete =>
    cases hw
    refine hto rfl (by simp) (by simp [CaptureState.stage]) (by simp [CaptureState.stage]) ?_
    rintro t' p' ⟨⟩
    exact ⟨rfl, by simp [CaptureState.stage, ProcPt.stages], fun _ hc => by cases hc⟩
  | dedupQueued =>
    cases hw
    refine hto rfl (by simp) (by simp [CaptureState.stage])
      (fun _ => .inr (List.mem_singleton.mp hst)) ?_
    rintro t' p' ⟨⟩
    exact ⟨rfl, by simp [CaptureState.stage, ProcPt.stages], fun _ hc => by cases hc⟩
  | noUploadId hf =>
    cases hw
    refine hto rfl (by simp) (by simp [CaptureState.stage])
      (fun _ => .inl (List.mem_singleton.mp hst)) ?_
    rintro t' p' rfl
    cases hf <;> exact ⟨rfl, by simp [CaptureState.stage, ProcPt.stages], fun _ hc => by cases hc⟩
  | noSpool _ hf =>
    cases hw
    refine hto rfl (by simp) (by simp [CaptureState.stage])
      (fun _ => .inl (List.mem_singleton.mp hst)) ?_
    rintro t' p' rfl
    cases hf <;> exact ⟨rfl, by simp [CaptureState.stage, ProcPt.stages], fun _ hc => by cases hc⟩
  | _ =>
    -- the transitions among the upload states, and to `DEDUP_HIT` and `OCCURRENCE_QUEUED`
    cases hw
    refine hto rfl (by simp) (by simp [CaptureState.stage])
      (fun _ => .inl (List.mem_singleton.mp hst)) ?_
    rintro t' p' ⟨⟩
    exact ⟨rfl, by simp [CaptureState.stage, ProcPt.stages], fun _ hc => by cases hc⟩

/-- A step of the task keeps the row well formed, and the task knows it where it
goes. -/
theorem ProcMove.knows {t : Task} {p : ProcPt} {i : Input} {s s' : World S} {c : Ctl Pt Unit}
    {r : Candidate} (hm : ProcMove rt t p i s s' c) (hr : s.db.get t.cand.id = some r)
    (hok : RowOk r) (h : Knows t p r) : ∃ r', s'.db.get t.cand.id = some r' ∧ RowOk r' ∧
      ∀ t' p', c = .at (.proc t' p') → Knows t' p' r' := by
  have hst := h.stage
  have hstep : ∀ {q : ProcPt}, p ≠ .reload → r.state.stage ∈ q.stages →
      (∀ name, q ≠ .removeSpool name) → Knows t q r :=
    fun hp hq hn => h.step hp hq fun name hc => absurd hc (hn name)
  have hkeep : s'.db.candidates = s.db.candidates → (∀ t' p', c = .at (.proc t' p') →
      Knows t' p' r) → ∃ r', s'.db.get t.cand.id = some r' ∧ RowOk r' ∧
        ∀ t' p', c = .at (.proc t' p') → Knows t' p' r' := by
    intro hdb hk
    refine ⟨r, ?_, hok, hk⟩
    rw [StateDb.get, hdb]
    exact hr
  cases hm with
  | row hw hdb hd hn =>
    obtain ⟨cs, hcs, rfl⟩ := StateDb.write_some hd
    obtain ⟨hok', hk⟩ := hn.knows hw hok h
    exact ⟨_, Candidates.get_write_self hcs hr, hok', hk⟩
  | rowErr _ _ => exact hkeep rfl fun t' p' hc => by cases hc
  | spoolUsed =>
    refine hkeep rfl ?_
    rintro t' p' ⟨⟩
    exact hstep (by simp) hst (by simp)
  | stableAt hx =>
    rw [hx.spool_only] at hkeep ⊢
    refine hkeep rfl ?_
    rintro t' p' ⟨⟩
    exact hstep (by simp) hst (by simp)
  | stableDone hx ha =>
    rw [hx.spool_only] at hkeep ⊢
    refine hkeep rfl ?_
    rintro t' p' rfl
    exact ha.knows h (by simp) (List.mem_singleton.mp hst)
  | gapRow _ =>
    refine hkeep rfl ?_
    rintro t' p' ⟨⟩
    exact hstep (by simp) hst (by simp)
  | gapRowErr _ =>
    refine hkeep rfl ?_
    rintro t' p' ⟨⟩
    exact hstep (by simp) hst (by simp)
  | gapCount hs =>
    refine hkeep (by rcases hs with rfl | rfl <;> rfl) ?_
    rintro t' p' ⟨⟩
    exact hstep (by simp) hst (by simp)
  | reloadQueued hget hq =>
    obtain rfl : r = _ := Option.some.inj (hr.symm.trans hget)
    refine hkeep rfl ?_
    rintro t' p' ⟨⟩
    refine ⟨rfl, rfl, ?_, fun _ => ⟨rfl, rfl⟩, fun _ hc => by cases hc⟩
    rcases hq with hq | hq <;> simp [hq, CaptureState.stage, ProcPt.stages]
  | reloadAnnounce hget hsha ha =>
    obtain rfl : r = _ := Option.some.inj (hr.symm.trans hget)
    refine hkeep rfl ?_
    rintro t' p' ⟨⟩
    refine ⟨rfl, rfl, ?_, fun _ => ⟨rfl, rfl⟩, fun _ hc => by cases hc⟩
    rw [CaptureState.stage_of_announces ha]
    exact List.mem_singleton_self _
  | removeSpool hs =>
    exact hkeep (by rcases hs with ⟨rfl, -⟩ | rfl <;> rfl) fun t' p' hc => by cases hc
  | announceSeqErr _ hs =>
    exact hkeep (by rcases hs with rfl | rfl <;> rfl) fun t' p' hc => by cases hc
  | finalizeSeqErr _ hs =>
    exact hkeep (by rcases hs with rfl | rfl <;> rfl) fun t' p' hc => by cases hc
  | announceErr _ _ hf =>
    refine hkeep rfl ?_
    rintro t' p' rfl
    exact hf.knows h (by simp) (List.mem_singleton.mp hst)
  | uploadErr _ hs hf =>
    subst hs
    refine hkeep rfl ?_
    rintro t' p' rfl
    exact hf.knows h (by simp) (List.mem_singleton.mp hst)
  | finalizeErr _ _ hf =>
    refine hkeep rfl ?_
    rintro t' p' rfl
    exact hf.knows h (by simp) (List.mem_singleton.mp hst)
  | upload _ hs =>
    subst hs
    refine hkeep rfl ?_
    rintro t' p' ⟨⟩
    exact hstep (by simp) hst (by simp)
  | countPresent _ hf =>
    refine hkeep rfl ?_
    rintro t' p' rfl
    exact hf.knows h (by simp) (List.mem_singleton.mp hst)
  | lastUpload _ hf =>
    refine hkeep rfl ?_
    rintro t' p' rfl
    exact hf.knows h (by simp) (List.mem_singleton.mp hst)
  | reloadErr _ => exact hkeep rfl fun t' p' hc => by cases hc
  | reloadGone _ => exact hkeep rfl fun t' p' hc => by cases hc
  | reloadNoSha _ _ _ => exact hkeep rfl fun t' p' hc => by cases hc
  | reloadEnd _ _ _ _ => exact hkeep rfl fun t' p' hc => by cases hc
  | countPresentErr _ => exact hkeep rfl fun t' p' hc => by cases hc
  | setUploadIdErr _ => exact hkeep rfl fun t' p' hc => by cases hc
  | readSpoolErr _ => exact hkeep rfl fun t' p' hc => by cases hc
  | countCapturedErr _ => exact hkeep rfl fun t' p' hc => by cases hc
  | lastUploadErr _ => exact hkeep rfl fun t' p' hc => by cases hc
  | _ =>
    refine hkeep rfl ?_
    rintro t' p' ⟨⟩
    exact hstep (by simp) hst (by simp)

/-- The stages of active rows. -/
theorem CaptureState.active_iff_stage {st : CaptureState} :
    st.active = true ↔ st.stage = .early ∨ st.stage = .late ∨ st.stage = .queued := by
  cases st <;> simp [active, stage]

/-- A row that its task updates is active. -/
theorem Knows.active {t : Task} {p : ProcPt} {r : Candidate} (h : Knows t p r) {now : Time}
    {w : RowWrite} (hw : p.rowWrite t now = some w) : r.state.active = true := by
  have hst := h.stage
  rw [CaptureState.active_iff_stage]
  cases p <;> simp only [ProcPt.stages, List.mem_cons, List.not_mem_nil, or_false] at hst <;>
    first
      | (cases hw; done)
      | exact .inl hst
      | exact .inr (.inl hst)
      | exact .inr (.inr hst)
      | exact hst.imp_right .inl

/-- The update of a row by its task succeeds when the database does. -/
theorem Knows.write {t : Task} {p : ProcPt} {r : Candidate} {s : World S} (h : Knows t p r)
    (hr : s.db.get t.cand.id = some r) {w : RowWrite} (hw : p.rowWrite t s.clock = some w) :
    s.db.write t.cand.id w ≠ none := by
  have hact : ∀ c, s.db.candidates.get t.cand.id = some c → (w.apply c).state.active = true →
      c.state.active = true := by
    intro c hc _
    obtain rfl : c = r := Option.some.inj (hc.symm.trans hr)
    exact h.active hw
  obtain ⟨cs, hcs⟩ := Candidates.write_of_active hact
  rw [StateDb.write, hcs]
  simp

/-! ### Ownership along histories -/

/-- No candidate is leased while a task holds it. -/
def LeaseFree (s : World S) (pts : ℕ → Ctl Pt Unit) (a : Act Call Input) : Prop :=
  ∀ n i boot c d, a = .exec n i → pts n = .at (.lease boot) →
    s.db.leaseNextDue s.clock 120 = some (some c, d) →
    ∀ m l, pts m = .at l → l.holds ≠ some c.id

/-- `LeaseFree`, computed. -/
def leaseFree {C ε : Type} (p : Pool C Pt (World S) Input ε Unit) : Act Call Input → Bool
  | .exec n _ =>
    match p.ctl n, p.store.db.leaseNextDue p.store.clock 120 with
    | .at (.lease _), some (some c, _) => !p.anyAt fun l => decide (l.holds = some c.id)
    | _, _ => true
  | _ => true

theorem leaseFree_sound {C ε : Type} {p : Pool C Pt (World S) Input ε Unit} {a : Act Call Input}
    (h : leaseFree p a = true) : LeaseFree p.store p.ctl a := by
  rintro n i boot c d rfl hn hl m l hm
  simp only [leaseFree, hn, hl, Bool.not_eq_true'] at h
  exact of_decide_eq_false (Pool.not_of_anyAt h hm)

/-- Every row is well formed, every held row has one holder, and the holder knows
the row. -/
structure Owned (s : World S) (pts : ℕ → Ctl Pt Unit) : Prop where
  once : ∀ {m m' l l' k}, pts m = .at l → pts m' = .at l' → l.holds = some k →
    l'.holds = some k → m = m'
  rowOk : ∀ {k r}, s.db.get k = some r → RowOk r
  waits : ∀ {m boot c}, pts m = .at (.acquire boot c) →
    c.state.active = true ∧ ∃ r, s.db.get c.id = some r ∧ Alike r c
  knows : ∀ {m t p}, pts m = .at (.proc t p) → ∃ r, s.db.get t.cand.id = some r ∧ Knows t p r

/-- The rows of a database in which nothing has been captured yet. -/
theorem Owned.start {s : World S} (hrows : s.db.candidates.table.rows = []) :
    Owned s fun _ => .idle where
  once h := by cases h
  rowOk {k r} h := by
    have hm := (Table.mem_of_get h).1
    rw [hrows] at hm
    cases hm
  waits h := by cases h
  knows h := by cases h

theorem StartAt.knows {t : Task} {c : Ctl Pt Unit} {r : Candidate} (h : StartAt t c)
    (ha : Alike r t.cand) (hact : t.cand.state.active = true) {t' : Task} {p : ProcPt}
    (hc : c = .at (.proc t' p)) : t' = t ∧ Knows t p r := by
  have hrow : r.path = t.cand.path ∧ r.attempts = t.cand.attempts ∧ r.state = t.cand.state ∧
      r.sha256 = t.cand.sha256 ∧ r.spoolPath = t.cand.spoolPath := by
    rw [ha]
    exact ⟨rfl, rfl, rfl, rfl, rfl⟩
  obtain ⟨h1, h2, h3, h4, h5⟩ := hrow
  cases h with
  | fresh hs =>
    cases hc
    refine ⟨rfl, h1, h2, ?_, fun _ => ⟨h4, h5⟩, fun _ hc => by cases hc⟩
    rw [h3]
    rcases hs with hs | hs <;> rw [hs] <;> exact List.mem_singleton_self _
  | reread hs =>
    cases hc
    refine ⟨rfl, h1, h2, ?_, fun _ => ⟨h4, h5⟩, fun _ hc => by cases hc⟩
    rw [h3]
    rcases hs with hs | hs <;> rw [hs] <;> exact List.mem_singleton_self _
  | resume n1 n2 n3 n4 =>
    cases hc
    refine ⟨rfl, h1, h2, ?_, fun hne => absurd rfl hne, fun _ hc => by cases hc⟩
    rw [h3]
    cases hst : t.cand.state <;> rw [hst] at n1 n2 n3 n4 hact <;>
      simp_all [CaptureState.stage, ProcPt.stages, CaptureState.active]

section Step

variable {s s' : World S} {pts : ℕ → Ctl Pt Unit} {n : ℕ} {l : Pt} {i : Input} {c : Ctl Pt Unit}

/-- Rows stay well formed. -/
theorem Owned.rowOk_move (h : Owned s pts) (hn : pts n = .at l) (hm : Move rt l i s s' c) {k : ℕ}
    {r : Candidate} (hr : s'.db.get k = some r) : RowOk r := by
  have hstep := hm.row_step k
  rw [hr] at hstep
  generalize hg : s.db.get k = o at hstep
  cases hstep with
  | same => exact h.rowOk hg
  | due ha _ => exact ha.rowOk (h.rowOk hg)
  | @new _ _ _ debouncing _ =>
    cases debouncing
    · exact ⟨fun _ => ⟨rfl, rfl⟩, fun hs => by rcases hs with hs | hs <;> cases hs⟩
    · exact ⟨fun _ => ⟨rfl, rfl⟩, fun hs => by rcases hs with hs | hs <;> cases hs⟩
  | @retry r₀ _ _ =>
    have hok : RowOk r₀ := h.rowOk hg
    exact hok
  | write hl hid hw =>
    subst hl hid
    obtain ⟨r₀, hr₀, hk⟩ := h.knows hn
    cases hm with
    | proc hp =>
      obtain ⟨r', hr', hok, -⟩ := hp.knows hr₀ (h.rowOk hr₀) hk
      rw [hr] at hr'
      rw [Option.some.inj hr']
      exact hok

/-- A step of one task, seen by the others. -/
theorem Owned.other_keeps (h : Owned s pts) (hn : pts n = .at l) (hm : Move rt l i s s' c) {m : ℕ}
    {l' : Pt} {k : ℕ} (hne : m ≠ n) (hat : pts m = .at l') (hk : l'.holds = some k) {r : Candidate}
    (hr : s.db.get k = some r) : ∃ r', s'.db.get k = some r' ∧ Alike r' r := by
  refine hm.row_other (fun hl => hne ?_) hr
  exact h.once hat hn hk hl

theorem Owned.exec (h : Owned s pts) (hn : pts n = .at l) (hm : Move rt l i s s' c)
    (hfree : LeaseFree s pts (.exec n i)) : Owned s' (Function.update pts n c) where
  once {m m' l₁ l₂ k} hat hat' hk hk' := by
    -- the step passes on what it held, or leases what nobody holds
    have hown : ∀ {l₃ m₃ l₄}, c = .at l₃ → l₃.holds = some k → m₃ ≠ n → pts m₃ = .at l₄ →
        l₄.holds = some k → False := by
      rintro l₃ m₃ l₄ rfl hk₃ hne hat₄ hk₄
      rcases hm.holds_next hk₃ with hl | ⟨boot, x, d, rfl, hlease, rfl⟩
      · exact hne (h.once hat₄ hn hk₄ hl)
      · exact hfree n i boot x d rfl hn hlease m₃ l₄ hat₄ hk₄
    rcases View.at_update hat with ⟨rfl, hc⟩ | ⟨hne, hat₁⟩
    · rcases View.at_update hat' with ⟨rfl, -⟩ | ⟨hne', hat₂⟩
      · rfl
      · exact (hown hc hk hne' hat₂ hk').elim
    · rcases View.at_update hat' with ⟨rfl, hc'⟩ | ⟨hne', hat₂⟩
      · exact (hown hc' hk' hne hat₁ hk).elim
      · exact h.once hat₁ hat₂ hk hk'
  rowOk hr := h.rowOk_move hn hm hr
  waits {m boot x} hat := by
    rcases View.at_update hat with ⟨rfl, rfl⟩ | ⟨hne, hat'⟩
    · cases hm.goes with
      | lease hl hs =>
        subst hs
        obtain ⟨r, hget, hact, -, rfl, hw⟩ := StateDb.leaseNextDue_some hl
        obtain ⟨t, ht, rfl⟩ := StateDb.write_some hw
        exact ⟨hact, _, Candidates.get_write_self ht hget, .refl _⟩
    · obtain ⟨hact, r, hr, ha⟩ := h.waits hat'
      obtain ⟨r', hr', ha'⟩ := h.other_keeps hn hm hne hat' rfl hr
      exact ⟨hact, r', hr', ha'.trans ha⟩
  knows {m t p} hat := by
    rcases View.at_update hat with ⟨rfl, rfl⟩ | ⟨hne, hat'⟩
    · rcases hm.to_proc with ⟨boot, x, rfl, hs⟩ | ⟨t₀, p₀, rfl, hp⟩
      · obtain ⟨hact, r, hr, ha⟩ := h.waits hn
        obtain ⟨rfl, hk⟩ := hs.knows ha hact rfl
        cases hm with
        | acquire _ => exact ⟨r, hr, hk⟩
      · obtain ⟨r, hr, hk⟩ := h.knows hn
        obtain ⟨r', hr', -, hk'⟩ := hp.knows hr (h.rowOk hr) hk
        obtain ⟨t₁, p₁, ⟨⟩, hsame⟩ := hp.next
        exact ⟨r', by rw [hsame.id]; exact hr', hk' t p rfl⟩
    · obtain ⟨r, hr, hk⟩ := h.knows hat'
      obtain ⟨r', hr', ha'⟩ := h.other_keeps hn hm hne hat' rfl hr
      exact ⟨r', hr', hk.alike ha'⟩

/-- A call that starts holds nothing, and neither does one that is cut off. -/
theorem Owned.idle (h : Owned s pts) (hc : ∀ l, c = .at l → l.holds = none) :
    Owned s (Function.update pts n c) where
  once {m m' l₁ l₂ k} hat hat' hk hk' := by
    rcases View.at_update hat with ⟨rfl, he⟩ | ⟨-, hat₁⟩
    · rw [hc _ he] at hk
      cases hk
    · rcases View.at_update hat' with ⟨rfl, he⟩ | ⟨-, hat₂⟩
      · rw [hc _ he] at hk'
        cases hk'
      · exact h.once hat₁ hat₂ hk hk'
  rowOk hr := h.rowOk hr
  waits hat := by
    rcases View.at_update hat with ⟨rfl, he⟩ | ⟨-, hat'⟩
    · cases hc _ he
    · exact h.waits hat'
  knows hat := by
    rcases View.at_update hat with ⟨rfl, he⟩ | ⟨-, hat'⟩
    · cases hc _ he
    · exact h.knows hat'

end Step

/-- Where a call starts. -/
inductive EntryAt : Call → Pt → Prop where
  | worker (boot : Uuid) : EntryAt (.worker boot) (.lease boot)
  | renew (handle : ℕ) : EntryAt (.renew handle) (.renew handle)
  | enqueue (path : String) (priority : ℤ) (reason : String) :
      EntryAt (.enqueue path priority reason) (.enqueue path priority reason)
  | reconcile {entries rest : List String} {path : String} : path :: rest <:+ entries →
      EntryAt (.reconcile entries) (.scanStat path rest)
  | flush : EntryAt .flush .flushRead
  | put (path : String) (obj : ℕ) (file : FileObj) : EntryAt (.put path obj file) (.put path obj file)
  | remove (path : String) : EntryAt (.remove path) (.remove path)
  | tick (secs : ℤ) : EntryAt (.tick secs) (.tick secs)
  | restart : EntryAt .restart .restart

theorem agent_entryAt (rt : Runtime S) (c : Call) {l : Pt} (h : (agent rt c).ctl = .at l) :
    EntryAt c l := by
  cases c with
  | reconcile entries =>
    have hn : ScanNext rt entries (reconcileScan rt entries).ctl := reconcileScan_next entries
    rw [show (reconcileScan rt entries).ctl = .at l from h] at hn
    cases hn with
    | next hs _ => exact .reconcile ⟨_, hs.symm⟩
  | worker boot =>
    cases h
    exact .worker boot
  | flush =>
    cases h
    exact .flush
  | renew handle =>
    cases h
    exact .renew handle
  | enqueue path priority reason =>
    cases h
    exact .enqueue path priority reason
  | put path obj file =>
    cases h
    exact .put path obj file
  | remove path =>
    cases h
    exact .remove path
  | tick secs =>
    cases h
    exact .tick secs
  | restart =>
    cases h
    exact .restart

/-- A call starts at a step that holds nothing. -/
theorem agent_entry (rt : Runtime S) (c : Call) {l : Pt} (h : (agent rt c).ctl = .at l) :
    l.holds = none := by
  cases agent_entryAt rt c h <;> rfl

end Corpus.Agent
