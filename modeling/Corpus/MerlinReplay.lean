/-
Merlin ingestion is replay-safe.

`Served` is a sequence of calls of `ingest_segment`, for any tenants, each run to
its answer before the next starts; a call may also be given up at any statement,
which is how a failed statement answers.  `seen` lists what the accepted requests
said, in order.

One call adds to the observations what its batch says and they do not have
(`BatchAdded`, by induction over the batch); the invariant of the sequence is that
the stored observations are the first ones of `seen` under their keys.

Main result:
* `merlin_replay_safe` — the conservation laws, and that a replay adds nothing.
-/
import Corpus.Merlin
import Mathlib.Algebra.GroupWithZero.Nat

namespace Corpus

variable {m : MerlinConfig} {t : Uuid} {req : MerlinSegmentRequest}

/-! ### What a request says -/

/-- The observation of one event, if it can be identified. -/
def observe (m : MerlinConfig) (t : Uuid) (req : MerlinSegmentRequest) (e : RawJson × ℕ) :
    Option Observation :=
  match eventIdentity m e.2 e.1 with
  | .ok identity => some ⟨t, req.hostName, req.segment, identity, e.1⟩
  | .error _ => none

/-- The observations of the batch, in order. -/
def observations (m : MerlinConfig) (t : Uuid) (req : MerlinSegmentRequest) : List Observation :=
  req.events.zipIdx.filterMap (observe m t req)

/-- The columns of the stored row under this key. -/
def MerlinDb.stored (d : MerlinDb) (k : Uuid × String × String) : Option Observation :=
  (d.observations.get k).map MerlinObservation.toObservation

/-- The number of observations stored for a tenant. -/
def MerlinDb.size (d : MerlinDb) (t : Uuid) : ℕ := d.observations.rows.countP fun r => r.tenant = t

/-! ### One event -/

/-- A batch `os` of tenant `t` has been added under the segment `segment`, `n` of
it as new rows. -/
structure BatchAdded (t segment : Uuid) (os : List Observation) (n : ℕ) (d d' : MerlinDb) :
    Prop where
  segments : d'.segments = d.segments
  stored : ∀ k, d'.stored k = (d.stored k).or (os.find? fun o => o.key = k)
  size : ∀ t', d'.size t' = d.size t' + if t = t' then n else 0
  other : ∀ {x}, x ≠ segment → d'.countOf x = d.countOf x
  le : n ≤ os.length
  replay : (∀ o ∈ os, (d.stored o.key).isSome) → d' = d ∧ n = 0

theorem BatchAdded.nil (t segment : Uuid) (d : MerlinDb) : BatchAdded t segment [] 0 d d where
  segments := rfl
  stored := fun k => by simp
  size := fun t' => by simp
  other := fun _ => rfl
  le := le_refl 0
  replay := fun _ => ⟨rfl, rfl⟩

/-- The event is stored already. -/
theorem BatchAdded.skip {segment : Uuid} {os : List Observation} {n : ℕ} {d d' : MerlinDb}
    (h : BatchAdded t segment os n d d') {o : Observation} (ho : (d'.stored o.key).isSome) :
    BatchAdded t segment (os ++ [o]) n d d' where
  segments := h.segments
  stored := fun k => by
    rw [h.stored k, List.find?_append, ← Option.or_assoc, ← h.stored k]
    by_cases hk : o.key = k
    · subst hk
      rw [Option.or_of_isSome ho]
    · simp [hk]
  size := h.size
  other := h.other
  le := by
    rw [List.length_append]
    exact Nat.le_add_right_of_le h.le
  replay := fun hall => h.replay fun x hx => hall x (List.mem_append_left _ hx)

/-- The event is stored now. -/
theorem BatchAdded.insert {segment : Uuid} {os : List Observation} {n : ℕ} {d d' : MerlinDb}
    (h : BatchAdded t segment os n d d') {row : MerlinObservation}
    (hfree : d'.observations.get row.key = none) (ht : row.tenant = t)
    (hseg : row.segmentId = segment) :
    BatchAdded t segment (os ++ [row.toObservation]) (n + 1) d
      { d' with observations := d'.observations.insertNew row } := by
  have hrows : (d'.observations.insertNew row).rows = d'.observations.rows ++ [row] := by
    rw [Table.insertNew, dif_neg (Table.get_eq_none.mp hfree)]
  refine ⟨h.segments, fun k => ?_, fun t' => ?_, fun {x} hx => ?_, ?_, fun hall => ?_⟩
  · have hold : d'.stored k = _ := h.stored k
    rw [List.find?_append, ← Option.or_assoc, ← hold]
    show ((d'.observations.insertNew row).get k).map _ = _
    rw [Table.get_insertNew, MerlinDb.stored]
    cases d'.observations.get k with
    | some r => rfl
    | none =>
      by_cases hk : row.key = k
      · have hk' : row.toObservation.key = k := hk
        simp [hk, hk']
      · have hk' : ¬ row.toObservation.key = k := hk
        simp [hk, hk']
  · have hold : d'.observations.rows.countP (fun r => decide (r.tenant = t')) = _ := h.size t'
    show (d'.observations.insertNew row).rows.countP _ = _
    rw [hrows, List.countP_append, hold, List.countP_singleton]
    by_cases htt : t = t'
    · simp [htt, ht, Nat.add_assoc]
    · simp [htt, ht]
  · have hold : d'.observations.rows.countP (fun r => decide (r.segmentId = x)) = _ := h.other hx
    show (d'.observations.insertNew row).rows.countP _ = _
    rw [hrows, List.countP_append, hold, List.countP_singleton]
    simp [hseg, Ne.symm hx]
  · rw [List.length_append]
    exact Nat.succ_le_succ h.le
  · -- a batch that is stored already never comes here
    obtain ⟨rfl, -⟩ := h.replay fun x hx => hall x (List.mem_append_left _ hx)
    have hthere := hall row.toObservation
      (List.mem_append_right _ (List.mem_singleton_self _))
    have hnone : d'.stored row.toObservation.key = none := by
      show (d'.observations.get row.key).map _ = none
      rw [hfree]
      rfl
    rw [hnone] at hthere
    cases hthere

/-! ### One call -/

/-- The digest under which the segment of the request is stored. -/
def MerlinSegmentRequest.digest (req : MerlinSegmentRequest) : String :=
  asciiLowercase req.segmentSha256

/-- The segment of the request has a row with its digest. -/
def MerlinDb.HasSegment (d : MerlinDb) (t : Uuid) (req : MerlinSegmentRequest) (id : Uuid) : Prop :=
  ∃ row, d.segments.get (t, req.hostName, req.segment) = some row ∧
    row.segmentSha256 = req.digest ∧ row.id = id

/-- A request was accepted: what it did to the tables and what it answered. -/
structure Accepted (m : MerlinConfig) (t : Uuid) (req : MerlinSegmentRequest) (d d' : MerlinDb)
    (resp : MerlinSegmentResponse) : Prop where
  stored : ∀ k, d'.stored k = (d.stored k).or ((observations m t req).find? fun o => o.key = k)
  size : ∀ t', d'.size t' = d.size t' + if t = t' then resp.acceptedEvents else 0
  sum : resp.acceptedEvents + resp.duplicateEvents = req.events.length
  counted : (∀ r ∈ d.segments.rows, r.eventCount = d.countOf r.id) →
    ∀ r ∈ d'.segments.rows, r.eventCount = d'.countOf r.id
  segment : d'.HasSegment t req resp.segmentId
  keep : ∀ {t' req' id}, d.HasSegment t' req' id → d'.HasSegment t' req' id

/-- The count that is written is the count of the segment, and of that one only. -/
theorem counted_updateCount {d : MerlinDb} {segment : Uuid}
    (h : ∀ r ∈ d.segments.rows, r.id ≠ segment → r.eventCount = d.countOf r.id) :
    ∀ r ∈ (d.updateCount segment).segments.rows, r.eventCount = (d.updateCount segment).countOf r.id := by
  intro r hr
  obtain ⟨x, hx, rfl⟩ := List.mem_map.mp hr
  by_cases hid : x.id = segment
  · simp only [hid, decide_true, if_true]
    rfl
  · simp only [hid, decide_false, Bool.false_eq_true, if_false]
    exact h x hx hid

theorem hasSegment_updateCount {d : MerlinDb} {segment id : Uuid} (h : d.HasSegment t req id) :
    (d.updateCount segment).HasSegment t req id := by
  obtain ⟨row, hget, hsha, hid⟩ := h
  have hupd := Table.get_updateWhere d.segments (fun r => r.id = segment)
    (fun r => { r with eventCount := d.countOf segment }) (fun _ => rfl)
    (t, req.hostName, req.segment)
  rw [hget, Option.map_some] at hupd
  refine ⟨_, hupd, ?_, ?_⟩
  · split
    · exact hsha
    · exact hsha
  · split
    · exact hid
    · exact hid

/-- The row of the segment: a new one starts with no observation counted. -/
structure SegmentFound (t : Uuid) (req : MerlinSegmentRequest) (d d' : MerlinDb) (id : Uuid) :
    Prop where
  observations : d'.observations = d.observations
  segment : d'.HasSegment t req id
  keep : ∀ {t' req' x}, d.HasSegment t' req' x → d'.HasSegment t' req' x
  rows : ∀ r ∈ d'.segments.rows, r ∈ d.segments.rows ∨ r.id = id
  replay : ∀ {x}, d.HasSegment t req x → d' = d

/-- The rule of a statement on the transaction's copy. -/
theorem wp_merlinExec {α : Type} {P : MerlinPt → MerlinStore → Prop}
    {R : Except Error α → MerlinStore → Prop} {l : MerlinPt}
    {f : MerlinDb → Env → Except Error (α × MerlinDb)} {s : MerlinStore} :
    Prog.wp P R (MerlinSrv.exec l f) s ↔ P l s ∧ ∀ env, match f s.tx env with
      | .ok r => R (.ok r.1) { s with tx := r.2 }
      | .error e => R (.error e) s := by
  rw [MerlinSrv.exec, Prog.wp_exec]
  refine and_congr_right fun _ => forall_congr' fun env => ?_
  cases f s.tx env <;> rfl

/-- What is watched, and what an error leaves: the committed tables are `d`. -/
theorem wp_segmentRow {P : MerlinPt → MerlinStore → Prop} {d : MerlinDb} {s : MerlinStore}
    (hP : ∀ l s', s'.tables = d → P l s') (hs : s.tables = d) :
    Prog.wp P (fun r s' => s'.tables = d ∧ match r with
      | .ok id => SegmentFound t req s.tx s'.tx id
      | .error _ => ∀ x, ¬ s.tx.HasSegment t req x) (segmentRow t req req.digest) s := by
  unfold segmentRow
  simp only [Prog.query_bind, Prog.wp_stmt]
  refine ⟨hP _ _ hs, fun _ => ?_⟩
  cases hget : s.tx.segments.get (t, req.hostName, req.segment) with
  | some row =>
    show Prog.wp _ _ (if row.segmentSha256 ≠ req.digest then _ else _) s
    split
    · next hne =>
      refine ⟨hs, fun x hx => ?_⟩
      obtain ⟨row', hrow', hsha, -⟩ := hx
      rw [hget] at hrow'
      exact hne ((Option.some.inj hrow') ▸ hsha)
    · next heq =>
      refine ⟨hs, rfl, ⟨row, hget, not_not.mp heq, rfl⟩, fun h => h, fun r hr => .inl hr,
        fun _ => rfl⟩
  | none =>
    have hno : ∀ x, ¬ s.tx.HasSegment t req x := by
      rintro x ⟨row, hrow, -⟩
      rw [hget] at hrow
      cases hrow
    refine wp_merlinExec.mpr ⟨hP _ _ hs, fun env => ?_⟩
    unfold MerlinDb.insertSegment
    split
    · next r hr =>
      split at hr
      · cases hr
      · cases hr
        refine ⟨hs, rfl, ⟨⟨env.uuid 0, t, req.hostName, req.segment, req.digest, req.schemaVersion,
          env.now, 0⟩, ?_, rfl, rfl⟩, fun {t' req' x} hx => ?_, fun r hr => ?_,
          fun hx => absurd hx (hno _)⟩
        · show (s.tx.segments.insertNew _).get _ = _
          rw [Table.get_insertNew, hget]
          simp [MerlinSegment.key]
        · obtain ⟨row, hrow, hrest⟩ := hx
          refine ⟨row, ?_, hrest⟩
          show (s.tx.segments.insertNew _).get _ = _
          rw [Table.get_insertNew, hrow]
          rfl
        · rcases Table.mem_insertNew hr with hr | rfl
          · exact .inl hr
          · exact .inr rfl
    · exact ⟨hs, hno⟩

theorem observe_ok {e : RawJson × ℕ} {identity : EventIdentity}
    (h : eventIdentity m e.2 e.1 = .ok identity) :
    observe m t req e = some ⟨t, req.hostName, req.segment, identity, e.1⟩ := by
  rw [observe, h]

/-- Every event of the batch is identified and stored already. -/
structure BatchKnown (m : MerlinConfig) (t : Uuid) (req : MerlinSegmentRequest) (d : MerlinDb) :
    Prop where
  identified : ∀ e ∈ req.events.zipIdx, ∃ identity, eventIdentity m e.2 e.1 = .ok identity
  stored : ∀ o ∈ observations m t req, (d.stored o.key).isSome

/-- **The batch.**  A batch that is known does not fail. -/
theorem wp_ingestEvents {P : MerlinPt → MerlinStore → Prop} {d : MerlinDb} {s : MerlinStore}
    (hP : ∀ l s', s'.tables = d → P l s') (hs : s.tables = d) (segment : Uuid) :
    Prog.wp P (fun r s' => s'.tables = d ∧ match r with
      | .ok n => BatchAdded t segment (observations m t req) n s.tx s'.tx ∧
          ∀ e ∈ req.events.zipIdx, ∃ identity, eventIdentity m e.2 e.1 = .ok identity
      | .error _ => ¬ BatchKnown m t req s.tx)
      (Prog.loop (ingestEvent m t req segment) req.events.zipIdx 0) s := by
  -- the events `ys` are done, each of them identified
  refine Prog.wp_loop (I := fun xs n s' => s'.tables = d ∧ ∃ ys, req.events.zipIdx = ys ++ xs ∧
    (∀ e ∈ ys, ∃ identity, eventIdentity m e.2 e.1 = .ok identity) ∧
    BatchAdded t segment (ys.filterMap (observe m t req)) n s.tx s'.tx) ?_ ?_ _ _ _
    ⟨hs, [], rfl, fun _ he => absurd he List.not_mem_nil, BatchAdded.nil t segment s.tx⟩
  · rintro n s' ⟨hs', ys, hys, hids, hadd⟩
    rw [List.append_nil] at hys
    subst hys
    exact ⟨hs', hadd, hids⟩
  · rintro e xs n s' ⟨hs', ys, hys, hids, hadd⟩
    have hmem : e ∈ req.events.zipIdx := by
      rw [hys]
      exact List.mem_append_right _ List.mem_cons_self
    have hsplit : req.events.zipIdx = (ys ++ [e]) ++ xs := by
      rw [hys, List.append_assoc, List.singleton_append]
    unfold ingestEvent
    cases hid : eventIdentity m e.2 e.1 with
    | error err =>
      refine ⟨hs', fun hknown => ?_⟩
      obtain ⟨identity, hthere⟩ := hknown.identified e hmem
      rw [hid] at hthere
      cases hthere
    | ok identity =>
      have hobs : (ys ++ [e]).filterMap (observe m t req) = ys.filterMap (observe m t req) ++
          [⟨t, req.hostName, req.segment, identity, e.1⟩] := by
        rw [List.filterMap_append, List.filterMap_cons, observe_ok hid]
        rfl
      have hids' : ∀ x ∈ ys ++ [e], ∃ identity, eventIdentity m x.2 x.1 = .ok identity := by
        intro x hx
        rcases List.mem_append.mp hx with hx | hx
        · exact hids x hx
        · obtain rfl := List.mem_singleton.mp hx
          exact ⟨identity, hid⟩
      refine Prog.wp_bind (wp_merlinExec.mpr ⟨hP _ _ hs', fun env => ?_⟩)
      unfold MerlinDb.insertObservation
      split
      · next r hr =>
        refine ⟨hs', ys ++ [e], hsplit, hids', ?_⟩
        rw [hobs]
        split at hr
        · next hthere =>
          cases hr
          refine hadd.skip ?_
          rw [MerlinDb.stored, Option.isSome_map]
          exact hthere
        · next hfree =>
          split at hr
          · cases hr
          · cases hr
            exact hadd.insert (by simpa using hfree) rfl rfl
      · next err hr =>
        refine ⟨hs', fun hknown => ?_⟩
        split at hr
        · cases hr
        next hfree =>
        -- an event that is stored is not inserted
        have hin : (⟨t, req.hostName, req.segment, identity, e.1⟩ : Observation) ∈
            observations m t req := by
          rw [observations, hsplit, List.filterMap_append, hobs]
          simp
        have hsome : (s'.tx.stored (t, req.hostName, identity.eventId)).isSome := by
          rw [hadd.stored, Option.isSome_or]
          exact Bool.or_eq_true_iff.mpr (.inl (hknown.stored _ hin))
        rw [MerlinDb.stored, Option.isSome_map] at hsome
        exact hfree hsome

/-- The request has been accepted before. -/
structure Known (m : MerlinConfig) (t : Uuid) (req : MerlinSegmentRequest) (d : MerlinDb) : Prop where
  valid : validateRequest m req = .ok ()
  batch : BatchKnown m t req d
  segment : ∃ id, d.HasSegment t req id
  counted : ∀ r ∈ d.segments.rows, r.eventCount = d.countOf r.id

theorem updateCount_of_counted {d : MerlinDb} (segment : Uuid)
    (h : ∀ r ∈ d.segments.rows, r.eventCount = d.countOf r.id) : d.updateCount segment = d := by
  have hrows : (d.segments.rows.map fun r =>
      if decide (r.id = segment) then { r with eventCount := d.countOf segment } else r) =
      d.segments.rows := by
    refine (List.map_congr_left fun r hr => ?_).trans (List.map_id _)
    by_cases hid : r.id = segment
    · have hcount := h r hr
      rw [hid] at hcount
      rw [if_pos (by simpa using hid), ← hcount]
      rfl
    · rw [if_neg (by simpa using hid)]
      rfl
  obtain ⟨⟨rows, hnodup⟩, obs⟩ := d
  simp only [MerlinDb.updateCount, Table.updateWhere]
  congr

/-- **One call.**  Up to the commit nothing is published, an answer is `Accepted`,
and a request that is known is answered and changes nothing. -/
theorem wp_ingestSegment (d tx : MerlinDb) :
    Prog.wp (fun _ s => s.tables = d) (fun r s' => match r with
      | .ok resp => Accepted m t req d s'.tables resp ∧ validateRequest m req = .ok () ∧
          (∀ e ∈ req.events.zipIdx, ∃ identity, eventIdentity m e.2 e.1 = .ok identity) ∧
          (Known m t req d → resp.acceptedEvents = 0 ∧ s'.tables = d)
      | .error _ => s'.tables = d ∧ ¬ Known m t req d)
      (ingestSegment m t req) ⟨d, tx⟩ := by
  unfold ingestSegment
  cases hvalid : validateRequest m req with
  | error e =>
    refine ⟨rfl, fun hknown => ?_⟩
    rw [hknown.valid] at hvalid
    cases hvalid
  | ok u =>
    simp only [Prog.update_bind, Prog.wp_stmt]
    refine ⟨trivial, fun _ => ?_⟩
    refine Prog.wp_bind (Prog.wp_mono (fun _ _ h => h) ?_
      (wp_segmentRow (s := ⟨d, d⟩) (fun _ _ h => h) rfl))
    rintro r s₁ ⟨hs₁, hr⟩
    cases r with
    | error e => exact ⟨hs₁, fun hknown => hknown.segment.elim hr⟩
    | ok segment =>
      refine Prog.wp_bind (Prog.wp_mono (fun _ _ h => h) ?_
        (wp_ingestEvents (fun _ _ h => h) hs₁ segment))
      rintro r s₂ ⟨hs₂, hr₂⟩
      cases r with
      | error e =>
        refine ⟨hs₂, fun hknown => hr₂ ?_⟩
        obtain ⟨x, hx⟩ := hknown.segment
        have hsame : s₁.tx = d := hr.replay hx
        rw [hsame]
        exact hknown.batch
      | ok n =>
        obtain ⟨hadd, hids⟩ := hr₂
        refine ⟨hs₂, fun _ => ⟨hs₂, fun _ => ⟨?_, trivial, hids, fun hknown => ?_⟩⟩⟩
        · have hlen : (observations m t req).length ≤ req.events.length := by
            rw [observations]
            refine (List.length_filterMap_le _ _).trans ?_
            rw [List.length_zipIdx]
          have hobs : s₁.tx.observations = d.observations := hr.observations
          refine ⟨fun k => ?_, fun t' => ?_, Nat.add_sub_cancel' (hadd.le.trans hlen),
            fun hcounted => counted_updateCount fun r hrow hne => ?_, ?_, fun {t' req' x} hx => ?_⟩
          · have := hadd.stored k
            rw [MerlinDb.stored, MerlinDb.stored, hobs] at this
            exact this
          · have := hadd.size t'
            rw [MerlinDb.size, MerlinDb.size, hobs] at this
            exact this
          · -- a segment of another batch keeps its observations
            have hold : r ∈ d.segments.rows := by
              rw [hadd.segments] at hrow
              exact (hr.rows r hrow).resolve_right hne
            have hother : s₂.tx.countOf r.id = s₁.tx.countOf r.id := hadd.other hne
            rw [hcounted r hold, hother, MerlinDb.countOf, MerlinDb.countOf, hobs]
          · refine hasSegment_updateCount ?_
            obtain ⟨row, hrow⟩ := hr.segment
            exact ⟨row, hadd.segments ▸ hrow⟩
          · refine hasSegment_updateCount ?_
            obtain ⟨row, hrow⟩ := hr.keep hx
            exact ⟨row, hadd.segments ▸ hrow⟩
        · obtain ⟨x, hx⟩ := hknown.segment
          have hsame : s₁.tx = d := hr.replay hx
          rw [hsame] at hadd
          obtain ⟨hd, hn⟩ := hadd.replay hknown.batch.stored
          refine ⟨hn, ?_⟩
          show s₂.tx.updateCount segment = d
          rw [hd]
          exact updateCount_of_counted segment hknown.counted

/-! ### Sequences of calls -/

/-- A call of the sequence with its answer; `none` for an error. -/
structure Answer where
  tenant : Uuid
  req : MerlinSegmentRequest
  resp : Option MerlinSegmentResponse

/-- The calls `h`, one after another from empty tables, lead to the tables `d`.
An error is the call's own, or a statement that failed: the call has not returned. -/
inductive Served (m : MerlinConfig) : List Answer → MerlinDb → Prop where
  | start : Served m [] ⟨.empty, .empty⟩
  | answered {h : List Answer} {d d' tx tx' : MerlinDb} {t : Uuid} {req : MerlinSegmentRequest}
      {resp : MerlinSegmentResponse} {ls : List MerlinPt} : Served m h d →
      Prog.Returns (ingestSegment m t req) ⟨d, tx⟩ ls resp ⟨d', tx'⟩ →
      Served m (h ++ [⟨t, req, some resp⟩]) d'
  | failed {h : List Answer} {d d' tx tx' : MerlinDb} {t : Uuid} {req : MerlinSegmentRequest}
      {q : MerlinSrv MerlinSegmentResponse} {ls : List MerlinPt} : Served m h d →
      Prog.Steps (ingestSegment m t req) ⟨d, tx⟩ ls q ⟨d', tx'⟩ → (∀ resp, q ≠ .ret resp) →
      Served m (h ++ [⟨t, req, none⟩]) d'

/-- What an accepted request says. -/
def Answer.seen (m : MerlinConfig) (a : Answer) : List Observation :=
  match a.resp with
  | some _ => observations m a.tenant a.req
  | none => []

/-- The observations of the accepted requests, in order. -/
def seen (m : MerlinConfig) (h : List Answer) : List Observation := h.flatMap (Answer.seen m)

/-- The events a call reports as accepted. -/
def Answer.accepted (t : Uuid) (a : Answer) : ℕ :=
  if a.tenant = t then a.resp.elim 0 MerlinSegmentResponse.acceptedEvents else 0

/-- The invariant of a sequence. -/
structure Conserved (m : MerlinConfig) (h : List Answer) (d : MerlinDb) : Prop where
  stored : ∀ k, d.stored k = (seen m h).find? fun o => o.key = k
  counted : ∀ r ∈ d.segments.rows, r.eventCount = d.countOf r.id
  sums : ∀ a ∈ h, ∀ resp, a.resp = some resp →
    resp.acceptedEvents + resp.duplicateEvents = a.req.events.length
  total : ∀ t, (h.map (Answer.accepted t)).sum = d.size t
  known : ∀ a ∈ h, a.resp.isSome → Known m a.tenant a.req d

/-- What an accepted request said is stored from then on. -/
theorem Known.mono {d d' : MerlinDb} (h : Known m t req d)
    (hstored : ∀ k, (d.stored k).isSome → (d'.stored k).isSome)
    (hseg : ∀ {id}, d.HasSegment t req id → d'.HasSegment t req id)
    (hcounted : ∀ r ∈ d'.segments.rows, r.eventCount = d'.countOf r.id) : Known m t req d' :=
  ⟨h.valid, ⟨h.batch.identified, fun o ho => hstored _ (h.batch.stored o ho)⟩,
    h.segment.imp fun _ => hseg, hcounted⟩

/-- An answered call keeps the invariant. -/
theorem Conserved.answered {h : List Answer} {d d' : MerlinDb} {resp : MerlinSegmentResponse}
    (hc : Conserved m h d) (ha : Accepted m t req d d' resp) (hvalid : validateRequest m req = .ok ())
    (hids : ∀ e ∈ req.events.zipIdx, ∃ identity, eventIdentity m e.2 e.1 = .ok identity) :
    Conserved m (h ++ [⟨t, req, some resp⟩]) d' := by
  have hstored : ∀ k, (d.stored k).isSome → (d'.stored k).isSome := by
    intro k hk
    rw [ha.stored k, Option.isSome_or, hk]
    rfl
  refine ⟨fun k => ?_, ha.counted hc.counted, fun a hmem resp' hresp => ?_, fun t' => ?_,
    fun a hmem hsome => ?_⟩
  · rw [ha.stored k, hc.stored k, seen, seen, List.flatMap_append, List.find?_append]
    congr 2
    simp [Answer.seen]
  · rcases List.mem_append.mp hmem with hmem | hmem
    · exact hc.sums a hmem resp' hresp
    · obtain rfl := List.mem_singleton.mp hmem
      obtain rfl := Option.some.inj hresp
      exact ha.sum
  · rw [List.map_append, List.sum_append, hc.total t', ha.size t']
    simp [Answer.accepted]
  · rcases List.mem_append.mp hmem with hmem | hmem
    · exact (hc.known a hmem hsome).mono hstored ha.keep (ha.counted hc.counted)
    · obtain rfl := List.mem_singleton.mp hmem
      refine ⟨hvalid, ⟨hids, fun o ho => ?_⟩, ⟨_, ha.segment⟩, ha.counted hc.counted⟩
      rw [ha.stored o.key, Option.isSome_or]
      refine Bool.or_eq_true_iff.mpr (.inr (List.find?_isSome.mpr ⟨o, ho, by simp⟩))

/-- A call that failed adds nothing to say. -/
theorem Conserved.failed {h : List Answer} {d : MerlinDb} (hc : Conserved m h d) :
    Conserved m (h ++ [⟨t, req, none⟩]) d := by
  refine ⟨fun k => ?_, hc.counted, fun a hmem resp hresp => ?_, fun t' => ?_, fun a hmem hsome => ?_⟩
  · rw [hc.stored k, seen, seen, List.flatMap_append]
    simp [Answer.seen]
  · rcases List.mem_append.mp hmem with hmem | hmem
    · exact hc.sums a hmem resp hresp
    · obtain rfl := List.mem_singleton.mp hmem
      cases hresp
  · rw [List.map_append, List.sum_append, hc.total t']
    simp [Answer.accepted]
  · rcases List.mem_append.mp hmem with hmem | hmem
    · exact hc.known a hmem hsome
    · obtain rfl := List.mem_singleton.mp hmem
      cases hsome

/-- A call that has not returned has published nothing. -/
theorem tables_of_not_returned {d tx : MerlinDb} {q : MerlinSrv MerlinSegmentResponse}
    {s' : MerlinStore} {ls : List MerlinPt}
    (hrun : Prog.Steps (ingestSegment m t req) ⟨d, tx⟩ ls q s') (hq : ∀ resp, q ≠ .ret resp) :
    s'.tables = d := by
  have hwp := Prog.wp_sound hrun (wp_ingestSegment d tx)
  cases q with
  | ret resp => exact absurd rfl (hq resp)
  | err e => exact hwp.1
  | stmt l f k => exact hwp.1

theorem Served.conserved {h : List Answer} {d : MerlinDb} (hs : Served m h d) : Conserved m h d := by
  induction hs with
  | start =>
    exact ⟨fun _ => rfl, fun r hr => absurd hr List.not_mem_nil,
      fun a ha => absurd ha List.not_mem_nil, fun _ => rfl, fun a ha => absurd ha List.not_mem_nil⟩
  | answered _ hrun ih =>
    obtain ⟨ha, hvalid, hids, -⟩ := Prog.wp_returns hrun (wp_ingestSegment _ _)
    exact ih.answered ha hvalid hids
  | failed _ hrun hq ih =>
    obtain rfl := tables_of_not_returned hrun hq
    exact ih.failed

/-- **Replay safety.**  After every sequence of calls: the stored observations are
the first accepted ones under their keys; every segment counts its observations; the
answers add up, call by call and over all calls of a tenant; a request accepted
before is answered again, accepts nothing and changes nothing; and a call that
returns an error changes nothing. -/
theorem merlin_replay_safe {h : List Answer} {d : MerlinDb} (hs : Served m h d) :
    (∀ k, d.stored k = (seen m h).find? fun o => o.key = k) ∧
    (∀ r ∈ d.segments.rows, r.eventCount = d.countOf r.id) ∧
    (∀ a ∈ h, ∀ resp, a.resp = some resp →
      resp.acceptedEvents + resp.duplicateEvents = a.req.events.length) ∧
    (∀ t, (h.map (Answer.accepted t)).sum = d.size t) ∧
    (∀ a ∈ h, a.resp.isSome → ∀ tx, Prog.wp (fun _ s => s.tables = d)
      (fun r s => s.tables = d ∧ ∃ resp, r = .ok resp ∧ resp.acceptedEvents = 0)
      (ingestSegment m a.tenant a.req) ⟨d, tx⟩) ∧
    (∀ t req tx ls q s', Prog.Steps (ingestSegment m t req) ⟨d, tx⟩ ls q s' →
      (∀ resp, q ≠ .ret resp) → s'.tables = d) := by
  have hc := hs.conserved
  refine ⟨hc.stored, hc.counted, hc.sums, hc.total, fun a ha hsome tx => ?_,
    fun t req tx ls q s' hrun hq => tables_of_not_returned hrun hq⟩
  have hknown := hc.known a ha hsome
  refine Prog.wp_mono (fun _ _ h => h) ?_ (wp_ingestSegment d tx)
  intro r s hr
  cases r with
  | error e => exact absurd hknown hr.2
  | ok resp =>
    obtain ⟨-, -, -, hsame⟩ := hr
    exact ⟨(hsame hknown).2, resp, rfl, (hsame hknown).1⟩

/-! ### A call to run -/

/-- A call that runs to an answer passing a check. -/
theorem exists_served (req : MerlinSegmentRequest) {h : List Answer} {d : MerlinDb}
    (hs : Served m h d) (is : List Env)
    (chk : MerlinSegmentResponse → MerlinDb → Bool)
    (hchk : ((ingestSegment m t req).run is ⟨d, d⟩).any (fun r => match r.2.1 with
      | .ok resp => chk resp r.2.2.tables
      | .error _ => false) = true) :
    ∃ resp d', Served m (h ++ [⟨t, req, some resp⟩]) d' ∧ chk resp d' = true := by
  cases hrun : (ingestSegment m t req).run is ⟨d, d⟩ with
  | none =>
    rw [hrun] at hchk
    cases hchk
  | some r =>
    obtain ⟨ls, res, s'⟩ := r
    rw [hrun] at hchk
    cases res with
    | error e => cases hchk
    | ok resp => exact ⟨resp, s'.tables, hs.answered (Prog.returns_of_run is hrun), hchk⟩

/-- Every event is short, none has a time. -/
def MerlinConfig.plain : MerlinConfig := ⟨fun _ => 0, fun _ => none⟩

/-- Three events of one segment, the last with the id of the first. -/
def threeEvents : MerlinSegmentRequest where
  schemaVersion := 1
  hostName := "host-1"
  segment := "a.jsonl.gz"
  segmentSha256 := "0123456789abcdef0123456789abcdef0123456789abcdef0123456789ABCDEF"
  events := [.obj [("event_id", .str "e1")], .obj [("boot_id", .str "b"), ("source_seq", .int 4)],
    .obj [("event_id", .str " e1"), ("kind", .str "exec")]]

set_option maxRecDepth 4000 in
theorem merlin_replay_safe_three :
    ∃ resp d, resp.acceptedEvents = 2 ∧ d.size 0 = 2 ∧
      (∀ k, d.stored k =
        (seen .plain [⟨0, threeEvents, some resp⟩]).find? fun o => o.key = k) ∧
      ∀ tx, Prog.wp (fun _ s => s.tables = d)
        (fun r s => s.tables = d ∧ ∃ resp, r = .ok resp ∧ resp.acceptedEvents = 0)
        (ingestSegment .plain 0 threeEvents) ⟨d, tx⟩ := by
  obtain ⟨resp, d, hs, hchk⟩ := exists_served (m := .plain) (t := 0) threeEvents .start
    ([10, 11, 12, 13, 14, 15, 16, 17].map Env.drawing)
    (fun resp d => decide (resp.acceptedEvents = 2 ∧ d.size 0 = 2)) (by decide)
  obtain ⟨hacc, hsize⟩ := of_decide_eq_true hchk
  obtain ⟨hstored, -, -, -, hreplay, -⟩ := merlin_replay_safe hs
  exact ⟨resp, d, hacc, hsize, hstored,
    hreplay ⟨0, threeEvents, some resp⟩ (List.mem_singleton_self _) rfl⟩

end Corpus
