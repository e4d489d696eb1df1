/-
Occurrences a candidate contributes.

The server keys an occurrence by agent, boot and sequence number, and the agent
draws a new number for every request.  A request that is made again is a new
occurrence, then: what keeps a candidate from contributing twice is that it knows
of the row it has contributed, and says so in its own row before anything else
happens to it.

* `Acknowledging` — the agent gets the server's `Ok` for a request that adds a row;
* `Undisturbed` — from there to the update of the candidate row nothing fails;
* `one_occurrence` — a candidate contributes at most one row, along every history
  whose steps are both, and whose leases are free.
-/
import Corpus.Frames
import Corpus.ServerMoves
import Corpus.Agent.GapLedger

namespace Corpus.Agent

/-! ### What a request adds -/

section Server

variable {cfg : Config} {ident : AgentIdentity} {describe : Error → String} {s : Db}
  {envs : List Env}

/-- A request that makes the moves of the server adds at most one row. -/
theorem respond_addsOne (cfg : Config) {α β : Type} {f : α → β} {p : Srv α} {g : α → Reply}
    (hp : (p >>= fun a => Prog.ret (g a)).Follows (Corpus.Move cfg)) :
    ∃ c, AddsOne s.ingest.occurrences c (respond describe f p envs s).2 := by
  have hend : ∀ {ls : List Corpus.Pt} {r : Except Error α} {s' : Db},
      p.run envs s = some (ls, r, s') → ∃ c, AddsOne s.ingest.occurrences c s' :=
    fun hrun => hp.run (fun _ _ _ _ hm hs => hm.addsOne hs) envs (Prog.run_bind_ret g envs hrun)
      (.inl rfl)
  unfold respond
  cases hrun : p.run envs s with
  | none => exact ⟨.failed, .inl rfl⟩
  | some x =>
    obtain ⟨ls, r, s'⟩ := x
    cases r with
    | ok a => exact hend hrun
    | error e => exact hend hrun

theorem mem_addsOne {before : Table OccurrenceEvent.key} {c : Ctl Corpus.Pt Reply} {s' : Db}
    (h : AddsOne before c s') {o o' : OccurrenceEvent} (ho : o ∈ s'.ingest.occurrences.rows)
    (hno : o ∉ before.rows) (ho' : o' ∈ s'.ingest.occurrences.rows) (hno' : o' ∉ before.rows) :
    o = o' := by
  rcases h with h | ⟨⟨x, h⟩, -⟩
  · rw [h] at ho
    exact absurd ho hno
  · rw [h] at ho ho'
    have hx := (Table.mem_insertNew ho).resolve_left hno
    have hx' := (Table.mem_insertNew ho').resolve_left hno'
    rw [hx, hx']

/-- An announce adds a row only for an artifact the server has. -/
theorem announce_present {req : AnnounceRequest} {ann : AnnounceResponse}
    (h : ((corpusServer cfg ident describe).announce req envs s).1 = .ok ann) :
    ((corpusServer cfg ident describe).announce req envs s).2.ingest.occurrences =
        s.ingest.occurrences ∨
      ann.disposition = .alreadyPresent := by
  revert h
  simp only [corpusServer, respond, announce]
  cases hexToRaw req.sha256 with
  | none => exact fun _ => .inl rfl
  | some sha =>
    simp only [Prog.query_bind]
    cases envs with
    | nil => exact fun _ => .inl rfl
    | cons e es =>
      simp only [Prog.run]
      cases s.ingest.artifacts.get (ident.tenantId, sha) with
      | some a =>
        -- the dedup path: one more statement, and the answer says so
        cases es with
        | nil => exact fun _ => .inl rfl
        | cons e' es =>
          intro h
          obtain rfl : _ = ann := Except.ok.inj h
          exact .inr rfl
      | none =>
        -- the open path: a session is inserted, or refused
        cases es with
        | nil => exact fun _ => .inl rfl
        | cons e' es =>
          intro _
          left
          simp only [Option.map_none, Prog.exec_bind, Prog.run]
          by_cases hu : (s.ingest.sessions.get (e'.uuid 0)).isSome
          · simp only [hu, if_true, Prog.run]
            rfl
          · simp only [hu, Bool.false_eq_true, if_false]
            rfl

end Server

/-! ### Contributions -/

section

variable {S : Type}

/-- The server after the request of a step. -/
def requested (rt : Runtime S) (t : Task) (i : Input) (s : World S) : ProcPt → Option S
  | .announce seq =>
    let req := announceRequest rt t (t.cand.sha256.getD "") seq s
    some (i.reached s.server (rt.server.announce req i.envs s.server).2)
  | .finalize upload seq =>
    let req := finalizeRequest rt t (t.cand.sha256.getD "") upload seq s
    some (i.reached s.server (rt.server.finalize req i.envs s.server).2)
  | _ => none

/-- The agent gets the server's `Ok` for the request of the step. -/
def Acknowledged (rt : Runtime S) (t : Task) (i : Input) (s : World S) : ProcPt → Prop
  | .announce seq =>
    let req := announceRequest rt t (t.cand.sha256.getD "") seq s
    ∃ ann, i.answer (rt.server.announce req i.envs s.server).1 = .ok ann
  | .finalize upload seq =>
    let req := finalizeRequest rt t (t.cand.sha256.getD "") upload seq s
    i.answer (rt.server.finalize req i.envs s.server).1 = .ok ()
  | _ => True

end

variable {rt : Runtime Db}

/-- The request of the task adds the row `o`. -/
def Adds (rt : Runtime Db) (t : Task) (p : ProcPt) (i : Input) (s : World Db)
    (o : OccurrenceEvent) : Prop :=
  ∃ d, requested rt t i s p = some d ∧ o ∈ d.ingest.occurrences.rows ∧
    o ∉ s.server.ingest.occurrences.rows

/-- The candidate `k` contributed the row `o`. -/
def Contributed (rt : Runtime Db) (h : Trace Db) (k : ℕ) (o : OccurrenceEvent) : Prop :=
  ∃ e ∈ h, ∃ n i t p, e.2 = .exec n i ∧ e.1.pts n = .at (.proc t p) ∧ t.cand.id = k ∧
    Adds rt t p i e.1.store o

/-- The server has the occurrence and the agent knows it, but the candidate row
does not say so yet. -/
def ProcPt.reporting : ProcPt → Bool
  | toAnnounced ann => decide (ann.disposition = .alreadyPresent)
  | toDedupHit | finQueued => true
  | _ => false

/-- A request that adds a row is acknowledged: its answer is not lost, and is no
error of what the server does after the commit. -/
def Acknowledging (rt : Runtime Db) (s : World Db) (pts : ℕ → Ctl Pt Unit) (a : Act Call Input) :
    Prop :=
  ∀ n i t p o, a = .exec n i → pts n = .at (.proc t p) → Adds rt t p i s o →
    Acknowledged rt t i s p

/-- A task that has yet to record its occurrence is not cut off, and the database
takes what it records. -/
def Undisturbed {S : Type} (_ : World S) (pts : ℕ → Ctl Pt Unit) (a : Act Call Input) : Prop :=
  ∀ n t p, pts n = .at (.proc t p) → p.reporting = true →
    a ≠ .kill n ∧ ∀ i, a = .exec n i → i.dbFails = false

/-! ### Settled rows -/

/-- The row says that the server has the occurrence, or that there is none. -/
def Stage.settled : Stage → Bool
  | queued | complete | gap => true
  | early | late => false

/-- A task that updates a settled row leaves it settled. -/
theorem settled_write {t : Task} {p : ProcPt} {r : Candidate} (h : Knows t p r)
    (hs : r.state.stage.settled = true) {now : Time} {w : RowWrite}
    (hw : p.rowWrite t now = some w) : (w.apply r).state.stage.settled = true := by
  have hst := h.stage
  cases p <;> simp only [ProcPt.stages, List.mem_cons, List.not_mem_nil, or_false] at hst <;>
    first
      | (cases hw; done)
      | (rw [hst] at hs; cases hs; done)
      | (cases hw; rfl)

section Step

variable {S : Type} {rt : Runtime S} {s s' : World S} {pts : ℕ → Ctl Pt Unit} {n : ℕ} {l : Pt}
  {i : Input} {c : Ctl Pt Unit}

/-- A settled row stays settled. -/
theorem Owned.settled (h : Owned s pts) (hn : pts n = .at l) (hm : Move rt l i s s' c) {k : ℕ}
    {r : Candidate} (hr : s.db.get k = some r) (hs : r.state.stage.settled = true) :
    ∃ r', s'.db.get k = some r' ∧ r'.state.stage.settled = true := by
  have hstep := hm.row_step k
  rw [hr] at hstep
  generalize s'.db.get k = o at hstep
  cases hstep with
  | same => exact ⟨r, rfl, hs⟩
  | due ha _ =>
    refine ⟨_, rfl, ?_⟩
    rw [ha]
    exact hs
  | retry _ => exact ⟨_, rfl, hs⟩
  | write hl hid hw =>
    subst hl hid
    obtain ⟨r₀, hr₀, hk⟩ := h.knows hn
    obtain rfl : r = r₀ := Option.some.inj (hr.symm.trans hr₀)
    exact ⟨_, rfl, settled_write hk hs hw⟩

/-- The update that records an occurrence. -/
theorem Owned.reports (h : Owned s pts) {t : Task} {p : ProcPt} (hn : pts n = .at (.proc t p))
    (hp : p.reporting = true) (hdb : i.dbFails = false) (hm : Move rt (.proc t p) i s s' c) :
    (∃ r, s'.db.get t.cand.id = some r ∧ r.state.stage.settled = true) ∨
      ∃ p', c = .at (.proc t p') ∧ p'.reporting = true := by
  obtain ⟨r, hr, hk⟩ := h.knows hn
  cases hm with
  | proc hx =>
    cases hx with
    | rowErr hw hfail =>
      rcases hfail with hfail | hfail
      · rw [hdb] at hfail
        cases hfail
      · exact absurd hfail (hk.write hr hw)
    | row hw _ hd hnext =>
      obtain ⟨cs, hcs, rfl⟩ := StateDb.write_some hd
      have hget : ∀ {st : CaptureState}, p.rowWrite t s.clock = some (.transition st) →
          st.stage.settled = true →
          ∃ r', cs.get t.cand.id = some r' ∧ r'.state.stage.settled = true := by
        intro st hst hset
        obtain rfl := Option.some.inj (hw.symm.trans hst)
        exact ⟨_, Candidates.get_write_self hcs hr, hset⟩
      cases hnext with
      | present ha => exact .inr ⟨_, rfl, rfl⟩
      | toDedupHit => exact .inl (hget rfl rfl)
      | finQueued => exact .inl (hget rfl rfl)
      | required ha => simp [ProcPt.reporting, ha] at hp
      | otherDisposition ha _ => simp [ProcPt.reporting, ha] at hp
      | _ => cases hp
    | _ => cases hp

/-- The candidate is done with contributing. -/
def Past (s : World S) (pts : ℕ → Ctl Pt Unit) (k : ℕ) : Prop :=
  (∃ r, s.db.get k = some r ∧ r.state.stage.settled = true) ∨
    ∃ m t p, pts m = .at (.proc t p) ∧ t.cand.id = k ∧ p.reporting = true

/-- A candidate that is done with contributing stays so. -/
theorem Past.exec {k : ℕ} (hpast : Past s pts k) (h : Owned s pts) (hn : pts n = .at l)
    (hm : Move rt l i s s' c) (hok : Undisturbed s pts (.exec n i)) :
    Past s' (Function.update pts n c) k := by
  rcases hpast with ⟨r, hr, hs⟩ | ⟨m, t, p, hat, rfl, hp⟩
  · exact .inl (h.settled hn hm hr hs)
  · by_cases hmn : m = n
    · subst hmn
      obtain rfl : l = .proc t p := by simpa [hn] using hat
      refine (h.reports hn hp ((hok m t p hn hp).2 i rfl) hm).imp_right ?_
      rintro ⟨p', rfl, hp'⟩
      exact ⟨m, t, p', Function.update_self .., rfl, hp'⟩
    · exact .inr ⟨m, t, p, by rw [Function.update_of_ne hmn]; exact hat, rfl, hp⟩

end Step

/-! ### One row for each candidate -/

section Requests

variable {cfg : Config} {ident : AgentIdentity} {describe : Error → String} {s s' : World Db}
  {t : Task} {p : ProcPt} {i : Input}

theorem Adds.request {o : OccurrenceEvent} (h : Adds rt t p i s o) :
    (∃ seq, p = .announce seq) ∨ ∃ upload seq, p = .finalize upload seq := by
  obtain ⟨d, hd, -⟩ := h
  cases p with
  | announce seq => exact .inl ⟨seq, rfl⟩
  | finalize upload seq => exact .inr ⟨upload, seq, rfl⟩
  | _ => cases hd

/-- A request adds at most one row. -/
theorem requested_addsOne (hserver : rt.server = corpusServer cfg ident describe) {d : Db}
    (hd : requested rt t i s p = some d) :
    ∃ c, AddsOne s.server.ingest.occurrences c d := by
  have hreached : ∀ {after : Db}, (∃ c, AddsOne s.server.ingest.occurrences c after) →
      ∃ c, AddsOne s.server.ingest.occurrences c (i.reached s.server after) := by
    intro after hafter
    cases hnet : i.net with
    | refused msg =>
      rw [Input.reached, hnet]
      exact ⟨.failed, .inl rfl⟩
    | lost msg =>
      rw [Input.reached, hnet]
      exact hafter
    | answered =>
      rw [Input.reached, hnet]
      exact hafter
  cases p with
  | announce seq =>
    obtain rfl := Option.some.inj hd
    rw [hserver]
    exact hreached (respond_addsOne cfg (announce_follows _))
  | finalize upload seq =>
    obtain rfl := Option.some.inj hd
    rw [hserver]
    exact hreached (respond_addsOne cfg (finalize_follows _))
  | _ => cases hd

theorem Adds.unique (hserver : rt.server = corpusServer cfg ident describe) {o o' : OccurrenceEvent}
    (h : Adds rt t p i s o) (h' : Adds rt t p i s o') : o = o' := by
  obtain ⟨d, hd, ho, hno⟩ := h
  obtain ⟨d', hd', ho', hno'⟩ := h'
  obtain rfl : d = d' := Option.some.inj (hd.symm.trans hd')
  obtain ⟨c, hc⟩ := requested_addsOne hserver hd
  exact mem_addsOne hc ho hno ho' hno'

/-- After an acknowledged request that adds a row, the task records it. -/
theorem Adds.reporting (hserver : rt.server = corpusServer cfg ident describe)
    {o : OccurrenceEvent} (h : Adds rt t p i s o) (hack : Acknowledged rt t i s p)
    {c : Ctl Pt Unit} (hm : ProcMove rt t p i s s' c) :
    ∃ p', c = .at (.proc t p') ∧ p'.reporting = true := by
  have hreq := h.request
  obtain ⟨d, hd, ho, hno⟩ := h
  rcases hreq with ⟨seq, rfl⟩ | ⟨upload, seq, rfl⟩
  · cases hm with
    | row hw _ _ _ => cases hw
    | rowErr hw _ => cases hw
    | announceErr hsha ha _ =>
      obtain ⟨ann, hack⟩ := hack
      simp only [hsha, Option.getD_some, ha] at hack
      cases hack
    | announce hsha ha =>
      refine ⟨_, rfl, ?_⟩
      simp only [requested, hsha, Option.getD_some, Option.some.injEq] at hd
      unfold Input.answer at ha
      unfold Input.reached at hd
      cases hnet : i.net with
      | refused msg =>
        rw [hnet] at ha
        cases ha
      | lost msg =>
        rw [hnet] at ha
        cases ha
      | answered =>
        rw [hnet] at hd ha
        rw [hserver] at ha hd
        rcases announce_present ha with heq | hpres
        · rw [← hd] at ho
          exact absurd (heq ▸ ho) hno
        · exact decide_eq_true hpres
  · cases hm with
    | row hw _ _ _ => cases hw
    | rowErr hw _ => cases hw
    | finalizeErr hsha ha _ =>
      simp only [Acknowledged, hsha, Option.getD_some, ha] at hack
      cases hack
    | finalize _ _ => exact ⟨_, rfl, rfl⟩

/-- The task of a request is not done with contributing. -/
theorem Adds.not_past {pts : ℕ → Ctl Pt Unit} {n : ℕ} {o : OccurrenceEvent} (h : Adds rt t p i s o)
    (hown : Owned s pts) (hn : pts n = .at (.proc t p)) : ¬ Past s pts t.cand.id := by
  have hlate : p.stages = [.late] ∧ p.reporting = false := by
    rcases h.request with ⟨seq, rfl⟩ | ⟨upload, seq, rfl⟩ <;> exact ⟨rfl, rfl⟩
  rintro (⟨r, hr, hs⟩ | ⟨m, t', p', hat, hid, hp'⟩)
  · obtain ⟨r', hr', hk⟩ := hown.knows hn
    obtain rfl : r = r' := Option.some.inj (hr.symm.trans hr')
    have hst := hk.stage
    rw [hlate.1, List.mem_singleton] at hst
    rw [hst] at hs
    cases hs
  · obtain rfl : m = n := hown.once hat hn (congrArg some hid) rfl
    obtain ⟨rfl, rfl⟩ : t' = t ∧ p' = p := by simpa [hn] using hat.symm
    rw [hlate.2] at hp'
    cases hp'

end Requests

/-- Each candidate has contributed at most one row, and has done so only if it is
done with contributing. -/
structure Contributions (rt : Runtime Db) (h : Trace Db) (s : World Db) (pts : ℕ → Ctl Pt Unit) :
    Prop where
  once : ∀ {k o o'}, Contributed rt h k o → Contributed rt h k o' → o = o'
  past : ∀ {k o}, Contributed rt h k o → Past s pts k

section Run

variable {cfg : Config} {ident : AgentIdentity} {describe : Error → String} {h : Trace Db}
  {v : View Pt (World Db) Unit} {n : ℕ} {c : Ctl Pt Unit}

/-- What was contributed up to and including a step. -/
theorem contributed_append {e : View Pt (World Db) Unit × Act Call Input} {k : ℕ}
    {o : OccurrenceEvent} (hc : Contributed rt (h ++ [e]) k o) : Contributed rt h k o ∨
      ∃ n i t p, e.2 = .exec n i ∧ e.1.pts n = .at (.proc t p) ∧ t.cand.id = k ∧
        Adds rt t p i e.1.store o := by
  obtain ⟨e', he', hrow⟩ := hc
  rcases List.mem_append.mp he' with he' | he'
  · exact .inl ⟨e', he', hrow⟩
  · rw [List.mem_singleton.mp he'] at hrow
    exact .inr hrow

theorem Contributions.exec (hi : Contributions rt h v.store v.pts)
    (hserver : rt.server = corpusServer cfg ident describe) (hown : Owned v.store v.pts) {l : Pt}
    {i : Input} {s' : World Db} (hn : v.pts n = .at l) (hm : Move rt l i v.store s' c)
    (hack : Acknowledging rt v.store v.pts (.exec n i))
    (hund : Undisturbed v.store v.pts (.exec n i)) :
    Contributions rt (h ++ [(v, .exec n i)]) s' (Function.update v.pts n c) := by
  have hnew : ∀ {k o}, Contributed rt (h ++ [(v, .exec n i)]) k o → Contributed rt h k o ∨
      ∃ t p, l = .proc t p ∧ t.cand.id = k ∧ Adds rt t p i v.store o := by
    intro k o hc
    refine (contributed_append hc).imp_right ?_
    rintro ⟨n', i', t, p, ha, hat, hid, hadds⟩
    cases ha
    exact ⟨t, p, by simpa [hn] using hat, hid, hadds⟩
  -- a candidate that makes a request has contributed nothing before
  have hfirst : ∀ {k o o' t p}, Contributed rt h k o → l = .proc t p → t.cand.id = k →
      Adds rt t p i v.store o' → False := by
    intro k o o' t p hold hl hid hadds
    subst hl hid
    exact hadds.not_past hown hn (hi.past hold)
  refine ⟨?_, ?_⟩
  · intro k o o' hc hc'
    rcases hnew hc with hold | ⟨t, p, hl, hid, hadds⟩ <;>
      rcases hnew hc' with hold' | ⟨t', p', hl', hid', hadds'⟩
    · exact hi.once hold hold'
    · exact (hfirst hold hl' hid' hadds').elim
    · exact (hfirst hold' hl hid hadds).elim
    · subst hl
      cases hl'
      exact hadds.unique hserver hadds'
  · intro k o hc
    rcases hnew hc with hold | ⟨t, p, rfl, rfl, hadds⟩
    · exact (hi.past hold).exec hown hn hm hund
    · cases hm with
      | proc hx =>
        obtain ⟨p', rfl, hp'⟩ := hadds.reporting hserver (hack n i t p o rfl hn hadds) hx
        exact .inr ⟨n, t, p', Function.update_self .., rfl, hp'⟩

/-- A call that starts, or is cut off while it has nothing to record. -/
theorem Contributions.idle (hi : Contributions rt h v.store v.pts) {a : Act Call Input}
    (ha : ∀ n i, a ≠ .exec n i)
    (hn : ∀ t p, v.pts n = .at (.proc t p) → p.reporting = false) :
    Contributions rt (h ++ [(v, a)]) v.store (Function.update v.pts n c) := by
  have hold : ∀ {k o}, Contributed rt (h ++ [(v, a)]) k o → Contributed rt h k o := by
    intro k o hc
    rcases contributed_append hc with hc | ⟨n', i', t, p, heq, -⟩
    · exact hc
    · exact absurd heq (ha n' i')
  refine ⟨fun hc hc' => hi.once (hold hc) (hold hc'), fun hc => ?_⟩
  rcases hi.past (hold hc) with hrow | ⟨m, t, p, hat, hid, hp⟩
  · exact .inl hrow
  · have hmn : m ≠ n := by
      rintro rfl
      rw [hn t p hat] at hp
      cases hp
    exact .inr ⟨m, t, p, by rw [Function.update_of_ne hmn]; exact hat, hid, hp⟩

end Run

/-- What every step has to satisfy. -/
def Traced (rt : Runtime Db) (s : World Db) (pts : ℕ → Ctl Pt Unit) (a : Act Call Input) : Prop :=
  LeaseFree s pts a ∧ Acknowledging rt s pts a ∧ Undisturbed s pts a

/-- Contributions, along every history whose steps satisfy it. -/
theorem contributions_of_history {cfg : Config} {ident : AgentIdentity} {describe : Error → String}
    (hserver : rt.server = corpusServer cfg ident describe) {s₀ : World Db}
    (hrows : s₀.db.candidates.table.rows = []) {h : Trace Db} {v : View Pt (World Db) Unit}
    (hr : View.VReach (Move rt) (fun c => (agent rt c).ctl) s₀ h v)
    (hok : ∀ e ∈ h, Traced rt e.1.store e.1.pts e.2) :
    Owned v.store v.pts ∧ Contributions rt h v.store v.pts := by
  refine View.VReach.invariant (fun v a => Traced rt v.store v.pts a)
    (fun h v => Owned v.store v.pts ∧ Contributions rt h v.store v.pts)
    ⟨Owned.start hrows, ?_⟩ ?_ ?_ ?_ hr hok
  · have hnone : ∀ {k o}, ¬ Contributed rt [] k o := by
      rintro k o ⟨e, he, -⟩
      exact List.not_mem_nil he
    exact ⟨fun hc => absurd hc hnone, fun hc => absurd hc hnone⟩
  · intro h v c hi hidle _
    refine ⟨hi.1.idle fun l hl => agent_entry rt c hl, hi.2.idle (by simp) fun t p hat => ?_⟩
    rw [hidle] at hat
    cases hat
  · rintro h v n l c s' i ⟨hown, hcon⟩ hn hm ⟨hfree, hack, hund⟩
    exact ⟨hown.exec hn hm hfree, hcon.exec hserver hown hn hm hack hund⟩
  · rintro h v n l ⟨hown, hcon⟩ hn ⟨-, -, hund⟩
    refine ⟨hown.idle fun l hl => (by cases hl), hcon.idle (by simp) fun t p hat => ?_⟩
    by_contra hp
    exact (hund n t p hat (by simpa using hp)).1 rfl

/-- **One occurrence per capture**, in every history in which no candidate is leased
while a task holds it, every request that adds a row is acknowledged, and no task is
disturbed between the acknowledgement and the update of its row. -/
theorem one_occurrence {cfg : Config} {ident : AgentIdentity} {describe : Error → String}
    (hserver : rt.server = corpusServer cfg ident describe) {s₀ : World Db}
    (hrows : s₀.db.candidates.table.rows = []) {h : Pool.Hist Call Pt (World Db) Input String Unit}
    {p : Pool Call Pt (World Db) Input String Unit} (hr : Pool.Reach (agent rt) s₀ h p)
    (hok : ∀ e ∈ h, LeaseFree e.1.store e.1.ctl e.2 ∧ Acknowledging rt e.1.store e.1.ctl e.2 ∧
      Undisturbed e.1.store e.1.ctl e.2) {k : ℕ} {o o' : OccurrenceEvent}
    (ho : Contributed rt (trace h) k o) (ho' : Contributed rt (trace h) k o') : o = o' :=
  (contributions_of_history hserver hrows (hr.view (agent_takes rt))
    (Pool.forall_view (Traced rt) hok)).2.once ho ho'

/-! ### Captures to run -/

/-- The rows the candidate `k` contributes at a step, computed. -/
def addedRows (rt : Runtime Db) (k : ℕ) (p : Pool Call Pt (World Db) Input String Unit) :
    Act Call Input → List OccurrenceEvent
  | .exec n i => match p.ctl n with
    | .at (.proc t q) =>
      let before := p.store.server.ingest.occurrences.rows
      let after := ((requested rt t i p.store q).getD p.store.server).ingest.occurrences.rows
      if t.cand.id = k then
        after.filter fun o => !before.any fun o' => decide (o'.key = o.key)
      else []
    | _ => []
  | _ => []

theorem contributed_of_added {h : Pool.Hist Call Pt (World Db) Input String Unit} {k : ℕ}
    {o : OccurrenceEvent} (ho : o ∈ h.flatMap fun e => addedRows rt k e.1 e.2) :
    Contributed rt (trace h) k o := by
  obtain ⟨⟨p, a⟩, he, hadd⟩ := List.mem_flatMap.mp ho
  refine ⟨(p.view, a), List.mem_map.mpr ⟨(p, a), he, rfl⟩, ?_⟩
  cases a with
  | spawn c => cases hadd
  | kill n => cases hadd
  | exec n i =>
    simp only [addedRows] at hadd
    split at hadd
    · next t q hat =>
      split at hadd
      · next hk =>
        obtain ⟨hmem, hno⟩ := List.mem_filter.mp hadd
        have hnew : o ∉ p.store.server.ingest.occurrences.rows := by
          intro hold
          simp only [Bool.not_eq_true', List.any_eq_false, decide_eq_true_eq] at hno
          exact hno o hold rfl
        refine ⟨n, i, t, q, rfl, hat, hk, ?_⟩
        cases hd : requested rt t i p.store q with
        | none =>
          rw [hd, Option.getD_none] at hmem
          exact absurd hmem hnew
        | some d =>
          rw [hd, Option.getD_some] at hmem
          exact ⟨d, hd, hmem, hnew⟩
      · cases hadd
    · cases hadd

/-- The answer to the request of a step is an `Ok`, and a step that records an
occurrence does not fail, computed. -/
def undisturbed (rt : Runtime Db) (p : Pool Call Pt (World Db) Input String Unit) :
    Act Call Input → Bool
  | .spawn _ => true
  | .exec n i => match p.ctl n with
    | .at (.proc t (.announce seq)) =>
      (i.answer (rt.server.announce (announceRequest rt t (t.cand.sha256.getD "") seq p.store)
        i.envs p.store.server).1).isOk
    | .at (.proc t (.finalize upload seq)) =>
      (i.answer (rt.server.finalize
        (finalizeRequest rt t (t.cand.sha256.getD "") upload seq p.store)
        i.envs p.store.server).1).isOk
    | .at (.proc _ q) => !q.reporting || !i.dbFails
    | _ => true
  | .kill n => match p.ctl n with
    | .at (.proc _ q) => !q.reporting
    | _ => true

theorem undisturbed_sound {p : Pool Call Pt (World Db) Input String Unit} {a : Act Call Input}
    (h : undisturbed rt p a = true) :
    Acknowledging rt p.store p.ctl a ∧ Undisturbed p.store p.ctl a := by
  refine ⟨?_, ?_⟩
  · rintro n i t q o rfl hat hadds
    rcases hadds.request with ⟨seq, rfl⟩ | ⟨upload, seq, rfl⟩
    · simp only [undisturbed, hat] at h
      simp only [Acknowledged]
      generalize i.answer _ = r at h ⊢
      cases r with
      | error e => cases h
      | ok ann => exact ⟨ann, rfl⟩
    · simp only [undisturbed, hat] at h
      simp only [Acknowledged]
      generalize i.answer _ = r at h ⊢
      cases r with
      | error e => cases h
      | ok u => rfl
  · intro n t q hat hq
    refine ⟨?_, ?_⟩
    · rintro rfl
      simp [undisturbed, hat, hq] at h
    · rintro i rfl
      cases q <;> first
        | (cases hq; done)
        | simpa [undisturbed, hat, hq] using h

/-- The next `k` steps of the `n`-th call; the server draws the identifier `u`. -/
def servedSteps (n k : ℕ) (u : Uuid) : List (Act Call Input) :=
  List.replicate k (.exec n (.fine u 65536 (List.replicate 12 (.drawing u))))

/-- A file is enqueued, and a worker takes its candidate up to the finalize request. -/
def toFinalize : List (Act Call Input) :=
  .spawn (.enqueue "/a" 5 "sensor") :: servedSteps 0 1 0 ++ .spawn (.worker 3) :: servedSteps 1 24 9

/-- A capture to its end: the candidate contributes one row. -/
theorem one_occurrence_captured :
    ∃ h p o, Pool.Reach (agent servedAgent) (.fresh (.holding [1]) .empty) h p ∧
      (p.store.db.get 1).map Candidate.state = some .complete ∧
      Contributed servedAgent (trace h) 1 o ∧
      ∀ o', Contributed servedAgent (trace h) 1 o' → o' = o := by
  obtain ⟨h, p, hreach, hchk⟩ := Pool.exists_reach (agent servedAgent)
    (.fresh (.holding [1]) .empty) (toFinalize ++ servedSteps 1 7 10)
    (fun h p => (h.all fun e => leaseFree e.1 e.2 && undisturbed servedAgent e.1 e.2) &&
      decide ((p.store.db.get 1).map Candidate.state = some CaptureState.complete) &&
      !(h.flatMap fun e => addedRows servedAgent 1 e.1 e.2).isEmpty) (by decide)
  simp only [Bool.and_eq_true, List.all_eq_true, decide_eq_true_eq, Bool.not_eq_true',
    List.isEmpty_eq_false_iff_exists_mem] at hchk
  obtain ⟨⟨hall, hdone⟩, o, ho⟩ := hchk
  have hcon := contributed_of_added ho
  exact ⟨h, p, o, hreach, hdone, hcon, fun o' ho' => one_occurrence rfl rfl hreach
    (fun e he => ⟨leaseFree_sound (hall e he).1, undisturbed_sound (hall e he).2⟩) ho' hcon⟩

/-- There are two rows, and they differ. -/
def twoRows : List OccurrenceEvent → Bool
  | [o, o'] => decide (o.key ≠ o'.key)
  | _ => false

theorem of_twoRows {os : List OccurrenceEvent} (h : twoRows os = true) :
    ∃ o o', os = [o, o'] ∧ o ≠ o' := by
  unfold twoRows at h
  split at h
  · next o o' =>
    refine ⟨o, o', rfl, ?_⟩
    rintro rfl
    simp at h
  · cases h

/-- The answer to the finalize request is lost: the candidate is announced again,
and the server, which has the artifact by now, records a second occurrence. -/
theorem lost_answer_counts_twice :
    ∃ h p o o', Pool.Reach (agent servedAgent) (.fresh (.holding [1]) .empty) h p ∧
      Contributed servedAgent (trace h) 1 o ∧ Contributed servedAgent (trace h) 1 o' ∧ o ≠ o' := by
  obtain ⟨h, p, hreach, hchk⟩ := Pool.exists_reach (agent servedAgent)
    (.fresh (.holding [1]) .empty)
    (toFinalize ++ .exec 1 { Input.fine 10 0 (List.replicate 12 (.drawing 10)) with
        net := .lost "connection reset" } :: servedSteps 1 2 10 ++
      .spawn (.tick 600) :: servedSteps 2 1 0 ++ .spawn (.worker 3) :: servedSteps 3 5 11)
    (fun h _ => twoRows (h.flatMap fun e => addedRows servedAgent 1 e.1 e.2)) (by decide)
  obtain ⟨o, o', hrows, hne⟩ := of_twoRows hchk
  have hmem : ∀ x ∈ [o, o'], Contributed servedAgent (trace h) 1 x := by
    intro x hx
    rw [← hrows] at hx
    exact contributed_of_added hx
  exact ⟨h, p, o, o', hreach, hmem o (by simp), hmem o' (by simp), hne⟩

end Corpus.Agent
