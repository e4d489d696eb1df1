/-
Gaps from the candidate to the server's ledger.

`process_candidate` records a gap and then ends its candidate; the flusher reads
the pending rows, sends them and deletes what it sent.

* `Recorded` — candidates that ended in a gap had their row inserted, provided that
  no such `INSERT` fails: `record_gap` of `capture.rs` drops the error, and the
  candidate ends all the same;
* `Delivered` — whatever fails, a row is deleted only after the server has
  committed a batch with it;
* `gaps_durable` — both, along every history.
-/
import Corpus.Agent.Rows
import Corpus.Agent.Service

namespace Corpus.Agent

/-- A history of the machine of program points of an agent. -/
abbrev Trace (S : Type) := List (View Pt (World S) Unit × Act Call Input)

/-- The events of a history of the agent. -/
def trace {S : Type} (h : Pool.Hist Call Pt (World S) Input String Unit) : Trace S :=
  h.map fun e => (e.1.view, e.2)

section

variable {S : Type} {rt : Runtime S}

/-! ### Gap rows -/

/-- The step inserts the gap row `row` for the candidate `k`. -/
def Inserts (rt : Runtime S) (e : View Pt (World S) Unit × Act Call Input) (k : ℕ)
    (row : PendingGap) : Prop :=
  ∃ n i t g, e.2 = .exec n i ∧ e.1.pts n = .at (.proc t (.gapRow g)) ∧ i.dbFails = false ∧
    t.cand.id = k ∧ row = { gapRow rt t g e.1.store with id := e.1.store.db.gaps.lastId + 1 }

/-- The row was inserted for some candidate. -/
def Ever (rt : Runtime S) (h : Trace S) (row : PendingGap) : Prop := ∃ e ∈ h, ∃ k, Inserts rt e k row

/-- The candidate had a gap row inserted. -/
def HasGap (rt : Runtime S) (h : Trace S) (k : ℕ) : Prop := ∃ e ∈ h, ∃ row, Inserts rt e k row

/-- The step does not fail to insert a gap row. -/
def GapStored (_ : World S) (pts : ℕ → Ctl Pt Unit) (a : Act Call Input) : Prop :=
  ∀ n i t g, a = .exec n i → pts n = .at (.proc t (.gapRow g)) → i.dbFails = false

theorem HasGap.mono {h : Trace S} {k : ℕ} (hg : HasGap rt h k)
    (e : View Pt (World S) Unit × Act Call Input) : HasGap rt (h ++ [e]) k := by
  obtain ⟨e', he', hrow⟩ := hg
  exact ⟨e', List.mem_append_left _ he', hrow⟩

/-! ### Candidates that end in a gap -/

/-- A candidate that ended in a gap, or is about to, has its row. -/
structure Recorded (rt : Runtime S) (h : Trace S) (s : World S) (pts : ℕ → Ctl Pt Unit) : Prop where
  ended : ∀ {k r}, s.db.get k = some r → r.state = .gapRecorded → HasGap rt h k
  ending : ∀ {m t g}, pts m = .at (.proc t (.gapCount g)) ∨ pts m = .at (.proc t (.finishGap g)) →
    HasGap rt h t.cand.id

/-- Only `finish_gap` ends a candidate in a gap. -/
theorem RowStep.gapRecorded {l : Pt} {s : World S} {k : ℕ} {o : Option Candidate} {r : Candidate}
    (h : RowStep l s k o (some r)) (hr : r.state = .gapRecorded) :
    (∃ r₀, o = some r₀ ∧ r₀.state = .gapRecorded) ∨
      ∃ t g, l = .proc t (.finishGap g) ∧ t.cand.id = k := by
  cases h with
  | same => exact .inl ⟨r, rfl, hr⟩
  | @due r₀ _ ha _ =>
    rw [ha] at hr
    exact .inl ⟨r₀, rfl, hr⟩
  | @new _ _ _ debouncing _ => cases debouncing <;> cases hr
  | @retry r₀ _ _ => exact .inl ⟨r₀, rfl, hr⟩
  | @write t p w r₀ hl hid hw =>
    cases p with
    | finishGap g => exact .inr ⟨t, g, hl, hid⟩
    | deferFull =>
      cases hw
      exact .inl ⟨r₀, rfl, hr⟩
    | ioRetry =>
      cases hw
      exact .inl ⟨r₀, rfl, hr⟩
    | failRetry =>
      cases hw
      exact .inl ⟨r₀, rfl, hr⟩
    | _ => cases hw <;> cases hr

/-- A task comes to `finish_gap` by way of the `INSERT`. -/
theorem ProcMove.to_gap {t t' : Task} {p p' : ProcPt} {i : Input} {s s' : World S}
    (h : ProcMove rt t p i s s' (.at (.proc t' p'))) {g : GapInfo}
    (hp' : p' = .gapCount g ∨ p' = .finishGap g) : t' = t ∧
      ((p = .gapRow g ∧ i.dbFails = false) ∨ p = .gapCount g ∨ (p = .gapRow g ∧ i.dbFails = true)) := by
  generalize hc : (Ctl.at (.proc t' p') : Ctl Pt Unit) = c at h
  cases h with
  | gapRow hdb =>
    cases hc
    rcases hp' with hp' | hp' <;> cases hp'
    exact ⟨rfl, .inl ⟨rfl, hdb⟩⟩
  | gapRowErr hdb =>
    cases hc
    rcases hp' with hp' | hp' <;> cases hp'
    exact ⟨rfl, .inr (.inr ⟨rfl, hdb⟩)⟩
  | gapCount _ =>
    cases hc
    rcases hp' with hp' | hp' <;> cases hp'
    exact ⟨rfl, .inr (.inl rfl)⟩
  | row _ _ _ hn =>
    cases hn with
    | resumeComplete hr => cases hr <;> cases hc; rcases hp' with hp' | hp' <;> cases hp'
    | noUploadId hf => cases hf <;> cases hc <;> rcases hp' with hp' | hp' <;> cases hp'
    | noSpool _ hf => cases hf <;> cases hc <;> rcases hp' with hp' | hp' <;> cases hp'
    | _ => cases hc <;> rcases hp' with hp' | hp' <;> cases hp'
  | stableDone _ ha => cases ha <;> cases hc <;> rcases hp' with hp' | hp' <;> cases hp'
  | announceErr _ _ hf => cases hf <;> cases hc <;> rcases hp' with hp' | hp' <;> cases hp'
  | uploadErr _ _ hf => cases hf <;> cases hc <;> rcases hp' with hp' | hp' <;> cases hp'
  | finalizeErr _ _ hf => cases hf <;> cases hc <;> rcases hp' with hp' | hp' <;> cases hp'
  | countPresent _ hr => cases hr <;> cases hc; rcases hp' with hp' | hp' <;> cases hp'
  | lastUpload _ hr => cases hr <;> cases hc; rcases hp' with hp' | hp' <;> cases hp'
  | _ => cases hc <;> rcases hp' with hp' | hp' <;> cases hp'

section Step

variable {h : Trace S} {v : View Pt (World S) Unit} {s' : World S} {n : ℕ} {l : Pt} {i : Input}
  {c : Ctl Pt Unit}

theorem Recorded.exec (hi : Recorded rt h v.store v.pts) (hn : v.pts n = .at l)
    (hm : Move rt l i v.store s' c) (hok : GapStored v.store v.pts (.exec n i)) :
    Recorded rt (h ++ [(v, .exec n i)]) s' (Function.update v.pts n c) where
  ended {k r} hr hgap := by
    have hstep := hm.row_step k
    rw [hr] at hstep
    rcases hstep.gapRecorded hgap with ⟨r₀, hr₀, hgap₀⟩ | ⟨t, g, rfl, rfl⟩
    · exact (hi.ended hr₀ hgap₀).mono _
    · exact (hi.ending (.inr hn)).mono _
  ending {m t g} hat := by
    -- one of the two points, for the call that moved or for another
    have hpt : ∃ q, (q = .gapCount g ∨ q = .finishGap g) ∧
        Function.update v.pts n c m = .at (.proc t q) := by
      rcases hat with hat | hat
      · exact ⟨_, .inl rfl, hat⟩
      · exact ⟨_, .inr rfl, hat⟩
    obtain ⟨q, hq, hat⟩ := hpt
    rcases View.at_update hat with ⟨rfl, rfl⟩ | ⟨hne, hat'⟩
    · rcases hm.to_proc with ⟨boot, x, rfl, hs⟩ | ⟨t₀, p₀, rfl, hp⟩
      · cases hs <;> rcases hq with hq | hq <;> cases hq
      · obtain ⟨rfl, ⟨rfl, hdb⟩ | rfl | ⟨rfl, hdb⟩⟩ := hp.to_gap hq
        · exact ⟨_, List.mem_append_right _ (List.mem_singleton_self _), _, m, i, t, g, rfl, hn, hdb,
            rfl, rfl⟩
        · exact (hi.ending (.inl hn)).mono _
        · rw [hok m i t g rfl hn] at hdb
          cases hdb
    · refine (hi.ending (m := m) (g := g) ?_).mono _
      rcases hq with rfl | rfl
      · exact .inl hat'
      · exact .inr hat'

/-- A call that starts is not about to end a candidate, nor is one that is cut off. -/
theorem Recorded.idle (hi : Recorded rt h v.store v.pts) (a : Act Call Input)
    (hc : ∀ l, c = .at l → l.holds = none) :
    Recorded rt (h ++ [(v, a)]) v.store (Function.update v.pts n c) where
  ended hr hgap := (hi.ended hr hgap).mono _
  ending {m t g} hat := by
    refine (hi.ending (m := m) (g := g) ?_).mono _
    rcases hat with hat | hat
    · rcases View.at_update hat with ⟨rfl, he⟩ | ⟨-, hat'⟩
      · cases hc _ he
      · exact .inl hat'
    · rcases View.at_update hat with ⟨rfl, he⟩ | ⟨-, hat'⟩
      · cases hc _ he
      · exact .inr hat'

end Step

/-- Candidates that end in a gap have their row, if no such `INSERT` fails. -/
theorem recorded_of_history {s₀ : World S} (hrows : s₀.db.candidates.table.rows = [])
    {h : Trace S} {v : View Pt (World S) Unit}
    (hr : View.VReach (Move rt) (fun c => (agent rt c).ctl) s₀ h v)
    (hok : ∀ e ∈ h, GapStored e.1.store e.1.pts e.2) : Recorded rt h v.store v.pts := by
  refine View.VReach.invariant (fun v a => GapStored v.store v.pts a)
    (fun h v => Recorded rt h v.store v.pts) ⟨?_, ?_⟩ ?_ ?_ ?_ hr hok
  · intro k r hk _
    have hm : r ∈ s₀.db.candidates.table.rows := (Table.mem_of_get hk).1
    rw [hrows] at hm
    cases hm
  · rintro m t g (hat | hat) <;> cases hat
  · intro h v c hi _ _
    exact hi.idle _ fun l hl => agent_entry rt c hl
  · intro h v n l c s' i hi hn hm hok
    exact hi.exec hn hm hok
  · intro h v n l hi _ _
    exact hi.idle _ fun l hl => by cases hl

/-! ### The table of pending gaps -/

/-- What a step does to the pending gaps. -/
inductive GapsStep (rt : Runtime S) (l : Pt) (i : Input) (s : World S) : Gaps → Prop where
  | same : (∀ t g, l = .proc t (.gapRow g) → i.dbFails = true) → GapsStep rt l i s s.db.gaps
  | insert {t g} : l = .proc t (.gapRow g) → i.dbFails = false →
      GapsStep rt l i s (s.db.gaps.insert (gapRow rt t g s))
  | delete {gap rest} : l = .flushDelete gap rest → GapsStep rt l i s (s.db.gaps.delete gap.id)

theorem ProcMove.gaps_step {t : Task} {p : ProcPt} {i : Input} {s s' : World S} {c : Ctl Pt Unit}
    (h : ProcMove rt t p i s s' c) : GapsStep rt (.proc t p) i s s'.db.gaps := by
  have hsame : s'.db.gaps = s.db.gaps → (∀ g, p = .gapRow g → i.dbFails = true) →
      GapsStep rt (.proc t p) i s s'.db.gaps := by
    intro heq hp
    rw [heq]
    refine .same ?_
    rintro t' g ⟨⟩
    exact hp g rfl
  cases h with
  | gapRow hdb => exact .insert rfl hdb
  | gapRowErr hdb => exact hsame rfl fun _ _ => hdb
  | row hw _ hd _ =>
    obtain ⟨cs, -, rfl⟩ := StateDb.write_some hd
    refine hsame rfl fun g hp => ?_
    subst hp
    cases hw
  | rowErr hw _ =>
    refine hsame rfl fun g hp => ?_
    subst hp
    cases hw
  | stableAt hx => exact hsame (by rw [hx.spool_only]) (by simp)
  | stableDone hx _ => exact hsame (by rw [hx.spool_only]) (by simp)
  | gapCount hs => rcases hs with rfl | rfl <;> exact hsame rfl (by simp)
  | removeSpool hs => rcases hs with ⟨rfl, -⟩ | rfl <;> exact hsame rfl (by simp)
  | announceSeqErr _ hs => rcases hs with rfl | rfl <;> exact hsame rfl (by simp)
  | finalizeSeqErr _ hs => rcases hs with rfl | rfl <;> exact hsame rfl (by simp)
  | uploadErr _ hs _ =>
    subst hs
    exact hsame rfl (by simp)
  | upload _ hs =>
    subst hs
    exact hsame rfl (by simp)
  | _ => exact hsame rfl (by simp)

/-- **Rows are added by `record_gap` and deleted by the flusher**, and by nothing else. -/
theorem Move.gaps_step {l : Pt} {i : Input} {s s' : World S} {c : Ctl Pt Unit}
    (h : Move rt l i s s' c) : GapsStep rt l i s s'.db.gaps := by
  have hsame : s'.db.gaps = s.db.gaps → (∀ t p, l ≠ .proc t p) → GapsStep rt l i s s'.db.gaps := by
    intro heq hl
    rw [heq]
    exact .same fun t g hp => absurd hp (hl _ _)
  cases h with
  | proc hp => exact hp.gaps_step
  | flushDeleteLast => exact .delete rfl
  | flushDelete => exact .delete rfl
  | lease hdb hl =>
    obtain ⟨r, -, -, -, -, hw⟩ := StateDb.leaseNextDue_some hl
    obtain ⟨t, -, rfl⟩ := StateDb.write_some hw
    exact hsame rfl (by simp)
  | errRetry hd =>
    obtain ⟨t, -, rfl⟩ := StateDb.write_some hd
    exact hsame rfl (by simp)
  | renew =>
    refine hsame ?_ (by simp)
    unfold renewed
    split
    · rfl
    · split
      · rfl
      · dsimp only
        split
        · rfl
        · split
          · rfl
          · next d hd =>
            obtain ⟨t, -, rfl⟩ := StateDb.write_some hd
            rfl
  | flushSendErr hs =>
    subst hs
    exact hsame rfl (by simp)
  | flushSend _ hs =>
    subst hs
    exact hsame rfl (by simp)
  | _ => exact hsame rfl (by simp)

/-- The flusher sends rows it has read. -/
theorem Move.to_flushSend {l : Pt} {i : Input} {s s' : World S} {gaps : List PendingGap}
    (h : Move rt l i s s' (.at (.flushSend gaps))) {g : PendingGap} (hg : g ∈ gaps) :
    g ∈ s.db.gaps.table.rows ∧ (gapEvent rt g).isSome = true := by
  cases h.goes with
  | flushSend =>
    obtain ⟨hmem, hev⟩ := List.mem_filter.mp hg
    exact ⟨StateDb.mem_of_pendingGaps hmem, hev⟩

/-- The flusher deletes rows it has sent, and the server has accepted. -/
theorem Move.to_flushDelete {l : Pt} {i : Input} {s s' : World S} {gap : PendingGap}
    {rest : List PendingGap} (h : Move rt l i s s' (.at (.flushDelete gap rest))) :
    (l = .flushSend (gap :: rest) ∧ i.answer
      (rt.server.reportGaps ((gap :: rest).filterMap (gapEvent rt)) i.envs s.server).1 = .ok ()) ∨
      ∃ gap', l = .flushDelete gap' (gap :: rest) := by
  cases h.goes with
  | flushDelete ha => exact .inl ⟨rfl, ha⟩
  | flushNext => exact .inr ⟨_, rfl⟩

end

/-! ### Delivery -/

section Delivery

variable {rt : Runtime Db} {cfg : Config} {ident : AgentIdentity} {describe : Error → String}

/-- The server has committed a batch with the row: the request reached it, its
transaction went through, and the event of the row is in the ledger. -/
def Committed (rt : Runtime Db) (cfg : Config) (ident : AgentIdentity) (h : Trace Db)
    (row : PendingGap) : Prop :=
  ∃ e ∈ h, ∃ n i gaps d event, e.2 = .exec n i ∧ e.1.pts n = .at (.flushSend gaps) ∧
    (∀ msg, i.net ≠ .refused msg) ∧
    recordGaps cfg.debug ident e.1.store.server.ingest (gaps.filterMap (gapEvent rt)) = .ok d ∧
    gapEvent rt row = some event ∧ Ledgered cfg.debug ident d event

theorem Committed.mono {h : Trace Db} {row : PendingGap} (hc : Committed rt cfg ident h row)
    (e : View Pt (World Db) Unit × Act Call Input) : Committed rt cfg ident (h ++ [e]) row := by
  obtain ⟨e', he', hrow⟩ := hc
  exact ⟨e', List.mem_append_left _ he', hrow⟩

theorem Ever.mono {h : Trace Db} {row : PendingGap} (hc : Ever rt h row)
    (e : View Pt (World Db) Unit × Act Call Input) : Ever rt (h ++ [e]) row := by
  obtain ⟨e', he', hrow⟩ := hc
  exact ⟨e', List.mem_append_left _ he', hrow⟩

/-- A row that was ever inserted is pending or committed, and the flusher deletes
committed rows only. -/
structure Delivered (rt : Runtime Db) (cfg : Config) (ident : AgentIdentity) (h : Trace Db) (s : World Db)
    (pts : ℕ → Ctl Pt Unit) : Prop where
  ids : ∀ {row}, Ever rt h row → row.id ≤ s.db.gaps.lastId
  once : ∀ {row row'}, Ever rt h row → Ever rt h row' → row.id = row'.id → row = row'
  rows : ∀ {row}, row ∈ s.db.gaps.table.rows → Ever rt h row
  kept : ∀ {row}, Ever rt h row → row ∈ s.db.gaps.table.rows ∨ Committed rt cfg ident h row
  sending : ∀ {m gaps row}, pts m = .at (.flushSend gaps) → row ∈ gaps →
    Ever rt h row ∧ (gapEvent rt row).isSome = true
  deleting : ∀ {m gap rest row}, pts m = .at (.flushDelete gap rest) → row ∈ gap :: rest →
    Ever rt h row ∧ Committed rt cfg ident h row

section Step

variable {h : Trace Db} {v : View Pt (World Db) Unit} {s' : World Db} {n : ℕ} {l : Pt} {i : Input}
  {c : Ctl Pt Unit}

/-- The rows inserted up to and including a step. -/
theorem ever_append {e : View Pt (World Db) Unit × Act Call Input} {row : PendingGap} :
    Ever rt (h ++ [e]) row ↔ Ever rt h row ∨ ∃ k, Inserts rt e k row := by
  constructor
  · rintro ⟨e', he', hrow⟩
    rcases List.mem_append.mp he' with he' | he'
    · exact .inl ⟨e', he', hrow⟩
    · rw [List.mem_singleton.mp he'] at hrow
      exact .inr hrow
  · rintro (hrow | hrow)
    · exact hrow.mono e
    · exact ⟨e, List.mem_append_right _ (List.mem_singleton_self _), hrow⟩

/-- A batch the server has accepted is committed. -/
theorem committed_of_answer (hserver : rt.server = corpusServer cfg ident describe)
    {gaps : List PendingGap} (hn : v.pts n = .at (.flushSend gaps))
    (ha : i.answer (rt.server.reportGaps (gaps.filterMap (gapEvent rt)) i.envs v.store.server).1 =
      .ok ()) {row : PendingGap} (hrow : row ∈ gaps) (hev : (gapEvent rt row).isSome = true) :
    Committed rt cfg ident (h ++ [(v, .exec n i)]) row := by
  obtain ⟨event, hevent⟩ := Option.isSome_iff_exists.mp hev
  rw [hserver] at ha
  unfold Input.answer at ha
  have hnet : i.net = .answered := by
    cases hnet : i.net with
    | refused msg =>
      rw [hnet] at ha
      cases ha
    | lost msg =>
      rw [hnet] at ha
      cases ha
    | answered => rfl
  rw [hnet] at ha
  cases hd : recordGaps cfg.debug ident v.store.server.ingest (gaps.filterMap (gapEvent rt)) with
  | error e => simp [corpusServer, hd] at ha
  | ok d =>
    refine ⟨_, List.mem_append_right _ (List.mem_singleton_self _), n, i, gaps, d, event, rfl, hn, ?_,
      hd, hevent, ?_⟩
    · intro msg hmsg
      rw [hnet] at hmsg
      cases hmsg
    · exact (recordGaps_ok _ hd).2 event (List.mem_filterMap.mpr ⟨row, hrow, hevent⟩)

/-- What the flusher holds, after a step of any call. -/
theorem Delivered.flushers (hi : Delivered rt cfg ident h v.store v.pts)
    (hserver : rt.server = corpusServer cfg ident describe) (hn : v.pts n = .at l)
    (hm : Move rt l i v.store s' c) :
    (∀ {m gaps row}, Function.update v.pts n c m = .at (.flushSend gaps) → row ∈ gaps →
      Ever rt (h ++ [(v, .exec n i)]) row ∧ (gapEvent rt row).isSome = true) ∧
    ∀ {m gap rest row}, Function.update v.pts n c m = .at (.flushDelete gap rest) →
      row ∈ gap :: rest → Ever rt (h ++ [(v, .exec n i)]) row ∧
        Committed rt cfg ident (h ++ [(v, .exec n i)]) row := by
  refine ⟨?_, ?_⟩
  · intro m gaps row hat hrow
    rcases View.at_update hat with ⟨rfl, rfl⟩ | ⟨hne, hat'⟩
    · obtain ⟨hmem, hev⟩ := hm.to_flushSend hrow
      exact ⟨(hi.rows hmem).mono _, hev⟩
    · obtain ⟨hever, hev⟩ := hi.sending hat' hrow
      exact ⟨hever.mono _, hev⟩
  · intro m gap rest row hat hrow
    rcases View.at_update hat with ⟨rfl, rfl⟩ | ⟨hne, hat'⟩
    · rcases hm.to_flushDelete with ⟨rfl, ha⟩ | ⟨gap', rfl⟩
      · obtain ⟨hever, hev⟩ := hi.sending hn hrow
        exact ⟨hever.mono _, committed_of_answer hserver hn ha hrow hev⟩
      · obtain ⟨hever, hcom⟩ := hi.deleting hn (List.mem_cons_of_mem _ hrow)
        exact ⟨hever.mono _, hcom.mono _⟩
    · obtain ⟨hever, hcom⟩ := hi.deleting hat' hrow
      exact ⟨hever.mono _, hcom.mono _⟩

theorem Delivered.exec (hi : Delivered rt cfg ident h v.store v.pts)
    (hserver : rt.server = corpusServer cfg ident describe) (hn : v.pts n = .at l)
    (hm : Move rt l i v.store s' c) :
    Delivered rt cfg ident (h ++ [(v, .exec n i)]) s' (Function.update v.pts n c) := by
  obtain ⟨hsend, hdel⟩ := hi.flushers hserver hn hm
  have hgaps := hm.gaps_step
  generalize hg : s'.db.gaps = gs at hgaps
  -- a step that inserts no row
  have hno : (∀ t g, l = .proc t (.gapRow g) → i.dbFails = true) →
      ∀ {row}, Ever rt (h ++ [(v, .exec n i)]) row → Ever rt h row := by
    intro hl row hrow
    rcases ever_append.mp hrow with hrow | ⟨k, n', i', t, g, ha, hat, hdb, -⟩
    · exact hrow
    · cases ha
      rw [hn] at hat
      cases hat
      rw [hl t g rfl] at hdb
      cases hdb
  cases hgaps with
  | same hl =>
    refine ⟨?_, ?_, ?_, ?_, hsend, hdel⟩
    · intro row hrow
      rw [hg]
      exact hi.ids (hno hl hrow)
    · exact fun hrow hrow' => hi.once (hno hl hrow) (hno hl hrow')
    · intro row hrow
      rw [hg] at hrow
      exact (hi.rows hrow).mono _
    · intro row hrow
      rw [hg]
      exact (hi.kept (hno hl hrow)).imp_right fun hcom => hcom.mono _
  | @insert t g hl hdb =>
    subst hl
    -- the new row is the only one with its id
    have hnew : ∀ {row}, Ever rt (h ++ [(v, .exec n i)]) row → Ever rt h row ∨
        row = { gapRow rt t g v.store with id := v.store.db.gaps.lastId + 1 } := by
      intro row hrow
      rcases ever_append.mp hrow with hrow | ⟨k, n', i', t', g', ha, hat, -, -, heq⟩
      · exact .inl hrow
      · cases ha
        rw [hn] at hat
        cases hat
        exact .inr heq
    have hever : Ever rt (h ++ [(v, .exec n i)])
        { gapRow rt t g v.store with id := v.store.db.gaps.lastId + 1 } :=
      ever_append.mpr (.inr ⟨t.cand.id, n, i, t, g, rfl, hn, hdb, rfl, rfl⟩)
    refine ⟨?_, ?_, ?_, ?_, hsend, hdel⟩
    · intro row hrow
      rw [hg]
      rcases hnew hrow with hrow | rfl
      · exact Nat.le_succ_of_le (hi.ids hrow)
      · exact Nat.le_refl _
    · intro row row' hrow hrow' hid
      rcases hnew hrow with hrow | rfl <;> rcases hnew hrow' with hrow' | rfl
      · exact hi.once hrow hrow' hid
      · have := hi.ids hrow
        simp only at hid
        omega
      · have := hi.ids hrow'
        simp only at hid
        omega
      · rfl
    · intro row hrow
      rw [hg] at hrow
      rcases Gaps.mem_insert.mp hrow with hrow | rfl
      · exact (hi.rows hrow).mono _
      · exact hever
    · intro row hrow
      rw [hg]
      rcases hnew hrow with hrow | rfl
      · exact (hi.kept hrow).imp (fun hmem => Gaps.mem_insert.mpr (.inl hmem)) fun hcom => hcom.mono _
      · exact .inl (Gaps.mem_insert.mpr (.inr rfl))
  | @delete gap rest hl =>
    subst hl
    have hl : ∀ t g, (Pt.flushDelete gap rest) = .proc t (.gapRow g) → i.dbFails = true := by simp
    obtain ⟨hever, hcom⟩ := hi.deleting hn (List.mem_cons_self ..)
    refine ⟨?_, ?_, ?_, ?_, hsend, hdel⟩
    · intro row hrow
      rw [hg]
      exact hi.ids (hno hl hrow)
    · exact fun hrow hrow' => hi.once (hno hl hrow) (hno hl hrow')
    · intro row hrow
      rw [hg] at hrow
      exact (hi.rows (Gaps.mem_delete.mp hrow).1).mono _
    · intro row hrow
      rw [hg]
      by_cases hid : row.id = gap.id
      · rw [hi.once (hno hl hrow) hever hid]
        exact .inr (hcom.mono _)
      · exact (hi.kept (hno hl hrow)).imp (fun hmem => Gaps.mem_delete.mpr ⟨hmem, hid⟩)
          fun hcom => hcom.mono _

/-- A call that starts is no flusher in the middle of a batch, nor is one that is
cut off. -/
theorem Delivered.idle (hi : Delivered rt cfg ident h v.store v.pts) {a : Act Call Input}
    (ha : ∀ n i, a ≠ .exec n i) (hc : ∀ l, c = .at l → (∀ gaps, l ≠ .flushSend gaps) ∧
      ∀ gap rest, l ≠ .flushDelete gap rest) :
    Delivered rt cfg ident (h ++ [(v, a)]) v.store (Function.update v.pts n c) := by
  have hold : ∀ {row}, Ever rt (h ++ [(v, a)]) row → Ever rt h row := by
    intro row hrow
    rcases ever_append.mp hrow with hrow | ⟨k, n', i', t, g, heq, -⟩
    · exact hrow
    · exact absurd heq (ha n' i')
  refine ⟨fun hrow => hi.ids (hold hrow), fun hrow hrow' => hi.once (hold hrow) (hold hrow'),
    fun hrow => (hi.rows hrow).mono _, fun hrow => (hi.kept (hold hrow)).imp_right fun hcom =>
      hcom.mono _, ?_, ?_⟩
  · intro m gaps row hat hrow
    rcases View.at_update hat with ⟨rfl, he⟩ | ⟨-, hat'⟩
    · exact absurd rfl ((hc _ he).1 gaps)
    · obtain ⟨hever, hev⟩ := hi.sending hat' hrow
      exact ⟨hever.mono _, hev⟩
  · intro m gap rest row hat hrow
    rcases View.at_update hat with ⟨rfl, he⟩ | ⟨-, hat'⟩
    · exact absurd rfl ((hc _ he).2 gap rest)
    · obtain ⟨hever, hcom⟩ := hi.deleting hat' hrow
      exact ⟨hever.mono _, hcom.mono _⟩

end Step

/-- No row is lost, along every history. -/
theorem delivered_of_history (hserver : rt.server = corpusServer cfg ident describe)
    {s₀ : World Db} (hgaps : s₀.db.gaps.table.rows = []) {h : Trace Db}
    {v : View Pt (World Db) Unit}
    (hr : View.VReach (Move rt) (fun c => (agent rt c).ctl) s₀ h v) :
    Delivered rt cfg ident h v.store v.pts := by
  refine View.VReach.invariant (fun _ _ => True) (fun h v => Delivered rt cfg ident h v.store v.pts)
    ?_ ?_ ?_ ?_ hr fun _ _ => trivial
  · have hnone : ∀ {row}, ¬ Ever rt [] row := by
      rintro row ⟨e, he, -⟩
      exact List.not_mem_nil he
    refine ⟨fun hrow => absurd hrow hnone, fun hrow => absurd hrow hnone, ?_,
      fun hrow => absurd hrow hnone, fun hat => (by cases hat), fun hat => by cases hat⟩
    intro row hrow
    have hmem : row ∈ s₀.db.gaps.table.rows := hrow
    rw [hgaps] at hmem
    cases hmem
  · intro h v c hi _ _
    refine hi.idle (by simp) fun l hl => ?_
    cases agent_entryAt rt c hl <;> exact ⟨by simp, by simp⟩
  · intro h v n l c s' i hi hn hm _
    exact hi.exec hserver hn hm
  · intro h v n l hi _ _
    exact hi.idle (by simp) fun l hl => by cases hl

end Delivery

/-- **Gaps are durable**: in every history without a failing `INSERT`, a candidate
that ended in a gap had its row inserted; and in every history, a row that was ever
inserted is pending or has been committed by the server. -/
theorem gaps_durable {rt : Runtime Db} {cfg : Config} {ident : AgentIdentity}
    {describe : Error → String} (hserver : rt.server = corpusServer cfg ident describe)
    {s₀ : World Db} (hrows : s₀.db.candidates.table.rows = [])
    (hgaps : s₀.db.gaps.table.rows = []) {h : Pool.Hist Call Pt (World Db) Input String Unit}
    {p : Pool Call Pt (World Db) Input String Unit} (hr : Pool.Reach (agent rt) s₀ h p) :
    ((∀ e ∈ h, GapStored e.1.store e.1.ctl e.2) → ∀ k r, p.store.db.get k = some r →
      r.state = .gapRecorded → HasGap rt (trace h) k) ∧
    ∀ row, Ever rt (trace h) row →
      row ∈ p.store.db.gaps.table.rows ∨ Committed rt cfg ident (trace h) row := by
  have hview := hr.view (agent_takes rt)
  refine ⟨fun hok k r hk hgap => ?_, fun row hrow => ?_⟩
  · exact (recorded_of_history hrows hview (Pool.forall_view GapStored hok)).ended hk hgap
  · exact (delivered_of_history hserver hgaps hview).kept hrow

/-- An agent of a server, to run. -/
def servedAgent : Runtime Db := .small (corpusServer .plain ⟨1, 0, "host"⟩ fun _ => "error") none 8

/-- No gap row is stored at the step, computed. -/
def insertsNothing (p : Pool Call Pt (World Db) Input String Unit) : Act Call Input → Bool
  | .exec n i => match p.ctl n with
    | .at (.proc _ (.gapRow _)) => i.dbFails
    | _ => true
  | _ => true

/-- The step does not fail, computed. -/
def dbFine : Act Call Input → Bool
  | .exec _ i => !i.dbFails
  | _ => true

theorem dbFine_stored {s : World Db} {pts : ℕ → Ctl Pt Unit} {a : Act Call Input}
    (h : dbFine a = true) : GapStored s pts a := by
  rintro n i t g rfl -
  simpa [dbFine] using h

/-- A file that is too large is enqueued, and a worker takes its candidate to the gap. -/
def tooLarge : List (Act Call Input) :=
  .spawn (.enqueue "/a" 5 "sensor") :: fineSteps 0 1 0 ++ .spawn (.worker 3) :: fineSteps 1 7 0

/-- The gap is recorded, flushed and deleted. -/
theorem gaps_durable_flushed :
    ∃ h p, Pool.Reach (agent servedAgent) (.fresh (.holding (List.replicate 51 1)) .empty) h p ∧
      HasGap servedAgent (trace h) 1 ∧ p.store.db.gaps.table.rows = [] ∧
      ∀ row, Ever servedAgent (trace h) row →
        Committed servedAgent .plain ⟨1, 0, "host"⟩ (trace h) row := by
  obtain ⟨h, p, hreach, hchk⟩ := Pool.exists_reach (agent servedAgent)
    (.fresh (.holding (List.replicate 51 1)) .empty)
    (tooLarge ++ fineSteps 1 4 0 ++ .spawn .flush :: fineSteps 2 3 0)
    (fun h p => (h.all fun e => dbFine e.2) && p.store.db.gaps.table.rows.isEmpty &&
      (p.store.db.get 1).any fun (r : Candidate) => decide (r.state = CaptureState.gapRecorded))
    (by decide)
  simp only [Bool.and_eq_true, List.all_eq_true, List.isEmpty_iff, Option.any_eq_true,
    decide_eq_true_eq] at hchk
  obtain ⟨⟨hall, hnone⟩, r, hget, hgap⟩ := hchk
  obtain ⟨hrec, hkept⟩ := gaps_durable rfl rfl rfl hreach
  refine ⟨h, p, hreach, hrec (fun e he => dbFine_stored (hall e he)) 1 r hget hgap, hnone, ?_⟩
  intro row hrow
  rcases hkept row hrow with hmem | hcom
  · rw [hnone] at hmem
    cases hmem
  · exact hcom

/-- The `INSERT` of the gap row fails: the candidate ends in a gap that is recorded
nowhere. -/
theorem gap_row_lost :
    ∃ h p r, Pool.Reach (agent servedAgent) (.fresh (.holding (List.replicate 51 1)) .empty) h p ∧
      p.store.db.get 1 = some r ∧ r.state = .gapRecorded ∧ ¬ HasGap servedAgent (trace h) 1 := by
  obtain ⟨h, p, hreach, hchk⟩ := Pool.exists_reach (agent servedAgent)
    (.fresh (.holding (List.replicate 51 1)) .empty)
    (tooLarge ++ .exec 1 { Input.fine 0 0 [] with dbFails := true } :: fineSteps 1 2 0)
    (fun h p => (h.all fun e => insertsNothing e.1 e.2) &&
      (p.store.db.get 1).any fun (r : Candidate) => decide (r.state = CaptureState.gapRecorded))
    (by decide)
  simp only [Bool.and_eq_true, List.all_eq_true, Option.any_eq_true, decide_eq_true_eq] at hchk
  obtain ⟨hall, r, hget, hgap⟩ := hchk
  refine ⟨h, p, r, hreach, hget, hgap, ?_⟩
  rintro ⟨e, he, row, n, i, t, g, ha, hat, hdb, -⟩
  obtain ⟨⟨q, a⟩, he', rfl⟩ := List.mem_map.mp he
  have hno := hall (q, a) he'
  have ha' : a = .exec n i := ha
  have hat' : q.ctl n = .at (.proc t (.gapRow g)) := hat
  subst ha'
  simp only [insertsNothing, hat', hdb] at hno
  cases hno

end Corpus.Agent
