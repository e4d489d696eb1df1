/-
What holds of the outbox of the triggers, whatever calls run.

* `Grows` — the rows stay, with what they were queued with; `Move.grows`;
* `fire_returns` — what the other calls know of a firing is what `Corpus.fire` says of it;
* `Sound` — a call in flight holds rows that are there, and every request is the one its row and
  its trigger ask for; `Move.sound`, `reach_sound`;
* `requests_authentic` — so a request goes where its tenant has sent it, signed with the secret of
  its trigger, and carries what was fired.
-/
import Corpus.Census
import Corpus.Groups
import Corpus.Triggers

namespace Corpus.Triggers

/-! ### Rows stay -/

/-- The row as it may be later. -/
structure OutboxEntry.Later (o o' : OutboxEntry) : Prop where
  id : o'.id = o.id
  tenant : o'.tenant = o.tenant
  triggerId : o'.triggerId = o.triggerId
  event : o'.event = o.event
  attempts : o.attempts ≤ o'.attempts
  delivered : o.deliveredAt ≠ none → o'.deliveredAt ≠ none

theorem OutboxEntry.Later.refl (o : OutboxEntry) : o.Later o :=
  ⟨rfl, rfl, rfl, rfl, le_rfl, fun h => h⟩

structure Grows (s s' : TriggerDb) : Prop where
  rules : ∀ id r, s.rules.get id = some r → s'.rules.get id = some r
  outbox : ∀ id o, s.outbox.get id = some o → ∃ o', s'.outbox.get id = some o' ∧ o.Later o'

theorem Grows.refl (s : TriggerDb) : Grows s s :=
  ⟨fun _ _ h => h, fun _ o h => ⟨o, h, .refl o⟩⟩

/-- An `UPDATE` of one row that leaves it what it was queued with. -/
theorem grows_note (s : TriggerDb) (id : Uuid) {f : OutboxEntry → OutboxEntry}
    (hf : ∀ o, (f o).id = o.id) (hlater : ∀ o : OutboxEntry, o.Later (f o)) :
    Grows s (s.note id f hf) := by
  refine ⟨fun _ _ h => h, fun id' o ho => ⟨_, Table.get_updateWhere_of_some hf ho, ?_⟩⟩
  split
  · exact hlater o
  · exact .refl o

theorem grows_delivered (s : TriggerDb) (id : Uuid) (now : Time) :
    Grows s (s.noteDelivered id now) :=
  grows_note s id _ fun _ => ⟨rfl, rfl, rfl, rfl, le_rfl, fun _ => nofun⟩

theorem grows_givenUp (s : TriggerDb) (id : Uuid) (err : String) (now : Time) :
    Grows s (s.noteGivenUp id err now) :=
  grows_note s id _ fun _ => ⟨rfl, rfl, rfl, rfl, Int.le_add_one le_rfl, fun _ => nofun⟩

theorem grows_retry (s : TriggerDb) (id : Uuid) (err : String) (at_ : Time) :
    Grows s (s.noteRetry id err at_) :=
  grows_note s id _ fun _ => ⟨rfl, rfl, rfl, rfl, Int.le_add_one le_rfl, fun h => h⟩

theorem Move.grows {cfg : TriggerConfig} {l : TriggerPt} {i : TriggerInput} {s s' : TriggerDb}
    {c : Ctl TriggerPt ℕ} (h : Move cfg l i s s' c) : Grows s s' := by
  cases h with
  | created r hid =>
    refine ⟨fun id x hx => ?_, fun id o ho => ⟨o, ho, .refl o⟩⟩
    rw [Table.get_insertNew, hx]
    rfl
  | queued hrule hid =>
    refine ⟨fun id x hx => hx, fun id o ho => ⟨o, ?_, .refl o⟩⟩
    rw [Table.get_insertNew, ho]
    rfl
  | delivered => exact grows_delivered s _ _
  | givenUp => exact grows_givenUp s _ _ _
  | retried => exact grows_retry s _ _ _
  | accepted | lastRefused | refused | panics => exact ⟨fun _ _ h => h, fun _ o h => ⟨o, h, .refl o⟩⟩
  | fails | found | read | due => exact .refl s

/-! ### What `fire` queues, and the store of the other calls -/

/-- What the rest of the server knows of a trigger. -/
def TriggerRule.base (r : TriggerRule) : Trigger := ⟨r.id, r.tenant, r.condition, r.enabled⟩

/-- What the rest of the server knows of a row it has queued. -/
def OutboxEntry.base (o : OutboxEntry) : OutboxRow := ⟨o.tenant, o.triggerId, o.event, o.createdAt⟩

/-- The two stores hold the same triggers and the same outbox, in some order. -/
structure SameRows (s : TriggerDb) (db : Db) : Prop where
  rules : (s.rules.rows.map TriggerRule.base).Perm db.triggers
  outbox : (s.outbox.rows.map OutboxEntry.base).Perm db.outbox

/-- The row is one that `fire` queues for the trigger. -/
def QueuedFor (t : Uuid) (event : Json) (trigger : Uuid) (r : OutboxRow) : Prop :=
  r.tenant = t ∧ r.triggerId = trigger ∧ r.event = event

theorem returns_sql {α β : Type} {l : TriggerPt}
    {f : TriggerDb → TriggerInput → Except Error (α × TriggerDb)} {g : α → TriggerProg β}
    {s s' : TriggerDb} {ls : List TriggerPt} {b : β}
    (h : Prog.Returns (sql l f >>= g) s ls b s') :
    ∃ i a s₁ ls', f s i = .ok (a, s₁) ∧ Prog.Returns (g a) s₁ ls' b s' := by
  rw [sql, Prog.exec_bind] at h
  cases h with
  | head l f' k s i h =>
    cases hdb : i.dbFails with
    | some msg =>
      simp only [hdb] at h
      cases h
    | none =>
      cases hf : f s i with
      | error e =>
        simp only [hdb, hf, Except.mapError] at h
        cases h
      | ok r =>
        simp only [hdb, hf, Except.mapError] at h
        exact ⟨i, r.1, r.2, _, hf, h⟩

theorem queueAll_returns {cfg : TriggerConfig} {t : Uuid} {event : Json} : ∀ {ids : List Uuid}
    {s s' : TriggerDb} {ls : List TriggerPt} {u : Unit},
    Prog.Returns (queueAll cfg t event ids) s ls u s' →
    s'.rules = s.rules ∧ ∃ rows : List OutboxEntry, s'.outbox.rows = s.outbox.rows ++ rows ∧
      List.Forall₂ (QueuedFor t (cfg.jsonb event)) ids (rows.map OutboxEntry.base) := by
  intro ids
  induction ids with
  | nil =>
    intro s s' ls u h
    cases h
    exact ⟨rfl, [], (List.append_nil _).symm, .nil⟩
  | cons trigger rest ih =>
    intro s s' ls u h
    obtain ⟨i, ⟨⟩, s₁, ls', hf, hrest⟩ := returns_sql h
    obtain ⟨hrules, rows, hrows, hall⟩ := ih hrest
    cases hid : s.outbox.get i.id with
    | some o =>
      simp only [hid, Option.isSome_some, if_true] at hf
      split at hf <;> cases hf
    | none =>
      simp only [hid, Option.isSome_none, Bool.false_eq_true, if_false] at hf
      split at hf
      · cases hf
      · obtain rfl := (Prod.mk.inj (Except.ok.inj hf)).2
        refine ⟨hrules, queued cfg t trigger event i :: rows, ?_, .cons ⟨rfl, rfl, rfl⟩ hall⟩
        rw [hrows, Table.rows_insertNew_of_none (r := queued cfg t trigger event i) hid,
          List.append_assoc]
        rfl

theorem storeQueueAll_returns {l : Pt} {t : Uuid} {event : Json} {ids : List Uuid}
    {rows : List OutboxRow} (h : List.Forall₂ (QueuedFor t event) ids rows) : ∀ (s : Db) (n : ℕ),
    ∃ ls, Prog.Returns (Corpus.queueAll l t event ids n) s ls (n + ids.length)
      { s with outbox := s.outbox ++ rows } := by
  induction h with
  | nil =>
    intro s n
    rw [List.append_nil]
    exact ⟨[], .refl _ _⟩
  | @cons trigger r ids rows hrow _ ih =>
    intro s n
    obtain ⟨rfl, rfl, rfl⟩ := hrow
    obtain ⟨ls, hrun⟩ := ih { s with outbox := s.outbox ++ [r] } (n + 1)
    refine ⟨l :: ls, ?_⟩
    rw [List.append_assoc] at hrun
    rw [List.length_cons, Nat.add_comm ids.length, ← Nat.add_assoc]
    let i : Env := { Env.drawing 0 with now := r.createdAt }
    exact .head l _ _ s i hrun

/-- A firing that returns is one of the store: the same number of rows, queued with the same
content. -/
theorem fire_returns {cfg : TriggerConfig} {l : Pt} {t : Uuid} {condition : String} {event : Json}
    {s s' : TriggerDb} {db : Db} {ls : List TriggerPt} {n : ℕ} (hsame : SameRows s db)
    (h : Prog.Returns (fire cfg t condition event) s ls n s') :
    ∃ ls' db', Prog.Returns (Corpus.fire l t condition (cfg.jsonb event)) db ls' n db' ∧
      SameRows s' db' := by
  obtain ⟨i, ids, s₁, ls₁, hread, hrest⟩ := returns_sql h
  obtain ⟨rfl, rfl⟩ := Prod.mk.inj (Except.ok.inj hread)
  have hids : ((db.triggers.filter fun r =>
        r.tenant = t && r.condition = condition && r.enabled).map Trigger.id).Perm
      ((s.firing i t condition).map TriggerRule.id) := by
    have hrows := ((hsame.rules.filter fun r =>
      r.tenant = t && r.condition = condition && r.enabled).map Trigger.id).symm
    rw [List.filter_map, List.map_map] at hrows
    exact hrows.trans ((i.order.perm _).map TriggerRule.id).symm
  obtain ⟨_, s₂, _, _, hqueue, hend⟩ := Prog.exists_of_returns_bind hrest
  cases hend
  obtain ⟨hrules, rows, hrows, hall⟩ := queueAll_returns hqueue
  obtain ⟨rows', hall', hperm⟩ := List.perm_comp_forall₂ hids hall
  obtain ⟨ls', hrun⟩ := storeQueueAll_returns (l := l) hall' db 0
  refine ⟨l :: ls', { db with outbox := db.outbox ++ rows' }, ?_, ?_, ?_⟩
  · rw [← hids.length_eq, ← Nat.zero_add (List.length _)]
    exact .head l _ _ db (Env.drawing 0) hrun
  · rw [hrules]
    exact hsame.rules
  · rw [hrows, List.map_append]
    exact hsame.outbox.append hperm.symm

/-! ### What calls in flight hold -/

/-- The rows that a sweep has to come to, the one it is at first. -/
def TriggerPt.held : TriggerPt → List Due
  | post d rest | delivered d rest | giveUp d _ rest | retry d _ _ rest => d :: rest
  | _ => []

/-- What has been fired for a tenant: one of the events `F`, or the test of a trigger. -/
def Told (F : Uuid → String → Json → Prop) (s : TriggerDb) (t : Uuid) (condition : String)
    (event : Json) : Prop :=
  F t condition event ∨
    ∃ r ∈ s.rules.rows, r.tenant = t ∧ r.condition = condition ∧ event = testEvent r

/-- The row was queued for the trigger, by an event of its tenant and condition. -/
structure Owes (cfg : TriggerConfig) (F : Uuid → String → Json → Prop) (s : TriggerDb)
    (o : OutboxEntry) (r : TriggerRule) : Prop where
  rule : s.rules.get o.triggerId = some r
  tenant : r.tenant = o.tenant
  told : ∃ event, Told F s o.tenant r.condition event ∧ o.event = cfg.jsonb event

/-- A sweep holds the row as it once was. -/
structure Holds (cfg : TriggerConfig) (F : Uuid → String → Json → Prop) (s : TriggerDb) (d : Due)
    (o : OutboxEntry) (r : TriggerRule) : Prop where
  row : s.outbox.get d.id = some o
  owes : Owes cfg F s o r
  url : d.url = r.webhookUrl
  secret : d.secret = r.hmacSecret
  event : d.event = o.event
  nonneg : 0 ≤ d.attempts
  stale : d.attempts ≤ o.attempts

/-- What holds of a statement that is next. -/
structure PtSound (cfg : TriggerConfig) (F : Uuid → String → Json → Prop) (s : TriggerDb)
    (l : TriggerPt) : Prop where
  held : ∀ d ∈ l.held, ∃ o r, Holds cfg F s d o r
  nodup : (l.held.map Due.id).Nodup
  firing : ∀ t condition event, l = .triggers t condition event → Told F s t condition event
  queueing : ∀ t event trigger rest, l = .queue t event trigger rest → ∀ id ∈ trigger :: rest,
    ∃ r, s.rules.get id = some r ∧ r.tenant = t ∧ Told F s t r.condition event
  last : ∀ d err rest, l = .giveUp d err rest → 7 ≤ d.attempts
  again : ∀ d err backoff rest, l = .retry d err backoff rest →
    d.attempts + 1 < 2 ^ 31 → d.attempts < 7

/-- What holds of the tables and the requests. -/
structure DbSound (cfg : TriggerConfig) (F : Uuid → String → Json → Prop) (s : TriggerDb) :
    Prop where
  rules : ∀ r ∈ s.rules.rows, r.condition ∈ conditions ∧
    (startsWith r.webhookUrl "http://" = true ∨ startsWith r.webhookUrl "https://" = true)
  outbox : ∀ o ∈ s.outbox.rows, (∃ r, Owes cfg F s o r) ∧ 0 ≤ o.attempts ∧ o.attempts < 2 ^ 31
  requests : ∀ q ∈ s.requests, ∃ d o r, Holds cfg F s d o r ∧ q = d.request cfg q.response

/-- The tables, the requests and the calls in flight. -/
structure Sound (cfg : TriggerConfig) (F : Uuid → String → Json → Prop) (s : TriggerDb)
    (m : Multiset TriggerPt) : Prop where
  db : DbSound cfg F s
  pts : ∀ l ∈ m, PtSound cfg F s l

section Grows

variable {cfg : TriggerConfig} {F : Uuid → String → Json → Prop} {s s' : TriggerDb}

theorem Grows.told (h : Grows s s') {t : Uuid} {condition : String} {event : Json}
    (ht : Told F s t condition event) : Told F s' t condition event := by
  obtain ht | ⟨r, hr, ht⟩ := ht
  · exact .inl ht
  · exact .inr ⟨r, Table.mem_rows_iff.mpr (h.rules _ _ (Table.mem_rows_iff.mp hr)), ht⟩

theorem Grows.owes (h : Grows s s') {o o' : OutboxEntry} {r : TriggerRule} (ho : o.Later o')
    (hr : Owes cfg F s o r) : Owes cfg F s' o' r := by
  obtain ⟨hrule, htenant, event, htold, hevent⟩ := hr
  refine ⟨?_, htenant.trans ho.tenant.symm, event, ?_, ho.event.trans hevent⟩
  · rw [ho.triggerId]
    exact h.rules _ _ hrule
  · rw [ho.tenant]
    exact h.told htold

theorem Grows.holds (h : Grows s s') {d : Due} {o : OutboxEntry} {r : TriggerRule}
    (hd : Holds cfg F s d o r) : ∃ o', Holds cfg F s' d o' r ∧ o.Later o' := by
  obtain ⟨o', ho', hlater⟩ := h.outbox _ _ hd.row
  refine ⟨o', ⟨ho', h.owes hlater hd.owes, hd.url, hd.secret, ?_, hd.nonneg, ?_⟩, hlater⟩
  · exact hd.event.trans hlater.event.symm
  · exact le_trans hd.stale hlater.attempts

theorem Grows.ptSound (h : Grows s s') {l : TriggerPt} (hl : PtSound cfg F s l) :
    PtSound cfg F s' l := by
  refine ⟨fun d hd => ?_, hl.nodup, fun t condition event heq => h.told (hl.firing _ _ _ heq),
    fun t event trigger rest heq id hid => ?_, hl.last, hl.again⟩
  · obtain ⟨o, r, hold⟩ := hl.held d hd
    obtain ⟨o', hold', -⟩ := h.holds hold
    exact ⟨o', r, hold'⟩
  · obtain ⟨r, hr, ht, htold⟩ := hl.queueing _ _ _ _ heq id hid
    exact ⟨r, h.rules _ _ hr, ht, h.told htold⟩

/-- What was requested stays authentic. -/
theorem Grows.dbSound (h : Grows s s') (hdb : DbSound cfg F s)
    (hrules : ∀ r ∈ s'.rules.rows, r ∈ s.rules.rows ∨ r.condition ∈ conditions ∧
      (startsWith r.webhookUrl "http://" = true ∨ startsWith r.webhookUrl "https://" = true))
    (houtbox : ∀ o ∈ s'.outbox.rows, (∃ o₀ ∈ s.outbox.rows, o₀.Later o ∧ o.attempts < 2 ^ 31) ∨
      (∃ r, Owes cfg F s' o r) ∧ o.attempts = 0)
    (hrequests : ∀ q ∈ s'.requests, q ∈ s.requests ∨
      ∃ d o r, Holds cfg F s' d o r ∧ q = d.request cfg q.response) : DbSound cfg F s' := by
  refine ⟨fun r hr => ?_, fun o ho => ?_, fun q hq => ?_⟩
  · exact (hrules r hr).elim (hdb.rules r) id
  · obtain ⟨o₀, ho₀, hlater, hlt⟩ | ⟨hr, hzero⟩ := houtbox o ho
    · obtain ⟨⟨r, hr⟩, hnonneg, -⟩ := hdb.outbox o₀ ho₀
      exact ⟨⟨r, h.owes hlater hr⟩, le_trans hnonneg hlater.attempts, hlt⟩
    · rw [hzero]
      exact ⟨hr, le_rfl, by decide⟩
  · obtain hq | hq := hrequests q hq
    · obtain ⟨d, o, r, hold, hqd⟩ := hdb.requests q hq
      obtain ⟨o', hold', -⟩ := h.holds hold
      exact ⟨d, o', r, hold', hqd⟩
    · exact hq

end Grows

/-! ### A step -/

section Steps

variable {cfg : TriggerConfig} {F : Uuid → String → Json → Prop} {s : TriggerDb}

/-- An `UPDATE` of one row. -/
theorem mem_note {id : Uuid} {f : OutboxEntry → OutboxEntry} {hf : ∀ o, (f o).id = o.id}
    {o : OutboxEntry} (ho : o ∈ (s.note id f hf).outbox.rows) :
    ∃ o₀ ∈ s.outbox.rows, (o₀.id = id ∧ o = f o₀) ∨ (o₀.id ≠ id ∧ o = o₀) := by
  obtain ⟨o₀, ho₀, rfl⟩ := List.mem_map.mp ho
  refine ⟨o₀, ho₀, ?_⟩
  by_cases hid : o₀.id = id
  · exact .inl ⟨hid, if_pos (by simpa using hid)⟩
  · exact .inr ⟨hid, if_neg (by simpa using hid)⟩

theorem lt_of_counts {id : Uuid} {o : OutboxEntry} (h : s.counts id = true)
    (ho : o ∈ s.outbox.rows) (hid : o.id = id) : o.attempts + 1 < 2 ^ 31 := by
  rw [Table.mem_rows_iff, hid] at ho
  rw [TriggerDb.counts, ho] at h
  simpa using h

/-- An `UPDATE` that keeps the number of attempts in its type. -/
theorem DbSound.note (hdb : DbSound cfg F s) (id : Uuid) {f : OutboxEntry → OutboxEntry}
    {hf : ∀ o, (f o).id = o.id} (hlater : ∀ o : OutboxEntry, o.Later (f o))
    (hlt : ∀ o ∈ s.outbox.rows, o.id = id → (f o).attempts < 2 ^ 31) :
    DbSound cfg F (s.note id f hf) := by
  refine (grows_note s id hf hlater).dbSound hdb (fun r hr => .inl hr) (fun o ho => .inl ?_)
    fun q hq => .inl hq
  obtain ⟨o₀, ho₀, ⟨hid, rfl⟩ | ⟨hid, rfl⟩⟩ := mem_note ho
  · exact ⟨o₀, ho₀, hlater o₀, hlt o₀ ho₀ hid⟩
  · exact ⟨_, ho₀, .refl _, (hdb.outbox _ ho₀).2.2⟩

theorem DbSound.posted (hdb : DbSound cfg F s) {d : Due} (hd : ∃ o r, Holds cfg F s d o r)
    (r : Response) : DbSound cfg F (s.posted cfg d r) := by
  obtain ⟨o, rule, hold⟩ := hd
  have hgrows : Grows s (s.posted cfg d r) := ⟨fun _ _ h => h, fun _ o h => ⟨o, h, .refl o⟩⟩
  refine hgrows.dbSound hdb (fun r hr => .inl hr)
    (fun o ho => .inl ⟨o, ho, .refl o, (hdb.outbox o ho).2.2⟩) fun q hq => ?_
  rcases List.mem_append.mp hq with hq | hq
  · exact .inl hq
  · obtain rfl := List.mem_singleton.mp hq
    obtain ⟨o', hold', -⟩ := hgrows.holds hold
    exact .inr ⟨d, o', rule, hold', rfl⟩

/-- A statement of a sweep that holds no more than the one before it. -/
theorem PtSound.sweep {l l' : TriggerPt} (hl : PtSound cfg F s l)
    (hheld : l'.held = l.held ∨ l'.held = l.held.tail)
    (hfiring : ∀ t condition event, l' ≠ .triggers t condition event)
    (hqueueing : ∀ t event trigger rest, l' ≠ .queue t event trigger rest)
    (hlast : ∀ d err rest, l' = .giveUp d err rest → 7 ≤ d.attempts)
    (hagain : ∀ d err backoff rest, l' = .retry d err backoff rest →
      d.attempts + 1 < 2 ^ 31 → d.attempts < 7) : PtSound cfg F s l' := by
  have hsub : l'.held.Sublist l.held := by
    rcases hheld with h | h
    · rw [h]
    · rw [h]
      exact List.tail_sublist _
  exact ⟨fun d hd => hl.held d (hsub.subset hd), hl.nodup.sublist (hsub.map _),
    fun t condition event heq => absurd heq (hfiring _ _ _),
    fun t event trigger rest heq => absurd heq (hqueueing _ _ _ _), hlast, hagain⟩

/-- A sweep that goes on with its next row. -/
theorem PtSound.next {l : TriggerPt} (hl : PtSound cfg F s l) {c : Ctl TriggerPt ℕ}
    (hc : Posting l.held.tail c) : ∀ l' ∈ c.next, PtSound cfg F s l' := by
  intro l' hl'
  cases hrest : l.held.tail with
  | nil =>
    rw [hrest] at hc
    obtain ⟨n, rfl⟩ := hc
    exact absurd hl' (Multiset.notMem_zero _)
  | cons d rest =>
    rw [hrest] at hc
    obtain rfl : c = .at (.post d rest) := hc
    obtain rfl := Multiset.mem_singleton.mp hl'
    exact hl.sweep (.inr hrest.symm) nofun nofun nofun nofun

/-- The rows of the query are due, and each comes once. -/
theorem mem_due {i : TriggerInput} {d : Due} (hd : d ∈ s.due i) :
    ∃ o ∈ s.outbox.rows, ∃ r, s.rules.get o.triggerId = some r ∧ d = Due.of (o, r) ∧
      o.deliveredAt = none ∧ o.nextAttemptAt ≤ i.now := by
  obtain ⟨⟨o, r⟩, hx, rfl⟩ := List.mem_map.mp hd
  have hx := (i.ties.perm _).mem_iff.mp (List.mem_of_mem_take hx)
  obtain ⟨o', ho', hjoin⟩ := List.mem_filterMap.mp hx
  obtain ⟨r', hr', heq⟩ := Option.map_eq_some_iff.mp hjoin
  obtain ⟨rfl, rfl⟩ := Prod.mk.inj heq
  obtain ⟨ho', hopen⟩ := List.mem_filter.mp ho'
  rw [Bool.and_eq_true, Option.isNone_iff_eq_none, decide_eq_true_eq] at hopen
  exact ⟨o', ho', r', hr', rfl, hopen⟩

/-- A join on the key of the other table has a row at most once. -/
theorem nodup_joined {κ ρ τ : Type} {key : ρ → κ} {rows : List ρ} (hrows : (rows.map key).Nodup)
    (join : ρ → Option τ) :
    ((rows.filterMap fun o => (join o).map fun t => (o, t)).map fun x => key x.1).Nodup := by
  refine hrows.sublist ?_
  induction rows with
  | nil => exact .slnil
  | cons o rows ih =>
    have ih := ih (List.nodup_cons.mp hrows).2
    cases hjoin : join o with
    | none =>
      rw [List.filterMap_cons_none (by rw [hjoin]; rfl)]
      exact ih.cons _
    | some t =>
      rw [List.filterMap_cons_some (by rw [hjoin]; rfl)]
      exact ih.cons_cons _

theorem nodup_due (i : TriggerInput) : ((s.due i).map Due.id).Nodup := by
  have hopen := s.outbox.nodup.sublist ((List.filter_sublist
    (p := fun o => o.deliveredAt.isNone && o.nextAttemptAt ≤ i.now)).map OutboxEntry.id)
  have hjoined := nodup_joined hopen fun o => s.rules.get o.triggerId
  have hsorted := ((i.ties.perm _).map fun x => x.1.id).nodup_iff.mpr hjoined
  have hids : (s.due i).map Due.id = ((i.ties.sort
      ((s.outbox.rows.filter fun o => o.deliveredAt.isNone && o.nextAttemptAt ≤ i.now).filterMap
        fun o => (s.rules.get o.triggerId).map fun t => (o, t))).take 20).map fun x => x.1.id := by
    rw [TriggerDb.due, List.map_map]
    rfl
  rw [hids]
  exact hsorted.sublist ((List.take_sublist 20 _).map _)

/-- A call that queues. -/
theorem queueing_next {t : Uuid} {event : Json} {ids : List Uuid} {c : Ctl TriggerPt ℕ}
    (hc : Queueing t event ids c)
    (hids : ∀ id ∈ ids, ∃ r, s.rules.get id = some r ∧ r.tenant = t ∧ Told F s t r.condition event) :
    ∀ l ∈ c.next, PtSound cfg F s l := by
  intro l hl
  cases ids with
  | nil =>
    obtain ⟨n, rfl⟩ := hc
    exact absurd hl (Multiset.notMem_zero _)
  | cons trigger rest =>
    obtain rfl : c = .at (.queue t event trigger rest) := hc
    obtain rfl := Multiset.mem_singleton.mp hl
    refine ⟨nofun, List.nodup_nil, nofun, fun t' event' trigger' rest' heq => ?_, nofun, nofun⟩
    cases heq
    exact hids

/-- A sweep that has read its rows. -/
theorem due_next (hdb : DbSound cfg F s) {i : TriggerInput} {c : Ctl TriggerPt ℕ}
    (hc : Posting (s.due i) c) : ∀ l ∈ c.next, PtSound cfg F s l := by
  intro l hl
  cases hdue : s.due i with
  | nil =>
    rw [hdue] at hc
    obtain ⟨n, rfl⟩ := hc
    exact absurd hl (Multiset.notMem_zero _)
  | cons d rest =>
    rw [hdue] at hc
    obtain rfl : c = .at (.post d rest) := hc
    obtain rfl := Multiset.mem_singleton.mp hl
    refine ⟨fun d' hd' => ?_, ?_, nofun, nofun, nofun, nofun⟩
    · have hmem : d' ∈ s.due i := by
        rw [hdue]
        exact hd'
      obtain ⟨o, ho, r, hr, rfl, -⟩ := mem_due hmem
      obtain ⟨⟨r', hr'⟩, hnonneg, -⟩ := hdb.outbox o ho
      obtain rfl : r = r' := Option.some.inj (hr.symm.trans hr'.rule)
      exact ⟨o, r, Table.mem_rows_iff.mp ho, hr', rfl, rfl, rfl, hnonneg, le_rfl⟩
    · have := nodup_due (s := s) i
      rw [hdue] at this
      exact this

theorem Move.dbSound {l : TriggerPt} {i : TriggerInput} {s' : TriggerDb} {c : Ctl TriggerPt ℕ}
    (h : Move cfg l i s s' c) (hdb : DbSound cfg F s) (hl : PtSound cfg F s l) :
    DbSound cfg F s' := by
  have hgrows := h.grows
  cases h with
  | fails | found | read | due => exact hdb
  | created r hid hcond hurl =>
    refine hgrows.dbSound hdb (fun x hx => ?_)
      (fun o ho => .inl ⟨o, ho, .refl o, (hdb.outbox o ho).2.2⟩) fun q hq => .inl hq
    obtain hx | rfl := Table.mem_insertNew hx
    · exact .inl hx
    · exact .inr ⟨hcond, hurl⟩
  | @queued t trigger event rest _ _ _ hrule hid hc =>
    obtain ⟨r, hr, ht, htold⟩ := hl.queueing _ _ _ _ rfl trigger List.mem_cons_self
    refine hgrows.dbSound hdb (fun x hx => .inl hx) (fun o ho => ?_) fun q hq => .inl hq
    obtain ho | rfl := Table.mem_insertNew ho
    · exact .inl ⟨o, ho, .refl o, (hdb.outbox o ho).2.2⟩
    · exact .inr ⟨⟨r, hr, ht, event, hgrows.told htold, rfl⟩, rfl⟩
  | accepted | lastRefused | refused | panics =>
    exact hdb.posted (hl.held _ List.mem_cons_self) _
  | delivered =>
    exact hdb.note _ (fun _ => ⟨rfl, rfl, rfl, rfl, le_rfl, fun _ => nofun⟩)
      fun o ho _ => (hdb.outbox o ho).2.2
  | givenUp hcount =>
    exact hdb.note _ (fun _ => ⟨rfl, rfl, rfl, rfl, Int.le_add_one le_rfl, fun _ => nofun⟩)
      fun o ho hid => lt_of_counts hcount ho hid
  | retried hcount =>
    exact hdb.note _ (fun _ => ⟨rfl, rfl, rfl, rfl, Int.le_add_one le_rfl, fun h => h⟩)
      fun o ho hid => lt_of_counts hcount ho hid

theorem Move.ptSound {l : TriggerPt} {i : TriggerInput} {s' : TriggerDb} {c : Ctl TriggerPt ℕ}
    (h : Move cfg l i s s' c) (hdb : DbSound cfg F s) (hl : PtSound cfg F s l) :
    ∀ l' ∈ c.next, PtSound cfg F s' l' := by
  have hl' := h.grows.ptSound hl
  cases h with
  | fails | panics | created => exact fun l' h => absurd h (Multiset.notMem_zero _)
  | @found t trigger _ _ r hr ht =>
    intro l' h
    obtain rfl := Multiset.mem_singleton.mp h
    refine ⟨nofun, List.nodup_nil, fun t' condition event heq => ?_, nofun, nofun, nofun⟩
    cases heq
    exact .inr ⟨r, (Table.mem_of_get hr).1, ht, rfl, rfl⟩
  | @read t condition event _ _ _ hc =>
    have htold := hl.firing t condition event rfl
    refine queueing_next hc fun id hid => ?_
    obtain ⟨r, hr, rfl⟩ := List.mem_map.mp hid
    obtain ⟨hr, hfires⟩ := List.mem_filter.mp ((i.order.perm _).mem_iff.mp hr)
    simp only [Bool.and_eq_true, decide_eq_true_eq] at hfires
    obtain ⟨⟨ht, hcond⟩, -⟩ := hfires
    exact ⟨r, Table.mem_rows_iff.mp hr, ht, hcond ▸ htold⟩
  | @queued t trigger event rest _ _ _ hrule hid hc =>
    exact queueing_next hc fun id hid' =>
      hl'.queueing _ _ _ _ rfl id (List.mem_cons_of_mem trigger hid')
  | due hc => exact due_next hdb hc
  | accepted hr =>
    intro l' h
    obtain rfl := Multiset.mem_singleton.mp h
    exact hl'.sweep (.inl rfl) nofun nofun nofun nofun
  | @lastRefused d rest _ _ hr hplan =>
    intro l' h
    obtain rfl := Multiset.mem_singleton.mp h
    obtain ⟨o, r, hold⟩ := hl.held d List.mem_cons_self
    refine hl'.sweep (.inl rfl) nofun nofun (fun d' err rest' heq => ?_) nofun
    cases heq
    exact le_of_plan_none hold.nonneg hplan
  | @refused d rest _ _ backoff hr hplan =>
    intro l' h
    obtain rfl := Multiset.mem_singleton.mp h
    refine hl'.sweep (.inl rfl) nofun nofun nofun fun d' err backoff' rest' heq hlt => ?_
    cases heq
    exact lt_of_plan_some hlt hplan
  | delivered hc => exact hl'.next hc
  | givenUp hcount hc => exact hl'.next hc
  | retried hcount hc => exact hl'.next hc

theorem Move.sound {l : TriggerPt} {i : TriggerInput} {s' : TriggerDb} {c : Ctl TriggerPt ℕ}
    {m : Multiset TriggerPt} (h : Move cfg l i s s' c) (hs : Sound cfg F s (l ::ₘ m)) :
    Sound cfg F s' (c.next + m) := by
  have hl := hs.pts l (Multiset.mem_cons_self l m)
  refine ⟨h.dbSound hs.db hl, fun l' hl' => ?_⟩
  rcases Multiset.mem_add.mp hl' with hl' | hl'
  · exact h.ptSound hs.db hl l' hl'
  · exact h.grows.ptSound (hs.pts l' (Multiset.mem_cons_of_mem hl'))

theorem Sound.of_cons {l : TriggerPt} {m : Multiset TriggerPt} (hs : Sound cfg F s (l ::ₘ m)) :
    Sound cfg F s m :=
  ⟨hs.db, fun l' hl' => hs.pts l' (Multiset.mem_cons_of_mem hl')⟩

/-- A call that starts, and fires what may be fired. -/
theorem Sound.spawn {m : Multiset TriggerPt} (hs : Sound cfg F s m) (call : TriggerCall)
    (hF : ∀ t condition event, call = .fire t condition event → F t condition event) :
    Sound cfg F s ((call.body cfg).ctl.next + m) := by
  refine ⟨hs.db, fun l hl => ?_⟩
  rcases Multiset.mem_add.mp hl with hl | hl
  · have hplain : ∀ l', l'.held = [] → (∀ t condition event, l' = .triggers t condition event →
        Told F s t condition event) → (∀ t event trigger rest, l' ≠ .queue t event trigger rest) →
        (∀ d err rest, l' ≠ .giveUp d err rest) →
        (∀ d err backoff rest, l' ≠ .retry d err backoff rest) → PtSound cfg F s l' := by
      intro l' hheld hfiring hqueue hgive hretry
      refine ⟨fun d hd => ?_, ?_, hfiring, fun t event trigger rest heq => absurd heq
        (hqueue t event trigger rest), fun d err rest heq => absurd heq (hgive d err rest),
        fun d err backoff rest heq => absurd heq (hretry d err backoff rest)⟩
      · rw [hheld] at hd
        exact absurd hd List.not_mem_nil
      · rw [hheld]
        exact List.nodup_nil
    cases call with
    | createTrigger t name condition url secret =>
      obtain hctl | hctl := ctl_createTrigger cfg t name condition url secret
      · have hl : l ∈ (Ctl.failed : Ctl TriggerPt ℕ).next := hctl ▸ hl
        exact absurd hl (Multiset.notMem_zero _)
      · have hl : l ∈ (Ctl.at .createTrigger : Ctl TriggerPt ℕ).next := hctl ▸ hl
        obtain rfl := Multiset.mem_singleton.mp hl
        exact hplain _ rfl nofun nofun nofun nofun
    | fire t condition event =>
      obtain rfl := Multiset.mem_singleton.mp hl
      refine hplain _ rfl (fun t' condition' event' heq => ?_) nofun nofun nofun
      cases heq
      exact .inl (hF _ _ _ rfl)
    | testTrigger t trigger =>
      obtain rfl := Multiset.mem_singleton.mp hl
      exact hplain _ rfl nofun nofun nofun nofun
    | deliverPending =>
      obtain rfl := Multiset.mem_singleton.mp hl
      exact hplain _ rfl nofun nofun nofun nofun
  · exact hs.pts l hl

end Steps

/-! ### Every history -/

/-- What the calls of a history fire. -/
def Fired (h : Pool.Hist TriggerCall TriggerPt TriggerDb TriggerInput Fault ℕ) (t : Uuid)
    (condition : String) (event : Json) : Prop :=
  ∃ e ∈ h, e.2 = .spawn (.fire t condition event)

variable {cfg : TriggerConfig} {h : Pool.Hist TriggerCall TriggerPt TriggerDb TriggerInput Fault ℕ}
  {p : Pool TriggerCall TriggerPt TriggerDb TriggerInput Fault ℕ}

theorem sound_empty (F : Uuid → String → Json → Prop) : Sound cfg F .empty 0 :=
  ⟨⟨nofun, nofun, nofun⟩, fun _ hl => absurd hl (Multiset.notMem_zero _)⟩

theorem reach_sound (hr : Pool.Reach (TriggerCall.body cfg) .empty h p) :
    Sound cfg (Fired h) p.store p.census := by
  refine hr.counted takes_move
    (fun _ _ a => ∀ t condition event, a = .spawn (.fire t condition event) →
      Fired h t condition event)
    (fun s m _ => Sound cfg (Fired h) s m) (sound_empty _) (fun s m d c hok hs => ?_)
    (fun s s' m d l n i c _ hs hm => hm.sound hs) (fun s m d l n _ hs => hs.of_cons)
    fun e he t condition event heq => ⟨e, he, heq⟩
  exact hs.spawn c fun t condition event heq => hok t condition event (heq ▸ rfl)

/-- **Every request is authorised.**  It goes to the URL of a trigger of the tenant for whom the
event was fired, which has the event's condition and an `http(s)` URL, and is signed with the
secret of that trigger. -/
theorem requests_authentic (hr : Pool.Reach (TriggerCall.body cfg) .empty h p) :
    ∀ q ∈ p.store.requests, ∃ r ∈ p.store.rules.rows, ∃ o ∈ p.store.outbox.rows, ∃ event,
      o.id = q.row ∧ o.triggerId = r.id ∧ o.tenant = r.tenant ∧
      q.url = r.webhookUrl ∧
      (startsWith r.webhookUrl "http://" = true ∨ startsWith r.webhookUrl "https://" = true) ∧
      q.body = cfg.toText (cfg.jsonb event) ∧
      q.signature = "sha256=" ++ hmacSignature cfg.sha256 r.hmacSecret (Fuzzy.asBytes q.body) ∧
      r.condition ∈ conditions ∧
      (Fired h r.tenant r.condition event ∨
        ∃ tested ∈ p.store.rules.rows, tested.tenant = r.tenant ∧ tested.condition = r.condition ∧
          event = testEvent tested) := by
  intro q hq
  have hs := reach_sound hr
  obtain ⟨d, o, r, hold, hqd⟩ := hs.db.requests q hq
  obtain ⟨hrule, htenant, event, htold, hevent⟩ := hold.owes
  obtain ⟨ho, hid⟩ := Table.mem_of_get hold.row
  obtain ⟨hr, hrid⟩ := Table.mem_of_get hrule
  obtain ⟨hcond, hurl⟩ := hs.db.rules r hr
  have hbody : q.body = cfg.toText (cfg.jsonb event) := by
    rw [hqd, ← hevent, ← hold.event]
    rfl
  refine ⟨r, hr, o, ho, event, ?_, hrid.symm, htenant.symm, ?_, hurl, hbody, ?_, hcond, ?_⟩
  · rw [hqd]
    exact hid
  · rw [hqd]
    exact hold.url
  · rw [hqd, ← hold.secret]
    rfl
  · rw [← htenant] at htold
    exact htold

/-- A server whose events are all `null`. -/
def nullConfig : TriggerConfig := ⟨fun b => b.take 32, id, fun _ => "null", id, .wrapping⟩

/-- Statements at the time `now` that draw the identifier `id`, and whose requests get `r`. -/
def inputAt (id : Uuid) (now : Time) (r : Response) : TriggerInput :=
  ⟨id, 0, now, now, none, r, .stable _, .stable _⟩

/-- A trigger, an event and a sweep. -/
def oneEvent (r : Response) : List (Act TriggerCall TriggerInput) :=
  let i := inputAt 10 0 r
  [.spawn (.createTrigger 1 "hook" "hunt_match" "https://soc" (some "secret")), .exec 0 i,
    .spawn (.fire 1 "hunt_match" .null), .exec 1 i, .exec 1 i,
    .spawn .deliverPending, .exec 2 i, .exec 2 i, .exec 2 i]

theorem requests_authentic_oneEvent : ∃ h p,
    Pool.Reach (TriggerCall.body nullConfig) .empty h p ∧ p.store.requests.length = 1 ∧
      ∀ q ∈ p.store.requests, ∃ r ∈ p.store.rules.rows, q.url = r.webhookUrl := by
  obtain ⟨h, p, hr, hchk⟩ := Pool.exists_reach (TriggerCall.body nullConfig) .empty
    (oneEvent (.status 200 "200 OK")) (fun _ p => p.store.requests.length = 1) (by decide)
  refine ⟨h, p, hr, of_decide_eq_true hchk, fun q hq => ?_⟩
  obtain ⟨r, hr, -, -, -, -, -, -, hurl, -⟩ := requests_authentic hr q hq
  exact ⟨r, hr, hurl⟩

end Corpus.Triggers
