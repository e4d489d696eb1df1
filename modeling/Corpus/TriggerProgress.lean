/-
The delivery loop gets through its queue, whatever else the server does.

* `Drains` — a statement whose clocks are past `T` lets no row wait at `T` that did not;
* `keeps_sweep` — a sweep that returns settles twenty of the rows that waited, or all;
* `queue_drains` — so after `k` sweeps of a delivery loop `20 k` of the waiting rows are settled:
  closed, or put off until after `T`.
-/
import Corpus.Rely
import Corpus.TriggerOutbox
import Mathlib.Data.Finset.Card

namespace Corpus.Triggers

/-! ### The loop -/

/-- An error that the delivery loop reports; a panic ends it. -/
def Fault.reported : Fault → Bool
  | error _ => true
  | panic _ => false

/-- The first `rounds` rounds of the server's delivery loop; the number of sweeps that returned. -/
def deliveryLoop (cfg : TriggerConfig) : ℕ → TriggerProg ℕ
  | 0 => .ret 0
  | rounds + 1 => do
    let r ← (deliverPending cfg).catching Fault.reported
    let k ← deliveryLoop cfg rounds
    return k + (if r.isSome then 1 else 0)

inductive ServerCall where
  | call (c : TriggerCall)
  | deliveryLoop (rounds : ℕ)

def ServerCall.body (cfg : TriggerConfig) : ServerCall → TriggerProg ℕ
  | call c => c.body cfg
  | deliveryLoop rounds => Triggers.deliveryLoop cfg rounds

/-! ### What waits -/

/-- The open rows whose next attempt is not after `T`. -/
def TriggerDb.waiting (s : TriggerDb) (T : Time) : Finset Uuid :=
  ((s.outbox.rows.filter fun o => o.deliveredAt.isNone && o.nextAttemptAt ≤ T).map
    OutboxEntry.id).toFinset

theorem mem_waiting {s : TriggerDb} {T : Time} {x : Uuid} : x ∈ s.waiting T ↔
    ∃ o, s.outbox.get x = some o ∧ o.deliveredAt = none ∧ o.nextAttemptAt ≤ T := by
  simp only [TriggerDb.waiting, List.mem_toFinset, List.mem_map, List.mem_filter, Bool.and_eq_true,
    Option.isNone_iff_eq_none, decide_eq_true_eq]
  constructor
  · rintro ⟨o, ⟨ho, hwaits⟩, rfl⟩
    exact ⟨o, Table.mem_rows_iff.mp ho, hwaits⟩
  · rintro ⟨o, ho, hwaits⟩
    obtain ⟨ho, hid⟩ := Table.mem_of_get ho
    exact ⟨o, ⟨ho, hwaits⟩, hid⟩

/-- Rows name triggers that are there, and have been attempted so often. -/
def TriggerDb.Good (s : TriggerDb) : Prop :=
  ∀ o ∈ s.outbox.rows, s.rules.get o.triggerId ≠ none ∧ 0 ≤ o.attempts

theorem DbSound.good {cfg : TriggerConfig} {F : Uuid → String → Json → Prop} {s : TriggerDb}
    (hdb : DbSound cfg F s) : s.Good := by
  intro o ho
  obtain ⟨⟨r, hr⟩, hnonneg, -⟩ := hdb.outbox o ho
  refine ⟨fun hnone => ?_, hnonneg⟩
  rw [hr.rule] at hnone
  cases hnone

/-- What a statement may do whose clocks are past `T`. -/
structure Drains (T : Time) (s s' : TriggerDb) : Prop where
  grows : Grows s s'
  good : s.Good → s'.Good
  waiting : s'.waiting T ⊆ s.waiting T

variable {T : Time} {s s' s'' : TriggerDb}

theorem OutboxEntry.Later.trans {o o' o'' : OutboxEntry} (h : o.Later o') (h' : o'.Later o'') :
    o.Later o'' :=
  ⟨h'.id.trans h.id, h'.tenant.trans h.tenant, h'.triggerId.trans h.triggerId,
    h'.event.trans h.event, h.attempts.trans h'.attempts, fun hne => h'.delivered (h.delivered hne)⟩

theorem Grows.trans (h : Grows s s') (h' : Grows s' s'') : Grows s s'' := by
  refine ⟨fun id r hr => h'.rules _ _ (h.rules _ _ hr), fun id o ho => ?_⟩
  obtain ⟨o', ho', hlater⟩ := h.outbox _ _ ho
  obtain ⟨o'', ho'', hlater'⟩ := h'.outbox _ _ ho'
  exact ⟨o'', ho'', hlater.trans hlater'⟩

theorem Drains.refl (T : Time) (s : TriggerDb) : Drains T s s :=
  ⟨.refl s, id, Finset.Subset.refl _⟩

theorem Drains.trans (h : Drains T s s') (h' : Drains T s' s'') : Drains T s s'' :=
  ⟨h.grows.trans h'.grows, fun hs => h'.good (h.good hs), h'.waiting.trans h.waiting⟩

/-- A new trigger. -/
theorem drains_rule (r : TriggerRule) : Drains T s { s with rules := s.rules.insertNew r } := by
  have hrules : ∀ id x, s.rules.get id = some x → (s.rules.insertNew r).get id = some x := by
    intro id x hx
    rw [Table.get_insertNew, hx]
    rfl
  refine ⟨⟨hrules, fun _ o h => ⟨o, h, .refl o⟩⟩, fun hgood o ho => ?_, Finset.Subset.refl _⟩
  obtain ⟨hrule, hnonneg⟩ := hgood o ho
  obtain ⟨x, hx⟩ := Option.ne_none_iff_exists'.mp hrule
  refine ⟨fun hnone => ?_, hnonneg⟩
  rw [hrules _ _ hx] at hnone
  cases hnone

/-- A row that is queued after `T`. -/
theorem drains_queued {cfg : TriggerConfig} {t trigger : Uuid} {event : Json} {i : TriggerInput}
    (hrule : s.rules.get trigger ≠ none) (hlate : T < i.utcNow) :
    Drains T s { s with outbox := s.outbox.insertNew (queued cfg t trigger event i) } := by
  refine ⟨⟨fun _ _ h => h, fun id o ho => ⟨o, ?_, .refl o⟩⟩, fun hgood o ho => ?_, fun x hx => ?_⟩
  · rw [Table.get_insertNew, ho]
    rfl
  · obtain ho | rfl := Table.mem_insertNew ho
    · exact hgood o ho
    · exact ⟨hrule, le_rfl⟩
  · obtain ⟨o, ho, hopen, hle⟩ := mem_waiting.mp hx
    refine mem_waiting.mpr ⟨o, ?_, hopen, hle⟩
    rw [Table.get_insertNew] at ho
    cases hget : s.outbox.get x with
    | some o' =>
      rw [hget] at ho
      exact ho
    | none =>
      rw [hget, Option.none_or, Option.ite_none_right_eq_some] at ho
      obtain ⟨-, rfl⟩ : _ ∧ queued cfg t trigger event i = o := by simpa using ho
      exact absurd hlate (not_lt.mpr hle)

/-- A note that closes a row or puts it off. -/
theorem drains_note {id : Uuid} {f : OutboxEntry → OutboxEntry} {hf : ∀ o, (f o).id = o.id}
    (hlater : ∀ o : OutboxEntry, o.Later (f o))
    (hset : ∀ o : OutboxEntry, (f o).deliveredAt = none → T < (f o).nextAttemptAt) :
    Drains T s (s.note id f hf) ∧ id ∉ (s.note id f hf).waiting T := by
  have hrow : ∀ x o, (s.note id f hf).outbox.get x = some o →
      ∃ o₀, s.outbox.get x = some o₀ ∧ o = if x = id then f o₀ else o₀ := by
    intro x o ho
    rw [TriggerDb.note, Table.get_updateWhere] at ho
    obtain ⟨o₀, ho₀, rfl⟩ := Option.map_eq_some_iff.mp ho
    have hid := (Table.mem_of_get ho₀).2
    exact ⟨o₀, ho₀, by simp [hid]⟩
  refine ⟨⟨grows_note s id hf hlater, fun hgood o ho => ?_, fun x hx => ?_⟩, fun hx => ?_⟩
  · obtain ⟨o₀, ho₀, ⟨-, rfl⟩ | ⟨-, rfl⟩⟩ := mem_note ho
    · obtain ⟨hrule, hnonneg⟩ := hgood o₀ ho₀
      rw [(hlater o₀).triggerId]
      exact ⟨hrule, hnonneg.trans (hlater o₀).attempts⟩
    · exact hgood _ ho₀
  · obtain ⟨o, ho, hopen, hle⟩ := mem_waiting.mp hx
    obtain ⟨o₀, ho₀, rfl⟩ := hrow x o ho
    by_cases hid : x = id
    · rw [if_pos hid] at hopen hle
      exact absurd (hset o₀ hopen) (not_lt.mpr hle)
    · rw [if_neg hid] at hopen hle
      exact mem_waiting.mpr ⟨o₀, ho₀, hopen, hle⟩
  · obtain ⟨o, ho, hopen, hle⟩ := mem_waiting.mp hx
    obtain ⟨o₀, ho₀, rfl⟩ := hrow id o ho
    rw [if_pos rfl] at hopen hle
    exact absurd (hset o₀ hopen) (not_lt.mpr hle)

/-! ### What a sweep reads -/

/-- The rows of the query, before the limit. -/
def TriggerDb.dueRows (s : TriggerDb) (i : TriggerInput) : List (OutboxEntry × TriggerRule) :=
  i.ties.sort ((s.outbox.rows.filter fun o => o.deliveredAt.isNone && o.nextAttemptAt ≤ i.now)
    |>.filterMap fun o => (s.rules.get o.triggerId).map fun t => (o, t))

theorem due_eq (s : TriggerDb) (i : TriggerInput) :
    s.due i = ((s.dueRows i).take 20).map Due.of := rfl

theorem mem_dueRows {i : TriggerInput} {y : OutboxEntry × TriggerRule} :
    y ∈ s.dueRows i ↔ y.1 ∈ s.outbox.rows ∧ y.1.deliveredAt = none ∧ y.1.nextAttemptAt ≤ i.now ∧
      s.rules.get y.1.triggerId = some y.2 := by
  rw [TriggerDb.dueRows, (i.ties.perm _).mem_iff, List.mem_filterMap]
  constructor
  · rintro ⟨o, ho, hy⟩
    obtain ⟨r, hr, rfl⟩ := Option.map_eq_some_iff.mp hy
    obtain ⟨ho, hopen⟩ := List.mem_filter.mp ho
    rw [Bool.and_eq_true, Option.isNone_iff_eq_none, decide_eq_true_eq] at hopen
    exact ⟨ho, hopen.1, hopen.2, hr⟩
  · rintro ⟨ho, hopen, hle, hr⟩
    refine ⟨y.1, List.mem_filter.mpr ⟨ho, ?_⟩, by rw [hr]; rfl⟩
    rw [Bool.and_eq_true, Option.isNone_iff_eq_none, decide_eq_true_eq]
    exact ⟨hopen, hle⟩

/-- A sweep reads everything that waits, or twenty rows that do. -/
theorem due_covers {i : TriggerInput} (hgood : s.Good) (hlate : T < i.now) :
    s.waiting T ⊆ ((s.due i).map Due.id).toFinset ∨
      ((s.due i).map Due.id).toFinset ⊆ s.waiting T ∧
        ((s.due i).map Due.id).toFinset.card = 20 := by
  have hids : (s.due i).map Due.id = ((s.dueRows i).take 20).map fun y => y.1.id := by
    rw [due_eq, List.map_map]
    rfl
  -- A row that waits is among those of the query.
  have hread : ∀ x ∈ s.waiting T, ∃ y ∈ s.dueRows i, y.1.id = x ∧ y.1.nextAttemptAt ≤ T := by
    intro x hx
    obtain ⟨o, ho, hopen, hle⟩ := mem_waiting.mp hx
    obtain ⟨ho, hid⟩ := Table.mem_of_get ho
    obtain ⟨r, hr⟩ := Option.ne_none_iff_exists'.mp (hgood o ho).1
    exact ⟨(o, r), mem_dueRows.mpr ⟨ho, hopen, hle.trans hlate.le, hr⟩, hid, hle⟩
  by_cases hall : 20 ≤ (s.dueRows i).length ∧ ∀ y ∈ (s.dueRows i).take 20, y.1.nextAttemptAt ≤ T
  · obtain ⟨hlen, hall⟩ := hall
    refine .inr ⟨fun x hx => ?_, ?_⟩
    · rw [hids, List.mem_toFinset, List.mem_map] at hx
      obtain ⟨y, hy, rfl⟩ := hx
      obtain ⟨hrow, hopen, -⟩ := mem_dueRows.mp (List.mem_of_mem_take hy)
      exact mem_waiting.mpr ⟨y.1, Table.mem_rows_iff.mp hrow, hopen, hall y hy⟩
    · rw [List.toFinset_card_of_nodup (nodup_due i), hids, List.length_map, List.length_take,
        Nat.min_eq_left hlen]
  · refine .inl fun x hx => ?_
    obtain ⟨y, hy, rfl, hle⟩ := hread x hx
    rw [hids, List.mem_toFinset]
    refine List.mem_map_of_mem (f := fun y : OutboxEntry × TriggerRule => y.1.id) ?_
    -- The rows behind the limit are not earlier than one in front of it that is after `T`.
    rw [← List.take_append_drop 20 (s.dueRows i)] at hy
    rcases List.mem_append.mp hy with hy | hy
    · exact hy
    · exfalso
      have hlen : 20 < (s.dueRows i).length := by
        have := List.length_pos_of_mem hy
        rw [List.length_drop] at this
        omega
      refine hall ⟨hlen.le, fun z hz => ?_⟩
      have hsorted := i.ties.sorted ((s.outbox.rows.filter fun o =>
        o.deliveredAt.isNone && o.nextAttemptAt ≤ i.now).filterMap fun o =>
          (s.rules.get o.triggerId).map fun t => (o, t))
      have hsplit : ((s.dueRows i).take 20 ++ (s.dueRows i).drop 20).Pairwise
          fun a b => a.1.nextAttemptAt ≤ b.1.nextAttemptAt := by
        rw [List.take_append_drop]
        exact hsorted
      exact ((List.pairwise_append.mp hsplit).2.2 z hz y hy).trans hle

/-! ### A sweep -/

/-- The clocks of a statement are past `T`. -/
def Late (T : Time) (i : TriggerInput) : Prop := T < i.utcNow ∧ T < i.now

section Sweep

variable {cfg : TriggerConfig}

/-- An SQL statement among others. -/
theorem keeps_sql {α : Type} {l : TriggerPt}
    {f : TriggerDb → TriggerInput → Except Error (α × TriggerDb)} {Q : α → TriggerDb → Prop}
    (h : ∀ s', Drains T s s' → ∀ i, Late T i → ∀ a s'', f s' i = .ok (a, s'') →
      Drains T s' s'' ∧ Q a s'') :
    (sql l f).Keeps (Drains T) (fun _ i _ => Late T i) Q s := by
  refine Prog.keeps_exec (.refl T) fun s' hs i hlate a s'' hrun => ?_
  cases hfail : i.dbFails with
  | some msg =>
    rw [hfail] at hrun
    cases hrun
  | none =>
    rw [hfail] at hrun
    cases hf : f s' i with
    | error e =>
      rw [hf] at hrun
      cases hrun
    | ok r =>
      rw [hf] at hrun
      obtain rfl := Except.ok.inj hrun
      exact h s' hs i hlate a s'' hf

theorem keeps_queueAll (t : Uuid) (event : Json) (ids : List Uuid) : ∀ s : TriggerDb,
    (queueAll cfg t event ids).Keeps (Drains T) (fun _ i _ => Late T i) (fun _ _ => True) s := by
  induction ids with
  | nil => exact fun _ => trivial
  | cons trigger rest ih =>
    intro s
    refine Prog.keeps_bind (Q := fun _ _ => True) (keeps_sql ?_) fun _ s _ => ih s
    intro s' _ i hlate a s'' hrun
    split at hrun
    · cases hrun
    · next hrule =>
      split at hrun
      · cases hrun
      · obtain ⟨-, rfl⟩ := Prod.mk.inj (Except.ok.inj hrun)
        exact ⟨drains_queued (by simpa using hrule) hlate.1, trivial⟩

theorem keeps_fire (t : Uuid) (condition : String) (event : Json) (s : TriggerDb) :
    (fire cfg t condition event).Keeps (Drains T) (fun _ i _ => Late T i) (fun _ _ => True) s := by
  refine Prog.keeps_bind (Q := fun _ _ => True) (keeps_sql ?_) fun ids s _ => ?_
  · intro s' _ i _ a s'' hrun
    obtain ⟨-, rfl⟩ := Prod.mk.inj (Except.ok.inj hrun)
    exact ⟨.refl T s', trivial⟩
  · exact Prog.keeps_bind (keeps_queueAll t event ids s) fun _ _ _ => trivial

theorem keeps_createTrigger (t : Uuid) (name condition url : String) (secret : Option String)
    (s : TriggerDb) : (createTrigger cfg t name condition url secret).Keeps (Drains T)
      (fun _ i _ => Late T i) (fun _ _ => True) s := by
  unfold createTrigger
  split
  · trivial
  · split
    · trivial
    · refine keeps_sql fun s' _ i _ a s'' hrun => ?_
      split at hrun
      · cases hrun
      · obtain ⟨-, rfl⟩ := Prod.mk.inj (Except.ok.inj hrun)
        exact ⟨drains_rule _, trivial⟩

theorem keeps_testTrigger (t trigger : Uuid) (s : TriggerDb) :
    (testTrigger cfg t trigger).Keeps (Drains T) (fun _ i _ => Late T i) (fun _ _ => True) s := by
  refine Prog.keeps_bind (Q := fun _ _ => True) (keeps_sql ?_) fun row s _ => ?_
  · intro s' _ i _ a s'' hrun
    obtain ⟨-, rfl⟩ := Prod.mk.inj (Except.ok.inj hrun)
    exact ⟨.refl T s', trivial⟩
  · cases row with
    | none => trivial
    | some r => exact keeps_fire t r.condition _ s

/-- The row is there, and has been attempted no less. -/
def Read (d : Due) (s : TriggerDb) : Prop :=
  0 ≤ d.attempts ∧ ∃ o, s.outbox.get d.id = some o ∧ d.attempts ≤ o.attempts

theorem Read.grows {d : Due} (h : Read d s) (hs : Grows s s') : Read d s' := by
  obtain ⟨hnonneg, o, ho, hle⟩ := h
  obtain ⟨o', ho', hlater⟩ := hs.outbox _ _ ho
  exact ⟨hnonneg, o', ho', hle.trans hlater.attempts⟩

/-- A note after which its row does not wait. -/
theorem keeps_note {d : Due} {l : TriggerPt}
    {f : TriggerDb → TriggerInput → Except Error (Unit × TriggerDb)}
    (h : ∀ s', Drains T s s' → ∀ i, Late T i → ∀ a s'', f s' i = .ok (a, s'') →
      Drains T s' s'' ∧ d.id ∉ s''.waiting T) (n : ℕ) :
    (sql l f >>= fun _ => Prog.ret n).Keeps (Drains T) (fun _ i _ => Late T i)
      (fun _ s => d.id ∉ s.waiting T) s := by
  refine Prog.keeps_bind (keeps_sql h) fun _ s hs => ?_
  exact hs

theorem keeps_settle (cfg : TriggerConfig) (d : Due) (rest : List Due) (r : Response) (hd : Read d s) :
    (settle cfg d rest r).Keeps (Drains T) (fun _ i _ => Late T i)
      (fun _ s => d.id ∉ s.waiting T) s := by
  unfold settle
  split
  · refine keeps_note (fun s' _ i _ a s'' hrun => ?_) 1
    obtain ⟨-, rfl⟩ := Prod.mk.inj (Except.ok.inj hrun)
    exact drains_note (fun _ => ⟨rfl, rfl, rfl, rfl, le_rfl, fun _ => nofun⟩) nofun
  · cases hplan : plan cfg.arith d.attempts with
    | error p => trivial
    | ok next =>
      cases next with
      | none =>
        refine keeps_note (fun s' _ i _ a s'' hrun => ?_) 0
        split at hrun
        · obtain ⟨-, rfl⟩ := Prod.mk.inj (Except.ok.inj hrun)
          exact drains_note
            (fun _ => ⟨rfl, rfl, rfl, rfl, Int.le_add_one le_rfl, fun _ => nofun⟩) nofun
        · cases hrun
      | some backoff =>
        refine keeps_note (fun s' hs i hlate a s'' hrun => ?_) 0
        split at hrun
        · next hcount =>
          obtain ⟨-, rfl⟩ := Prod.mk.inj (Except.ok.inj hrun)
          -- The pause is the one that was planned, so it does not end before `T`.
          obtain ⟨hnonneg, o, ho, hle⟩ := hd.grows hs.grows
          obtain ⟨ho, hid⟩ := Table.mem_of_get ho
          have hlt := lt_of_counts hcount ho hid
          have hseven := lt_of_plan_some (by omega) hplan
          rw [plan_of_lt hnonneg hseven] at hplan
          have hbackoff : min (5 * 2 ^ d.attempts.toNat) 300 = backoff := by simpa using hplan
          have hpos : (0 : ℤ) < 2 ^ d.attempts.toNat := pow_pos (by decide) _
          have hpause : 0 ≤ backoff := by omega
          refine drains_note (fun _ => ⟨rfl, rfl, rfl, rfl, Int.le_add_one le_rfl, fun h => h⟩)
            fun o _ => ?_
          have hpause : 0 ≤ backoff * 1000000 := Int.mul_nonneg hpause (by decide)
          exact lt_of_lt_of_le hlate.2 (Int.le_add_of_nonneg_right hpause)
        · cases hrun

/-- The rounds of a sweep: what waits at their end is none of the rows that it came to. -/
theorem keeps_deliver (cfg : TriggerConfig) (W : Finset Uuid) (due : List Due) : ∀ (n : ℕ) (s : TriggerDb),
    (∀ d ∈ due, Read d s) → s.waiting T ⊆ W →
      (deliver cfg due n).Keeps (Drains T) (fun _ i _ => Late T i)
        (fun _ s => s.waiting T ⊆ W \ (due.map Due.id).toFinset) s := by
  induction due generalizing W with
  | nil =>
    intro n s _ hW
    simpa [deliver, Prog.Keeps] using hW
  | cons d rest ih =>
    intro n s hread hW
    have hpost : (post cfg d rest).Keeps (Drains T) (fun _ i _ => Late T i)
        (fun _ s => (∀ x ∈ d :: rest, Read x s) ∧ s.waiting T ⊆ W) s := by
      refine Prog.keeps_exec (.refl T) fun s' hs i _ a s'' hrun => ?_
      obtain ⟨-, rfl⟩ := Prod.mk.inj (Except.ok.inj hrun)
      have hdrains : Drains T s' (s'.posted cfg d i.response) :=
        ⟨⟨fun _ _ h => h, fun _ o h => ⟨o, h, .refl o⟩⟩, id, Finset.Subset.refl _⟩
      exact ⟨hdrains, fun d' hd' => (hread d' hd').grows (hs.trans hdrains).grows,
        (hs.trans hdrains).waiting.trans hW⟩
    refine Prog.keeps_bind hpost fun r s hs => ?_
    obtain ⟨hread, hW⟩ := hs
    -- The row that was settled does not wait again, whoever comes between.
    have hsettle := (keeps_settle (T := T) cfg d rest r
      (hread d List.mem_cons_self)).stays (J := fun s => (∀ x ∈ rest, Read x s) ∧ s.waiting T ⊆ W)
      (fun s s' hs hJ => ⟨fun x hx => (hJ.1 x hx).grows hs.grows, hs.waiting.trans hJ.2⟩)
      ⟨fun x hx => hread x (List.mem_cons_of_mem d hx), hW⟩
    refine Prog.keeps_bind hsettle fun n s hs => ?_
    obtain ⟨hgone, hread, hW⟩ := hs
    have hless : s.waiting T ⊆ W \ {d.id} := by
      intro x hx
      rw [Finset.mem_sdiff, Finset.mem_singleton]
      exact ⟨hW hx, fun heq => hgone (heq ▸ hx)⟩
    refine (ih _ _ s hread hless).mono fun _ s hs => hs.trans ?_
    rw [List.map_cons, List.toFinset_cons]
    intro x hx
    simp only [Finset.mem_sdiff, Finset.mem_singleton, Finset.mem_insert] at hx ⊢
    tauto

/-- **A sweep that returns** settles twenty of the rows that waited, or all of them. -/
theorem keeps_sweep (cfg : TriggerConfig) {n : ℕ} (hgood : s.Good) (hn : (s.waiting T).card ≤ n) :
    (deliverPending cfg).Keeps (Drains T) (fun _ i _ => Late T i)
      (fun _ s => s.Good ∧ (s.waiting T).card ≤ n - 20) s := by
  have hdue : (sql .due fun s i => .ok (s.due i, s)).Keeps (Drains T) (fun _ i _ => Late T i)
      (fun due s => (∀ d ∈ due, Read d s) ∧ s.Good ∧ (s.waiting T).card ≤ n ∧
        (s.waiting T ⊆ (due.map Due.id).toFinset ∨
          (due.map Due.id).toFinset ⊆ s.waiting T ∧ (due.map Due.id).toFinset.card = 20)) s := by
    refine keeps_sql fun s' hs i hlate a s'' hrun => ?_
    obtain ⟨rfl, rfl⟩ := Prod.mk.inj (Except.ok.inj hrun)
    have hgood' := hs.good hgood
    refine ⟨.refl T s', fun d hd => ?_, hgood', (Finset.card_le_card hs.waiting).trans hn,
      due_covers hgood' hlate.2⟩
    obtain ⟨o, ho, r, hr, rfl, -⟩ := mem_due hd
    exact ⟨(hgood' o ho).2, o, Table.mem_rows_iff.mp ho, le_rfl⟩
  refine Prog.keeps_bind hdue fun due s hs => ?_
  obtain ⟨hread, hgood, hn, hcovers⟩ := hs
  have hrounds := (keeps_deliver cfg (s.waiting T) due 0 s hread
    (Finset.Subset.refl _)).stays (J := TriggerDb.Good) (fun s s' hs hJ => hs.good hJ) hgood
  refine hrounds.mono fun _ s' hs' => ⟨hs'.2, ?_⟩
  have hcard := Finset.card_le_card hs'.1
  obtain hall | ⟨hsub, htwenty⟩ := hcovers
  · rw [Finset.sdiff_eq_empty_iff_subset.mpr hall, Finset.card_empty] at hcard
    omega
  · rw [Finset.card_sdiff_of_subset hsub, htwenty] at hcard
    omega

theorem keeps_deliveryLoop (rounds : ℕ) : ∀ {n : ℕ} {s : TriggerDb}, s.Good →
    (s.waiting T).card ≤ n → (deliveryLoop cfg rounds).Keeps (Drains T) (fun _ i _ => Late T i)
      (fun k s => (s.waiting T).card ≤ n - 20 * k) s := by
  induction rounds with
  | zero => exact fun _ hn => hn
  | succ rounds ih =>
    intro n s hgood hn
    have hsweep := (keeps_sweep cfg hgood hn).catching
      (J := fun s => s.Good ∧ (s.waiting T).card ≤ n)
      (fun s s' hs hJ => ⟨hs.good hJ.1, (Finset.card_le_card hs.waiting).trans hJ.2⟩)
      Fault.reported ⟨hgood, hn⟩
    refine Prog.keeps_bind hsweep fun r s hs => ?_
    cases r with
    | none =>
      refine Prog.keeps_bind (ih hs.1 hs.2) fun k s hs => ?_
      exact hs
    | some a =>
      refine Prog.keeps_bind (ih hs.1 hs.2) fun k s hs => ?_
      show (s.waiting T).card ≤ n - 20 * (k + 1)
      omega

/-- What the calls of a server leave of the rows that wait. -/
theorem keeps_body (c : ServerCall) (hgood : s.Good) :
    (c.body cfg).Keeps (Drains T) (fun _ i _ => Late T i) (fun k s' => ∀ rounds,
      c = .deliveryLoop rounds → (s'.waiting T).card ≤ (s.waiting T).card - 20 * k) s := by
  cases c with
  | deliveryLoop rounds =>
    exact (keeps_deliveryLoop rounds hgood le_rfl).mono fun k s' hs' _ _ => hs'
  | call c =>
    have hplain : (c.body cfg).Keeps (Drains T) (fun _ i _ => Late T i) (fun _ _ => True) s := by
      cases c with
      | createTrigger t name condition url secret =>
        exact Prog.keeps_bind (keeps_createTrigger t name condition url secret s)
          fun _ _ _ => trivial
      | fire t condition event => exact keeps_fire t condition event s
      | testTrigger t trigger => exact keeps_testTrigger t trigger s
      | deliverPending => exact (keeps_sweep cfg hgood le_rfl).mono fun _ _ _ => trivial
    exact hplain.mono fun _ _ _ _ => nofun

end Sweep

/-- **No event starves.**  Let no call be in flight, and the clocks be past `T` from then on.  When
a delivery loop has completed `k` sweeps, `20 k` of the rows that waited at `T` have been closed or
put off, and none has come to wait, whatever other calls run and whatever becomes of them. -/
theorem queue_drains {cfg : TriggerConfig} {s₀ : TriggerDb} (hgood : s₀.Good)
    {h : Pool.Hist ServerCall TriggerPt TriggerDb TriggerInput Fault ℕ}
    {p : Pool ServerCall TriggerPt TriggerDb TriggerInput Fault ℕ}
    (hr : Pool.Reach (ServerCall.body cfg) s₀ h p)
    (hlate : ∀ e ∈ h, Pool.StepOk (fun _ _ i _ => Late T i) e.1 e.2) {n rounds k : ℕ}
    (hn : p.procs[n]? = some ⟨.deliveryLoop rounds, some (.ret k)⟩) :
    p.store.waiting T ⊆ s₀.waiting T ∧
      (p.store.waiting T).card ≤ (s₀.waiting T).card - 20 * k := by
  have hbody : ∀ c s, Drains T s₀ s → (ServerCall.body cfg c).Keeps (Drains T)
      (fun _ i _ => Late T i) (fun k s' => ∀ rounds, c = .deliveryLoop rounds →
        (s'.waiting T).card ≤ (s₀.waiting T).card - 20 * k) s := by
    intro c s hs
    refine (keeps_body c (hs.good hgood)).mono fun k s' hs' rounds hc => ?_
    have hless := Finset.card_le_card hs.waiting
    have := hs' rounds hc
    omega
  have hdrains := hr.kept (.refl T) (fun _ _ _ => .trans) hbody hlate
  obtain ⟨s, hs, hk⟩ := hr.returned (.refl T) (fun _ _ _ => .trans) hbody hlate hn
  exact ⟨hdrains.waiting, (Finset.card_le_card hs.waiting).trans (hk rounds rfl)⟩

/-- A trigger and events that wait for it. -/
def crowdedDb : TriggerDb where
  rules := ⟨[⟨1, 1, "hook", "hunt_match", "https://soc", "secret", true, 0⟩], by decide⟩
  outbox := ⟨(List.range 21).map fun k : ℕ =>
    (⟨k, 1, 1, .null, 0, k, none, none, k⟩ : OutboxEntry), by decide⟩
  requests := []

/-- Two sweeps of a loop, whose requests are refused. -/
def twoSweeps : List (Act ServerCall TriggerInput) :=
  .spawn (.deliveryLoop 2) ::
    List.replicate 44 (.exec 0 (inputAt 0 30 (.status 503 "503 Service Unavailable")))

/-- What the first call has returned, if it is a loop of two rounds. -/
def firstLoop (p : Pool ServerCall TriggerPt TriggerDb TriggerInput Fault ℕ) : Option ℕ :=
  match (p.procs[0]? : Option (Proc ServerCall TriggerPt TriggerDb TriggerInput Fault ℕ)) with
  | some ⟨.deliveryLoop 2, some (.ret k)⟩ => some k
  | _ => none

theorem procs_of_firstLoop {p : Pool ServerCall TriggerPt TriggerDb TriggerInput Fault ℕ} {k : ℕ}
    (h : firstLoop p = some k) : p.procs[0]? = some ⟨.deliveryLoop 2, some (.ret k)⟩ := by
  unfold firstLoop at h
  split at h
  · next k' hp =>
    obtain rfl := Option.some.inj h
    exact hp
  · cases h

theorem queue_drains_crowded : ∃ h p,
    Pool.Reach (ServerCall.body nullConfig) crowdedDb h p ∧ (crowdedDb.waiting 20).card = 21 ∧
      p.store.requests.length = 21 ∧ p.store.waiting 20 = ∅ := by
  obtain ⟨h, p, hr, hchk⟩ := Pool.exists_reach (ServerCall.body nullConfig) crowdedDb twoSweeps
    (fun h p => (h.all fun e => e.1.stepOk (fun _ _ i _ => 20 < i.utcNow && 20 < i.now) e.2) &&
      p.store.requests.length = 21 && firstLoop p = some 2) (by decide)
  simp only [Bool.and_eq_true, decide_eq_true_eq] at hchk
  obtain ⟨⟨hlate, hlen⟩, hn⟩ := hchk
  have hlate' : ∀ e ∈ h, Pool.StepOk (fun _ _ i _ => Late 20 i) e.1 e.2 := by
    intro e he
    refine (Pool.StepOk.of_run (List.all_eq_true.mp hlate e he)).mono fun _ _ i _ hi => ?_
    simpa [Late] using hi
  have hcard : (crowdedDb.waiting 20).card = 21 := by decide
  have hgood : crowdedDb.Good := by
    unfold TriggerDb.Good
    decide
  obtain ⟨-, hless⟩ := queue_drains hgood hr hlate' (procs_of_firstLoop hn)
  rw [hcard] at hless
  exact ⟨h, p, hr, hcard, hlen, Finset.card_eq_zero.mp (by omega)⟩

end Corpus.Triggers
