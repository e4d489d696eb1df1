/-
Priorities of captures (`state.rs`).

A lower number is more urgent.  `enqueue` leaves the active candidate of a path as it is, so an
event that meets one is merged into it.

* `QueueCall`, `called` — the operations of the queue, each answered or not;
* `Tracked` — the database, and beside it what events each candidate stands for;
* `PriorityKept` — what priorities are for, over a sequence of calls;
* `priority_kept_iff` — that is so just if no event meets a candidate that is less urgent;
* `exec_event_lost` — an executable that the baseline has found before.
-/
import Corpus.Agent.StateDb
import Mathlib.Data.List.Induction

namespace Corpus.Agent

/-! ### Calls -/

inductive QueueCall where
  | enqueue (now : Time) (path : String) (priority : ℤ) (reason : String) (debounceMs : ℕ)
  | leaseNextDue (now : Time) (leaseSecs : ℤ)
  | transition (id : ℕ) (new : CaptureState)
  | setRetry (id : ℕ) (at_ : Time)
  | defer (id : ℕ) (at_ : Time)
  | renewLease (now : Time) (id : ℕ) (leaseSecs : ℤ)

/-- A call, and whether the database carries it out; if not, it returns an error. -/
structure Called where
  call : QueueCall
  answered : Bool

namespace StateDb

/-- What an operation leaves; an update that the unique index refuses changes nothing. -/
def after (d : StateDb) : QueueCall → StateDb
  | .enqueue now path priority reason debounceMs => (d.enqueue now path priority reason debounceMs).1
  | .leaseNextDue now leaseSecs => ((d.leaseNextDue now leaseSecs).map Prod.snd).getD d
  | .transition id new => (d.transition id new).getD d
  | .setRetry id at_ => (d.setRetry id at_).getD d
  | .defer id at_ => (d.defer id at_).getD d
  | .renewLease now id leaseSecs => (d.renewLease now id leaseSecs).getD d

def called (d : StateDb) (c : Called) : StateDb := if c.answered then d.after c.call else d

end StateDb

/-- The event that a call reports of a path, by its priority. -/
def Called.events (c : Called) (path : String) : List ℤ :=
  match c with
  | ⟨.enqueue _ path' priority _ _, true⟩ => if path' = path then [priority] else []
  | _ => []

/-! ### What priorities are for -/

/-- The row is an active candidate. -/
def StateDb.Has (d : StateDb) (id : ℕ) (r : Candidate) : Prop :=
  d.get id = some r ∧ r.state.active = true

/-- The database, and the priorities of the events that each candidate's path has had since it
became active. -/
structure Tracked where
  db : StateDb
  events : ℕ → List ℤ

namespace Tracked

/-- No candidate has had an event yet. -/
def start (d : StateDb) : Tracked := ⟨d, fun _ => []⟩

/-- The events of a candidate, with those of one more call. -/
def eventsAfter (w : Tracked) (c : Called) (id : ℕ) : List ℤ :=
  match (w.db.called c).get id with
  | none => []
  | some r =>
    if r.state.active then
      (if (w.db.get id).any fun r => r.state.active then w.events id else []) ++ c.events r.path
    else []

def next (w : Tracked) (c : Called) : Tracked := ⟨w.db.called c, w.eventsAfter c⟩

/-- After a sequence of calls. -/
def run (d : StateDb) (calls : List Called) : Tracked := calls.foldl next (start d)

/-- A candidate is at least as urgent as every event of its path since it became active. -/
def Urgent (w : Tracked) : Prop :=
  ∀ id r, w.db.Has id r → ∀ p ∈ w.events id, r.priority ≤ p

/-- A lease that picks a candidate passes over none that is due and has had a more urgent event. -/
def LeasesInOrder (w : Tracked) (now : Time) (leaseSecs : ℤ) : Prop :=
  ∀ picked d, w.db.leaseNextDue now leaseSecs = some (some picked, d) →
    ∀ id r, w.db.Has id r → r.nextRetryAt ≤ now → id ≠ picked.id →
      ∀ p ∈ w.events id, picked.priority ≤ p

end Tracked

/-- Over a sequence of calls no priority is lost: candidates stay as urgent as their events, and
are leased in that order. -/
structure PriorityKept (d : StateDb) (calls : List Called) : Prop where
  urgent : ∀ past rest, calls = past ++ rest → (Tracked.run d past).Urgent
  inOrder : ∀ past now leaseSecs rest,
    calls = past ++ ⟨.leaseNextDue now leaseSecs, true⟩ :: rest →
      (Tracked.run d past).LeasesInOrder now leaseSecs

/-- No event meets an active candidate of its path that is less urgent. -/
def MeetsUrgent (d : StateDb) : Called → Prop
  | ⟨.enqueue _ path priority _ _, true⟩ =>
    ∀ id r, d.Has id r → r.path = path → r.priority ≤ priority
  | _ => True

/-- So it is with every call of a sequence. -/
def EachMeetsUrgent (d : StateDb) (calls : List Called) : Prop :=
  ∀ past c rest, calls = past ++ c :: rest → MeetsUrgent (Tracked.run d past).db c

/-! ### What a call does to a row -/

section Calls

variable {d d' : StateDb} {c : Called} {id : ℕ} {r : Candidate} {w : Tracked}

@[simp] theorem RowWrite.apply_priority (w : RowWrite) (c : Candidate) :
    (w.apply c).priority = c.priority := by
  cases w <;> simp only [apply]
  split <;> rfl

/-- One update of a row, at most. -/
def StateDb.OneWrite (d d' : StateDb) : Prop := d' = d ∨ ∃ id w, d.write id w = some d'

theorem StateDb.oneWrite_getD (d : StateDb) (id : ℕ) (w : RowWrite) :
    d.OneWrite ((d.write id w).getD d) := by
  cases h : d.write id w with
  | none => exact .inl rfl
  | some d' => exact .inr ⟨id, w, h⟩

theorem StateDb.oneWrite_leaseNextDue (d : StateDb) (now : Time) (leaseSecs : ℤ) :
    d.OneWrite (((d.leaseNextDue now leaseSecs).map Prod.snd).getD d) := by
  unfold StateDb.leaseNextDue
  split
  · exact .inl rfl
  · next r hr =>
    have hsnd : ∀ x : Option StateDb, (x.map fun d' =>
        (some ((RowWrite.defer (now + leaseSecs)).apply r), d')).map Prod.snd = x := fun x => by
      cases x <;> rfl
    dsimp only
    rw [hsnd]
    exact d.oneWrite_getD r.id (.defer (now + leaseSecs))

/-- A call reports an event, or it writes one row at most. -/
theorem StateDb.called_cases (d : StateDb) (c : Called) :
    (∃ now path priority reason debounceMs,
      c = ⟨.enqueue now path priority reason debounceMs, true⟩) ∨
    d.OneWrite (d.called c) ∧ ∀ path, c.events path = [] := by
  obtain ⟨call, answered⟩ := c
  cases answered with
  | false =>
    refine .inr ⟨.inl rfl, fun path => ?_⟩
    cases call <;> rfl
  | true =>
    cases call with
    | enqueue now path priority reason debounceMs =>
      exact .inl ⟨now, path, priority, reason, debounceMs, rfl⟩
    | leaseNextDue now leaseSecs => exact .inr ⟨d.oneWrite_leaseNextDue now leaseSecs, fun _ => rfl⟩
    | transition id new => exact .inr ⟨d.oneWrite_getD id (.transition new), fun _ => rfl⟩
    | setRetry id at_ => exact .inr ⟨d.oneWrite_getD id (.retry at_), fun _ => rfl⟩
    | defer id at_ => exact .inr ⟨d.oneWrite_getD id (.defer at_), fun _ => rfl⟩
    | renewLease now id leaseSecs =>
      exact .inr ⟨d.oneWrite_getD id (.renew (now + leaseSecs)), fun _ => rfl⟩

/-- Updates leave priorities alone, and add no row. -/
theorem StateDb.OneWrite.get (h : d.OneWrite d') (hr : d'.get id = some r) :
    ∃ r', d.get id = some r' ∧ r'.priority = r.priority := by
  rcases h with rfl | ⟨k, w, h⟩
  · exact ⟨r, hr, rfl⟩
  · obtain ⟨t, ht, rfl⟩ := StateDb.write_some h
    have hget : t.get id = some r := hr
    rw [Candidates.get_write ht, Option.map_eq_some_iff] at hget
    obtain ⟨r', hr', rfl⟩ := hget
    refine ⟨r', hr', ?_⟩
    split
    · exact (w.apply_priority r').symm
    · rfl

/-- An `enqueue` leaves the rows as they are, and adds one if the path has no active one. -/
theorem StateDb.get_enqueue (d : StateDb) (now : Time) (path : String) (priority : ℤ)
    (reason : String) (debounceMs : ℕ) (id : ℕ) :
    (d.enqueue now path priority reason debounceMs).1.get id = d.get id ∨
      d.get id = none ∧ ∃ r, (d.enqueue now path priority reason debounceMs).1.get id = some r ∧
        r.priority = priority := by
  rcases Candidates.get_insert d.candidates path priority reason (decide (0 < debounceMs))
    (now + (asI64 debounceMs).tdiv 1000) id with h | ⟨-, hnone, -, hnew⟩
  · exact .inl h
  · exact .inr ⟨hnone, _, hnew, rfl⟩

end Calls

/-! ### What a call does to urgency -/

section Urgency

variable {d : StateDb} {w : Tracked} {c : Called} {id : ℕ} {r : Candidate}

/-- The events of an active candidate. -/
theorem Tracked.events_next (h : (w.next c).db.Has id r) {p : ℤ} :
    p ∈ (w.next c).events id ↔
      ((∃ r', w.db.Has id r') ∧ p ∈ w.events id) ∨ p ∈ c.events r.path := by
  obtain ⟨hget, hact⟩ := h
  have hget' : (w.db.called c).get id = some r := hget
  have hany : (w.db.get id).any (fun r => r.state.active) = true ↔ ∃ r', w.db.Has id r' :=
    Option.any_eq_true ..
  show p ∈ w.eventsAfter c id ↔ _
  unfold Tracked.eventsAfter
  rw [hget']
  simp only [hact, if_true, List.mem_append]
  refine or_congr_left ?_
  split
  · next h => exact ⟨fun hp => ⟨hany.mp h, hp⟩, And.right⟩
  · next h => exact ⟨fun hp => absurd hp List.not_mem_nil, fun hp => absurd (hany.mpr hp.1) h⟩

theorem Called.mem_events {now : Time} {path path' reason : String} {priority p : ℤ} {debounceMs : ℕ} :
    p ∈ Called.events ⟨.enqueue now path priority reason debounceMs, true⟩ path' ↔
      path' = path ∧ p = priority := by
  unfold Called.events
  by_cases h : path = path'
  · simp [h]
  · simp [h, Ne.symm h]

/-- **One call**: urgency is kept if the event, if any, meets no candidate that is less urgent. -/
theorem Tracked.Urgent.next (hw : w.Urgent) (hc : MeetsUrgent w.db c) : (w.next c).Urgent := by
  intro id r hr p hp
  have hget : (w.db.called c).get id = some r := hr.1
  rcases w.db.called_cases c with ⟨now, path, priority, reason, debounceMs, rfl⟩ | ⟨hwrite, hnone⟩
  · rcases w.db.get_enqueue now path priority reason debounceMs id with hsame | ⟨hfresh, r', hnew, hpr⟩
    · -- the row was there, with its events
      have hrow : w.db.Has id r := ⟨hsame.symm.trans hget, hr.2⟩
      rcases (Tracked.events_next hr).mp hp with ⟨-, hold⟩ | hevent
      · exact hw id r hrow p hold
      · obtain ⟨hpath, rfl⟩ := Called.mem_events.mp hevent
        exact hc id r hrow hpath
    · -- it is the row of this event
      obtain rfl := Option.some.inj (hnew.symm.trans hget)
      rcases (Tracked.events_next hr).mp hp with ⟨⟨r'', hr''⟩, -⟩ | hevent
      · exact absurd (hfresh.symm.trans hr''.1) (Option.some_ne_none _).symm
      · obtain ⟨-, rfl⟩ := Called.mem_events.mp hevent
        exact hpr.le
  · rcases (Tracked.events_next hr).mp hp with ⟨⟨r', hr'⟩, hold⟩ | hevent
    · obtain ⟨r'', hr'', hpr⟩ := hwrite.get hget
      obtain rfl := Option.some.inj (hr''.symm.trans hr'.1)
      exact hpr ▸ hw id r'' hr' p hold
    · rw [hnone] at hevent
      exact absurd hevent List.not_mem_nil

theorem Tracked.run_append (d : StateDb) (past : List Called) (c : Called) :
    Tracked.run d (past ++ [c]) = (Tracked.run d past).next c := by
  rw [Tracked.run, List.foldl_append]
  rfl

/-- A run whose events meet no candidate that is less urgent. -/
theorem urgent_run {calls : List Called} (h : EachMeetsUrgent d calls) :
    (Tracked.run d calls).Urgent := by
  induction calls using List.reverseRecOn with
  | nil => exact fun id r _ p hp => absurd hp List.not_mem_nil
  | append_singleton calls c ih =>
    rw [Tracked.run_append]
    refine (ih fun past c' rest hsplit => h past c' (rest ++ [c]) ?_).next (h calls c [] rfl)
    rw [hsplit, List.append_assoc, List.cons_append]

/-- Where candidates are urgent, leases go by their events. -/
theorem Tracked.Urgent.leasesInOrder (hw : w.Urgent) (now : Time) (leaseSecs : ℤ) :
    w.LeasesInOrder now leaseSecs := by
  intro picked d' hlease id r hr hdue _ p hp
  obtain ⟨c, hc, hpick⟩ : ∃ c, w.db.candidates.nextDue now = some c ∧
      picked.priority = c.priority := by
    unfold StateDb.leaseNextDue at hlease
    split at hlease
    · cases hlease
    · next c hc =>
      obtain ⟨d'', -, heq⟩ := Option.map_eq_some_iff.mp hlease
      obtain ⟨rfl, -⟩ := Prod.mk.inj heq |>.imp_left Option.some.inj
      exact ⟨c, hc, RowWrite.apply_priority _ c⟩
  calc picked.priority = c.priority := hpick
    _ ≤ r.priority := Candidates.nextDue_le hc (Table.mem_of_get hr.1).1 hr.2 hdue
    _ ≤ p := hw id r hr p hp

/-- An event that meets a candidate is one of its events from then on. -/
theorem MeetsUrgent.of_next (h : (w.next c).Urgent) : MeetsUrgent w.db c := by
  obtain ⟨call, answered⟩ := c
  cases answered with
  | false => cases call <;> trivial
  | true =>
    cases call with
    | enqueue now path priority reason debounceMs =>
      intro id r hr hpath
      have hrow : (w.next ⟨.enqueue now path priority reason debounceMs, true⟩).db.Has id r := by
        refine ⟨?_, hr.2⟩
        rcases w.db.get_enqueue now path priority reason debounceMs id with hsame | ⟨hfresh, -⟩
        · exact hsame.trans hr.1
        · exact absurd (hfresh.symm.trans hr.1) (Option.some_ne_none _).symm
      refine h id r hrow priority ((Tracked.events_next hrow).mpr (.inr ?_))
      exact Called.mem_events.mpr ⟨hpath, rfl⟩
    | _ => trivial

end Urgency

/-- **When no priority is lost**: just if no event meets an active candidate of its path that is
less urgent, which would keep the priority that it has. -/
theorem priority_kept_iff (d : StateDb) (calls : List Called) :
    PriorityKept d calls ↔ EachMeetsUrgent d calls := by
  constructor
  · intro h past c rest hsplit
    refine .of_next (w := Tracked.run d past) ?_
    rw [← Tracked.run_append]
    exact h.urgent (past ++ [c]) rest (by rw [hsplit, List.append_assoc, List.singleton_append])
  · intro h
    have hurgent : ∀ past rest, calls = past ++ rest → (Tracked.run d past).Urgent :=
      fun past rest hsplit => urgent_run fun past' c rest' hsplit' =>
        h past' c (rest' ++ rest) (by rw [hsplit, hsplit', List.append_assoc, List.cons_append])
    exact ⟨hurgent, fun past now leaseSecs rest hsplit =>
      (hurgent past _ hsplit).leasesInOrder now leaseSecs⟩

/-- **An executable that the baseline has found before is not preferred**: its event is merged
into the candidate of priority 5, and a file of priority 2 is leased first. -/
theorem exec_event_lost : ¬ ∀ (d : StateDb) (calls : List Called), PriorityKept d calls := by
  intro h
  have hkept := h .empty [⟨.enqueue 0 "/w/tool" 5 "baseline" 0, true⟩,
    ⟨.enqueue 0 "/w/tool" 1 "exec_open" 0, true⟩, ⟨.enqueue 0 "/w/note" 2 "close_write" 0, true⟩,
    ⟨.leaseNextDue 0 120, true⟩]
  have hlease := hkept.inOrder
    [⟨.enqueue 0 "/w/tool" 5 "baseline" 0, true⟩, ⟨.enqueue 0 "/w/tool" 1 "exec_open" 0, true⟩,
      ⟨.enqueue 0 "/w/note" 2 "close_write" 0, true⟩] 0 120 [] rfl
  exact absurd (hlease _ _ rfl 1 _ ⟨rfl, rfl⟩ (by decide) (by decide) 1 (by decide)) (by decide)

end Corpus.Agent
