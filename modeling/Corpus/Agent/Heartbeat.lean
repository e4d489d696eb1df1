/-
Heartbeats and the counters they report (`heartbeat.rs`).

A round reads the counters, sends them and then empties the whole table; capture
tasks and sensors keep counting while the request is on its way.

* `sendOnce` — one round, statement by statement; `Beats` — the loop of `run`,
  which has at most one round, beside everyone who counts;
* `Beating.reach` — every run of the capture machine beside the loop is one of `Beats`;
* `step_balance` — the step that breaks the books, if any, is found exactly;
* `counters_conserved` — delivered and waiting counts add up at every moment of a
  run iff no `clear_counters` wipes a count that was not in its heartbeat and no
  round keeps counts that were delivered.

While a heartbeat has been answered and its counts are not yet cleared they are in
both places; `Beats.clearing` marks that moment.
-/
import Corpus.Agent.Moves
import Mathlib.Data.List.DropRight
import Mathlib.Data.Rat.Defs

namespace Corpus.Agent

/-! ### A round -/

/-- The state a round reads: the database with the two further keys of `identity`,
and the spool directory. -/
structure BeatStore where
  db : StateDb
  baselineState : Option String
  sensor : Option String
  spool : Spool

/-- What is fixed while the agent runs. -/
structure BeatConfig where
  agentVersion : String
  policyDigest : String

/-- `HeartbeatRequest`; an outcome that was not counted has the count 0. -/
structure HeartbeatRequest where
  agentVersion : String
  policyDigest : String
  baselineState : String
  baselinePercent : ℚ
  queueDepth : ℕ
  spoolBytes : ℕ
  oldestPendingSecs : Option ℤ
  sensor : String
  outcomeCounts : String → ℕ
  lastUploadAt : Option Time
  clockOffsetMs : Option ℤ

/-- The statements of a round; from `read_counters` on, with the counts that it read. -/
inductive BeatPt where
  | baselineState
  | readCounters
  | lastUploadAt (counts : String → ℕ)
  | sensor (counts : String → ℕ)
  | queueDepth (counts : String → ℕ)
  | spoolBytes (counts : String → ℕ)
  | oldestPendingSecs (counts : String → ℕ)
  | heartbeat (req : HeartbeatRequest)
  | clearCounters (req : HeartbeatRequest)

/-- The counts that a round carries. -/
def BeatPt.counts : BeatPt → Option (String → ℕ)
  | baselineState | readCounters => none
  | lastUploadAt k | sensor k | queueDepth k | spoolBytes k | oldestPendingSecs k => some k
  | heartbeat req | clearCounters req => some req.outcomeCounts

/-- What the environment decides at a statement.  `created_at` is not a column of
the model, so the age of the oldest row is given here. -/
structure BeatInput where
  dbFails : Bool
  oldestPendingSecs : Option ℤ
  net : Delivery

/-- `queue_depth`. -/
def StateDb.queueDepth (d : StateDb) : ℕ :=
  (d.candidates.table.rows.filter fun c : Candidate => c.state.active).length

/-- `clear_counters`. -/
def StateDb.clearCounters (d : StateDb) : StateDb := { d with counters := fun _ => 0 }

abbrev BeatProg := Prog BeatPt BeatStore BeatInput String

/-- A read of the database. -/
def beatRead {α : Type} (l : BeatPt) (q : BeatStore → BeatInput → α) : BeatProg α :=
  .exec l fun s i => if i.dbFails then .error "database is locked" else .ok (q s i, s)

/-- `Uploader::heartbeat`. -/
def postHeartbeat (req : HeartbeatRequest) : BeatProg Unit :=
  .exec (.heartbeat req) fun s i =>
    match i.net with
    | .answered => .ok ((), s)
    | .refused msg | .lost msg => .error msg

/-- The call of `clear_counters` at the end of a round. -/
def clearCounters (req : HeartbeatRequest) : BeatProg Unit :=
  .exec (.clearCounters req) fun s i =>
    if i.dbFails then .error "database is locked"
    else .ok ((), { s with db := s.db.clearCounters })

/-- `send_once`. -/
def sendOnce (cfg : BeatConfig) : BeatProg Unit := do
  let state ← beatRead .baselineState fun s _ => s.baselineState
  let baselineState := state.getD "unknown"
  let baselinePercent : ℚ := if baselineState = "complete" then 100 else 0
  let counts ← beatRead .readCounters fun s _ => s.db.counters
  let lastUploadAt ← beatRead (.lastUploadAt counts) fun s _ => s.db.identity.lastUploadAt
  let sensor ← beatRead (.sensor counts) fun s _ => s.sensor
  let queueDepth ← beatRead (.queueDepth counts) fun s _ => s.db.queueDepth
  let spoolBytes ← .query (.spoolBytes counts) fun s => s.spool.used
  let oldest ← beatRead (.oldestPendingSecs counts) fun _ i => i.oldestPendingSecs
  let req : HeartbeatRequest :=
    { agentVersion := cfg.agentVersion
      policyDigest := cfg.policyDigest
      baselineState := baselineState
      baselinePercent := baselinePercent
      queueDepth := queueDepth
      spoolBytes := spoolBytes
      oldestPendingSecs := oldest
      sensor := sensor.getD "unknown"
      outcomeCounts := counts
      lastUploadAt := lastUploadAt
      clockOffsetMs := none }
  postHeartbeat req
  clearCounters req

/-! ### The agent around it -/

/-- A change of the store that does not touch the counters. -/
structure OtherChange where
  change : BeatStore → BeatStore
  counters : ∀ s, (change s).db.counters = s.db.counters

/-- What can happen next: someone calls `increment_counter` or `record_gap` (each
under the mutex of the database from start to end, and any of its statements may
fail), something else changes, or the loop wakes or runs the next statement of its
round. -/
inductive BeatEvent where
  | incrementCounter (outcome : String) (fails : Bool)
  | recordGap (gap : PendingGap) (rowFails countFails : Bool)
  | other (c : OtherChange)
  | wake
  | exec (i : BeatInput)

/-- The store and what is left of the round under way. -/
structure Beats where
  store : BeatStore
  round : Option (BeatProg Unit)

namespace Beats

/-- The agent when `run` starts. -/
def start (s : BeatStore) : Beats := ⟨s, none⟩

/-- The round goes on, or is over: `run` only logs its error. -/
def goOn : BeatProg Unit → Option (BeatProg Unit)
  | .stmt l f k => some (.stmt l f k)
  | .ret _ | .err _ => none

/-- A change of the database. -/
def withDb (v : Beats) (d : StateDb) : Beats := { v with store := { v.store with db := d } }

/-- One event; `none` when the loop has nothing to do with it. -/
def step (cfg : BeatConfig) (v : Beats) : BeatEvent → Option Beats
  | .incrementCounter outcome fails =>
    some (if fails then v else v.withDb (v.store.db.incrementCounter outcome))
  | .recordGap gap rowFails countFails =>
    -- a gap row without its count is left when only the second statement fails
    some
      (if rowFails then v
      else if countFails then v.withDb (v.store.db.insertGap gap)
      else v.withDb ((v.store.db.insertGap gap).incrementCounter gap.terminalOutcome))
  | .other c => some { v with store := c.change v.store }
  | .wake =>
    match v.round with
    | none => some { v with round := goOn (sendOnce cfg) }
    | some _ => none
  | .exec i =>
    match v.round with
    | some (.stmt _ f k) => some ⟨f v.store i, goOn (k v.store i)⟩
    | _ => none

/-- A history: each event with the state it met. -/
abbrev Hist := List (Beats × BeatEvent)

/-- `Reach cfg s₀ h v`: from the store `s₀`, the history `h` leads to `v`. -/
inductive Reach (cfg : BeatConfig) (s₀ : BeatStore) : Hist → Beats → Prop where
  | start : Reach cfg s₀ [] (start s₀)
  | step {h : Hist} {v v' : Beats} {e : BeatEvent} :
      Reach cfg s₀ h v → v.step cfg e = some v' → Reach cfg s₀ (h ++ [(v, e)]) v'

/-- Run a list of events, keeping the history. -/
def run (cfg : BeatConfig) : Hist → Beats → List BeatEvent → Option (Hist × Beats)
  | h, v, [] => some (h, v)
  | h, v, e :: es =>
    match v.step cfg e with
    | some v' => run cfg (h ++ [(v, e)]) v' es
    | none => none

theorem reach_run {cfg : BeatConfig} {s₀ : BeatStore} : ∀ (es : List BeatEvent) {h h' : Hist}
    {v v' : Beats}, Reach cfg s₀ h v → run cfg h v es = some (h', v') → Reach cfg s₀ h' v' := by
  intro es
  induction es with
  | nil =>
    intro h h' v v' hr heq
    obtain ⟨rfl, rfl⟩ : h = h' ∧ v = v' := by simpa [run] using heq
    exact hr
  | cons e es ih =>
    intro h h' v v' hr heq
    cases hs : v.step cfg e with
    | none => simp [run, hs] at heq
    | some w =>
      simp only [run, hs] at heq
      exact ih (.step hr hs) heq

/-! ### The books -/

/-- Where the round stands. -/
def at_ (v : Beats) : Option BeatPt :=
  match v.round with
  | some (.stmt l _ _) => some l
  | _ => none

/-- The heartbeat that was answered and whose counts are not cleared yet. -/
def clearing (v : Beats) : Option HeartbeatRequest :=
  match v.at_ with
  | some (.clearCounters req) => some req
  | _ => none

end Beats

/-- The outcome that an event adds to the counters. -/
def BeatEvent.increments : BeatEvent → Option String
  | .incrementCounter outcome false => some outcome
  | .recordGap gap false false => some gap.terminalOutcome
  | _ => none

/-- The heartbeat that an event delivers: the server has it, whether or not its
answer comes back. -/
def Beats.delivers (e : Beats × BeatEvent) : Option HeartbeatRequest :=
  match e.1.at_, e.2 with
  | some (.heartbeat req), .exec i =>
    match i.net with
    | .refused _ => none
    | .lost _ | .answered => some req
  | _, _ => none

namespace Beats

/-- The increments of an outcome made so far. -/
def made (h : Hist) (outcome : String) : ℕ :=
  h.countP fun e => decide (e.2.increments = some outcome)

/-- The counts of an outcome in all heartbeats delivered so far. -/
def delivered (h : Hist) (outcome : String) : ℕ :=
  ((h.filterMap delivers).map fun req => req.outcomeCounts outcome).sum

/-- For each outcome, the delivered counts and the current counter add up to what
the agent started with and the increments made so far. -/
def Conserved (s₀ : BeatStore) (h : Hist) (v : Beats) : Prop :=
  ∀ outcome, delivered h outcome + v.store.db.counters outcome =
    s₀.db.counters outcome + made h outcome

/-- The event is a run of `read_counters`. -/
def readsCounters (e : Beats × BeatEvent) : Bool :=
  match e.1.at_, e.2 with
  | some .readCounters, .exec _ => true
  | _, _ => false

/-- What happened after the last `read_counters`. -/
def sinceRead (h : Hist) : Hist := h.rtakeWhile fun e => !readsCounters e

/-- The event takes no count away and leaves none behind: nobody counted between
`read_counters` and a clear that succeeds; and where a delivered heartbeat is not
followed by the clear, because its answer or the clear itself fails, there was nothing
to read, so that all counts in the table were made since. -/
def Undisturbed (h : Hist) (v : Beats) (e : BeatEvent) : Prop :=
  ∀ req i, e = .exec i →
    (v.at_ = some (.clearCounters req) → i.dbFails = false →
      ∀ e' ∈ sinceRead h, e'.2.increments = none) ∧
    (v.at_ = some (.clearCounters req) ∧ i.dbFails = true ∨
        v.at_ = some (.heartbeat req) ∧ (∃ msg, i.net = .lost msg) →
      ∀ outcome, v.store.db.counters outcome = made (sinceRead h) outcome)

/-! ### What a statement of a round can do -/

/-- Where a program stands, when it goes on. -/
def next (c : Ctl BeatPt Unit) : Option BeatPt :=
  match c with
  | .at l => some l
  | _ => none

end Beats

/-- The counts that a round carries after a statement. -/
def BeatPt.countsAfter (s : BeatStore) : BeatPt → Option (String → ℕ)
  | readCounters => some s.db.counters
  | l => l.counts

/-- The moves of a round.  Only the heartbeat leads to the clear, and only the clear
changes anything. -/
inductive BeatMove : BeatPt → BeatInput → BeatStore → BeatStore → Ctl BeatPt Unit → Prop where
  | read {l i s c} : (∀ req, l ≠ .heartbeat req ∧ l ≠ .clearCounters req) →
      (∀ req, c ≠ .at (.clearCounters req)) →
      (∀ l', c = .at l' → l'.counts = l.countsAfter s) → BeatMove l i s s c
  | answered {req i s} : i.net = .answered →
      BeatMove (.heartbeat req) i s s (.at (.clearCounters req))
  | refused {req i s msg} : i.net = .refused msg → BeatMove (.heartbeat req) i s s .failed
  | lost {req i s msg} : i.net = .lost msg → BeatMove (.heartbeat req) i s s .failed
  | clearErr {req i s} : i.dbFails = true → BeatMove (.clearCounters req) i s s .failed
  | cleared {req i s} : i.dbFails = false →
      BeatMove (.clearCounters req) i s { s with db := s.db.clearCounters } (.done ())

/-- A read followed by the rest of the round. -/
theorem takes_beatRead {α : Type} {l : BeatPt} {q : BeatStore → BeatInput → α}
    {g : α → BeatProg Unit} (hl : ∀ req, l ≠ .heartbeat req ∧ l ≠ .clearCounters req)
    (hg : ∀ s i req, (g (q s i)).ctl ≠ .at (.clearCounters req))
    (hk : ∀ s i l', (g (q s i)).ctl = .at l' → l'.counts = l.countsAfter s)
    (h : ∀ a, (g a).Takes BeatMove) : (beatRead l q >>= g).Takes BeatMove := by
  refine Prog.takes_exec_bind fun s i => ?_
  cases hdb : i.dbFails with
  | true => exact .read hl (fun _ => nofun) fun _ => nofun
  | false => exact ⟨.read hl (hg s i) (hk s i), h _⟩

theorem clearCounters_takes (req : HeartbeatRequest) : (clearCounters req).Takes BeatMove := by
  refine Prog.takes_exec fun s i => ?_
  cases hdb : i.dbFails with
  | true => exact .clearErr hdb
  | false => exact .cleared hdb

theorem postHeartbeat_takes (req : HeartbeatRequest) :
    (postHeartbeat req >>= fun _ => clearCounters req).Takes BeatMove := by
  refine Prog.takes_exec_bind fun s i => ?_
  cases hnet : i.net with
  | answered => exact ⟨.answered hnet, clearCounters_takes req⟩
  | refused msg => exact .refused hnet
  | lost msg => exact .lost hnet

theorem sendOnce_takes (cfg : BeatConfig) : (sendOnce cfg).Takes BeatMove := by
  refine takes_beatRead (fun _ => ⟨nofun, nofun⟩) (fun _ _ _ => nofun) ?_ fun _ => ?_
  · rintro s i _ ⟨⟩
    rfl
  refine takes_beatRead (fun _ => ⟨nofun, nofun⟩) (fun _ _ _ => nofun) ?_ fun _ => ?_
  · rintro s i _ ⟨⟩
    rfl
  refine takes_beatRead (fun _ => ⟨nofun, nofun⟩) (fun _ _ _ => nofun) ?_ fun _ => ?_
  · rintro s i _ ⟨⟩
    rfl
  refine takes_beatRead (fun _ => ⟨nofun, nofun⟩) (fun _ _ _ => nofun) ?_ fun _ => ?_
  · rintro s i _ ⟨⟩
    rfl
  refine takes_beatRead (fun _ => ⟨nofun, nofun⟩) (fun _ _ _ => nofun) ?_ fun _ => ?_
  · rintro s i _ ⟨⟩
    rfl
  refine fun s i => ⟨.read (fun _ => ⟨nofun, nofun⟩) (fun _ => nofun) ?_, ?_⟩
  · rintro _ ⟨⟩
    rfl
  refine takes_beatRead (fun _ => ⟨nofun, nofun⟩) (fun _ _ _ => nofun) ?_ fun _ => ?_
  · rintro s i _ ⟨⟩
    rfl
  exact postHeartbeat_takes _

namespace Beats

theorem at_goOn (s : BeatStore) (p : BeatProg Unit) : (⟨s, goOn p⟩ : Beats).at_ = next p.ctl := by
  cases p <;> rfl

/-- What is left of a round makes the moves of a round. -/
def InRound (v : Beats) : Prop := ∀ p, v.round = some p → p.Takes BeatMove

theorem inRound_goOn {s : BeatStore} {p : BeatProg Unit} (hp : p.Takes BeatMove) :
    InRound ⟨s, goOn p⟩ := by
  intro q hq
  cases p with
  | ret _ => cases hq
  | err _ => cases hq
  | stmt l f k =>
    obtain rfl := Option.some.inj hq
    exact hp

/-- A step of the round is a move of its program. -/
theorem step_exec {cfg : BeatConfig} {v v' : Beats} {i : BeatInput} (hv : v.InRound)
    (hs : v.step cfg (.exec i) = some v') :
    v'.InRound ∧ ∃ l c, v.at_ = some l ∧ v'.at_ = next c ∧ BeatMove l i v.store v'.store c := by
  obtain ⟨s, round⟩ := v
  rcases round with _ | (a | e | ⟨l, f, k⟩)
  · cases hs
  · cases hs
  · cases hs
  · obtain rfl := Option.some.inj hs
    have hp := hv _ rfl s i
    exact ⟨inRound_goOn hp.2, l, _, rfl, at_goOn _ _, hp.1⟩

/-- An event outside of the round leaves the round alone. -/
theorem step_round {cfg : BeatConfig} {v v' : Beats} {e : BeatEvent} (hs : v.step cfg e = some v')
    (hw : e ≠ .wake) (he : ∀ i, e ≠ .exec i) : v'.round = v.round := by
  cases e with
  | incrementCounter outcome fails =>
    obtain rfl := Option.some.inj hs
    cases fails <;> rfl
  | recordGap gap rowFails countFails =>
    obtain rfl := Option.some.inj hs
    cases rowFails <;> cases countFails <;> rfl
  | other c =>
    obtain rfl := Option.some.inj hs
    rfl
  | wake => exact absurd rfl hw
  | exec i => exact absurd rfl (he i)

theorem step_wake {cfg : BeatConfig} {v v' : Beats} (hs : v.step cfg .wake = some v') :
    v.round = none ∧ v' = { v with round := goOn (sendOnce cfg) } := by
  obtain ⟨s, round⟩ := v
  cases round with
  | none => exact ⟨rfl, (Option.some.inj hs).symm⟩
  | some p => cases hs

theorem InRound.step {cfg : BeatConfig} {v v' : Beats} {e : BeatEvent} (hv : v.InRound)
    (hs : v.step cfg e = some v') : v'.InRound := by
  by_cases hw : e = .wake
  · subst hw
    rw [(step_wake hs).2]
    exact inRound_goOn (sendOnce_takes cfg)
  · by_cases he : ∃ i, e = .exec i
    · obtain ⟨i, rfl⟩ := he
      exact (step_exec hv hs).1
    · intro p hp
      rw [step_round hs hw fun i hi => he ⟨i, hi⟩] at hp
      exact hv p hp

theorem Reach.inRound {cfg : BeatConfig} {s₀ : BeatStore} {h : Hist} {v : Beats}
    (hr : Reach cfg s₀ h v) : v.InRound := by
  induction hr with
  | start => exact fun _ hp => nomatch hp
  | step _ hs ih => exact ih.step hs

/-! ### One step of the books -/

/-- The conditions of `Undisturbed` in terms of the counts that the round carries. -/
def Safe (v : Beats) (e : BeatEvent) : Prop :=
  ∀ req i, e = .exec i →
    (v.at_ = some (.clearCounters req) → ∀ outcome,
      req.outcomeCounts outcome = if i.dbFails then 0 else v.store.db.counters outcome) ∧
    (v.at_ = some (.heartbeat req) → ∀ msg, i.net = .lost msg → ∀ outcome,
      req.outcomeCounts outcome = 0)

/-- The counts that are both delivered and still in the table. -/
def owed (v : Beats) (outcome : String) : ℕ :=
  (v.clearing.map fun req => req.outcomeCounts outcome).getD 0

/-- The counts that an event delivers. -/
def gain (e : Beats × BeatEvent) (outcome : String) : ℕ :=
  ((delivers e).map fun req => req.outcomeCounts outcome).getD 0

/-- The increment that an event makes. -/
def increment (e : BeatEvent) (outcome : String) : ℕ :=
  if e.increments = some outcome then 1 else 0

theorem delivered_append (h : Hist) (e : Beats × BeatEvent) (outcome : String) :
    delivered (h ++ [e]) outcome = delivered h outcome + gain e outcome := by
  unfold delivered gain
  rw [List.filterMap_append, List.map_append, List.sum_append]
  congr 1
  cases hd : delivers e <;> simp [hd]

theorem made_append (h : Hist) (e : Beats × BeatEvent) (outcome : String) :
    made (h ++ [e]) outcome = made h outcome + increment e.2 outcome := by
  unfold made increment
  rw [List.countP_append, List.countP_singleton]
  simp

/-- The step keeps the difference of the two sides of the books. -/
def Balanced (v : Beats) (e : BeatEvent) (v' : Beats) : Prop :=
  ∀ outcome, gain (v, e) outcome + v'.store.db.counters outcome + v.owed outcome =
    v.store.db.counters outcome + increment e outcome + v'.owed outcome

theorem owed_clear {v : Beats} {req : HeartbeatRequest}
    (h : v.at_ = some (.clearCounters req)) (outcome : String) :
    v.owed outcome = req.outcomeCounts outcome := by
  rw [owed, clearing, h]
  rfl

theorem clearing_eq_none {v : Beats} (h : ∀ req, v.at_ ≠ some (.clearCounters req)) :
    v.clearing = none := by
  unfold clearing
  split
  · next req hat => exact absurd hat (h req)
  · rfl

theorem owed_eq_zero {v : Beats} (h : ∀ req, v.at_ ≠ some (.clearCounters req))
    (outcome : String) : v.owed outcome = 0 := by
  rw [owed, clearing_eq_none h]
  rfl

theorem gain_heartbeat {v : Beats} {req : HeartbeatRequest} {i : BeatInput}
    (h : v.at_ = some (.heartbeat req)) (hnet : ∀ msg, i.net ≠ .refused msg) (outcome : String) :
    gain (v, .exec i) outcome = req.outcomeCounts outcome := by
  simp only [gain, delivers, h]
  cases hn : i.net with
  | refused msg => exact absurd hn (hnet msg)
  | lost msg => rfl
  | answered => rfl

theorem gain_refused {v : Beats} {req : HeartbeatRequest} {i : BeatInput} {msg : String}
    (h : v.at_ = some (.heartbeat req)) (hnet : i.net = .refused msg) (outcome : String) :
    gain (v, .exec i) outcome = 0 := by
  simp only [gain, delivers, h, hnet]
  rfl

theorem gain_eq_zero {v : Beats} (e : BeatEvent) (h : ∀ req, v.at_ ≠ some (.heartbeat req))
    (outcome : String) : gain (v, e) outcome = 0 := by
  have : delivers (v, e) = none := by
    unfold delivers
    split
    · next req _ hat _ => exact absurd hat (h req)
    · rfl
  rw [gain, this]
  rfl

theorem gain_of_ne_exec {v : Beats} {e : BeatEvent} (he : ∀ i, e ≠ .exec i) (outcome : String) :
    gain (v, e) outcome = 0 := by
  have : delivers (v, e) = none := by
    unfold delivers
    split
    · next hi => exact absurd hi (he _)
    · rfl
  rw [gain, this]
  rfl

theorem counters_increment (d : StateDb) (o outcome : String) :
    (d.incrementCounter o).counters outcome =
      d.counters outcome + if some o = some outcome then 1 else 0 := by
  unfold StateDb.incrementCounter
  by_cases h : o = outcome
  · subst h
    simp
  · have h' : outcome ≠ o := fun heq => h heq.symm
    simp [h, h']

/-- Whoever counts, counts once; the rest of the agent does not touch the table. -/
theorem counters_of_ne_exec {cfg : BeatConfig} {v v' : Beats} {e : BeatEvent}
    (hs : v.step cfg e = some v') (he : ∀ i, e ≠ .exec i) (outcome : String) :
    v'.store.db.counters outcome = v.store.db.counters outcome + increment e outcome := by
  cases e with
  | incrementCounter o fails =>
    obtain rfl := Option.some.inj hs
    cases fails with
    | true => rfl
    | false => exact counters_increment _ o outcome
  | recordGap gap rowFails countFails =>
    obtain rfl := Option.some.inj hs
    cases rowFails with
    | true => cases countFails <;> rfl
    | false =>
      cases countFails with
      | true => rfl
      | false => exact counters_increment _ gap.terminalOutcome outcome
  | other c =>
    obtain rfl := Option.some.inj hs
    show (c.change v.store).db.counters outcome = _
    rw [c.counters]
    rfl
  | wake =>
    rw [(step_wake hs).2]
    rfl
  | exec i => exact absurd rfl (he i)

/-- A step that leads to the clear has counts to clear only if they were delivered. -/
theorem owed_of_ne_exec {cfg : BeatConfig} {v v' : Beats} {e : BeatEvent}
    (hs : v.step cfg e = some v') (he : ∀ i, e ≠ .exec i) : v'.owed = v.owed := by
  by_cases hw : e = .wake
  · subst hw
    obtain ⟨hv, rfl⟩ := step_wake hs
    funext outcome
    rw [owed_eq_zero, owed_eq_zero]
    · intro req hat
      rw [at_, hv] at hat
      cases hat
    · intro req hat
      rw [at_goOn] at hat
      cases hat
  · have hround := step_round hs hw he
    unfold owed clearing at_
    rw [hround]

theorem ne_clear_of_heartbeat {v : Beats} {req : HeartbeatRequest}
    (h : v.at_ = some (.heartbeat req)) (req' : HeartbeatRequest) :
    v.at_ ≠ some (.clearCounters req') := by
  rw [h]
  exact nofun

theorem ne_heartbeat_of_clear {v : Beats} {req : HeartbeatRequest}
    (h : v.at_ = some (.clearCounters req)) (req' : HeartbeatRequest) :
    v.at_ ≠ some (.heartbeat req') := by
  rw [h]
  exact nofun

theorem ne_clear_of_over {v : Beats} (h : v.at_ = none) (req : HeartbeatRequest) :
    v.at_ ≠ some (.clearCounters req) := by
  rw [h]
  exact nofun

/-- The conditions of `Safe`, for a step of the round. -/
theorem safe_exec {v : Beats} {i : BeatInput} : v.Safe (.exec i) ↔ ∀ req,
    (v.at_ = some (.clearCounters req) → ∀ outcome,
      req.outcomeCounts outcome = if i.dbFails then 0 else v.store.db.counters outcome) ∧
    (v.at_ = some (.heartbeat req) → ∀ msg, i.net = .lost msg → ∀ outcome,
      req.outcomeCounts outcome = 0) := by
  constructor
  · intro h req
    exact h req i rfl
  · intro h req j hj
    cases hj
    exact h req

theorem safe_clear {v : Beats} {i : BeatInput} {req : HeartbeatRequest}
    (h : v.at_ = some (.clearCounters req)) : v.Safe (.exec i) ↔ ∀ outcome,
      req.outcomeCounts outcome = if i.dbFails then 0 else v.store.db.counters outcome := by
  rw [safe_exec]
  constructor
  · intro hs
    exact (hs req).1 h
  · intro hs req'
    rw [h]
    constructor
    · intro heq
      cases heq
      exact hs
    · exact nofun

theorem safe_heartbeat {v : Beats} {i : BeatInput} {req : HeartbeatRequest}
    (h : v.at_ = some (.heartbeat req)) : v.Safe (.exec i) ↔ ∀ msg, i.net = .lost msg →
      ∀ outcome, req.outcomeCounts outcome = 0 := by
  rw [safe_exec]
  constructor
  · intro hs
    exact (hs req).2 h
  · intro hs req'
    rw [h]
    constructor
    · exact nofun
    · intro heq
      cases heq
      exact hs

/-- **The step that breaks the books is found exactly.** -/
theorem step_balance {cfg : BeatConfig} {v v' : Beats} {e : BeatEvent} (hv : v.InRound)
    (hs : v.step cfg e = some v') : Balanced v e v' ↔ v.Safe e := by
  by_cases hex : ∃ i, e = .exec i
  · obtain ⟨i, rfl⟩ := hex
    obtain ⟨-, l, c, hl, hc, hm⟩ := step_exec hv hs
    have hinc : ∀ outcome, increment (.exec i) outcome = 0 := fun _ => rfl
    unfold Balanced
    generalize v'.store = s' at hm ⊢
    cases hm with
    | read hne hnc _ =>
      have hat : ∀ req, v.at_ ≠ some (.heartbeat req) ∧ v.at_ ≠ some (.clearCounters req) := by
        intro req
        rw [hl]
        exact ⟨fun h => (hne req).1 (Option.some.inj h), fun h => (hne req).2 (Option.some.inj h)⟩
      have hat' : ∀ req, v'.at_ ≠ some (.clearCounters req) := by
        intro req h
        rw [hc] at h
        cases c with
        | «at» l' =>
          obtain rfl := Option.some.inj h
          exact hnc req rfl
        | _ => cases h
      refine iff_of_true (fun outcome => ?_) (safe_exec.mpr fun req =>
        ⟨fun h => absurd h (hat req).2, fun h => absurd h (hat req).1⟩)
      rw [gain_eq_zero _ (fun req => (hat req).1), owed_eq_zero fun req => (hat req).2,
        owed_eq_zero hat', hinc]
      omega
    | @answered req _ _ hnet =>
      refine iff_of_true (fun outcome => ?_) ((safe_heartbeat hl).mpr fun msg hlost => ?_)
      · have hok : ∀ msg, i.net ≠ .refused msg := fun msg => by simp [hnet]
        rw [gain_heartbeat hl hok, owed_eq_zero (ne_clear_of_heartbeat hl), owed_clear hc, hinc]
        omega
      · rw [hnet] at hlost
        cases hlost
    | @refused req _ _ msg hnet =>
      refine iff_of_true (fun outcome => ?_) ((safe_heartbeat hl).mpr fun msg' hlost => ?_)
      · rw [gain_refused hl hnet, owed_eq_zero (ne_clear_of_heartbeat hl),
          owed_eq_zero (ne_clear_of_over hc), hinc]
        omega
      · rw [hnet] at hlost
        cases hlost
    | @lost req _ _ msg hnet =>
      -- delivered, and yet the round ends without the clear
      rw [safe_heartbeat hl]
      have hok : ∀ msg, i.net ≠ .refused msg := fun msg => by simp [hnet]
      constructor
      · intro hb msg' _ outcome
        have := hb outcome
        rw [gain_heartbeat hl hok, owed_eq_zero (ne_clear_of_heartbeat hl),
          owed_eq_zero (ne_clear_of_over hc), hinc] at this
        omega
      · intro hz outcome
        rw [gain_heartbeat hl hok, owed_eq_zero (ne_clear_of_heartbeat hl),
          owed_eq_zero (ne_clear_of_over hc), hinc, hz msg hnet outcome]
        omega
    | @clearErr req _ _ hdb =>
      rw [safe_clear hl, hdb]
      refine forall_congr' fun outcome => ?_
      rw [gain_eq_zero _ (ne_heartbeat_of_clear hl), owed_clear hl,
        owed_eq_zero (ne_clear_of_over hc), hinc]
      show _ ↔ req.outcomeCounts outcome = 0
      omega
    | @cleared req _ _ hdb =>
      rw [safe_clear hl, hdb]
      refine forall_congr' fun outcome => ?_
      have hzero : (v.store.db.clearCounters).counters outcome = 0 := rfl
      rw [gain_eq_zero _ (ne_heartbeat_of_clear hl), owed_clear hl,
        owed_eq_zero (ne_clear_of_over hc), hinc, hzero]
      show _ ↔ req.outcomeCounts outcome = v.store.db.counters outcome
      omega
  · have he : ∀ i, e ≠ .exec i := fun i hi => hex ⟨i, hi⟩
    refine iff_of_true (fun outcome => ?_) fun _ i hi => absurd hi (he i)
    rw [gain_of_ne_exec he, counters_of_ne_exec hs he, owed_of_ne_exec hs he]
    omega

/-! ### What a round knows of the table -/

theorem sinceRead_append (h : Hist) (e : Beats × BeatEvent) :
    sinceRead (h ++ [e]) = if readsCounters e then [] else sinceRead h ++ [e] := by
  rw [sinceRead, List.rtakeWhile_concat]
  cases readsCounters e <;> rfl

/-- The table holds what the round read and what was counted since. -/
def Counted (h : Hist) (v : Beats) : Prop :=
  ∀ l k, v.at_ = some l → l.counts = some k → ∀ outcome,
    v.store.db.counters outcome = k outcome + made (sinceRead h) outcome

theorem readsCounters_eq_false {v : Beats} {e : BeatEvent} (h : v.at_ ≠ some .readCounters) :
    readsCounters (v, e) = false := by
  unfold readsCounters
  split
  · next hat _ => exact absurd hat h
  · rfl

theorem Counted.step {cfg : BeatConfig} {h : Hist} {v v' : Beats} {e : BeatEvent}
    (hi : Counted h v) (hv : v.InRound) (hs : v.step cfg e = some v') :
    Counted (h ++ [(v, e)]) v' := by
  intro l' k hl' hk outcome
  by_cases hex : ∃ i, e = .exec i
  · obtain ⟨i, rfl⟩ := hex
    obtain ⟨-, l, c, hl, hc, hm⟩ := step_exec hv hs
    rw [hc] at hl'
    -- a statement that leaves the table and the counts of the round as they are
    have hkeep (hne : l ≠ .readCounters) (hcounts : l.counts = some k) :
        v.store.db.counters outcome = k outcome + made (sinceRead (h ++ [(v, .exec i)])) outcome := by
      have hread : readsCounters (v, .exec i) = false :=
        readsCounters_eq_false fun hat => hne (Option.some.inj (hl.symm.trans hat))
      rw [sinceRead_append, hread, if_neg Bool.false_ne_true, made_append]
      exact hi l k hl hcounts outcome
    generalize v'.store = s' at hm ⊢
    cases hm with
    | @read _ _ _ c hne hnc hcounts =>
      cases c with
      | «at» l₁ =>
        obtain rfl := Option.some.inj hl'
        have hk' := (hcounts l₁ rfl).symm.trans hk
        cases l with
        | readCounters =>
          obtain rfl := Option.some.inj hk'
          have hread : readsCounters (v, .exec i) = true := by
            unfold readsCounters
            rw [hl]
          rw [sinceRead_append, hread, if_pos rfl]
          rfl
        | _ => exact hkeep nofun hk'
      | _ => cases hl'
    | answered hnet =>
      obtain rfl := Option.some.inj hl'
      exact hkeep nofun hk
    | _ => cases hl'
  · have he : ∀ i, e ≠ .exec i := fun i hi => hex ⟨i, hi⟩
    have hat : v'.at_ = v.at_ := by
      by_cases hw : e = .wake
      · subst hw
        obtain ⟨-, rfl⟩ := step_wake hs
        rw [at_goOn] at hl'
        obtain rfl := Option.some.inj hl'
        cases hk
      · unfold at_
        rw [step_round hs hw he]
    have hread : readsCounters (v, e) = false := by
      unfold readsCounters
      split
      · next hi => exact absurd hi (he _)
      · rfl
    rw [sinceRead_append, hread, if_neg Bool.false_ne_true, made_append,
      counters_of_ne_exec hs he, hi l' k (hat ▸ hl') hk outcome]
    show _ = _ + (_ + increment e outcome)
    omega

theorem Reach.counted {cfg : BeatConfig} {s₀ : BeatStore} {h : Hist} {v : Beats}
    (hr : Reach cfg s₀ h v) : Counted h v := by
  induction hr with
  | start => exact fun _ _ hl => nomatch hl
  | step hr hs ih => exact ih.step hr.inRound hs

theorem made_eq_zero {h : Hist} :
    (∀ outcome, made h outcome = 0) ↔ ∀ e ∈ h, e.2.increments = none := by
  constructor
  · intro hz e he
    cases hinc : e.2.increments with
    | none => rfl
    | some outcome =>
      have := List.countP_eq_zero.mp (hz outcome) e he
      rw [hinc] at this
      exact absurd (decide_eq_true rfl) this
  · intro hnone outcome
    refine List.countP_eq_zero.mpr fun e he => ?_
    rw [hnone e he]
    exact Bool.false_ne_true

/-- The two ways to say which steps keep the books even. -/
theorem Reach.safe_iff {cfg : BeatConfig} {s₀ : BeatStore} {h : Hist} {v : Beats}
    (hr : Reach cfg s₀ h v) (e : BeatEvent) : v.Safe e ↔ Undisturbed h v e := by
  have hcounted : ∀ {l : BeatPt} {req : HeartbeatRequest}, l.counts = some req.outcomeCounts →
      v.at_ = some l → ∀ outcome, v.store.db.counters outcome =
        req.outcomeCounts outcome + made (sinceRead h) outcome :=
    fun hk hl => hr.counted _ _ hl hk
  constructor
  · intro hs req i he
    obtain ⟨hclear, hlost⟩ := hs req i he
    refine ⟨fun hat hdb => made_eq_zero.mp fun outcome => ?_, ?_⟩
    · have h₁ := hclear hat outcome
      have h₂ := hcounted rfl hat outcome
      rw [hdb, if_neg Bool.false_ne_true] at h₁
      omega
    · rintro (⟨hat, hdb⟩ | ⟨hat, msg, hnet⟩) outcome
      · have h₁ := hclear hat outcome
        have h₂ := hcounted rfl hat outcome
        rw [hdb, if_pos rfl] at h₁
        omega
      · have h₁ := hlost hat msg hnet outcome
        have h₂ := hcounted rfl hat outcome
        omega
  · intro hu req i he
    obtain ⟨hclear, hkept⟩ := hu req i he
    refine ⟨fun hat outcome => ?_, fun hat msg hnet outcome => ?_⟩
    · have h₂ := hcounted rfl hat outcome
      cases hdb : i.dbFails with
      | true =>
        have h₁ := hkept (.inl ⟨hat, hdb⟩) outcome
        rw [if_pos rfl]
        omega
      | false =>
        have h₁ := made_eq_zero.mpr (hclear hat hdb) outcome
        rw [if_neg Bool.false_ne_true]
        omega
    · have h₁ := hkept (.inr ⟨hat, msg, hnet⟩) outcome
      have h₂ := hcounted rfl hat outcome
      omega

/-! ### Whole runs -/

/-- The books while counts may be both delivered and waiting. -/
def Even (s₀ : BeatStore) (h : Hist) (v : Beats) : Prop :=
  ∀ outcome, delivered h outcome + v.store.db.counters outcome =
    s₀.db.counters outcome + made h outcome + v.owed outcome

theorem even_iff_conserved {s₀ : BeatStore} {h : Hist} {v : Beats} (hv : v.clearing = none) :
    Even s₀ h v ↔ Conserved s₀ h v := by
  have howed : ∀ outcome, v.owed outcome = 0 := by
    intro outcome
    rw [owed, hv]
    rfl
  refine forall_congr' fun outcome => ?_
  rw [howed, Nat.add_zero]

theorem even_start (s₀ : BeatStore) : Even s₀ [] (start s₀) := by
  intro outcome
  rw [owed_eq_zero (ne_clear_of_over rfl)]
  show 0 + s₀.db.counters outcome = s₀.db.counters outcome + 0 + 0
  omega

/-- From even books, a step leads to even books iff it is safe. -/
theorem Even.step {s₀ : BeatStore} {h : Hist} {v v' : Beats} {e : BeatEvent} (hb : Even s₀ h v) :
    Even s₀ (h ++ [(v, e)]) v' ↔ Balanced v e v' := by
  refine forall_congr' fun outcome => ?_
  have hbefore := hb outcome
  have hmade : made (h ++ [(v, e)]) outcome = made h outcome + increment e outcome :=
    made_append h (v, e) outcome
  rw [delivered_append, hmade]
  omega

/-- A step that leads to the clear is safe: it is the delivery, or an event beside a
round that stands before its clear. -/
theorem safe_of_clearing {cfg : BeatConfig} {v v' : Beats} {e : BeatEvent} (hv : v.InRound)
    (hs : v.step cfg e = some v') (hc : v'.clearing ≠ none) : v.Safe e := by
  intro req i he
  subst he
  obtain ⟨-, l, c, hl, hc', hm⟩ := step_exec hv hs
  have hclear : ∃ req', c = .at (.clearCounters req') := by
    by_contra hno
    refine hc (clearing_eq_none fun req' hat => ?_)
    rw [hc'] at hat
    cases c with
    | «at» l' =>
      obtain rfl := Option.some.inj hat
      exact hno ⟨req', rfl⟩
    | _ => cases hat
  obtain ⟨req', rfl⟩ := hclear
  generalize v'.store = s' at hm
  cases hm with
  | read _ hnc _ => exact absurd rfl (hnc req')
  | answered hnet =>
    constructor
    · intro hat
      rw [hl] at hat
      cases hat
    · intro _ msg hlost
      rw [hnet] at hlost
      cases hlost

end Beats

open Beats in
/-- **Counters are conserved exactly as long as nobody counts while a heartbeat is on
its way.**  The books are even at every moment of a run, but for those between the
answer of a heartbeat and its clear, iff no step of the run is disturbed. -/
theorem counters_conserved {cfg : BeatConfig} {s₀ : BeatStore} {h : Hist} {v : Beats}
    (hr : Reach cfg s₀ h v) :
    (∀ h' v', Reach cfg s₀ h' v' → h' <+: h → v'.clearing = none →
      Beats.Conserved s₀ h' v') ↔
      ∀ h' v' e, h' ++ [(v', e)] <+: h → Undisturbed h' v' e := by
  constructor
  · intro hall
    -- even books at every state of the run, and safe steps between them
    suffices hev : Even s₀ h v ∧ ∀ h' v' e, h' ++ [(v', e)] <+: h → Undisturbed h' v' e from hev.2
    induction hr with
    | start =>
      refine ⟨even_start s₀, fun h' v' e hpre => ?_⟩
      exact absurd (List.prefix_nil.mp hpre) (by simp)
    | @step h v v' e hr hs ih =>
      have hpart : ∀ h' w, Reach cfg s₀ h' w → h' <+: h → w.clearing = none →
          Beats.Conserved s₀ h' w :=
        fun h' w hw hpre => hall h' w hw (hpre.trans (List.prefix_append h [(v, e)]))
      obtain ⟨hev, hund⟩ := ih hpart
      have hstep : Balanced v e v' := by
        by_cases hc : v'.clearing = none
        · refine hev.step.mp ((even_iff_conserved hc).mpr ?_)
          exact hall _ v' (.step hr hs) (List.prefix_refl _) hc
        · exact (step_balance hr.inRound hs).mpr (safe_of_clearing hr.inRound hs hc)
      refine ⟨hev.step.mpr hstep, fun h' w e' hpre => ?_⟩
      rcases List.prefix_concat_iff.mp hpre with heq | hpre
      · obtain ⟨rfl, hlast⟩ := List.append_inj' heq rfl
        obtain ⟨rfl, rfl⟩ := Prod.mk.inj (List.singleton_inj.mp hlast)
        exact (hr.safe_iff _).mp ((step_balance hr.inRound hs).mp hstep)
      · exact hund h' w e' hpre
  · intro hund h' v' hr' hpre hc
    refine (even_iff_conserved hc).mp ?_
    have hund' : ∀ h₁ v₁ e, h₁ ++ [(v₁, e)] <+: h' → Undisturbed h₁ v₁ e :=
      fun h₁ v₁ e h₁pre => hund h₁ v₁ e (h₁pre.trans hpre)
    clear hpre hc hund hr
    induction hr' with
    | start => exact even_start s₀
    | @step h v v' e hr hs ih =>
      have hev := ih fun h₁ v₁ e' hpre => hund' h₁ v₁ e' (hpre.trans (List.prefix_append h [(v, e)]))
      have hsafe : v.Safe e := (hr.safe_iff e).mpr (hund' h v e (List.prefix_refl _))
      exact hev.step.mpr ((step_balance hr.inRound hs).mpr hsafe)

/-- The identity of an agent in its examples. -/
def BeatConfig.small : BeatConfig := ⟨"0.1.0", "policy"⟩

/-- A freshly installed agent. -/
def BeatStore.fresh : BeatStore := ⟨.empty, none, none, .empty⟩

/-- A statement that succeeds. -/
def BeatInput.fine : BeatInput := ⟨false, none, .answered⟩

/-- A capture, one whole round, and one more capture. -/
def quietRound : List BeatEvent :=
  [.incrementCounter "CAPTURED" false, .wake] ++ List.replicate 9 (.exec .fine) ++
    [.incrementCounter "CAPTURED" false]

theorem counters_conserved_quietRound : ∃ h v, Beats.run .small [] (.start .fresh) quietRound =
    some (h, v) ∧
      ((∀ h' v', Beats.Reach .small .fresh h' v' → h' <+: h → v'.clearing = none →
        Beats.Conserved .fresh h' v') ↔
      ∀ h' v' e, h' ++ [(v', e)] <+: h → Beats.Undisturbed h' v' e) :=
  ⟨_, _, rfl, counters_conserved (Beats.reach_run quietRound .start rfl)⟩

/-- The same, but the second capture is counted while the heartbeat is on its way. -/
def disturbedRound : List BeatEvent :=
  [.incrementCounter "CAPTURED" false, .wake] ++ List.replicate 8 (.exec .fine) ++
    [.incrementCounter "CAPTURED" false, .exec .fine]

/-- Whether no round stands before its clear and the books of an outcome are uneven,
after a list of events from a new agent. -/
def unevenAfter (es : List BeatEvent) (outcome : String) : Bool :=
  match Beats.run .small [] (.start .fresh) es with
  | none => false
  | some (h, v) => v.clearing.isNone && decide
      (Beats.delivered h outcome + v.store.db.counters outcome ≠ Beats.made h outcome)

/-- The second capture is lost: it is in no heartbeat and not in the table. -/
theorem disturbedRound_loses : ¬ ∀ cfg h v, Beats.Reach cfg .fresh h v → v.clearing = none →
    Beats.Conserved .fresh h v := by
  intro hall
  have huneven : unevenAfter disturbedRound "CAPTURED" = true := by decide +kernel
  unfold unevenAfter at huneven
  split at huneven
  · cases huneven
  · next h v hrun =>
    obtain ⟨hc, hne⟩ := Bool.and_eq_true_iff.mp huneven
    have heq := hall .small h v (Beats.reach_run disturbedRound .start hrun)
      (Option.isNone_iff_eq_none.mp hc) "CAPTURED"
    have hzero : BeatStore.fresh.db.counters "CAPTURED" = 0 := rfl
    rw [hzero, Nat.zero_add] at heq
    exact of_decide_eq_true hne heq

/-! ### Who counts -/

variable {S : Type} {rt : Runtime S}

/-- The counters after a step: nobody counted, or one outcome was counted once. -/
def CountsOnce (s s' : World S) : Prop :=
  s'.db.counters = s.db.counters ∨
    ∃ outcome, s'.db.counters = (s.db.incrementCounter outcome).counters

theorem CountsOnce.refl (s : World S) : CountsOnce s s := .inl rfl

theorem countsOnce_write {s : World S} {d : StateDb} {id : ℕ} {w : RowWrite}
    (h : s.db.write id w = some d) : d.counters = s.db.counters := by
  obtain ⟨t, -, rfl⟩ := StateDb.write_some h
  rfl

theorem ReadMove.countsOnce {path : String} {p : ReadPt} {i : Input} {s s' : World S}
    {c : Ctl ReadPt (Except StableReadError StableReadResult)}
    (h : ReadMove rt path p i s s' c) : CountsOnce s s' := by
  cases h with
  | discard hs => rcases hs with ⟨rfl, -⟩ | rfl <;> exact .inl rfl
  | again hs => rcases hs with ⟨rfl, -⟩ | rfl <;> exact .inl rfl
  | _ => exact .inl rfl

theorem ProcMove.countsOnce {t : Task} {p : ProcPt} {i : Input} {s s' : World S}
    {c : Ctl Pt Unit} (h : ProcMove rt t p i s s' c) : CountsOnce s s' := by
  cases h with
  | row _ _ hw _ => exact .inl (countsOnce_write hw)
  | stableAt hr => exact hr.countsOnce
  | stableDone hr _ => exact hr.countsOnce
  | gapCount hs =>
    rcases hs with rfl | rfl
    · exact .refl _
    · exact .inr ⟨_, rfl⟩
  | countPresent => exact .inr ⟨_, rfl⟩
  | countCaptured => exact .inr ⟨_, rfl⟩
  | removeSpool hs => rcases hs with ⟨rfl, -⟩ | rfl <;> exact .inl rfl
  | announceSeqErr _ hs => rcases hs with rfl | rfl <;> exact .inl rfl
  | finalizeSeqErr _ hs => rcases hs with rfl | rfl <;> exact .inl rfl
  | uploadErr _ hs _ =>
    subst hs
    exact .inl rfl
  | upload _ hs =>
    subst hs
    exact .inl rfl
  | _ => exact .inl rfl

theorem Move.countsOnce {l : Pt} {i : Input} {s s' : World S} {c : Ctl Pt Unit}
    (h : Move rt l i s s' c) : CountsOnce s s' := by
  cases h with
  | @lease boot i s c d _ hl =>
    unfold StateDb.leaseNextDue at hl
    split at hl
    · cases hl
    · obtain ⟨d', hw, heq⟩ := Option.map_eq_some_iff.mp hl
      cases heq
      exact .inl (countsOnce_write hw)
  | proc hp => exact hp.countsOnce
  | errRetry hw => exact .inl (countsOnce_write hw)
  | @renew handle i s =>
    unfold renewed
    split
    · exact .refl _
    · split
      · exact .refl _
      · dsimp only
        split
        · exact .inl rfl
        · split
          · exact .inl rfl
          · next hw => exact .inl (countsOnce_write hw)
  | flushSendErr hs =>
    subst hs
    exact .inl rfl
  | flushSend _ hs =>
    subst hs
    exact .inl rfl
  | _ => exact .inl rfl

theorem Beats.store_wake {cfg : BeatConfig} {v v' : Beats} (h : v.step cfg .wake = some v') :
    v'.store = v.store := by
  rw [Beats.step] at h
  cases hround : v.round with
  | none =>
    rw [hround] at h
    obtain rfl := Option.some.inj h
    rfl
  | some p =>
    rw [hround] at h
    cases h

/-- The store of the loop, with the database and the spool of the machine. -/
def BeatStore.on (b : BeatStore) (s : World S) : BeatStore := { b with db := s.db, spool := s.spool }

/-- A step that counts once is a change of something else, and an increment or none. -/
theorem CountsOnce.beats {cfg : BeatConfig} {s s' : World S} (hc : CountsOnce s s')
    {s₀ : BeatStore} {h : Beats.Hist} {v : Beats} (hr : Beats.Reach cfg s₀ h v)
    (hv : v.store.db = s.db) : ∃ h', Beats.Reach cfg s₀ h' { v with store := v.store.on s' } := by
  -- Everything but the counters becomes what the machine leaves.
  let rest : OtherChange :=
    ⟨fun b => { b with db := { s'.db with counters := b.db.counters }, spool := s'.spool },
      fun _ => rfl⟩
  have hrest := hr.step (e := .other rest) rfl
  rcases hc with hsame | ⟨outcome, hone⟩
  · have hdb : { s'.db with counters := v.store.db.counters } = s'.db := by
      rw [hv, ← hsame]
    have hstore : rest.change v.store = v.store.on s' := by
      show ({ v.store with db := { s'.db with counters := v.store.db.counters },
                           spool := s'.spool } : BeatStore) = _
      rw [hdb]
      rfl
    rw [hstore] at hrest
    exact ⟨_, hrest⟩
  · have hcount := hrest.step (e := .incrementCounter outcome false) rfl
    have hdb : ({ s'.db with counters := v.store.db.counters } : StateDb).incrementCounter outcome =
        s'.db := by
      have heq : ({ s'.db with counters := v.store.db.counters } : StateDb).incrementCounter outcome =
          { s'.db with counters := (s.db.incrementCounter outcome).counters } := by
        rw [hv]
        rfl
      rw [heq, ← hone]
    have hstore : { v with store := v.store.on s' } =
        Beats.withDb { v with store := rest.change v.store }
          ((rest.change v.store).db.incrementCounter outcome) := by
      show _ = Beats.mk { rest.change v.store with
        db := ({ s'.db with counters := v.store.db.counters } : StateDb).incrementCounter outcome } _
      rw [hdb]
      rfl
    rw [hstore]
    exact ⟨_, hcount⟩

/-- The capture machine with the loop beside it: a statement of one or of the other. -/
inductive Beating (rt : Runtime S) (cfg : BeatConfig) : World S × Beats → World S × Beats → Prop where
  | machine {l i s s' c v} : Move rt l i s s' c →
      Beating rt cfg (s, v) (s', { v with store := v.store.on s' })
  | wake {s v v'} : v.step cfg .wake = some v' → Beating rt cfg (s, v) (s, v')
  | exec {i s v v'} : v.step cfg (.exec i) = some v' →
      Beating rt cfg (s, v) ({ s with db := v'.store.db }, v')

/-- **Simulation.**  In whatever order the statements of the machine and of the loop come, the
loop is one of `Beats`, whose others count as the machine does. -/
theorem Beating.reach {cfg : BeatConfig} {s₀ : World S} {b : BeatStore} {w : World S × Beats}
    (hrun : Relation.ReflTransGen (Beating rt cfg) (s₀, Beats.start (b.on s₀)) w) :
    w.2.store.db = w.1.db ∧ ∃ h, Beats.Reach cfg (b.on s₀) h w.2 := by
  induction hrun with
  | refl => exact ⟨rfl, [], .start⟩
  | tail _ hstep ih =>
    obtain ⟨hdb, h, hr⟩ := ih
    cases hstep with
    | machine hm => exact ⟨rfl, hm.countsOnce.beats hr hdb⟩
    | wake hs =>
      refine ⟨?_, _, hr.step hs⟩
      rw [← hdb]
      exact congrArg (fun b => b.db) (Beats.store_wake hs)
    | exec hs => exact ⟨rfl, _, hr.step hs⟩

end Corpus.Agent
