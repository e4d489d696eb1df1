/-
The agent's durable state (`state.rs`).

`StateDb` is the SQLite database of one agent.  Each method of the source is one
operation here; all of them hold the connection's mutex from start to end, so an
operation is one step however many SQL statements it runs.

* `Candidates` — the capture queue.  Its fields carry the two constraints of the
  schema: ids come from `AUTOINCREMENT`, and at most one active row per path
  (`idx_candidate_active_path`).  An `UPDATE` that would break the second fails.
* `RowWrite` — the forms of `UPDATE candidate`; they all name one id.
* `Gaps` — the rows of `pending_gap`, again with ids that are never given out twice.

The identity table is kept as a record of the keys the modelled functions use; the
boot id is stored as the text of a UUID, so it is that UUID here, and
`agent_sequence` is stored as decimal text and read back as an integer, so it is a
number here.
-/
import Corpus.Store
import Mathlib.Data.List.Sort

namespace Corpus.Agent

/-! ### The capture queue -/

/-- The states of `state::states`. -/
inductive CaptureState where
  | observed
  | debouncing
  | opening
  | copyingAndHashing
  | hashed
  | announced
  | dedupHit
  | uploadRequired
  | uploading
  | finalizing
  | occurrenceQueued
  | complete
  | gapRecorded
  deriving DecidableEq

/-- `state NOT IN ('complete','gap_recorded')`. -/
def CaptureState.active : CaptureState → Bool
  | complete | gapRecorded => false
  | _ => true

/-- A row of `candidate`.  A spool path is `spool_dir/spool-<uuid>`, kept as its
uuid. -/
structure Candidate where
  id : ℕ
  path : String
  priority : ℤ
  captureReason : String
  state : CaptureState
  attempts : ℕ
  nextRetryAt : Time
  sizeBytes : Option ℤ
  sha256 : Option String
  spoolPath : Option Uuid
  terminalReason : Option String
  deriving DecidableEq

/-- The paths of the active rows, as `idx_candidate_active_path` lists them. -/
def activePaths (rows : List Candidate) : List String :=
  (rows.filter fun c => c.state.active).map Candidate.path

/-- The table `candidate`. -/
structure Candidates where
  table : Table Candidate.id
  lastId : ℕ
  issued : ∀ c ∈ table.rows, c.id ≤ lastId
  activeOnce : (activePaths table.rows).Nodup

/-- What an `UPDATE candidate … WHERE id = ?` sets. -/
inductive RowWrite where
  | transition (new : CaptureState)
  | retry (at_ : Time)
  | defer (at_ : Time)
  | renew (at_ : Time)
  | hashed (sha256 : String) (size : ℤ) (spool : Uuid)
  | gap (reason : String)

def RowWrite.apply : RowWrite → Candidate → Candidate
  | transition new, c => { c with state := new }
  | retry t, c => { c with attempts := c.attempts + 1, nextRetryAt := t }
  | defer t, c => { c with nextRetryAt := t }
  | renew t, c => if c.state.active then { c with nextRetryAt := t } else c
  | hashed sha size spool, c =>
    { c with state := .hashed, sha256 := some sha, sizeBytes := some size, spoolPath := some spool }
  | gap reason, c => { c with state := .gapRecorded, terminalReason := some reason }

@[simp] theorem RowWrite.apply_id (w : RowWrite) (c : Candidate) : (w.apply c).id = c.id := by
  cases w <;> simp only [apply]
  split <;> rfl

@[simp] theorem RowWrite.apply_path (w : RowWrite) (c : Candidate) :
    (w.apply c).path = c.path := by
  cases w <;> simp only [apply]
  split <;> rfl

namespace Candidates

/-- The queue of a new agent. -/
def empty : Candidates := ⟨.empty, 0, fun _ h => absurd h List.not_mem_nil, List.nodup_nil⟩

/-- The row of a candidate. -/
def get (t : Candidates) (id : ℕ) : Option Candidate := t.table.get id

/-- The rows an update of `id` leaves. -/
def written (t : Candidates) (id : ℕ) (w : RowWrite) : Table Candidate.id :=
  t.table.updateWhere (fun c => c.id = id) w.apply w.apply_id

/-- An update of one row; `none` when the unique index refuses it. -/
def write (t : Candidates) (id : ℕ) (w : RowWrite) : Option Candidates :=
  if h : (activePaths (t.written id w).rows).Nodup then
    some
      { table := t.written id w
        lastId := t.lastId
        issued := by
          intro c hc
          obtain ⟨d, hd, rfl⟩ := List.mem_map.mp hc
          have : (if d.id = id then w.apply d else d).id = d.id := by split <;> simp
          simpa [this] using t.issued d hd
        activeOnce := h }
  else none

/-- The row `enqueue` inserts. -/
def newRow (t : Candidates) (path : String) (priority : ℤ) (reason : String) (debouncing : Bool)
    (due : Time) : Candidate :=
  ⟨t.lastId + 1, path, priority, reason, if debouncing then .debouncing else .observed, 0, due,
    none, none, none, none⟩

theorem nodup_insertNew {t : Candidates} {row : Candidate}
    (h : row.path ∉ activePaths t.table.rows) :
    (activePaths (t.table.insertNew row).rows).Nodup := by
  unfold Table.insertNew
  split
  · exact t.activeOnce
  · rw [activePaths, List.filter_append, List.map_append, List.nodup_append]
    refine ⟨t.activeOnce, ?_, fun a ha b hb => ?_⟩
    · by_cases hr : row.state.active = true <;> simp [hr]
    · rintro rfl
      obtain ⟨c, hc, rfl⟩ := List.mem_map.mp hb
      rw [List.mem_singleton.mp (List.mem_filter.mp hc).1] at ha
      exact h ha

/-- An id is used up by a row that is not inserted. -/
def skipId (t : Candidates) : Candidates :=
  { t with
    lastId := t.lastId + 1
    issued := fun c hc => Nat.le_succ_of_le (t.issued c hc) }

/-- `INSERT INTO candidate … ON CONFLICT(path) WHERE … DO NOTHING`. -/
def insert (t : Candidates) (path : String) (priority : ℤ) (reason : String)
    (debouncing : Bool) (due : Time) : Candidates × Option ℕ :=
  if h : path ∈ activePaths t.table.rows then (t.skipId, none)
  else
    ({ table := t.table.insertNew (t.newRow path priority reason debouncing due)
       lastId := t.lastId + 1
       issued := by
         intro c hc
         rcases Table.mem_insertNew hc with hc | rfl
         · exact Nat.le_succ_of_le (t.issued c hc)
         · exact Nat.le_refl _
       activeOnce := nodup_insertNew h }, some (t.lastId + 1))

/-- Due before: `ORDER BY priority ASC, id ASC`. -/
def before (a b : Candidate) : Bool :=
  a.priority < b.priority || (a.priority = b.priority && a.id ≤ b.id)

/-- The row `lease_next_due` picks. -/
def nextDue (t : Candidates) (now : Time) : Option Candidate :=
  ((t.table.rows.filter fun c : Candidate =>
    c.state.active && decide (c.nextRetryAt ≤ now)).insertionSort fun a b => before a b = true).head?

/-! ### What the operations do to a row -/

theorem get_id {t : Candidates} {id : ℕ} {c : Candidate} (h : t.get id = some c) : c.id = id :=
  (Table.mem_of_get h).2

theorem get_le {t : Candidates} {id : ℕ} {c : Candidate} (h : t.get id = some c) :
    id ≤ t.lastId := by
  obtain ⟨hm, rfl⟩ := Table.mem_of_get h
  exact t.issued c hm

theorem get_write {t t' : Candidates} {id : ℕ} {w : RowWrite} (h : t.write id w = some t') (k : ℕ) :
    t'.get k = (t.get k).map fun c => if k = id then w.apply c else c := by
  unfold write at h
  split at h
  · obtain rfl := Option.some.inj h
    show (t.written id w).get k = _
    rw [written, Table.get_updateWhere]
    cases hk : t.table.get k with
    | none => simp [get, hk]
    | some c =>
      have : c.id = k := (Table.mem_of_get hk).2
      simp [get, hk, this]
  · cases h

theorem get_write_self {t t' : Candidates} {id : ℕ} {w : RowWrite} {c : Candidate}
    (h : t.write id w = some t') (hc : t.get id = some c) : t'.get id = some (w.apply c) := by
  rw [get_write h, hc, Option.map_some, if_pos rfl]

theorem activePaths_map_sublist {g : Candidate → Candidate} :
    ∀ {rows : List Candidate}, (∀ c ∈ rows, (g c).path = c.path) →
      (∀ c ∈ rows, (g c).state.active = true → c.state.active = true) →
      (activePaths (rows.map g)).Sublist (activePaths rows) := by
  intro rows
  induction rows with
  | nil => exact fun _ _ => .slnil
  | cons c rows ih =>
    intro hpath hact
    have ih' := ih (fun d hd => hpath d (List.mem_cons_of_mem _ hd))
      fun d hd => hact d (List.mem_cons_of_mem _ hd)
    have hc := hact c (List.mem_cons_self ..)
    unfold activePaths at ih' ⊢
    rw [List.map_cons, List.filter_cons, List.filter_cons]
    by_cases hg : (g c).state.active = true
    · rw [if_pos hg, if_pos (hc hg), List.map_cons, List.map_cons, hpath c (List.mem_cons_self ..)]
      exact ih'.cons_cons _
    · rw [if_neg hg]
      split
      · exact ih'.cons _
      · exact ih'

/-- An update that does not make a finished row active again meets no conflict. -/
theorem write_of_active {t : Candidates} {id : ℕ} {w : RowWrite}
    (h : ∀ c, t.get id = some c → (w.apply c).state.active = true → c.state.active = true) :
    ∃ t', t.write id w = some t' := by
  have hsub : (activePaths (t.written id w).rows).Sublist (activePaths t.table.rows) := by
    refine activePaths_map_sublist (fun c _ => ?_) fun c hc hact => ?_
    · split
      · exact w.apply_path c
      · rfl
    · by_cases hid : c.id = id
      · rw [if_pos (by simpa using hid)] at hact
        exact h c (hid ▸ Table.mem_rows_iff.mp hc) hact
      · rw [if_neg (by simpa using hid)] at hact
        exact hact
  rw [write, dif_pos (t.activeOnce.sublist hsub)]
  exact ⟨_, rfl⟩

/-- `enqueue` leaves every row alone and may add one, with a new id. -/
theorem get_insert (t : Candidates) (path : String) (priority : ℤ) (reason : String)
    (debouncing : Bool) (due : Time) (k : ℕ) :
    (t.insert path priority reason debouncing due).1.get k = t.get k ∨
      k = t.lastId + 1 ∧ t.get k = none ∧ path ∉ activePaths t.table.rows ∧
        (t.insert path priority reason debouncing due).1.get k =
          some (t.newRow path priority reason debouncing due) := by
  unfold insert
  split
  · exact .inl rfl
  · next hp =>
    have hget := Table.get_insertNew t.table (t.newRow path priority reason debouncing due) k
    cases hk : t.table.get k with
    | some c =>
      left
      show Table.get _ k = t.table.get k
      rw [hget, hk, Option.some_or]
    | none =>
      by_cases hid : t.lastId + 1 = k
      · right
        refine ⟨hid.symm, hk, hp, ?_⟩
        show Table.get _ k = _
        rw [hget, hk, Option.none_or]
        exact if_pos hid
      · left
        show Table.get _ k = t.table.get k
        rw [hget, hk, Option.none_or]
        exact if_neg hid

theorem nextDue_some {t : Candidates} {now : Time} {c : Candidate} (h : t.nextDue now = some c) :
    t.get c.id = some c ∧ c.state.active = true ∧ c.nextRetryAt ≤ now := by
  have hm : c ∈ (t.table.rows.filter fun c : Candidate =>
      c.state.active && decide (c.nextRetryAt ≤ now)).insertionSort fun a b => before a b = true :=
    List.mem_of_mem_head? h
  rw [List.mem_insertionSort, List.mem_filter] at hm
  obtain ⟨hc, hdue⟩ := hm
  have hdue' : c.state.active = true ∧ c.nextRetryAt ≤ now := by simpa using hdue
  exact ⟨Table.mem_rows_iff.mp hc, hdue'⟩

/-- No row that is active and due has a smaller priority than the one picked. -/
theorem nextDue_le {t : Candidates} {now : Time} {c r : Candidate} (h : t.nextDue now = some c)
    (hr : r ∈ t.table.rows) (hact : r.state.active = true) (hdue : r.nextRetryAt ≤ now) :
    c.priority ≤ r.priority := by
  have hle : ∀ {a b : Candidate}, before a b = true →
      a.priority < b.priority ∨ a.priority = b.priority ∧ a.id ≤ b.id := fun hab => by
    simpa [before] using hab
  have hof : ∀ {a b : Candidate}, a.priority < b.priority ∨ a.priority = b.priority ∧ a.id ≤ b.id →
      before a b = true := fun hab => by simpa [before] using hab
  have htotal : Std.Total fun a b : Candidate => before a b = true := ⟨fun a b => by
    rcases lt_trichotomy a.priority b.priority with hlt | heq | hlt
    · exact .inl (hof (.inl hlt))
    · exact (Nat.le_total a.id b.id).imp (fun hid => hof (.inr ⟨heq, hid⟩))
        fun hid => hof (.inr ⟨heq.symm, hid⟩)
    · exact .inr (hof (.inl hlt))⟩
  have htrans : IsTrans Candidate fun a b => before a b = true := ⟨fun a b d hab hbd => by
    have hab := hle hab
    have hbd := hle hbd
    exact hof (by omega)⟩
  obtain ⟨rest, hsorted⟩ := List.head?_eq_some_iff.mp h
  have hmem : r ∈ c :: rest := by
    rw [← hsorted, List.mem_insertionSort, List.mem_filter]
    exact ⟨hr, by simp [hact, hdue]⟩
  have hpair := List.pairwise_insertionSort (fun a b : Candidate => before a b = true)
    (t.table.rows.filter fun c : Candidate => c.state.active && decide (c.nextRetryAt ≤ now))
  rw [hsorted] at hpair
  rcases List.mem_cons.mp hmem with rfl | hmem
  · exact le_refl _
  · have := hle (List.rel_of_pairwise_cons hpair hmem)
    omega

end Candidates

/-! ### Gaps -/

/-- A row of `pending_gap`. -/
structure PendingGap where
  id : ℕ
  observedAt : String
  captureReason : String
  terminalOutcome : String
  artifactSha256 : Option String
  path : Option String
  detailCode : Option String
  detail : String

/-- The table `pending_gap`. -/
structure Gaps where
  table : Table PendingGap.id
  lastId : ℕ
  issued : ∀ g ∈ table.rows, g.id ≤ lastId

namespace Gaps

def empty : Gaps := ⟨.empty, 0, fun _ h => absurd h List.not_mem_nil⟩

/-- `INSERT INTO pending_gap`; the id is the next of the sequence. -/
def insert (t : Gaps) (g : PendingGap) : Gaps where
  table := t.table.insertNew { g with id := t.lastId + 1 }
  lastId := t.lastId + 1
  issued := by
    intro x hx
    rcases Table.mem_insertNew hx with hx | rfl
    · exact Nat.le_succ_of_le (t.issued x hx)
    · exact Nat.le_refl _

/-- `DELETE FROM pending_gap WHERE id = ?`. -/
def delete (t : Gaps) (id : ℕ) : Gaps where
  table := t.table.deleteWhere fun g => g.id = id
  lastId := t.lastId
  issued := fun x hx => t.issued x (List.mem_filter.mp hx).1

theorem mem_insert {t : Gaps} {g x : PendingGap} :
    x ∈ (t.insert g).table.rows ↔ x ∈ t.table.rows ∨ x = { g with id := t.lastId + 1 } := by
  refine Table.mem_insertNew_of_none (Table.get_eq_none.mpr fun hm => ?_)
  obtain ⟨y, hy, hid⟩ := List.mem_map.mp hm
  have hle := t.issued y hy
  have : y.id = t.lastId + 1 := hid
  omega

theorem mem_delete {t : Gaps} {id : ℕ} {x : PendingGap} :
    x ∈ (t.delete id).table.rows ↔ x ∈ t.table.rows ∧ x.id ≠ id := by
  simp [delete, List.mem_filter]

end Gaps

/-! ### The database -/

/-- The keys of `identity` that the modelled functions read or write. -/
structure Identity where
  bootId : Option Uuid
  agentSequence : Option ℕ
  uploadId : ℕ → Option Uuid
  lastUploadAt : Option Time

/-- The key of a file in `seen_file`: inode, modification time in seconds, size. -/
abbrev SeenKey := ℤ × ℤ × ℤ

structure StateDb where
  candidates : Candidates
  identity : Identity
  gaps : Gaps
  counters : String → ℕ
  seen : String → Option SeenKey

namespace StateDb

/-- The database of a new agent. -/
def empty : StateDb :=
  ⟨.empty, ⟨none, none, fun _ => none, none⟩, .empty, fun _ => 0, fun _ => none⟩

/-- `set_identity_many(&[("boot_id", b), ("agent_sequence", "0")])`. -/
def setBoot (d : StateDb) (boot : Uuid) : StateDb :=
  { d with identity := { d.identity with bootId := some boot, agentSequence := some 0 } }

/-- `next_sequence`. -/
def nextSequence (d : StateDb) : ℕ × StateDb :=
  let n := d.identity.agentSequence.getD 0 + 1
  (n, { d with identity := { d.identity with agentSequence := some n } })

/-- `set_identity("upload_id:<id>", …)`. -/
def setUploadId (d : StateDb) (id : ℕ) (upload : Uuid) : StateDb :=
  { d with identity :=
    { d.identity with uploadId := Function.update d.identity.uploadId id (some upload) } }

/-- `set_identity("last_upload_at", …)`. -/
def setLastUploadAt (d : StateDb) (now : Time) : StateDb :=
  { d with identity := { d.identity with lastUploadAt := some now } }

/-- `as i64`, of a `u64`. -/
def asI64 (n : ℕ) : ℤ := (UInt64.ofNat n).toInt64.toInt

/-- `enqueue` at time `now`. -/
def enqueue (d : StateDb) (now : Time) (path : String) (priority : ℤ) (reason : String)
    (debounceMs : ℕ) : StateDb × Option ℕ :=
  let due := now + (asI64 debounceMs).tdiv 1000
  let r := d.candidates.insert path priority reason (decide (0 < debounceMs)) due
  ({ d with candidates := r.1 }, r.2)

/-- An `UPDATE candidate`. -/
def write (d : StateDb) (id : ℕ) (w : RowWrite) : Option StateDb :=
  (d.candidates.write id w).map fun t => { d with candidates := t }

/-- `transition`. -/
def transition (d : StateDb) (id : ℕ) (new : CaptureState) : Option StateDb :=
  d.write id (.transition new)

/-- `set_retry`. -/
def setRetry (d : StateDb) (id : ℕ) (at_ : Time) : Option StateDb := d.write id (.retry at_)

/-- `defer`. -/
def defer (d : StateDb) (id : ℕ) (at_ : Time) : Option StateDb := d.write id (.defer at_)

/-- `renew_lease` at time `now`. -/
def renewLease (d : StateDb) (now : Time) (id : ℕ) (leaseSecs : ℤ) : Option StateDb :=
  d.write id (.renew (now + leaseSecs))

/-- `set_hashed`. -/
def setHashed (d : StateDb) (id : ℕ) (sha256 : String) (size : ℤ) (spool : Uuid) :
    Option StateDb :=
  d.write id (.hashed sha256 size spool)

/-- `finish_gap`. -/
def finishGap (d : StateDb) (id : ℕ) (reason : String) : Option StateDb := d.write id (.gap reason)

/-- `get`. -/
def get (d : StateDb) (id : ℕ) : Option Candidate := d.candidates.get id

/-- `lease_next_due` at time `now`: the row picked, with its new retry time. -/
def leaseNextDue (d : StateDb) (now : Time) (leaseSecs : ℤ) : Option (Option Candidate × StateDb) :=
  match d.candidates.nextDue now with
  | none => some (none, d)
  | some c =>
    let w := RowWrite.defer (now + leaseSecs)
    (d.write c.id w).map fun d' => (some (w.apply c), d')

/-- The first statement of `record_gap`. -/
def insertGap (d : StateDb) (g : PendingGap) : StateDb := { d with gaps := d.gaps.insert g }

/-- `increment_counter`, and the second statement of `record_gap`. -/
def incrementCounter (d : StateDb) (outcome : String) : StateDb :=
  { d with counters := Function.update d.counters outcome (d.counters outcome + 1) }

/-- `pending_gaps`. -/
def pendingGaps (d : StateDb) (limit : ℕ) : List PendingGap :=
  (d.gaps.table.rows.insertionSort fun a b => a.id ≤ b.id).take limit

theorem mem_of_pendingGaps {d : StateDb} {limit : ℕ} {g : PendingGap}
    (h : g ∈ d.pendingGaps limit) : g ∈ d.gaps.table.rows :=
  (List.mem_insertionSort _).mp (List.mem_of_mem_take h)

/-- One statement of `delete_gaps`. -/
def deleteGap (d : StateDb) (id : ℕ) : StateDb := { d with gaps := d.gaps.delete id }

/-- `seen_check_and_update`: whether the key is new, and the updated snapshot. -/
def seenCheckAndUpdate (d : StateDb) (path : String) (key : SeenKey) : Bool × StateDb :=
  if d.seen path = some key then (false, d)
  else (true, { d with seen := Function.update d.seen path (some key) })

theorem write_some {d d' : StateDb} {id : ℕ} {w : RowWrite} (h : d.write id w = some d') :
    ∃ t, d.candidates.write id w = some t ∧ d' = { d with candidates := t } := by
  obtain ⟨t, ht, rfl⟩ := Option.map_eq_some_iff.mp h
  exact ⟨t, ht, rfl⟩

/-- A leased row was active and due, and has its lease pushed out. -/
theorem leaseNextDue_some {d d' : StateDb} {now : Time} {secs : ℤ} {c : Candidate}
    (h : d.leaseNextDue now secs = some (some c, d')) :
    ∃ r, d.get r.id = some r ∧ r.state.active = true ∧ r.nextRetryAt ≤ now ∧
      c = (RowWrite.defer (now + secs)).apply r ∧
      d.write r.id (.defer (now + secs)) = some d' := by
  unfold leaseNextDue at h
  split at h
  · cases h
  · next r hr =>
    obtain ⟨d'', hw, heq⟩ := Option.map_eq_some_iff.mp h
    obtain ⟨rfl, rfl⟩ := Prod.mk.inj heq |>.imp_left Option.some.inj
    obtain ⟨hget, hact, hdue⟩ := Candidates.nextDue_some hr
    exact ⟨r, hget, hact, hdue, rfl, hw⟩

end StateDb

end Corpus.Agent
