/-
The fanotify sensor (`sensors/fanotify.rs`).

One thread reads what the kernel reports, sends it on and closes the descriptors that the kernel
has opened; another takes what was sent and enqueues the paths.  Either may stop anywhere.

* `drainBuffer` — the loop over a buffer, with its operations that may panic;
* `drainBuffer_pack` — a buffer of events is gone through to its end, whatever lies behind it;
* `Move` — the steps of the two threads, and `Ledger`, the account that they keep;
* `sensor_exact` — what was reported is handled once, and each descriptor closed once.

The kernel is an input: the events of a read, where the links of their descriptors lead, and
what an earlier read has left in the buffer.
-/
import Corpus.Agent.Buffers
import Corpus.Agent.Reconcile
import Corpus.Census
import Mathlib.Data.Multiset.Bind
import Mathlib.Tactic.Abel

namespace Corpus.Agent.Fanotify

open Checked
open Reconcile (SharedDb Active)

/-! ### Events -/

/-- The fields of `fanotify_event_metadata` that are read. -/
structure Metadata where
  eventLen : ℕ
  mask : UInt64
  fd : Int32
  deriving DecidableEq

/-- `METADATA_LEN`. -/
def metadataLen : ℕ := 24

def fanMovedTo : UInt64 := 0x80

def fanOpenExec : UInt64 := 0x1000

def fanQOverflow : UInt64 := 0x4000

def fanOnDir : UInt64 := 0x40000000

/-- `SensorEventKind`. -/
inductive SensorEventKind (P : Type) where
  | file (path : P) (priority : ℤ) (reason : String)
  | overflow
  deriving DecidableEq

/-- What the reader does. -/
inductive Action (P : Type) where
  | send (e : SensorEventKind P)
  | close (fd : Int32)
  deriving DecidableEq

variable {P : Type}

/-- The priority and the reason of a file event. -/
def Metadata.cause (md : Metadata) : ℤ × String :=
  if md.mask &&& fanOpenExec ≠ 0 then (1, "exec_open")
  else if md.mask &&& fanMovedTo ≠ 0 then (2, "moved_to")
  else (2, "close_write")

/-- What is done about an event; `readLink` says where a descriptor leads. -/
def Metadata.actions (md : Metadata) (readLink : Int32 → Option P) : List (Action P) :=
  if md.mask &&& fanQOverflow ≠ 0 then [.send .overflow]
  else if 0 ≤ md.fd then
    (match readLink md.fd with
      | some path =>
        if md.mask &&& fanOnDir ≠ 0 then []
        else [.send (.file path md.cause.1 md.cause.2)]
      | none => []) ++ [.close md.fd]
  else []

/-- The metadata in its 24 bytes. -/
def Metadata.ofBytes (bytes : Bytes) : Metadata where
  eventLen := fieldAt bytes 0 4
  mask := UInt64.ofNat (fieldAt bytes 8 8)
  fd := (UInt32.ofNat (fieldAt bytes 16 4)).toInt32

/-- `read_unaligned` at an offset. -/
def readMetadata (m : Arith) (buf : Bytes) (offset : ℕ) : Checked Metadata := do
  let stop ← m.add 64 offset metadataLen
  let bytes ← checkedRange buf offset stop
  return .ofBytes bytes

/-- A round of the loop over the first `n` bytes of the buffer. -/
def drainRound (m : Arith) (buf : Bytes) (n : ℕ) (readLink : Int32 → Option P) (offset : ℕ) :
    Checked (Round ℕ (Action P)) := do
  let least ← m.add 64 offset metadataLen
  if n < least then return .stop []
  else do
    let md ← readMetadata m buf offset
    if md.eventLen < metadataLen then return .stop []
    else do
      let stop ← m.add 64 offset md.eventLen
      if n < stop then return .stop []
      else do
        let next ← m.add 64 offset md.eventLen
        return .next (md.actions readLink) next

/-- The loop of `drain_fd` over a buffer, in so many rounds. -/
def drainBuffer (m : Arith) (buf : Bytes) (n : ℕ) (readLink : Int32 → Option P) (rounds : ℕ) :
    Option (Checked (List (Action P))) :=
  loopFrom (drainRound m buf n readLink) rounds 0

/-- An event as the kernel lays it out.  An overflow has no descriptor. -/
structure FanEvent where
  vers : UInt8
  mask : UInt64
  fd : Int32
  pid : UInt32
  info : Bytes
  short : metadataLen + info.length < 2 ^ 32
  noFd : mask &&& fanQOverflow ≠ 0 → ¬ 0 ≤ fd

namespace FanEvent

def eventLen (e : FanEvent) : ℕ := metadataLen + e.info.length

def metadata (e : FanEvent) : Metadata := ⟨e.eventLen, e.mask, e.fd⟩

def parts (e : FanEvent) : List Bytes :=
  [toLe 4 e.eventLen, [e.vers, 0], toLe 2 metadataLen, toLe 8 e.mask.toNat,
    toLe 4 e.fd.toUInt32.toNat, toLe 4 e.pid.toNat]

def bytes (e : FanEvent) : Bytes := e.parts.flatten ++ e.info

/-- The descriptors that come with the event. -/
def fds (e : FanEvent) : Multiset Int32 := if 0 ≤ e.fd then {e.fd} else 0

end FanEvent

/-- What a read gives. -/
def pack (events : List FanEvent) : Bytes := events.flatMap FanEvent.bytes

section Layout

variable {m : Arith} {buf : Bytes} {n offset : ℕ} {readLink : Int32 → Option P}

theorem FanEvent.length_parts (e : FanEvent) : e.parts.flatten.length = metadataLen := by
  simp [parts, length_toLe, metadataLen]

theorem FanEvent.length_bytes (e : FanEvent) : e.bytes.length = e.eventLen := by
  rw [bytes, List.length_append, e.length_parts, eventLen]

theorem FanEvent.take_bytes (e : FanEvent) (rest : Bytes) :
    (e.bytes ++ rest).take metadataLen = e.parts.flatten := by
  rw [bytes, List.append_assoc]
  exact List.take_left' e.length_parts

/-- The metadata is read as it was laid out. -/
theorem FanEvent.ofBytes_parts (e : FanEvent) : Metadata.ofBytes e.parts.flatten = e.metadata := by
  have hfield : ∀ {i k n x : ℕ}, e.parts[i]? = some (toLe n x) →
      ((e.parts.map List.length).take i).sum = k → x < 256 ^ n →
      fieldAt e.parts.flatten k n = x := by
    intro i k n x hpart hk hx
    have := fieldAt_parts hpart hk hx []
    rwa [List.append_nil] at this
  have hlen : fieldAt e.parts.flatten 0 4 = e.eventLen := hfield (i := 0) rfl rfl e.short
  have hmask : fieldAt e.parts.flatten 8 8 = e.mask.toNat :=
    hfield (i := 3) rfl (by simp [parts, length_toLe]) e.mask.toNat_lt
  have hfd : fieldAt e.parts.flatten 16 4 = e.fd.toUInt32.toNat :=
    hfield (i := 4) rfl (by simp [parts, length_toLe]) e.fd.toUInt32.toNat_lt
  unfold Metadata.ofBytes metadata
  rw [hlen, hmask, hfd, UInt64.ofNat_toNat, UInt32.ofNat_toNat]
  rfl

/-- What the loop sees of the buffer at an offset. -/
theorem take_drop_take (hn : offset + metadataLen ≤ n) :
    ((buf.take n).drop offset).take metadataLen = (buf.drop offset).take metadataLen := by
  rw [List.drop_take, List.take_take, Nat.min_eq_left (by omega)]

theorem readMetadata_eq (hbuf : buf.length < 2 ^ 63) (hn : n ≤ buf.length)
    (hoffset : offset + metadataLen ≤ n) : readMetadata m buf offset =
      .ok (.ofBytes (((buf.take n).drop offset).take metadataLen)) := by
  unfold readMetadata
  rw [Arith.add_of_lt (by omega), ok_bind, checkedRange_eq_take (by omega) (by omega), ok_bind,
    Nat.add_sub_cancel_left, take_drop_take hoffset]
  rfl

/-- There is no complete event at the start. -/
def Ends (rest : Bytes) : Prop :=
  rest.length < metadataLen ∨ fieldAt (rest.take metadataLen) 0 4 < metadataLen ∨
    rest.length < fieldAt (rest.take metadataLen) 0 4

/-- A round of the loop: it reads inside the buffer, and goes on by the length of the event. -/
theorem drainRound_eq (hbuf : buf.length < 2 ^ 63) (hn : n ≤ buf.length) (hoffset : offset ≤ n) :
    (Ends ((buf.take n).drop offset) → drainRound m buf n readLink offset = .ok (.stop [])) ∧
    (¬ Ends ((buf.take n).drop offset) →
      let md := Metadata.ofBytes (((buf.take n).drop offset).take metadataLen)
      offset + md.eventLen ≤ n ∧ metadataLen ≤ md.eventLen ∧
        drainRound m buf n readLink offset =
          .ok (.next (md.actions readLink) (offset + md.eventLen))) := by
  have hlen : ((buf.take n).drop offset).length = n - offset := by
    rw [List.length_drop, List.length_take, Nat.min_eq_left hn]
  unfold drainRound Ends
  rw [Arith.add_of_lt (by unfold metadataLen; omega), ok_bind, hlen]
  by_cases hleast : n < offset + metadataLen
  · rw [if_pos hleast]
    exact ⟨fun _ => rfl, fun h => absurd (.inl (by omega)) h⟩
  rw [if_neg hleast, readMetadata_eq hbuf hn (by omega), ok_bind]
  have hevent := fieldAt_lt (((buf.take n).drop offset).take metadataLen) 0 4
  obtain ⟨md, hmd⟩ : ∃ md, md = Metadata.ofBytes (((buf.take n).drop offset).take metadataLen) :=
    ⟨_, rfl⟩
  have hfield : fieldAt (((buf.take n).drop offset).take metadataLen) 0 4 = md.eventLen := by
    rw [hmd]
    rfl
  rw [hfield] at hevent ⊢
  rw [← hmd]
  by_cases hshort : md.eventLen < metadataLen
  · rw [if_pos hshort]
    exact ⟨fun _ => rfl, fun h => absurd (.inr (.inl hshort)) h⟩
  rw [if_neg hshort, Arith.add_of_lt (by omega), ok_bind]
  by_cases hfits : n < offset + md.eventLen
  · rw [if_pos hfits]
    exact ⟨fun _ => rfl, fun h => absurd (.inr (.inr (by omega))) h⟩
  rw [if_neg hfits]
  refine ⟨fun h => ?_, fun _ => ⟨by omega, by omega, rfl⟩⟩
  rcases h with h | h | h <;> omega

theorem not_ends_bytes (e : FanEvent) (rest : Bytes) : ¬ Ends (e.bytes ++ rest) := by
  have hlen : fieldAt (e.bytes ++ rest |>.take metadataLen) 0 4 = e.eventLen := by
    rw [e.take_bytes]
    exact congrArg Metadata.eventLen e.ofBytes_parts
  unfold Ends
  rw [hlen, List.length_append, e.length_bytes]
  have : metadataLen ≤ e.eventLen := Nat.le_add_right _ _
  omega

/-- Whatever is in the buffer, the loop reads inside it and ends. -/
theorem drainBuffer_total (hbuf : buf.length < 2 ^ 63) (hn : n ≤ buf.length) :
    ∃ actions, ∀ rounds, n < rounds → drainBuffer m buf n readLink rounds = some (.ok actions) := by
  have hloop : ∃ actions : List (Action P), True ∧ ∀ rounds, n - 0 < rounds →
      loopFrom (drainRound m buf n readLink) rounds 0 = some (.ok actions) := by
    refine loopFrom_spec (I := fun offset => offset ≤ n) (d := fun offset => n - offset)
      (P := fun _ _ => True) (fun offset hoffset => ?_) (Nat.zero_le n)
    obtain ⟨hstop, hnext⟩ := drainRound_eq (m := m) hbuf hn hoffset
    by_cases h : Ends ((buf.take n).drop offset)
    · exact .inl ⟨[], hstop h, trivial⟩
    · obtain ⟨hfits, hlen, hround⟩ := hnext h
      have : 0 < metadataLen := by decide
      exact .inr ⟨_, _, hround, hfits, by omega, fun _ _ => trivial⟩
  obtain ⟨actions, -, hrun⟩ := hloop
  exact ⟨actions, hrun⟩

theorem drain_events (hbuf : buf.length < 2 ^ 63) (hn : n ≤ buf.length) {rest : Bytes}
    (hrest : Ends rest) (events : List FanEvent) : ∀ (offset rounds : ℕ), offset ≤ n →
      (buf.take n).drop offset = pack events ++ rest → events.length < rounds →
      loopFrom (drainRound m buf n readLink) rounds offset =
        some (.ok (events.flatMap fun e => e.metadata.actions readLink)) := by
  induction events with
  | nil =>
    intro offset rounds hoffset hdrop hrounds
    obtain ⟨rounds, rfl⟩ := Nat.exists_eq_add_one_of_ne_zero (Nat.ne_zero_of_lt hrounds)
    exact loopFrom_stop ((drainRound_eq hbuf hn hoffset).1 (hdrop ▸ hrest)) rounds
  | cons e events ih =>
    intro offset rounds hoffset hdrop hrounds
    obtain ⟨rounds, rfl⟩ := Nat.exists_eq_add_one_of_ne_zero (Nat.ne_zero_of_lt hrounds)
    have hcons : (buf.take n).drop offset = e.bytes ++ (pack events ++ rest) := by
      rw [hdrop, pack, List.flatMap_cons, List.append_assoc]
      rfl
    obtain ⟨hfits, -, hround⟩ := (drainRound_eq (m := m) hbuf hn hoffset).2
      (hcons ▸ not_ends_bytes e _)
    have hmd : Metadata.ofBytes (((buf.take n).drop offset).take metadataLen) = e.metadata := by
      rw [hcons, e.take_bytes, e.ofBytes_parts]
    rw [hmd] at hfits hround
    refine loopFrom_next hround (ih _ _ hfits ?_ (Nat.lt_of_succ_lt_succ hrounds))
    have hlen : e.metadata.eventLen = e.bytes.length := e.length_bytes.symm
    rw [← List.drop_drop, hcons, hlen, List.drop_left]

/-- **A buffer of events is gone through to its end**, whatever lies behind them. -/
theorem drainBuffer_pack (hbuf : buf.length < 2 ^ 63) (hn : n ≤ buf.length)
    (events : List FanEvent) {rest : Bytes} (hrest : Ends rest)
    (htake : buf.take n = pack events ++ rest) {rounds : ℕ} (hrounds : events.length < rounds) :
    drainBuffer m buf n readLink rounds =
      some (.ok (events.flatMap fun e => e.metadata.actions readLink)) :=
  drain_events hbuf hn hrest events 0 rounds (Nat.zero_le n) htake hrounds

theorem length_le_pack (events : List FanEvent) : events.length ≤ (pack events).length := by
  induction events with
  | nil => exact le_rfl
  | cons e events ih =>
    have : 0 < e.bytes.length := by
      rw [e.length_bytes]
      exact Nat.lt_of_lt_of_le (by decide) (Nat.le_add_right _ _)
    rw [pack, List.flatMap_cons, List.length_append, List.length_cons]
    unfold pack at ih
    omega

end Layout

/-! ### The two threads -/

/-- How long the buffer of the reader is. -/
def bufLen : ℕ := 64 * 1024

/-- What is read, and when; `wouldBlock` is the error of a read that gives nothing, and `gone` says
that the reader has hung up. -/
structure SensorInput (P : Type) where
  events : List FanEvent
  fits : (pack events).length ≤ bufLen
  readLink : Int32 → Option P
  wouldBlock : Bool
  gone : Bool
  now : Time
  observedAt : String
  db : SharedDb

/-- What the threads share: the database, the channel, and the descriptors that are open.  The
kernel knows what it has told of; `skipped`, `written` and `refused` is what became of it. -/
structure Sensor (P : Type) where
  db : SharedDb
  queue : List (SensorEventKind P)
  fds : Multiset Int32
  told : Multiset (SensorEventKind P)
  skipped : Multiset (SensorEventKind P)
  written : Multiset (SensorEventKind P)
  refused : Multiset (SensorEventKind P)

/-- Where a thread stands. -/
inductive SensorPt (P : Type) where
  | read
  | perform (a : Action P) (rest : List (Action P))
  | recv
  | handle (e : SensorEventKind P)
  | counter
  | others

abbrev SensorProg (P : Type) := Prog (SensorPt P) (Sensor P) (SensorInput P) String

structure SensorConfig (P : Type) where
  arith : Arith
  toStringLossy : P → String
  exclusions : List String
  debounceMs : ℕ

/-- What the kernel tells with an event. -/
def FanEvent.told (e : FanEvent) (readLink : Int32 → Option P) : Multiset (SensorEventKind P) :=
  if e.mask &&& fanQOverflow ≠ 0 then {.overflow}
  else if 0 ≤ e.fd ∧ e.mask &&& fanOnDir = 0 then
    match readLink e.fd with
    | some path => {.file path e.metadata.cause.1 e.metadata.cause.2}
    | none => 0
  else 0

namespace SensorInput

variable (i : SensorInput P)

def told : Multiset (SensorEventKind P) := (i.events.map fun e => e.told i.readLink).sum

def fds : Multiset Int32 := (i.events.map FanEvent.fds).sum

def actions : List (Action P) := i.events.flatMap fun e => e.metadata.actions i.readLink

end SensorInput

namespace Sensor

def read (s : Sensor P) (i : SensorInput P) : Sensor P :=
  { s with fds := s.fds + i.fds, told := s.told + i.told }

/-- A send finds its receiver: nothing in `run` panics, so while the reader is there, the consumer
stops with the whole agent only, and then nothing is sent any more. -/
def perform (s : Sensor P) : Action P → Sensor P
  | .send e => { s with queue := s.queue ++ [e] }
  | .close fd => { s with fds := s.fds.erase fd }

/-- `rx.recv()`, of an event that is not excluded. -/
def recv (s : Sensor P) : Sensor P := { s with queue := s.queue.tail }

/-- The event is in the database, or has been refused. -/
def asked (s : Sensor P) (e : SensorEventKind P) (content : StateDb) : Sensor P :=
  if s.db.up then { s with db := { s.db with content := content }, written := e ::ₘ s.written }
  else { s with refused := e ::ₘ s.refused }

end Sensor

/-- `record_gap` of an overflow, its first statement. -/
def overflowGap (i : SensorInput P) : PendingGap where
  id := 0
  observedAt := i.observedAt
  captureReason := "fanotify"
  terminalOutcome := "SENSOR_OVERFLOW"
  artifactSha256 := none
  path := none
  detailCode := some "QUEUE_OVERFLOW"
  detail := "\x7b\x7d"

section Threads

variable (cfg : SensorConfig P)

def performAll : List (Action P) → SensorProg P Unit
  | [] => .ret ()
  | a :: rest => .stmt (.perform a rest) (fun s _ => s.perform a) fun _ _ => performAll rest

/-- `drain_fd`, in so many reads. -/
def drainFd : ℕ → Bytes → SensorProg P Unit
  | 0, _ => .ret ()
  | reads + 1, buf =>
    .stmt .read Sensor.read fun _ i =>
      let bytes := pack i.events
      if bytes.length = 0 then
        if i.wouldBlock then drainFd reads buf else .ret ()
      else
        -- What an earlier read has left behind the new bytes is still there.
        let buf := bytes ++ buf.drop bytes.length
        match drainBuffer cfg.arith buf bytes.length i.readLink (bytes.length + 1) with
        | some (.ok actions) => performAll actions >>= fun _ => drainFd reads buf
        | some (.error _) | none => .err "panic"

/-- The event is one of an excluded path. -/
def excluded : SensorEventKind P → Bool
  | .file path _ _ => matchesExclusion cfg.exclusions (cfg.toStringLossy path)
  | .overflow => false

/-- An event is handled. -/
def handle (e : SensorEventKind P) (rest : SensorProg P Unit) : SensorProg P Unit :=
  match e with
  | .file path priority reason =>
    .stmt (.handle (.file path priority reason)) (fun s i =>
      s.asked (.file path priority reason)
        (s.db.content.enqueue i.now (cfg.toStringLossy path) priority reason cfg.debounceMs).1)
      fun _ _ => rest
  | .overflow =>
    .stmt (.handle .overflow)
      (fun s i => s.asked .overflow (s.db.content.insertGap (overflowGap i))) fun s _ =>
        if s.db.up then
          .stmt .counter (fun s _ =>
            if s.db.up then
              { s with db :=
                { s.db with content := s.db.content.incrementCounter "SENSOR_OVERFLOW" } }
            else s) fun _ _ => rest
        else rest

/-- `FanotifySensor::run`, in so many turns. -/
def run : ℕ → SensorProg P Unit
  | 0 => .ret ()
  | turns + 1 =>
    .stmt .recv (fun s _ =>
      match s.queue with
      | [] => s
      | e :: queue =>
        if excluded cfg e then { s with queue := queue, skipped := e ::ₘ s.skipped }
        else { s with queue := queue }) fun s i =>
      match s.queue with
      | [] => if i.gone then .ret () else run turns
      | e :: _ => if excluded cfg e then run turns else handle cfg e (run turns)

/-- The threads, each for a while; the other threads of the agent do with the database whatever
they like. -/
inductive SensorCall where
  | reader (reads : ℕ)
  | run (turns : ℕ)
  | others

def sensor : SensorCall → SensorProg P Unit
  | .reader reads => drainFd cfg reads (List.replicate bufLen 0)
  | .run turns => run cfg turns
  | .others => Prog.update .others fun s i => { s with db := i.db }

end Threads

/-! ### Steps -/

section Moves

variable {cfg : SensorConfig P}

/-- The reader stands before these actions. -/
def ReaderAt (actions : List (Action P)) (c : Ctl (SensorPt P) Unit) : Prop :=
  match actions with
  | [] => c = .at .read ∨ c = .done ()
  | a :: rest => c = .at (.perform a rest)

/-- The other thread has nothing in its hands. -/
def RunAt (c : Ctl (SensorPt P) Unit) : Prop := c = .at .recv ∨ c = .at .counter ∨ c = .done ()

/-- The event has left its trace in the database. -/
def Recorded (cfg : SensorConfig P) (db : SharedDb) : SensorEventKind P → Prop
  | .file path _ _ => Active db (cfg.toStringLossy path)
  | .overflow => ∃ g ∈ db.content.gaps.table.rows, g.captureReason = "fanotify" ∧
      g.terminalOutcome = "SENSOR_OVERFLOW" ∧ g.detailCode = some "QUEUE_OVERFLOW"

/-- The steps of the threads. -/
inductive Move (cfg : SensorConfig P) : SensorPt P → SensorInput P → Sensor P → Sensor P →
    Ctl (SensorPt P) Unit → Prop where
  | read {i : SensorInput P} {s : Sensor P} {c : Ctl (SensorPt P) Unit} :
      ReaderAt i.actions c → Move cfg .read i s (s.read i) c
  | perform {a : Action P} {rest : List (Action P)} {i : SensorInput P} {s : Sensor P}
      {c : Ctl (SensorPt P) Unit} :
      ReaderAt rest c → Move cfg (.perform a rest) i s (s.perform a) c
  | wait {i : SensorInput P} {s : Sensor P} {c : Ctl (SensorPt P) Unit} :
      RunAt c → Move cfg .recv i s s c
  | skip {e : SensorEventKind P} {queue : List (SensorEventKind P)} {i : SensorInput P}
      {s : Sensor P} {c : Ctl (SensorPt P) Unit} :
      s.queue = e :: queue → excluded cfg e = true → RunAt c →
        Move cfg .recv i s { s with queue := queue, skipped := e ::ₘ s.skipped } c
  | take {e : SensorEventKind P} {queue : List (SensorEventKind P)} {i : SensorInput P}
      {s : Sensor P} : s.queue = e :: queue →
        Move cfg .recv i s { s with queue := queue } (.at (.handle e))
  | handle {e : SensorEventKind P} {content : StateDb} {i : SensorInput P} {s : Sensor P}
      {c : Ctl (SensorPt P) Unit} : (s.db.up = true → Recorded cfg (s.asked e content).db e) →
        RunAt c → Move cfg (.handle e) i s (s.asked e content) c
  | other {l : SensorPt P} {i : SensorInput P} {db : SharedDb} {s : Sensor P}
      {c : Ctl (SensorPt P) Unit} : l = .counter ∨ l = .others → RunAt c →
        Move cfg l i s { s with db := db } c

theorem readerAt_drainFd (reads : ℕ) (buf : Bytes) :
    ReaderAt [] (drainFd cfg reads buf).ctl := by
  cases reads with
  | zero => exact .inr rfl
  | succ reads => exact .inl rfl

theorem runAt_run (turns : ℕ) : RunAt (run cfg turns).ctl := by
  cases turns with
  | zero => exact .inr (.inr rfl)
  | succ turns => exact .inl rfl

theorem takes_performAll {rest : SensorProg P Unit} (hctl : ReaderAt [] rest.ctl)
    (hrest : rest.Takes (Move cfg)) (actions : List (Action P)) :
    ReaderAt actions (performAll actions >>= fun _ => rest).ctl ∧
      (performAll actions >>= fun _ => rest).Takes (Move cfg) := by
  induction actions with
  | nil => exact ⟨hctl, hrest⟩
  | cons a actions ih => exact ⟨rfl, fun s i => ⟨.perform ih.1, ih.2⟩⟩

/-- A read that gives something: the whole of it is gone through. -/
theorem drainFd_succ (reads : ℕ) {buf : Bytes} (hbuf : buf.length = bufLen) :
    ∃ k, drainFd cfg (reads + 1) buf = .stmt .read Sensor.read k ∧
      (∀ s i, (pack i.events).length = 0 →
        k s i = if i.wouldBlock then drainFd cfg reads buf else .ret ()) ∧
      ∀ s i, (pack i.events).length ≠ 0 → ∃ buf' : Bytes, buf'.length = bufLen ∧
        k s i = (performAll i.actions >>= fun _ => drainFd cfg reads buf') := by
  refine ⟨_, rfl, fun s i hnone => if_pos hnone, fun s i hsome => ?_⟩
  have hlen : (pack i.events ++ buf.drop (pack i.events).length).length = bufLen := by
    have := i.fits
    rw [List.length_append, List.length_drop, hbuf]
    omega
  have hdrain : drainBuffer cfg.arith (pack i.events ++ buf.drop (pack i.events).length)
      (pack i.events).length i.readLink ((pack i.events).length + 1) = some (.ok i.actions) := by
    refine drainBuffer_pack ?_ ?_ i.events (.inl (by decide) : Ends []) ?_ ?_
    · rw [hlen]
      decide
    · rw [hlen]
      exact i.fits
    · rw [List.append_nil, List.take_left]
    · exact Nat.lt_succ_of_le (length_le_pack i.events)
  refine ⟨_, hlen, ?_⟩
  dsimp only
  rw [if_neg hsome, hdrain]

theorem takes_drainFd (reads : ℕ) : ∀ buf : Bytes, buf.length = bufLen →
    (drainFd cfg reads buf).Takes (Move cfg) := by
  induction reads with
  | zero => exact fun _ _ => trivial
  | succ reads ih =>
    intro buf hbuf
    obtain ⟨k, hk, hnone, hsome⟩ := @drainFd_succ P cfg reads buf hbuf
    rw [hk]
    intro s i
    by_cases hlen : (pack i.events).length = 0
    · have hevents : i.events = [] :=
        List.length_eq_zero_iff.mp (Nat.le_zero.mp (hlen ▸ length_le_pack i.events))
      have hactions : i.actions = [] := by rw [SensorInput.actions, hevents]; rfl
      rw [hnone s i hlen]
      split
      · exact ⟨.read (hactions ▸ readerAt_drainFd reads buf), ih buf hbuf⟩
      · exact ⟨.read (hactions ▸ .inr rfl), trivial⟩
    · obtain ⟨buf', hbuf', hrest⟩ := hsome s i hlen
      obtain ⟨hat, htakes⟩ :=
        takes_performAll (readerAt_drainFd reads buf') (ih buf' hbuf') i.actions
      rw [hrest]
      exact ⟨.read hat, htakes⟩

theorem recorded_enqueue {s : Sensor P} {path : P} {priority : ℤ} {reason : String} (now : Time)
    (hup : s.db.up = true) :
    Recorded cfg (s.asked (.file path priority reason) (s.db.content.enqueue now
      (cfg.toStringLossy path) priority reason cfg.debounceMs).1).db
        (.file path priority reason) := by
  rw [Sensor.asked, if_pos hup]
  exact mem_activePaths_insert _ _ _ _ _ _

theorem recorded_gap {s : Sensor P} (i : SensorInput P) (hup : s.db.up = true) :
    Recorded cfg (s.asked .overflow (s.db.content.insertGap (overflowGap i))).db .overflow := by
  rw [Sensor.asked, if_pos hup]
  exact ⟨_, Gaps.mem_insert.mpr (.inr rfl), rfl, rfl, rfl⟩

theorem takes_handle {rest : SensorProg P Unit} (hctl : RunAt rest.ctl)
    (hrest : rest.Takes (Move cfg)) (e : SensorEventKind P) :
    (handle cfg e rest).ctl = .at (.handle e) ∧ (handle cfg e rest).Takes (Move cfg) := by
  cases e with
  | file path priority reason =>
    exact ⟨rfl, fun s i => ⟨.handle (fun hup => recorded_enqueue i.now hup) hctl, hrest⟩⟩
  | overflow =>
    refine ⟨rfl, fun s i => ?_⟩
    dsimp only
    split
    · refine ⟨.handle (fun hup => recorded_gap i hup) (.inr (.inl rfl)), fun s i => ⟨?_, hrest⟩⟩
      dsimp only
      split
      · exact .other (.inl rfl) hctl
      · exact .other (.inl rfl) hctl
    · exact ⟨.handle (fun hup => recorded_gap i hup) hctl, hrest⟩

theorem takes_run (turns : ℕ) : (run cfg turns).Takes (Move cfg) := by
  induction turns with
  | zero => trivial
  | succ turns ih =>
    intro s i
    dsimp only
    cases hqueue : s.queue with
    | nil =>
      dsimp only
      split
      · exact ⟨.wait (.inr (.inr rfl)), trivial⟩
      · exact ⟨.wait (runAt_run turns), ih⟩
    | cons e queue =>
      dsimp only
      by_cases he : excluded cfg e = true
      · rw [if_pos he, if_pos he]
        exact ⟨.skip hqueue he (runAt_run turns), ih⟩
      · rw [if_neg he, if_neg he]
        obtain ⟨hat, htakes⟩ := takes_handle (runAt_run turns) ih e
        exact ⟨hat ▸ .take hqueue, htakes⟩

/-- **The steps of the sensor.** -/
theorem takes_sensor (c : SensorCall) : (sensor cfg c).Takes (Move cfg) := by
  cases c with
  | reader reads => exact takes_drainFd reads _ List.length_replicate
  | run turns => exact takes_run turns
  | others => exact fun s i => ⟨.other (.inr rfl) (.inr (.inr rfl)), trivial⟩

end Moves

/-! ### The account -/

def Action.event : Action P → Multiset (SensorEventKind P)
  | .send e => {e}
  | .close _ => 0

def Action.fd : Action P → Multiset Int32
  | .send _ => 0
  | .close fd => {fd}

/-- The events that these actions send. -/
def sends (actions : List (Action P)) : Multiset (SensorEventKind P) :=
  (actions.map Action.event).sum

/-- The descriptors that they close. -/
def closes (actions : List (Action P)) : Multiset Int32 := (actions.map Action.fd).sum

namespace SensorPt

/-- The events that a thread has in its hands. -/
def events : SensorPt P → Multiset (SensorEventKind P)
  | .perform a rest => sends (a :: rest)
  | .handle e => {e}
  | .read | .recv | .counter | .others => 0

/-- The descriptors that it is to close. -/
def fds : SensorPt P → Multiset Int32
  | .perform a rest => closes (a :: rest)
  | .read | .recv | .handle _ | .counter | .others => 0

end SensorPt

/-- The events that something has become of, or that are in the channel. -/
def Sensor.known (s : Sensor P) : Multiset (SensorEventKind P) :=
  s.skipped + s.written + s.refused + s.queue

/-- What the threads hold, `m` those in flight and `d` those that were cut off, is what the kernel
has told of and is not known elsewhere, and the descriptors that are open. -/
structure Ledger (cfg : SensorConfig P) (s : Sensor P) (m d : Multiset (SensorPt P)) : Prop where
  told : s.told = s.known + m.bind SensorPt.events + d.bind SensorPt.events
  fds : s.fds = m.bind SensorPt.fds + d.bind SensorPt.fds
  skipped : ∀ e ∈ s.skipped, excluded cfg e = true

section Account

variable {cfg : SensorConfig P} {m d : Multiset (SensorPt P)} {s : Sensor P}

theorem sends_append (as bs : List (Action P)) : sends (as ++ bs) = sends as + sends bs := by
  rw [sends, List.map_append, List.sum_append]
  rfl

theorem closes_append (as bs : List (Action P)) : closes (as ++ bs) = closes as + closes bs := by
  rw [closes, List.map_append, List.sum_append]
  rfl

/-- An event is sent on as it was told, and its descriptor closed. -/
theorem sends_actions (e : FanEvent) (readLink : Int32 → Option P) :
    sends (e.metadata.actions readLink) = e.told readLink ∧
      closes (e.metadata.actions readLink) = e.fds := by
  have hmask : e.metadata.mask = e.mask := rfl
  have hfd : e.metadata.fd = e.fd := rfl
  unfold Metadata.actions FanEvent.told FanEvent.fds
  rw [hmask, hfd]
  by_cases hover : e.mask &&& fanQOverflow ≠ 0
  · rw [if_pos hover, if_pos hover, if_neg (e.noFd hover)]
    exact ⟨rfl, rfl⟩
  rw [if_neg hover, if_neg hover]
  by_cases hpos : 0 ≤ e.fd
  · rw [if_pos hpos, if_pos hpos]
    cases readLink e.fd with
    | none =>
      refine ⟨?_, rfl⟩
      dsimp only
      split <;> rfl
    | some path =>
      by_cases hdir : e.mask &&& fanOnDir = 0
      · rw [if_pos ⟨hpos, hdir⟩]
        dsimp only
        rw [if_neg (not_not.mpr hdir)]
        exact ⟨rfl, rfl⟩
      · rw [if_neg fun h => hdir h.2]
        dsimp only
        rw [if_pos hdir]
        exact ⟨rfl, rfl⟩
  · rw [if_neg hpos, if_neg hpos, if_neg fun h => hpos h.1]
    exact ⟨rfl, rfl⟩

theorem sends_input (i : SensorInput P) : sends i.actions = i.told ∧ closes i.actions = i.fds := by
  unfold SensorInput.actions SensorInput.told SensorInput.fds
  induction i.events with
  | nil => exact ⟨rfl, rfl⟩
  | cons e events ih =>
    obtain ⟨hsends, hcloses⟩ := sends_actions e i.readLink
    rw [List.flatMap_cons, sends_append, closes_append, hsends, hcloses, ih.1, ih.2]
    exact ⟨rfl, rfl⟩

theorem ReaderAt.holds {actions : List (Action P)} {c : Ctl (SensorPt P) Unit}
    (h : ReaderAt actions c) (l : SensorPt P) : c.lost l = 0 ∧
      c.next.bind SensorPt.events = sends actions ∧ c.next.bind SensorPt.fds = closes actions := by
  cases actions with
  | nil => rcases h with rfl | rfl <;> exact ⟨rfl, rfl, rfl⟩
  | cons a rest =>
    obtain rfl := h
    exact ⟨rfl, Multiset.singleton_bind _ _, Multiset.singleton_bind _ _⟩

theorem RunAt.holds {c : Ctl (SensorPt P) Unit} (h : RunAt c) (l : SensorPt P) : c.lost l = 0 ∧
    c.next.bind SensorPt.events = 0 ∧ c.next.bind SensorPt.fds = 0 := by
  rcases h with rfl | rfl | rfl <;> exact ⟨rfl, rfl, rfl⟩

theorem Ledger.step {l : SensorPt P} {s' : Sensor P} {c : Ctl (SensorPt P) Unit}
    (h : Ledger cfg s (l ::ₘ m) d) (hlost : c.lost l = 0)
    (htold : ∀ x, s.told = s.known + l.events + x →
      s'.told = s'.known + c.next.bind SensorPt.events + x)
    (hfds : ∀ x, s.fds = l.fds + x → s'.fds = c.next.bind SensorPt.fds + x)
    (hskipped : ∀ e ∈ s'.skipped, excluded cfg e = true) :
    Ledger cfg s' (c.next + m) (c.lost l + d) := by
  rw [hlost, zero_add]
  constructor
  · have := htold (m.bind SensorPt.events + d.bind SensorPt.events) (by
      rw [h.told, Multiset.cons_bind]
      abel)
    rw [this, Multiset.add_bind]
    abel
  · have := hfds (m.bind SensorPt.fds + d.bind SensorPt.fds) (by
      rw [h.fds, Multiset.cons_bind, add_assoc])
    rw [this, Multiset.add_bind, add_assoc]
  · exact hskipped

/-- An action of the reader. -/
theorem perform_holds (a : Action P) (rest : List (Action P)) :
    (∀ x, s.told = s.known + sends (a :: rest) + x →
      (s.perform a).told = (s.perform a).known + sends rest + x) ∧
    (∀ x, s.fds = closes (a :: rest) + x → (s.perform a).fds = closes rest + x) ∧
    (s.perform a).skipped = s.skipped := by
  cases a with
  | send e =>
    refine ⟨fun x hx => ?_, fun x hx => ?_, rfl⟩
    · have hknown : (s.perform (.send e)).known = s.known + {e} := by
        unfold Sensor.known Sensor.perform
        rw [← Multiset.coe_add, Multiset.coe_singleton]
        abel
      have hsends : sends (.send e :: rest) = {e} + sends rest := rfl
      rw [hknown, add_assoc s.known, ← hsends]
      exact hx
    · have hcloses : closes (.send e :: rest) = 0 + closes rest := rfl
      rwa [hcloses, zero_add] at hx
  | close fd =>
    refine ⟨fun x hx => ?_, fun x hx => ?_, rfl⟩
    · have hsends : sends (.close fd :: rest) = 0 + sends rest := rfl
      rwa [hsends, zero_add] at hx
    · have hcloses : closes (.close fd :: rest) = {fd} + closes rest := rfl
      show s.fds.erase fd = closes rest + x
      rw [hx, hcloses, add_assoc, Multiset.singleton_add, Multiset.erase_cons_head]

/-- What becomes of an event that the database is asked to keep. -/
theorem asked_holds (e : SensorEventKind P) (content : StateDb) :
    (s.asked e content).known = s.known + {e} ∧ (s.asked e content).told = s.told ∧
      (s.asked e content).fds = s.fds ∧ (s.asked e content).skipped = s.skipped := by
  unfold Sensor.asked
  split
  · refine ⟨?_, rfl, rfl, rfl⟩
    show s.skipped + (e ::ₘ s.written) + s.refused + ↑s.queue = s.known + {e}
    rw [Sensor.known, ← Multiset.singleton_add]
    abel
  · refine ⟨?_, rfl, rfl, rfl⟩
    show s.skipped + s.written + (e ::ₘ s.refused) + ↑s.queue = s.known + {e}
    rw [Sensor.known, ← Multiset.singleton_add]
    abel

/-- The account after a step. -/
theorem Ledger.move {l : SensorPt P} {i : SensorInput P} {s' : Sensor P}
    {c : Ctl (SensorPt P) Unit} (h : Ledger cfg s (l ::ₘ m) d) (hm : Move cfg l i s s' c) :
    Ledger cfg s' (c.next + m) (c.lost l + d) := by
  have hskipped := h.skipped
  cases hm with
  | read hc =>
    obtain ⟨hlost, hevents, hclose⟩ := hc.holds .read
    obtain ⟨hsends, hcloses⟩ := sends_input i
    refine h.step hlost (fun x hx => ?_) (fun x hx => ?_) hskipped
    · have hx' : s.told = s.known + 0 + x := hx
      show s.told + i.told = s.known + _ + x
      rw [hevents, hsends, hx']
      abel
    · have hx' : s.fds = 0 + x := hx
      show s.fds + i.fds = _ + x
      rw [hclose, hcloses, hx', zero_add, add_comm]
  | @perform a rest _ _ _ hc =>
    obtain ⟨hlost, hevents, hclose⟩ := hc.holds (.perform a rest)
    obtain ⟨htold, hfds, hsame⟩ := perform_holds (s := s) a rest
    exact h.step hlost (hevents ▸ htold) (hclose ▸ hfds) (hsame ▸ hskipped)
  | wait hc =>
    obtain ⟨hlost, hevents, hclose⟩ := hc.holds .recv
    exact h.step hlost (fun x hx => hevents ▸ hx) (fun x hx => hclose ▸ hx) hskipped
  | @skip e queue _ _ _ hqueue he hc =>
    obtain ⟨hlost, hevents, hclose⟩ := hc.holds .recv
    refine h.step hlost (fun x hx => ?_) (fun x hx => hclose ▸ hx) fun e' he' => ?_
    · have hx' : s.told = s.known + 0 + x := hx
      have hknown : s.known = s.skipped + s.written + s.refused + (e ::ₘ ↑queue) := by
        rw [Sensor.known, hqueue, Multiset.cons_coe]
      show s.told = (e ::ₘ s.skipped) + s.written + s.refused + ↑queue + _ + x
      rw [hevents, hx', hknown, ← Multiset.singleton_add, ← Multiset.singleton_add]
      abel
    · rcases Multiset.mem_cons.mp he' with rfl | he'
      · exact he
      · exact hskipped e' he'
  | @take e queue _ _ hqueue =>
    refine h.step rfl (fun x hx => ?_) (fun x hx => hx) hskipped
    have hx' : s.told = s.known + 0 + x := hx
    have hknown : s.known = s.skipped + s.written + s.refused + (e ::ₘ ↑queue) := by
      rw [Sensor.known, hqueue, Multiset.cons_coe]
    show s.told = s.skipped + s.written + s.refused + ↑queue + ({e} + 0) + x
    rw [hx', hknown, ← Multiset.singleton_add]
    abel
  | @handle e content _ _ _ _ hc =>
    obtain ⟨hlost, hevents, hclose⟩ := hc.holds (.handle e)
    obtain ⟨hknown, htold, hfds, hsame⟩ := asked_holds (s := s) e content
    refine h.step hlost (fun x hx => ?_) (fun x hx => ?_) (hsame ▸ hskipped)
    · have hx' : s.told = s.known + {e} + x := hx
      rw [htold, hknown, hevents, hx', add_zero]
    · rw [hfds, hclose]
      exact hx
  | other hl hc =>
    obtain ⟨hlost, hevents, hclose⟩ := hc.holds l
    refine h.step hlost (fun x hx => ?_) (fun x hx => ?_) hskipped
    · rw [hevents]
      rcases hl with rfl | rfl <;> exact hx
    · rw [hclose]
      rcases hl with rfl | rfl <;> exact hx

theorem Move.handled {e : SensorEventKind P} {i : SensorInput P} {s' : Sensor P}
    {c : Ctl (SensorPt P) Unit} (hm : Move cfg (.handle e) i s s' c) (hup : s.db.up = true) :
    s'.written = e ::ₘ s.written ∧ Recorded cfg s'.db e := by
  cases hm with
  | handle hrec hc =>
    refine ⟨?_, hrec hup⟩
    rw [Sensor.asked, if_pos hup]
  | other hl hc => rcases hl with hl | hl <;> exact absurd hl (by simp)

theorem next_sensor (cfg : SensorConfig P) (c : SensorCall) :
    (sensor cfg c).ctl.next.bind SensorPt.events = 0 ∧
      (sensor cfg c).ctl.next.bind SensorPt.fds = 0 := by
  cases c with
  | reader reads => exact ((readerAt_drainFd reads _).holds .others).2
  | run turns => exact ((runAt_run turns).holds .others).2
  | others => exact ⟨rfl, rfl⟩

end Account

/-- A sensor that has not begun. -/
def fresh (db : SharedDb) : Sensor P := ⟨db, [], 0, 0, 0, 0, 0⟩

/-- **What was reported is handled once, and each descriptor closed once.**  However the threads
of the sensor and those of the agent take turns, and wherever the reader stops, or all of them: every
event that the kernel has told of is in the channel, or in the hands of a thread, or was handled, and
none of them twice; it was left out only if its path is excluded; and it is in the database when it
has been handled and the database has answered.  A descriptor that the kernel has opened is open as
long as a thread is to close it, and is closed then. -/
theorem sensor_exact {cfg : SensorConfig P} {db : SharedDb}
    {h : Pool.Hist SensorCall (SensorPt P) (Sensor P) (SensorInput P) String Unit}
    {p : Pool SensorCall (SensorPt P) (Sensor P) (SensorInput P) String Unit}
    (hr : Pool.Reach (sensor cfg) (fresh db) h p) :
    let s := p.store
    s.told = s.skipped + s.written + s.refused + s.queue +
      p.census.bind SensorPt.events + (Pool.cut h).bind SensorPt.events ∧
    s.fds = p.census.bind SensorPt.fds + (Pool.cut h).bind SensorPt.fds ∧
    (∀ e ∈ s.skipped, excluded cfg e = true) ∧
    ∀ n i p' e, p.ctl n = .at (.handle e) → p.step (sensor cfg) (.exec n i) = some p' →
      s.db.up = true → p'.store.written = e ::ₘ s.written ∧ Recorded cfg p'.store.db e := by
  have hledger : Ledger cfg p.store p.census (Pool.cut h) := by
    refine hr.counted takes_sensor (fun _ _ _ => True) (Ledger cfg)
      ⟨rfl, rfl, fun e he => absurd he (Multiset.notMem_zero e)⟩ ?_ ?_ ?_ fun _ _ => trivial
    · intro s m d c _ hl
      obtain ⟨hevents, hfds⟩ := next_sensor cfg c
      refine ⟨?_, ?_, hl.skipped⟩
      · rw [Multiset.add_bind, hevents, zero_add, hl.told]
      · rw [Multiset.add_bind, hfds, zero_add, hl.fds]
    · exact fun s s' m d l n i c _ hl hm => hl.move hm
    · intro s m d l n _ hl
      obtain ⟨htold, hfds, hskipped⟩ := hl
      rw [Multiset.cons_bind] at htold hfds
      refine ⟨?_, ?_, hskipped⟩
      · rw [htold, Multiset.cons_bind]
        abel
      · rw [hfds, Multiset.cons_bind]
        abel
  refine ⟨hledger.told, hledger.fds, hledger.skipped, ?_⟩
  intro n i p' e hat hstep hup
  have hmem : (p, Act.exec n i) ∈ h ++ [(p, .exec n i)] :=
    List.mem_append_right _ (List.mem_singleton_self _)
  obtain ⟨l, hl, hm⟩ := (Pool.Reach.step hr hstep).step_takes takes_sensor hmem hstep
  obtain rfl : SensorPt.handle e = l := Ctl.at.inj (hat.symm.trans hl)
  exact hm.handled hup

/-- A file that was written, with the descriptor 5. -/
def closeWrite : FanEvent where
  vers := 3
  mask := 8
  fd := 5
  pid := 77
  info := []
  short := by decide
  noFd h := absurd rfl h

def closeWriteInput : SensorInput String where
  events := [closeWrite]
  fits := by decide
  readLink _ := some "/srv/app"
  wouldBlock := false
  gone := false
  now := 0
  observedAt := "1970-01-01T00:00:00+00:00"
  db := ⟨.empty, true⟩

def appConfig : SensorConfig String := ⟨.checked, id, ["*.log"], 0⟩

/-- The reader is stopped after it has sent the event: its descriptor stays open. -/
theorem sensor_exact_stopped : ∃ h p,
    Pool.Reach (sensor appConfig) (fresh ⟨.empty, true⟩) h p ∧
      p.store.queue = [.file "/srv/app" 2 "close_write"] ∧ p.store.fds = {5} ∧
      p.store.fds = p.census.bind SensorPt.fds + (Pool.cut h).bind SensorPt.fds := by
  let s₀ : Sensor String := fresh ⟨.empty, true⟩
  let s₁ : Sensor String := s₀.read closeWriteInput
  let send : Action String := .send (.file "/srv/app" 2 "close_write")
  obtain ⟨k, hk, -, hsome⟩ := @drainFd_succ String appConfig 0 (List.replicate bufLen 0)
    List.length_replicate
  obtain ⟨buf, -, hrest⟩ := hsome s₀ closeWriteInput (by decide)
  have hactions : closeWriteInput.actions = [send, .close 5] := by decide
  rw [hactions] at hrest
  let rest (actions : List (Action String)) : SensorProg String Unit :=
    performAll actions >>= fun _ => drainFd appConfig 0 buf
  have hspawn : (Pool.start s₀).step (sensor appConfig) (.spawn (.reader 1)) =
      some ⟨s₀, [⟨.reader 1, some (.stmt .read Sensor.read k)⟩]⟩ := by
    rw [← hk]
    rfl
  have hread : Pool.step (sensor appConfig) ⟨s₀, [⟨.reader 1, some (.stmt .read Sensor.read k)⟩]⟩
      (.exec 0 closeWriteInput) = some ⟨s₁, [⟨.reader 1, some (rest [send, .close 5])⟩]⟩ := by
    have hstep : Pool.step (sensor appConfig)
        ⟨s₀, [⟨.reader 1, some (.stmt .read Sensor.read k)⟩]⟩ (.exec 0 closeWriteInput) =
          some ⟨s₁, [⟨.reader 1, some (k s₀ closeWriteInput)⟩]⟩ := rfl
    rw [hstep, hrest]
  have hsend : Pool.step (sensor appConfig) ⟨s₁, [⟨.reader 1, some (rest [send, .close 5])⟩]⟩
      (.exec 0 closeWriteInput) =
        some ⟨s₁.perform send, [⟨.reader 1, some (rest [.close 5])⟩]⟩ := rfl
  have hkill : Pool.step (sensor appConfig) ⟨s₁.perform send, [⟨.reader 1, some (rest [.close 5])⟩]⟩
      (.kill 0) = some ⟨s₁.perform send, [⟨.reader 1, none⟩]⟩ := rfl
  have hr := (((Pool.Reach.init.step hspawn).step hread).step hsend).step hkill
  exact ⟨_, _, hr, rfl, rfl, (sensor_exact hr).2.1⟩

end Corpus.Agent.Fanotify
