/-
Triggers and their outbox (`triggers.rs`, `0005_analyst.sql`), statement by statement.

An event is queued for every enabled trigger of its tenant and condition (`fire`).  A sweep
(`deliverPending`) reads the due rows once, posts them one after another and notes each result
with an `UPDATE` of its own; it takes no lock, so sweeps, and servers, may overlap.

* `Move` — what a statement can do, whoever runs it; `takes_move` — the calls do nothing else;
* `plan_of_lt`, `plan_of_le` — what an attempt leads to that was no success;
* `hmacSignature_eq` — whom a signature tells apart.

`requests` records the requests handed to the HTTP client, and what came of them.  A statement
that fails leaves the tables alone; one that is carried out but whose answer is lost is one after
which the call is cut off.  Times are in microseconds, as `timestamptz` has them.
-/
import Corpus.Fuzzy
import Corpus.Machine
import Corpus.Pool
import Corpus.SortOrders
import Corpus.Table
import Corpus.UuidText
import Mathlib.Algebra.Order.Ring.Int

namespace Corpus.Triggers

/-! ### Signatures -/

/-- `key` of `hmac_signature`, filled up to a block. -/
def blockKey (sha256 : Bytes → Bytes) (secret : String) : Bytes :=
  let key := Fuzzy.asBytes secret
  let key := if key.length > 64 then sha256 key else key
  (key ++ List.replicate 64 0).take 64

/-- What the inner hash is over. -/
def innerInput (sha256 : Bytes → Bytes) (secret : String) (body : Bytes) : Bytes :=
  (blockKey sha256 secret).map (· ^^^ 0x36) ++ body

/-- What the outer hash is over. -/
def outerInput (sha256 : Bytes → Bytes) (secret : String) (body : Bytes) : Bytes :=
  (blockKey sha256 secret).map (· ^^^ 0x5c) ++ sha256 (innerInput sha256 secret body)

/-- `hmac_signature`. -/
def hmacSignature (sha256 : Bytes → Bytes) (secret : String) (body : Bytes) : String :=
  hexEncode (sha256 (outerInput sha256 secret body))

@[simp] theorem length_blockKey (sha256 : Bytes → Bytes) (secret : String) :
    (blockKey sha256 secret).length = 64 := by
  simp [blockKey]

private theorem map_xor_inj (c : UInt8) {l l' : Bytes} :
    l.map (· ^^^ c) = l'.map (· ^^^ c) ↔ l = l' := by
  refine ⟨fun h => ?_, fun h => by rw [h]⟩
  have hback := congrArg (List.map (· ^^^ c)) h
  simpa [List.map_map, Function.comp_def, UInt8.xor_assoc] using hback

/-- A hash that has no collision among the inputs that were hashed tells apart bodies, and
secrets up to their block. -/
theorem hmacSignature_eq {sha256 : Bytes → Bytes} {secret secret' : String} {body body' : Bytes}
    (hinner : sha256 (innerInput sha256 secret body) = sha256 (innerInput sha256 secret' body') →
      innerInput sha256 secret body = innerInput sha256 secret' body')
    (houter : sha256 (outerInput sha256 secret body) = sha256 (outerInput sha256 secret' body') →
      outerInput sha256 secret body = outerInput sha256 secret' body') :
    hmacSignature sha256 secret body = hmacSignature sha256 secret' body' ↔
      blockKey sha256 secret = blockKey sha256 secret' ∧ body = body' := by
  refine ⟨fun h => ?_, fun ⟨hkey, hbody⟩ => ?_⟩
  · have hout := houter (hexEncode_injective h)
    have hlen : ∀ c : UInt8, ((blockKey sha256 secret).map (· ^^^ c)).length =
        ((blockKey sha256 secret').map (· ^^^ c)).length := by simp
    obtain ⟨hkey, hhash⟩ := List.append_inj hout (hlen _)
    obtain ⟨-, hbody⟩ := List.append_inj (hinner hhash) (hlen _)
    exact ⟨(map_xor_inj _).mp hkey, hbody⟩
  · simp only [hmacSignature, outerInput, innerInput, hkey, hbody]

/-! ### Tables -/

/-- A row of `trigger_rule`. -/
structure TriggerRule where
  id : Uuid
  tenant : Uuid
  name : String
  condition : String
  webhookUrl : String
  hmacSecret : String
  enabled : Bool
  createdAt : Time

/-- `TriggerRow`: what an answer tells of a trigger. -/
structure TriggerRow where
  id : Uuid
  name : String
  condition : String
  webhookUrl : String
  enabled : Bool
  createdAt : Time

/-- A row of `trigger_outbox`. -/
structure OutboxEntry where
  id : Uuid
  tenant : Uuid
  triggerId : Uuid
  event : Json
  attempts : ℤ
  nextAttemptAt : Time
  deliveredAt : Option Time
  lastError : Option String
  createdAt : Time

/-- What the HTTP client answers: a status and its text, or an error. -/
inductive Response where
  | status (code : ℕ) (text : String)
  | failed (msg : String)

/-- `is_success` of an answer. -/
def Response.isSuccess : Response → Bool
  | status code _ => 200 ≤ code && code < 300
  | failed _ => false

/-- `err` of an attempt that was no success. -/
def Response.err : Response → String
  | status _ text => "http " ++ text
  | failed msg => msg

/-- A request handed to the HTTP client for the outbox row `row`, and its answer. -/
structure Request where
  row : Uuid
  url : String
  signature : String
  body : String
  response : Response

structure TriggerDb where
  rules : Table TriggerRule.id
  outbox : Table OutboxEntry.id
  requests : List Request

def TriggerDb.empty : TriggerDb := ⟨.empty, .empty, []⟩

/-- What is fixed: the hash, what a `jsonb` column gives back, `to_string` of a value, `{:?}` of
a string, and how the server is built. -/
structure TriggerConfig where
  sha256 : Bytes → Bytes
  jsonb : Json → Json
  toText : Json → String
  debug : String → String
  arith : Arith

/-- What a statement takes from outside: a fresh identifier and a second one, the server's clock
and the database's, whether the database fails, the answer to a request, the order in which
unordered rows come, and rows that are due at the same time. -/
structure TriggerInput where
  id : Uuid
  secretId : Uuid
  utcNow : Time
  now : Time
  dbFails : Option String
  response : Response
  order : SortOrder fun _ : TriggerRule => (0 : ℕ)
  ties : SortOrder fun r : OutboxEntry × TriggerRule => r.1.nextAttemptAt

/-- A row of the query of `deliver_pending`. -/
structure Due where
  id : Uuid
  trigger : Uuid
  url : String
  secret : String
  event : Json
  attempts : ℤ

def Due.of (r : OutboxEntry × TriggerRule) : Due :=
  ⟨r.1.id, r.2.id, r.2.webhookUrl, r.2.hmacSecret, r.1.event, r.1.attempts⟩

/-- How a call ends that does not return: with an error, or with a panic. -/
inductive Fault where
  | error (e : Error)
  | panic (p : Panic)

/-- The statements.  `rest` are the rows that the sweep comes to afterwards. -/
inductive TriggerPt where
  | createTrigger
  | condition (t trigger : Uuid)
  | triggers (t : Uuid) (condition : String) (event : Json)
  | queue (t : Uuid) (event : Json) (trigger : Uuid) (rest : List Uuid)
  | due
  | post (d : Due) (rest : List Due)
  | delivered (d : Due) (rest : List Due)
  | giveUp (d : Due) (err : String) (rest : List Due)
  | retry (d : Due) (err : String) (backoff : ℤ) (rest : List Due)

abbrev TriggerProg := Prog TriggerPt TriggerDb TriggerInput Fault

/-- An SQL statement. -/
def sql {α : Type} (l : TriggerPt) (f : TriggerDb → TriggerInput → Except Error (α × TriggerDb)) :
    TriggerProg α :=
  .exec l fun s i =>
    match i.dbFails with
    | some msg => .error (.error (.db msg))
    | none => (f s i).mapError .error

/-! ### Creating and firing -/

/-- `CONDITIONS`. -/
def conditions : List String := ["hunt_match", "malicious_verdict", "variant_join"]

/-- `into_bytes` of a UUID. -/
def uuidBytes (id : Uuid) : Bytes := (List.range 16).map fun k => UInt8.ofNat (id / 256 ^ (15 - k))

/-- `starts_with`. -/
def startsWith (s pat : String) : Bool := pat.toList.isPrefixOf s.toList

def TriggerRule.row (r : TriggerRule) : TriggerRow :=
  ⟨r.id, r.name, r.condition, r.webhookUrl, r.enabled, r.createdAt⟩

/-- `create_trigger`. -/
def createTrigger (cfg : TriggerConfig) (t : Uuid) (name condition webhookUrl : String)
    (secret : Option String) : TriggerProg (TriggerRow × String) :=
  if condition ∉ conditions then
    .err (.error (.badRequest ("invalid condition " ++ cfg.debug condition ++ "; supported: " ++
      ", ".intercalate conditions)))
  else if !(startsWith webhookUrl "http://" || startsWith webhookUrl "https://") then
    .err (.error (.badRequest "webhook_url must be http(s)"))
  else
    sql .createTrigger fun s i =>
      let secret := secret.getD (hexEncode (uuidBytes i.secretId))
      let rule : TriggerRule := ⟨i.id, t, name, condition, webhookUrl, secret, true, i.utcNow⟩
      if (s.rules.get i.id).isSome then .error (.db "trigger_rule_pkey")
      else .ok ((rule.row, secret), { s with rules := s.rules.insertNew rule })

/-- The row that `fire` queues. -/
def queued (cfg : TriggerConfig) (t trigger : Uuid) (event : Json) (i : TriggerInput) :
    OutboxEntry :=
  { id := i.id
    tenant := t
    triggerId := trigger
    event := cfg.jsonb event
    attempts := 0
    nextAttemptAt := i.utcNow
    deliveredAt := none
    lastError := none
    createdAt := i.utcNow }

/-- The loop of `fire` over the triggers. -/
def queueAll (cfg : TriggerConfig) (t : Uuid) (event : Json) : List Uuid → TriggerProg Unit
  | [] => .ret ()
  | trigger :: rest => do
    sql (.queue t event trigger rest) fun s i =>
      if (s.rules.get trigger).isNone then .error (.db "trigger_outbox_trigger_id_fkey")
      else if (s.outbox.get i.id).isSome then .error (.db "trigger_outbox_pkey")
      else .ok ((), { s with outbox := s.outbox.insertNew (queued cfg t trigger event i) })
    queueAll cfg t event rest

/-- The triggers that `fire` reads. -/
def TriggerDb.firing (s : TriggerDb) (i : TriggerInput) (t : Uuid) (condition : String) :
    List TriggerRule :=
  i.order.sort (s.rules.rows.filter fun r => r.tenant = t && r.condition = condition && r.enabled)

/-- `fire`. -/
def fire (cfg : TriggerConfig) (t : Uuid) (condition : String) (event : Json) : TriggerProg ℕ := do
  let triggers ← sql (.triggers t condition event) fun s i =>
    .ok ((s.firing i t condition).map TriggerRule.id, s)
  queueAll cfg t event triggers
  return triggers.length

/-- The event of `test_trigger`. -/
def testEvent (r : TriggerRule) : Json :=
  .obj [("type", .str "test"), ("trigger_id", .str (printUuid r.id)),
    ("condition", .str r.condition)]

/-- `test_trigger` of the server, for the tenant that it has resolved. -/
def testTrigger (cfg : TriggerConfig) (t trigger : Uuid) : TriggerProg ℕ := do
  let row ← sql (.condition t trigger) fun s _ =>
    .ok ((s.rules.get trigger).filter fun r => r.tenant = t, s)
  match row with
  | none => .err (.error (.notFound ("trigger " ++ printUuid trigger)))
  | some r => fire cfg t r.condition (testEvent r)

/-! ### A sweep -/

/-- `(5i64 * 2i64.pow(attempts as u32)).min(300)`. -/
def backoffSecs (m : Arith) (attempts : ℤ) : Checked ℤ := do
  let pow ← m.signed 64 (2 ^ (attempts % 2 ^ 32).toNat)
  let secs ← m.signed 64 (5 * pow)
  return min secs 300

/-- What to do about an attempt that was no success: give up, or wait. -/
def plan (m : Arith) (attempts : ℤ) : Checked (Option ℤ) := do
  let n ← m.signed 32 (attempts + 1)
  if n ≥ 8 then return none
  let backoff ← backoffSecs m attempts
  return some backoff

section Plan

variable {m : Arith} {attempts : ℤ}

/-- The first seven attempts are followed by a pause, which does not leave its type. -/
theorem plan_of_lt (h0 : 0 ≤ attempts) (h : attempts < 7) :
    plan m attempts = .ok (some (min (5 * 2 ^ attempts.toNat) 300)) := by
  have hone : (1 : ℤ) ≤ 2 := by decide
  have hexp : attempts.toNat ≤ 6 := by omega
  have hpow : (2 : ℤ) ^ attempts.toNat ≤ 2 ^ 6 := pow_le_pow_right₀ hone hexp
  have hpos : (0 : ℤ) < 2 ^ attempts.toNat := pow_pos (by decide) _
  have hmod : attempts % 2 ^ 32 = attempts := Int.emod_eq_of_lt h0 (by omega)
  have hbackoff : backoffSecs m attempts = .ok (min (5 * 2 ^ attempts.toNat) 300) := by
    rw [backoffSecs, hmod, Arith.signed_of_mem (by omega) (by omega), Checked.ok_bind,
      Arith.signed_of_mem (by omega) (by omega)]
    rfl
  rw [plan, Arith.signed_of_mem (by omega) (by omega), Checked.ok_bind, if_neg (by omega),
    hbackoff]
  rfl

/-- The eighth is the last. -/
theorem plan_of_le (h : 7 ≤ attempts) (h' : attempts + 1 < 2 ^ 31) :
    plan m attempts = .ok none := by
  rw [plan, Arith.signed_of_mem (by omega) (by omega), Checked.ok_bind, if_pos (by omega)]
  rfl

theorem le_of_plan_none (h0 : 0 ≤ attempts) (h : plan m attempts = .ok none) : 7 ≤ attempts := by
  by_contra hlt
  rw [plan_of_lt h0 (by omega)] at h
  cases h

theorem lt_of_plan_some {backoff : ℤ} (h' : attempts + 1 < 2 ^ 31)
    (h : plan m attempts = .ok (some backoff)) : attempts < 7 := by
  by_contra hle
  rw [plan_of_le (by omega) h'] at h
  cases h

theorem plan_ne_error {p : Panic} (h0 : 0 ≤ attempts) (h' : attempts + 1 < 2 ^ 31) :
    plan m attempts ≠ .error p := by
  rcases lt_or_ge attempts 7 with h | h
  · rw [plan_of_lt h0 h]
    exact nofun
  · rw [plan_of_le h h']
    exact nofun

end Plan

/-- The query of `deliver_pending`. -/
def TriggerDb.due (s : TriggerDb) (i : TriggerInput) : List Due :=
  let open_ := s.outbox.rows.filter fun o => o.deliveredAt.isNone && o.nextAttemptAt ≤ i.now
  let joined := open_.filterMap fun o => (s.rules.get o.triggerId).map fun t => (o, t)
  ((i.ties.sort joined).take 20).map Due.of

/-- `UPDATE trigger_outbox … WHERE id = $1`. -/
def TriggerDb.note (s : TriggerDb) (id : Uuid) (f : OutboxEntry → OutboxEntry)
    (hf : ∀ o, (f o).id = o.id) : TriggerDb :=
  { s with outbox := s.outbox.updateWhere (fun o => o.id = id) f hf }

/-- The `UPDATE` after a success. -/
def TriggerDb.noteDelivered (s : TriggerDb) (id : Uuid) (now : Time) : TriggerDb :=
  s.note id (fun o => { o with deliveredAt := some now }) fun _ => rfl

/-- The `UPDATE` after the last attempt. -/
def TriggerDb.noteGivenUp (s : TriggerDb) (id : Uuid) (err : String) (now : Time) : TriggerDb :=
  s.note id (fun o => { o with
    attempts := o.attempts + 1, lastError := some err, deliveredAt := some now }) fun _ => rfl

/-- The `UPDATE` after any other attempt. -/
def TriggerDb.noteRetry (s : TriggerDb) (id : Uuid) (err : String) (at_ : Time) : TriggerDb :=
  s.note id (fun o => { o with
    attempts := o.attempts + 1, lastError := some err, nextAttemptAt := at_ }) fun _ => rfl

/-- `attempts + 1` of an `UPDATE` is an `integer`. -/
def TriggerDb.counts (s : TriggerDb) (id : Uuid) : Bool :=
  match s.outbox.get id with
  | some o => o.attempts + 1 < 2 ^ 31
  | none => true

/-- The request for a due row. -/
def Due.request (cfg : TriggerConfig) (d : Due) (r : Response) : Request :=
  let body := cfg.toText d.event
  { row := d.id
    url := d.url
    signature := "sha256=" ++ hmacSignature cfg.sha256 d.secret (Fuzzy.asBytes body)
    body := body
    response := r }

/-- The request of one round. -/
def post (cfg : TriggerConfig) (d : Due) (rest : List Due) : TriggerProg Response :=
  .exec (.post d rest) fun s i =>
    .ok (i.response, { s with requests := s.requests ++ [d.request cfg i.response] })

/-- What one round does after its request; the number of rows it adds to `delivered`. -/
def settle (cfg : TriggerConfig) (d : Due) (rest : List Due) (r : Response) : TriggerProg ℕ :=
  if r.isSuccess then do
    sql (.delivered d rest) fun s i => .ok ((), s.noteDelivered d.id i.now)
    return 1
  else
    match plan cfg.arith d.attempts with
    | .error p => .err (.panic p)
    | .ok none => do
      sql (.giveUp d r.err rest) fun s i =>
        if s.counts d.id then .ok ((), s.noteGivenUp d.id r.err i.now)
        else .error (.db "integer out of range")
      return 0
    | .ok (some backoff) => do
      sql (.retry d r.err backoff rest) fun s i =>
        if s.counts d.id then .ok ((), s.noteRetry d.id r.err (i.now + backoff * 1000000))
        else .error (.db "integer out of range")
      return 0

/-- The rounds of a sweep. -/
def deliver (cfg : TriggerConfig) : List Due → ℕ → TriggerProg ℕ
  | [], delivered => .ret delivered
  | d :: rest, delivered => do
    let r ← post cfg d rest
    let n ← settle cfg d rest r
    deliver cfg rest (delivered + n)

/-- `deliver_pending`. -/
def deliverPending (cfg : TriggerConfig) : TriggerProg ℕ := do
  let due ← sql .due fun s i => .ok (s.due i, s)
  deliver cfg due 0

/-! ### Calls -/

inductive TriggerCall where
  | createTrigger (t : Uuid) (name condition webhookUrl : String) (secret : Option String)
  | fire (t : Uuid) (condition : String) (event : Json)
  | testTrigger (t trigger : Uuid)
  | deliverPending

/-- The number that a call counts. -/
def TriggerCall.body (cfg : TriggerConfig) : TriggerCall → TriggerProg ℕ
  | createTrigger t name condition url secret => do
    let _ ← Triggers.createTrigger cfg t name condition url secret
    return 1
  | fire t condition event => Triggers.fire cfg t condition event
  | testTrigger t trigger => Triggers.testTrigger cfg t trigger
  | deliverPending => Triggers.deliverPending cfg

/-! ### What a statement can do -/

/-- Where `fire` goes on that has the triggers `ids` to come. -/
def Queueing (t : Uuid) (event : Json) (ids : List Uuid) (c : Ctl TriggerPt ℕ) : Prop :=
  match ids with
  | [] => ∃ n, c = .done n
  | trigger :: rest => c = .at (.queue t event trigger rest)

/-- Where a sweep goes on that has the rows `due` to come. -/
def Posting (due : List Due) (c : Ctl TriggerPt ℕ) : Prop :=
  match due with
  | [] => ∃ n, c = .done n
  | d :: rest => c = .at (.post d rest)

/-- The store after a request. -/
def TriggerDb.posted (cfg : TriggerConfig) (s : TriggerDb) (d : Due) (r : Response) : TriggerDb :=
  { s with requests := s.requests ++ [d.request cfg r] }

/-- The steps. -/
inductive Move (cfg : TriggerConfig) :
    TriggerPt → TriggerInput → TriggerDb → TriggerDb → Ctl TriggerPt ℕ → Prop where
  | fails {l : TriggerPt} {i : TriggerInput} {s : TriggerDb} (hl : ∀ d rest, l ≠ .post d rest) :
      Move cfg l i s s .failed
  | created {i : TriggerInput} {s : TriggerDb} {n : ℕ} (r : TriggerRule)
      (hid : s.rules.get r.id = none) (hcond : r.condition ∈ conditions)
      (hurl : startsWith r.webhookUrl "http://" = true ∨ startsWith r.webhookUrl "https://" = true) :
      Move cfg .createTrigger i s { s with rules := s.rules.insertNew r } (.done n)
  | found {t trigger : Uuid} {i : TriggerInput} {s : TriggerDb} {r : TriggerRule}
      (hr : s.rules.get trigger = some r) (ht : r.tenant = t) :
      Move cfg (.condition t trigger) i s s (.at (.triggers t r.condition (testEvent r)))
  | read {t : Uuid} {condition : String} {event : Json} {i : TriggerInput} {s : TriggerDb}
      {c : Ctl TriggerPt ℕ}
      (hc : Queueing t event ((s.firing i t condition).map TriggerRule.id) c) :
      Move cfg (.triggers t condition event) i s s c
  | queued {t trigger : Uuid} {event : Json} {rest : List Uuid} {i : TriggerInput} {s : TriggerDb}
      {c : Ctl TriggerPt ℕ} (hrule : s.rules.get trigger ≠ none) (hid : s.outbox.get i.id = none)
      (hc : Queueing t event rest c) :
      Move cfg (.queue t event trigger rest) i s
        { s with outbox := s.outbox.insertNew (queued cfg t trigger event i) } c
  | due {i : TriggerInput} {s : TriggerDb} {c : Ctl TriggerPt ℕ} (hc : Posting (s.due i) c) :
      Move cfg .due i s s c
  | accepted {d : Due} {rest : List Due} {i : TriggerInput} {s : TriggerDb}
      (hr : i.response.isSuccess = true) :
      Move cfg (.post d rest) i s (s.posted cfg d i.response) (.at (.delivered d rest))
  | lastRefused {d : Due} {rest : List Due} {i : TriggerInput} {s : TriggerDb}
      (hr : i.response.isSuccess = false) (hplan : plan cfg.arith d.attempts = .ok none) :
      Move cfg (.post d rest) i s (s.posted cfg d i.response)
        (.at (.giveUp d i.response.err rest))
  | refused {d : Due} {rest : List Due} {i : TriggerInput} {s : TriggerDb} {backoff : ℤ}
      (hr : i.response.isSuccess = false) (hplan : plan cfg.arith d.attempts = .ok (some backoff)) :
      Move cfg (.post d rest) i s (s.posted cfg d i.response)
        (.at (.retry d i.response.err backoff rest))
  | panics {d : Due} {rest : List Due} {i : TriggerInput} {s : TriggerDb} {p : Panic}
      (hr : i.response.isSuccess = false) (hplan : plan cfg.arith d.attempts = .error p) :
      Move cfg (.post d rest) i s (s.posted cfg d i.response) .failed
  | delivered {d : Due} {rest : List Due} {i : TriggerInput} {s : TriggerDb}
      {c : Ctl TriggerPt ℕ} (hc : Posting rest c) :
      Move cfg (.delivered d rest) i s (s.noteDelivered d.id i.now) c
  | givenUp {d : Due} {err : String} {rest : List Due} {i : TriggerInput} {s : TriggerDb}
      {c : Ctl TriggerPt ℕ} (hcount : s.counts d.id = true) (hc : Posting rest c) :
      Move cfg (.giveUp d err rest) i s (s.noteGivenUp d.id err i.now) c
  | retried {d : Due} {err : String} {backoff : ℤ} {rest : List Due} {i : TriggerInput}
      {s : TriggerDb} {c : Ctl TriggerPt ℕ} (hcount : s.counts d.id = true) (hc : Posting rest c) :
      Move cfg (.retry d err backoff rest) i s
        (s.noteRetry d.id err (i.now + backoff * 1000000)) c

section Moves

variable {cfg : TriggerConfig}

/-- An SQL statement makes a move when it fails, and when it does not. -/
theorem takes_sql_bind {α : Type} {l : TriggerPt}
    {f : TriggerDb → TriggerInput → Except Error (α × TriggerDb)} {g : α → TriggerProg ℕ}
    (hl : ∀ d rest, l ≠ .post d rest)
    (h : ∀ s i r, f s i = .ok r → Move cfg l i s r.2 (g r.1).ctl ∧ (g r.1).Takes (Move cfg)) :
    (sql l f >>= g).Takes (Move cfg) := by
  refine Prog.takes_exec_bind fun s i => ?_
  cases hfail : i.dbFails with
  | some msg => exact .fails hl
  | none =>
    dsimp only
    cases hf : f s i with
    | error e => exact .fails hl
    | ok r => exact h s i r hf

theorem queueing_queueAll (t : Uuid) (event : Json) (ids : List Uuid) (n : ℕ) :
    Queueing t event ids (queueAll cfg t event ids >>= fun _ => .ret n).ctl := by
  cases ids with
  | nil => exact ⟨n, rfl⟩
  | cons trigger rest => rfl

theorem takes_queueAll (t : Uuid) (event : Json) (n : ℕ) : ∀ ids : List Uuid,
    (queueAll cfg t event ids >>= fun _ => .ret n).Takes (Move cfg) := by
  intro ids
  induction ids with
  | nil => trivial
  | cons trigger rest ih =>
    rw [queueAll, Prog.bind_assoc']
    refine takes_sql_bind nofun fun s i r hr => ?_
    split at hr
    · cases hr
    · next hrule =>
      split at hr
      · cases hr
      · next hid =>
        obtain rfl := Except.ok.inj hr
        refine ⟨.queued (by simpa using hrule) (by simpa using hid) ?_, ih⟩
        exact queueing_queueAll t event rest n

theorem takes_fire (t : Uuid) (condition : String) (event : Json) :
    (fire cfg t condition event).Takes (Move cfg) := by
  refine takes_sql_bind nofun fun s i r hr => ?_
  obtain rfl := Except.ok.inj hr
  exact ⟨.read (queueing_queueAll t event _ _), takes_queueAll t event _ _⟩

theorem takes_createTrigger (t : Uuid) (name condition url : String) (secret : Option String) :
    (createTrigger cfg t name condition url secret >>= fun _ => .ret 1).Takes (Move cfg) := by
  unfold createTrigger
  split
  · trivial
  · next hcond =>
    split
    · trivial
    · next hurl =>
      have hl : ∀ d rest, TriggerPt.createTrigger ≠ .post d rest := by
        intro d rest h
        cases h
      refine takes_sql_bind hl fun s i r hr => ?_
      dsimp only at hr
      split at hr
      · cases hr
      · next hid =>
        obtain rfl := Except.ok.inj hr
        refine ⟨.created _ (by simpa using hid) (by simpa using hcond) ?_, trivial⟩
        rwa [Bool.not_eq_true', Bool.not_eq_false, Bool.or_eq_true] at hurl

theorem takes_testTrigger (t trigger : Uuid) : (testTrigger cfg t trigger).Takes (Move cfg) := by
  refine takes_sql_bind nofun fun s i r hr => ?_
  obtain rfl := Except.ok.inj hr
  dsimp only
  cases hget : (s.rules.get trigger).filter fun r => r.tenant = t with
  | none => exact ⟨.fails nofun, trivial⟩
  | some r =>
    obtain ⟨hr, ht⟩ := Option.filter_eq_some_iff.mp hget
    exact ⟨.found hr (by simpa using ht), takes_fire t r.condition _⟩

theorem posting_deliver (due : List Due) (n : ℕ) : Posting due (deliver cfg due n).ctl := by
  cases due with
  | nil => exact ⟨n, rfl⟩
  | cons d rest => rfl

theorem takes_deliver : ∀ (due : List Due) (n : ℕ), (deliver cfg due n).Takes (Move cfg) := by
  intro due
  induction due with
  | nil => exact fun n => trivial
  | cons d rest ih =>
    intro n
    refine Prog.takes_exec_bind fun s i => ?_
    dsimp only
    unfold settle
    by_cases hr : i.response.isSuccess = true
    · rw [if_pos hr, Prog.bind_assoc']
      refine ⟨.accepted hr, takes_sql_bind nofun fun s i r hr => ?_⟩
      obtain rfl := Except.ok.inj hr
      exact ⟨.delivered (posting_deliver rest _), ih _⟩
    · rw [if_neg hr]
      have hr : i.response.isSuccess = false := by simpa using hr
      cases hplan : plan cfg.arith d.attempts with
      | error p => exact ⟨.panics hr hplan, trivial⟩
      | ok wait =>
        cases wait with
        | none =>
          dsimp only
          rw [Prog.bind_assoc']
          refine ⟨.lastRefused hr hplan, takes_sql_bind nofun fun s i r hr => ?_⟩
          split at hr
          · next hcount =>
            obtain rfl := Except.ok.inj hr
            exact ⟨.givenUp hcount (posting_deliver rest _), ih _⟩
          · cases hr
        | some backoff =>
          dsimp only
          rw [Prog.bind_assoc']
          refine ⟨.refused hr hplan, takes_sql_bind nofun fun s i r hr => ?_⟩
          split at hr
          · next hcount =>
            obtain rfl := Except.ok.inj hr
            exact ⟨.retried hcount (posting_deliver rest _), ih _⟩
          · cases hr

theorem takes_deliverPending : (deliverPending cfg).Takes (Move cfg) := by
  refine takes_sql_bind nofun fun s i r hr => ?_
  obtain rfl := Except.ok.inj hr
  exact ⟨.due (posting_deliver _ 0), takes_deliver _ 0⟩

theorem ctl_createTrigger (cfg : TriggerConfig) (t : Uuid) (name condition url : String)
    (secret : Option String) :
    (createTrigger cfg t name condition url secret >>= fun _ => Prog.ret 1).ctl = .failed ∨
      (createTrigger cfg t name condition url secret >>= fun _ => Prog.ret 1).ctl =
        .at .createTrigger := by
  unfold createTrigger
  split
  · exact .inl rfl
  · split
    · exact .inl rfl
    · exact .inr rfl

/-- Every call makes moves. -/
theorem takes_move (c : TriggerCall) : (c.body cfg).Takes (Move cfg) := by
  cases c with
  | createTrigger t name condition url secret => exact takes_createTrigger t name condition url secret
  | fire t condition event => exact takes_fire t condition event
  | testTrigger t trigger => exact takes_testTrigger t trigger
  | deliverPending => exact takes_deliverPending

end Moves

end Corpus.Triggers
