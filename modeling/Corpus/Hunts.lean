/-
Bundles, hunts and forward coverage (`registry.rs`, `hunts.rs`, `continuous.rs`).

One definition for each function of the source, statement by statement.  The
read side of the hunt tables comes first: the queries that several functions
share, `plannedArtifacts` above all, which fixes the set a hunt counts when it
is planned and evaluates when it runs.
-/
import Corpus.Groups
import Mathlib.Data.List.Sort

namespace Corpus

/-! ### Queries -/

namespace Db

/-- The hunt with id `h`, seen by tenant `t`. -/
def huntOf (s : Db) (t h : Uuid) : Option Hunt :=
  (s.hunt.hunts.get h).filter fun r => r.tenant = t

/-- `artifact WHERE tenant_id AND storage_state = 'committed' AND scope =
'endpoint' AND seq <= w`. -/
def plannedArtifacts (s : Db) (t : Uuid) (w : ℕ) : List Artifact :=
  s.ingest.artifacts.rows.filter fun a =>
    a.tenant = t && a.storageState = .committed && a.scope = .endpoint && decide (a.seq ≤ w)

/-- `COALESCE(MAX(seq), 0)` over the committed artifacts of the tenant. -/
def maxSeq (s : Db) (t : Uuid) : ℕ :=
  ((s.ingest.artifacts.rows.filter fun a => a.tenant = t && a.storageState = .committed).map
    Artifact.seq).foldr max 0

/-- `registry::bundle_sources`: the sources of a bundle by position. -/
def bundleSources (s : Db) (t b : Uuid) : List (String × String) :=
  ((s.hunt.bundleRules.filter fun r => r.bundleId = b).insertionSort
    fun x y => x.position ≤ y.position).filterMap fun r =>
      ((s.hunt.rules.get r.ruleId).filter fun x => x.tenant = t).map fun x => (x.ns, x.source)

/-- The forward hunt of a bundle. -/
def forwardHunt (s : Db) (t b : Uuid) : Option Hunt :=
  s.hunt.hunts.rows.find? fun r => r.tenant = t && r.bundleId = b && r.kind = .forward

/-- `UPDATE hunt SET … WHERE id = h AND tenant_id = t`. -/
def updHunt (s : Db) (t h : Uuid) (f : Hunt → Hunt) : Db :=
  { s with hunt := { s.hunt with
    hunts := s.hunt.hunts.updateWhere (fun r => r.id = h && r.tenant = t)
      (fun r => { f r with id := r.id }) fun _ => rfl } }

/-- `UPDATE hunt_job SET … WHERE hunt_id = h`. -/
def updJob (s : Db) (h : Uuid) (f : HuntJob → HuntJob) : Db :=
  { s with hunt := { s.hunt with
    jobs := s.hunt.jobs.updateWhere (fun r => r.huntId = h)
      (fun r => { f r with huntId := r.huntId }) fun _ => rfl } }

end Db

theorem Db.get_updHunt (s : Db) (t h : Uuid) (f : Hunt → Hunt) (h' : Uuid) :
    (s.updHunt t h f).hunt.hunts.get h' = (s.hunt.hunts.get h').map fun r =>
      if r.id = h && r.tenant = t then { f r with id := r.id } else r :=
  Table.get_updateWhere s.hunt.hunts _ (fun r => { f r with id := r.id }) (fun _ => rfl) h'

theorem Db.get_updJob (s : Db) (h : Uuid) (f : HuntJob → HuntJob) (h' : Uuid) :
    (s.updJob h f).hunt.jobs.get h' = (s.hunt.jobs.get h').map fun r =>
      if r.huntId = h then { f r with huntId := r.huntId } else r := by
  have := Table.get_updateWhere s.hunt.jobs (fun r => r.huntId = h)
    (fun r => { f r with huntId := r.huntId }) (fun _ => rfl) h'
  simp only [decide_eq_true_eq] at this
  exact this

/-- An update of the hunt a tenant sees, that keeps the tenant. -/
theorem Db.huntOf_updHunt (s : Db) (t h : Uuid) {f : Hunt → Hunt}
    (hf : ∀ r, (f r).tenant = r.tenant) :
    (s.updHunt t h f).huntOf t h = (s.huntOf t h).map fun r => { f r with id := r.id } := by
  unfold huntOf
  rw [get_updHunt]
  cases hg : s.hunt.hunts.get h with
  | none => rfl
  | some r =>
    have hid : r.id = h := (Table.mem_of_get hg).2
    by_cases ht : r.tenant = t
    · simp [Option.filter, hid, ht, hf]
    · simp [Option.filter, hid, ht]

/-- A job that `claim_next_job` may take. -/
def HuntJob.claimable (j : HuntJob) : Bool := j.finishedAt.isNone && j.claimedAt.isNone

/-- The states in which a retro hunt is open. -/
def HuntState.isOpen : HuntState → Bool
  | .queued | .running | .validating | .planned | .draft => true
  | _ => false

/-! ### Hunts -/

/-- `get_hunt`. -/
def getHunt (l : HuntPt) (t h : Uuid) : Srv Hunt := do
  let r ← Prog.query (.hunt l) fun s => s.huntOf t h
  match r with
  | some hunt => return hunt
  | none => Prog.err (.notFound s!"hunt {printUuid h}")

/-- `registry::get_bundle`. -/
def getBundle (l : HuntPt) (t : Uuid) (digest : String) : Srv Bundle := do
  let r ← Prog.query (.hunt l) fun s => s.hunt.bundles.get (t, digest)
  match r with
  | some bundle => return bundle
  | none => Prog.err (.notFound s!"bundle {digest}")

/-- The row `create_hunt` inserts. -/
def draftHunt (id t : Uuid) (bundle : Uuid) (digest : String) (now : Time) : Hunt :=
  ⟨id, t, .retro, bundle, digest, .draft, none, 0, {}, none, now, none, none⟩

/-- `INSERT INTO hunt`, refused when the id is taken. -/
def Db.insertHunt (s : Db) (r : Hunt) : Except Error (Hunt × Db) :=
  if (s.hunt.hunts.get r.id).isSome then .error (.db "hunt_pkey")
  else .ok (r, { s with hunt := { s.hunt with hunts := s.hunt.hunts.insertNew r } })

/-- `create_hunt`. -/
def createHunt (who : Who) (t : Uuid) (digest : String) : Srv Hunt := do
  let bundle ← getBundle (.newBundle t digest who) t digest
  Prog.exec (.hunt (.newInsert t digest bundle.id who)) fun s env =>
    s.insertHunt (draftHunt (env.uuid 0) t bundle.id digest env.now)

/-- `UPDATE hunt SET state = 'FAILED', error, completed_at`. -/
def failHunt (l : HuntPt) (t h : Uuid) (msg : String) : Srv Unit :=
  Prog.update (.hunt l) fun s env => s.updHunt t h fun r =>
    { r with state := .failed, error := some msg, completedAt := some env.now }

/-- `INSERT INTO hunt_job … ON CONFLICT DO UPDATE`: the job is claimable again. -/
def Db.upsertJob (s : Db) (t h : Uuid) (now : Time) : Db :=
  if (s.hunt.jobs.get h).isSome then
    s.updJob h fun r => { r with
      enqueuedAt := now, claimedAt := none, claimedBy := none, finishedAt := none,
      lastError := none }
  else { s with hunt := { s.hunt with
    jobs := s.hunt.jobs.insertNew ⟨h, t, now, none, none, none, none⟩ } }

/-- The part of `enqueue_hunt` after the bundle has compiled: pin the watermark,
count, plan, queue. -/
def planHunt (who : Who) (t h : Uuid) (pinned : Option ℕ) : Srv Hunt := do
  let w ← match pinned with
    | some w => pure w
    | none => Prog.query (.hunt (.enqMax t h who)) fun s => s.maxSeq t
  let planned ← Prog.query (.hunt (.enqCount t h who pinned w)) fun s =>
    (s.plannedArtifacts t w).length
  Prog.update (.hunt (.enqPlan t h who pinned w planned)) fun s _ => s.updHunt t h fun r =>
    { r with
      state := .planned, corpusWatermark := some w, plannedArtifacts := planned, counters := {},
      error := none, completedAt := none }
  Prog.update (.hunt (.enqQueue t h who)) fun s _ => s.updHunt t h fun r =>
    { r with state := .queued }
  Prog.update (.hunt (.enqJob t h who)) fun s env => s.upsertJob t h env.now
  getHunt (.enqReturn t h who) t h

/-- The part of `enqueue_hunt` after its checks: mark the hunt, compile, plan. -/
def validateHunt (cfg : Config) (who : Who) (t h : Uuid) (pinned : Option ℕ) : Srv Hunt := do
  Prog.update (.hunt (.enqValidate t h who pinned)) fun s _ => s.updHunt t h fun r =>
    { r with state := .validating }
  let bundle ← Prog.query (.hunt (.enqBundle t h who pinned)) fun s =>
    (s.huntOf t h).map Hunt.bundleId
  match bundle with
  | none => Prog.err (.db "no rows returned")
  | some b => do
    let sources ← Prog.query (.hunt (.enqSources t h who pinned b)) fun s => s.bundleSources t b
    match cfg.compileBundle sources with
    | .error e => do
      failHunt (.enqFail t h who) t h e
      Prog.err (.ruleCompile e)
    | .ok _ => planHunt who t h pinned

/-- `enqueue_hunt`. -/
def enqueueHunt (cfg : Config) (who : Who) (t h : Uuid) : Srv Hunt := do
  let hunt ← getHunt (.enqGet t h who) t h
  if hunt.kind ≠ .retro then
    Prog.err (.badRequest "only retro hunts are run explicitly")
  else if hunt.state = .running ∨ hunt.state = .queued then
    Prog.err (.conflict s!"hunt {printUuid h} is {hunt.state.asStr}")
  else match cfg.minTier with
  | some msg => Prog.err (.badRequest msg)
  | none => validateHunt cfg who t h hunt.corpusWatermark

/-! ### The scan loop -/

/-- `ScanCacheKey::new`. -/
def scanCacheKey (cfg : Config) (t : Uuid) (sha : Bytes) (digest : String) : ScanCacheKey :=
  ⟨t, sha, digest, cfg.engineVersion, cfg.scanConfigDigest⟩

/-- `commit_match`. -/
def commitMatch (cfg : Config) (l : Pt) (t h artifact : Uuid) (rule : String) (summary : Json) :
    Srv Bool :=
  Prog.exec l fun s env =>
    let row : HuntMatch := ⟨h, t, artifact, rule, cfg.engineVersion, summary, env.now⟩
    .ok ((s.hunt.huntMatches.get row.key).isNone,
      { s with hunt := { s.hunt with huntMatches := s.hunt.huntMatches.insertNew row } })

/-- `commit_cache_entry`. -/
def commitCacheEntry (l : Pt) (key : ScanCacheKey) (status : ScanStatus) (rules : List String)
    (durationMs : ℕ) (errorCode : Option String) : Srv Unit :=
  Prog.update l fun s env =>
    { s with hunt := { s.hunt with
      scanCache := s.hunt.scanCache.insertNew ⟨key, status, rules, durationMs, errorCode, env.now⟩ } }

/-- `cache_lookup`. -/
def cacheLookup (l : Pt) (key : ScanCacheKey) : Srv (Option ScanCacheRow) :=
  Prog.query l fun s => s.hunt.scanCache.get key

/-- `fire_hunt_match`. -/
def fireHuntMatch (l : Pt) (t h artifact : Uuid) (rule : String) : Srv ℕ :=
  fire l t "hunt_match" (.obj [("type", .str "hunt_match"), ("hunt_id", .num h),
    ("artifact_id", .num artifact), ("rule_id", .str rule)])

/-- `str::contains`. -/
def containsText (text part : String) : Bool :=
  text.toList.tails.any fun rest => part.toList.isPrefixOf rest

/-- `detect::heuristic_mitre`. -/
def heuristicMitre (labels : List String) : List String :=
  let table : List (List String × String) :=
    [(["inject", "process_hollow"], "T1055"), (["persist", "runkey", "scheduled"], "T1547"),
      (["ransom", "encrypt"], "T1486"), (["c2", "beacon", "backdoor"], "T1071"),
      (["steal", "credential", "mimikatz"], "T1003"), (["dropper", "downloader"], "T1105"),
      (["pack", "obfus"], "T1027")]
  labels.foldl (fun out label =>
    table.foldl (fun out entry =>
      if entry.1.any (containsText (label.map Char.toLower)) && !out.contains entry.2 then
        out ++ [entry.2]
      else out) out) []

/-- `detect::record`. -/
def recordDetection (l : Pt) (t artifact : Uuid) (source severity title : String) (detail : Json)
    (mitre : List String) : Srv Unit :=
  Prog.update l fun s env =>
    { s with hunt := { s.hunt with detections := s.hunt.detections ++
      [⟨t, artifact, source, severity, title, detail, mitre, env.now⟩] } }

/-- The matches of one artifact: each is committed, counted and fired. -/
def commitMatches (cfg : Config) (t h artifact : Uuid) (l : ItemStep → Pt) :
    List (String × Json) → Counters → Srv Counters :=
  Prog.loop fun c m => do
    let _ ← commitMatch cfg (l .hit) t h artifact m.1 m.2
    let _ ← fireHuntMatch (l .fire) t h artifact m.1
    return { c with matched := c.matched + 1 }

/-- The cached branch: terminal states still count, bytes are not read again. -/
def replayItem (cfg : Config) (t h artifact : Uuid) (l : ItemStep → Pt) (hit : ScanCacheRow)
    (c : Counters) : Srv Counters :=
  let c := { c with cacheHits := c.cacheHits + 1 }
  match hit.status with
  | .timeout => return { c with timedOut := c.timedOut + 1 }
  | .error => return { c with failed := c.failed + 1 }
  | .matched =>
    commitMatches cfg t h artifact l
      (hit.matchedRuleIds.map fun rule => (rule, .obj [("cached", .bool true)])) c
  | .clean => return c

/-- What `std::fs::read` says of a missing object. -/
def missingObject : String := "io error: No such file or directory (os error 2)"

/-- `serde_json::to_value` of a matched rule. -/
def RuleMatch.toJson (m : RuleMatch) : Json :=
  .obj [("rule_id", .str m.ruleId), ("namespace", .str m.ns), ("patterns", m.evidence)]

/-- The scan itself: the answer comes from outside. -/
def scanBytes (l : Pt) (bytes : Bytes) : Srv ScanOutcome :=
  Prog.stmt l (fun s _ => s) fun _ env => Prog.ret (env.scan bytes)

/-- The fresh branch: read, scan, cache, count. -/
def scanItem (cfg : Config) (t h artifact : Uuid) (digest : String) (key : ScanCacheKey)
    (object : ObjectKey) (l : ItemStep → Pt) (c : Counters) : Srv Counters := do
  let content ← Prog.query (l .read) fun s => s.ingest.cas.objects object
  match content with
  | none => do
    commitCacheEntry (l .cache) key .error [] 0 (some missingObject)
    return { c with failed := c.failed + 1 }
  | some bytes => do
    let outcome ← scanBytes (l .scan) bytes
    commitCacheEntry (l .cache) key outcome.status outcome.ruleIds outcome.durationMs
      outcome.errorCode
    match outcome.status with
    | .matched => do
      let rules := outcome.ruleIds
      let names := ",".intercalate rules
      recordDetection (l .detect) t artifact "retro_hunt" "high" s!"Retro-hunt match: {names}"
        (.obj [("hunt_id", .num h), ("bundle_digest", .str digest),
          ("rules", .arr (rules.map Json.str))]) (heuristicMitre rules)
      commitMatches cfg t h artifact l (outcome.ruleMatches.map fun m => (m.ruleId, m.toJson))
        { c with scanned := c.scanned + 1 }
    | .clean => return { c with scanned := c.scanned + 1 }
    | .timeout => return { c with timedOut := c.timedOut + 1 }
    | .error => return { c with failed := c.failed + 1 }

/-- What the loop of `execute_hunt` does for one artifact, up to the progress
update. -/
def huntItem (cfg : Config) (who : Who) (t h : Uuid) (digest : String) (c : Counters)
    (a : Artifact) : Srv Counters := do
  let l := fun step => Pt.hunt (.exeItem t h who c step)
  let key := scanCacheKey cfg t a.sha256 digest
  let hit ← cacheLookup (l .lookup) key
  match hit with
  | some hit => replayItem cfg t h a.id l hit c
  | none => scanItem cfg t h a.id digest key a.objectKey l c

/-- The body of the loop. -/
def huntStep (cfg : Config) (who : Who) (t h : Uuid) (digest : String) (c : Counters)
    (a : Artifact) : Srv Counters := do
  let c ← huntItem cfg who t h digest c a
  Prog.update (.hunt (.exeProgress t h who c)) fun s _ => s.updHunt t h fun r =>
    { r with counters := c }
  return c

/-- `COMPLETED_PARTIAL` when anything timed out or failed. -/
def finalState (c : Counters) : HuntState :=
  if c.timedOut > 0 ∨ c.failed > 0 then .completedPartial else .completed

/-- The part of `execute_hunt` after the loop. -/
def finishHunt (who : Who) (t h : Uuid) (c : Counters) : Srv Hunt := do
  Prog.update (.hunt (.exeFinal t h who c)) fun s env => s.updHunt t h fun r =>
    { r with state := finalState c, completedAt := some env.now }
  Prog.update (.hunt (.exeJobDone t h who)) fun s env => s.updJob h fun r =>
    { r with finishedAt := some env.now }
  getHunt (.exeReturn t h who) t h

/-- The part of `execute_hunt` from the moment it marks the hunt running. -/
def scanHunt (cfg : Config) (who : Who) (t h : Uuid) (digest : String) (w : ℕ) : Srv Hunt := do
  Prog.update (.hunt (.exeRunning t h who w)) fun s env => s.updHunt t h fun r =>
    { r with state := .running, startedAt := r.startedAt.or (some env.now) }
  Prog.update (.hunt (.exeClaim t h who w)) fun s env => s.updJob h fun r =>
    { r with claimedAt := some env.now, claimedBy := some "local-worker" }
  let artifacts ← Prog.query (.hunt (.exeSelect t h who w)) fun s =>
    (s.plannedArtifacts t w).insertionSort fun x y => x.seq ≤ y.seq
  let c ← Prog.loop (huntStep cfg who t h digest) artifacts {}
  finishHunt who t h c

/-- `execute_hunt`. -/
def executeHunt (cfg : Config) (who : Who) (t h : Uuid) : Srv Hunt := do
  let hunt ← getHunt (.exeGet t h who) t h
  if hunt.kind ≠ .retro then
    Prog.err (.badRequest "only retro hunts are run explicitly")
  else do
    let bundle ← Prog.query (.hunt (.exeBundle t h who hunt.corpusWatermark)) fun s =>
      (s.huntOf t h).map Hunt.bundleId
    match bundle with
    | none => Prog.err (.db "no rows returned")
    | some b => do
      let sources ← Prog.query (.hunt (.exeSources t h who hunt.corpusWatermark b)) fun s =>
        s.bundleSources t b
      match cfg.compileBundle sources with
      | .error e => do
        failHunt (.exeFail t h who) t h e
        Prog.err (.ruleCompile e)
      | .ok _ =>
        match hunt.corpusWatermark with
        | none =>
          Prog.err (.badRequest "hunt has no corpus_watermark; call enqueue/run first")
        | some w =>
          match cfg.minTier with
          | some msg => do
            failHunt (.exeFail t h who) t h msg
            Prog.err (.badRequest msg)
          | none => scanHunt cfg who t h hunt.bundleDigest w

/-- `run_hunt`. -/
def runHunt (cfg : Config) (t h : Uuid) : Srv Hunt := do
  let _ ← enqueueHunt cfg .sync t h
  executeHunt cfg .sync t h

/-- The job the claim query picks: the oldest claimable one. -/
def Db.nextJob (s : Db) : Option HuntJob :=
  ((s.hunt.jobs.rows.filter HuntJob.claimable).insertionSort
    fun x y => x.enqueuedAt ≤ y.enqueuedAt).head?

/-- `claim_next_job`, one transaction: the job is claimed, and its hunt marked
running if it is still queued. -/
def claimNextJob (worker : String) : Srv (Option (Uuid × Uuid)) :=
  Prog.exec (.hunt (.claim worker)) fun s env =>
    match s.nextJob with
    | none => .ok (none, s)
    | some j =>
      let s := s.updJob j.huntId fun r =>
        { r with claimedAt := some env.now, claimedBy := some worker }
      .ok (some (j.tenant, j.huntId), s.updHunt j.tenant j.huntId fun r =>
        if r.state = .queued then
          { r with state := .running, startedAt := r.startedAt.or (some env.now) }
        else r)

/-- One turn of the worker loop of `main.rs`. -/
def workerTurn (cfg : Config) (worker : String) : Srv (Option Hunt) := do
  let job ← claimNextJob worker
  match job with
  | none => return none
  | some (t, h) => do
    let hunt ← executeHunt cfg .worker t h
    return some hunt

/-! ### Forward coverage -/

/-- What a terminal scan adds to a forward hunt. -/
def forwardCounters (o : ScanOutcome) (c : Counters) : Counters :=
  match o.status with
  | .clean | .matched =>
    { c with scanned := c.scanned + 1, matched := c.matched + o.ruleMatches.length }
  | .timeout => { c with timedOut := c.timedOut + 1 }
  | .error => { c with failed := c.failed + 1 }

/-- The matches and counters of the forward hunt. -/
def creditForward (cfg : Config) (t artifact : Uuid) (outcome : ScanOutcome) (f : Hunt) :
    Srv Unit := do
  let l := Pt.hunt (.forward t artifact (some f.id))
  let _ ← Prog.loop (fun (_ : Unit) m => do
    let _ ← commitMatch cfg l t f.id artifact m.ruleId m.toJson
    return ()) outcome.ruleMatches ()
  Prog.update l fun s _ => s.updHunt t f.id fun r =>
    { r with counters := forwardCounters outcome r.counters }

/-- The detection and the trigger events of a forward match. -/
def reportForward (t artifact : Uuid) (b : Bundle) (outcome : ScanOutcome) (all : List String) :
    Srv (List String) := do
  let l := Pt.hunt (.forward t artifact none)
  let rules := outcome.ruleIds
  if rules.isEmpty then return all
  else do
    let names := ",".intercalate rules
    recordDetection l t artifact "forward_scan" "medium" s!"Forward coverage match: {names}"
      (.obj [("bundle_digest", .str b.digest), ("rules", .arr (rules.map Json.str))])
      (heuristicMitre rules)
    let _ ← Prog.loop (fun (_ : Unit) m => do
      let forward ← Prog.query l fun s => s.forwardHunt t b.id
      match forward with
      | some f => do
        let _ ← fireHuntMatch l t f.id artifact m.ruleId
        return ()
      | none => return ()) outcome.ruleMatches ()
    return all ++ rules

/-- `forward_scan` for one active bundle. -/
def forwardBundle (cfg : Config) (t artifact : Uuid) (sha bytes : Bytes) (all : List String)
    (b : Bundle) : Srv (List String) := do
  let l := Pt.hunt (.forward t artifact none)
  let key := scanCacheKey cfg t sha b.digest
  let hit ← cacheLookup l key
  match hit with
  | some _ => return all
  | none => do
    let sources ← Prog.query l fun s => s.bundleSources t b.id
    match cfg.compileBundle sources with
    | .error e => Prog.err (.ruleCompile e)
    | .ok _ => do
      let outcome ← scanBytes l bytes
      commitCacheEntry l key outcome.status outcome.ruleIds outcome.durationMs outcome.errorCode
      let forward ← Prog.query l fun s => s.forwardHunt t b.id
      match forward with
      | some f => do
        creditForward cfg t artifact outcome f
        reportForward t artifact b outcome all
      | none => reportForward t artifact b outcome all

/-- `forward_scan`. -/
def forwardScan (cfg : Config) (t artifact : Uuid) (sha bytes : Bytes) : Srv (List String) := do
  let bundles ← Prog.query (.hunt (.forward t artifact none)) fun s =>
    s.hunt.bundles.rows.filter fun b => b.tenant = t && b.active
  Prog.loop (forwardBundle cfg t artifact sha bytes) bundles []

/-! ### Publishing and activation -/

/-- The rules of a bundle, none missing and none revoked. -/
def bundleMembers (t : Uuid) : List Uuid → List Rule → Srv (List Rule) :=
  Prog.loop fun members id => do
    let r ← Prog.query (.hunt (.pubRule t id)) fun s =>
      (s.hunt.rules.get id).filter fun x => x.tenant = t
    match r with
    | none => Prog.err (.notFound s!"rule {printUuid id}")
    | some rule =>
      if rule.state = .revoked then Prog.err (.badRequest s!"rule {rule.stableId} is REVOKED")
      else return members ++ [rule]

/-- The transaction of `publish_bundle`: reuse or insert the bundle, activate its
rules, and give an active bundle its forward hunt. -/
def Db.publish (s : Db) (cfg : Config) (t : Uuid) (members : List Rule) (digest : String)
    (activate : Bool) (env : Env) : Except Error (Unit × Db) :=
  let d := s.hunt
  let id := match d.bundles.get (t, digest) with
    | some b => b.id
    | none => env.uuid 0
  let bundles := match d.bundles.get (t, digest) with
    | some b => if activate then
        d.bundles.updateWhere (fun x => x.id = b.id) (fun x => { x with active := true }) fun _ => rfl
      else d.bundles
    | none => d.bundles.insertNew ⟨env.uuid 0, t, digest, cfg.engineVersion, activate, env.now⟩
  let bundleRules := match d.bundles.get (t, digest) with
    | some _ => d.bundleRules
    | none => d.bundleRules ++ members.mapIdx fun i r => ⟨env.uuid 0, r.id, i⟩
  let rules := d.rules.updateWhere
    (fun r => members.any (fun m => m.id = r.id) && (r.state = .draft || r.state = .validated))
    (fun r => { r with state := .active }) fun _ => rfl
  let s := { s with hunt := { d with bundles, bundleRules, rules } }
  if (d.bundles.get (t, digest)).isNone && d.bundles.rows.any (fun b => b.id = env.uuid 0) then
    .error (.db "rule_bundle_pkey")
  else if (d.bundles.get (t, digest)).isNone && !decide (members.map Rule.id).Nodup then
    .error (.db "rule_bundle_rule_pkey")
  else if activate && (s.forwardHunt t id).isNone then
    (s.insertHunt ⟨env.uuid 1, t, .forward, id, digest, .activeForward, none, 0, {}, none, env.now,
      none, none⟩).map fun r => ((), r.2)
  else .ok ((), s)

/-- `publish_bundle`. -/
def publishBundle (cfg : Config) (t : Uuid) (ruleIds : List Uuid) (activate : Bool) :
    Srv Bundle := do
  if ruleIds.isEmpty then Prog.err (.badRequest "bundle requires at least one rule")
  else do
    let found ← bundleMembers t ruleIds []
    let members := found.insertionSort fun x y => x.stableId ≤ y.stableId
    match cfg.compileBundle (members.map fun r => (r.ns, r.source)) with
    | .error e => Prog.err (.ruleCompile e)
    | .ok _ => do
      let digest := cfg.bundleDigest (members.map fun r => (r.stableId, r.source))
      Prog.exec (.hunt (.pubTx t digest activate)) fun s env =>
        s.publish cfg t members digest activate env
      getBundle (.pubGet t digest) t digest

/-- The newest open retro hunt of a bundle digest. -/
def Db.openRetro (s : Db) (t : Uuid) (digest : String) : Option Hunt :=
  ((s.hunt.hunts.rows.filter fun r =>
    r.tenant = t && r.kind = .retro && r.bundleDigest = digest && r.state.isOpen).insertionSort
      fun x y => y.createdAt ≤ x.createdAt).head?

/-- `continuous::insert_record` for a bundle activation. -/
def recordReanalysis (l : HuntPt) (t : Uuid) (digest : String) (h : Uuid)
    (state : ReanalysisState) : Srv Unit :=
  Prog.update (.hunt l) fun s env =>
    { s with hunt := { s.hunt with
      reanalyses := s.hunt.reanalyses ++ [⟨t, digest, h, state, env.now⟩] } }

/-- `on_bundle_activated`. -/
def onBundleActivated (cfg : Config) (t : Uuid) (digest : String) : Srv (Option Hunt) := do
  if !cfg.autoRetro then return none
  else do
    let existing ← Prog.query (.hunt (.actFind t digest)) fun s => s.openRetro t digest
    match existing with
    | some e => do
      let hunt ← getHunt (.actGet t digest e.id) t e.id
      if hunt.state = .draft then
        let _ ← enqueueHunt cfg .activation t e.id
      recordReanalysis (.actReused t digest e.id) t digest e.id .reused
      let hunt ← getHunt (.actReturn t e.id) t e.id
      return some hunt
    | none => do
      let hunt ← createHunt .activation t digest
      let hunt ← enqueueHunt cfg .activation t hunt.id
      recordReanalysis (.actEnqueued t digest hunt) t digest hunt.id .enqueued
      return some hunt

/-- The publish handler of `main.rs`. -/
def publishHandler (cfg : Config) (t : Uuid) (ruleIds : List Uuid) (activate : Bool) :
    Srv (Bundle × Option Hunt) := do
  let bundle ← publishBundle cfg t ruleIds activate
  if activate then do
    let hunt ← onBundleActivated cfg t bundle.digest
    return (bundle, hunt)
  else return (bundle, none)

end Corpus
