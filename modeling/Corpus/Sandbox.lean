/-
Scans in a process of their own (`scan.rs`, `sandbox.rs`, and `main.rs` of the scanner).

The server prints a job, starts the scanner with it and reads what it prints; or it scans in its
own process.  The scanner may crash or be killed at any byte of its output, run out of time, or
print too much.

* `outcomeFromJson_outcomeValue` — the server reads what the scanner has written;
* `outcomeFromJson_notDone` — what the server makes up for a scanner that has not finished;
* `fromStr_childInput` — the scanner reads the rules and the path that the server has written;
* `isolated_scan_agrees` — so a scan in the sandbox says what a scan in the process would say, or
  that there was none.

YARA-X and `serde_json` are parameters; of the latter only the two documents of a scan matter.
-/
import Corpus.FuzzyWords
import Corpus.GvisorJob
import Corpus.Machine
import Corpus.Merlin

namespace Corpus.Sandbox

/-! ### Scanning bytes -/

/-- The range of a match. -/
structure MatchRange where
  start : UInt64
  stop : UInt64
  le : start ≤ stop

structure YaraPattern where
  identifier : String
  matches_ : List MatchRange

structure YaraRule where
  identifier : String
  ns : String
  patterns : List YaraPattern

/-- YARA-X: bundles are compiled, and a scan gives the rules that match; `to_lowercase` is that of
its error texts. -/
structure Yara (R : Type) where
  compile : List (String × String) → Except String R
  scan : R → Bytes → Except String (List YaraRule)
  lowercase : String → String

/-- `PatternEvidence`. -/
structure PatternEvidence where
  identifier : String
  offset : UInt64
  length : UInt64
  deriving DecidableEq

/-- `RuleMatchEvidence`. -/
structure RuleMatchEvidence where
  ruleId : String
  ns : String
  patterns : List PatternEvidence
  deriving DecidableEq

/-- `ScanOutcome`. -/
structure ScanOutcome where
  status : ScanStatus
  ruleMatches : List RuleMatchEvidence
  durationMs : Int64
  errorCode : Option String
  deriving DecidableEq

variable {R : Type}

/-- The evidence of a pattern: its first 64 matches. -/
def YaraPattern.evidence (p : YaraPattern) : List PatternEvidence :=
  (p.matches_.take 64).map fun m => ⟨p.identifier, m.start, m.stop - m.start⟩

def YaraRule.evidence (r : YaraRule) : RuleMatchEvidence :=
  ⟨r.identifier, r.ns, r.patterns.flatMap YaraPattern.evidence⟩

/-- `scan_bytes`, which takes the time `elapsed`. -/
def scanBytes (y : Yara R) (elapsed : Int64) (rules : R) (bytes : Bytes) : ScanOutcome :=
  match y.scan rules bytes with
  | .ok results =>
    let evidence := results.map YaraRule.evidence
    ⟨if evidence.isEmpty then .clean else .matched, evidence, elapsed, none⟩
  | .error msg =>
    let isTimeout := (y.lowercase msg).toList.tails.any ("timeout".toList.isPrefixOf ·)
    ⟨if isTimeout then .timeout else .error, [], elapsed, some msg⟩

/-! ### Outcomes as JSON -/

/-- `as_str`. -/
def statusText : ScanStatus → String
  | .clean => "clean"
  | .matched => "matched"
  | .timeout => "timeout"
  | .error => "error"

def PatternEvidence.toValue (p : PatternEvidence) : RawJson :=
  .obj [("identifier", .str p.identifier), ("offset", .int p.offset.toNat),
    ("length", .int p.length.toNat)]

def RuleMatchEvidence.toValue (m : RuleMatchEvidence) : RawJson :=
  .obj [("rule_id", .str m.ruleId), ("namespace", .str m.ns),
    ("patterns", .arr (m.patterns.map PatternEvidence.toValue))]

/-- An object as the scanner and the sandbox write it. -/
def document (status : String) (found : List RawJson) (durationMs : ℤ) (errorCode : RawJson) :
    RawJson :=
  .obj [("status", .str status), ("matches", .arr found), ("duration_ms", .int durationMs),
    ("error_code", errorCode)]

/-- `Outcome` of the scanner. -/
def outcomeValue (o : ScanOutcome) : RawJson :=
  document (statusText o.status) (o.ruleMatches.map RuleMatchEvidence.toValue) o.durationMs.toInt
    (match o.errorCode with
      | some msg => .str msg
      | none => .null)

/-- The members of a value that is read as a structure: of an object by their names, of an array
in their order. -/
def members (names : List String) : RawJson → Option (List RawJson)
  | .obj fields => names.mapM fun name => (RawJson.obj fields).get? name
  | .arr items => if items.length = names.length then some items else none
  | .null | .bool _ | .int _ | .float _ | .str _ => none

def asU64 : RawJson → Option UInt64
  | .int n => if 0 ≤ n ∧ n < 2 ^ 64 then some (UInt64.ofNat n.toNat) else none
  | .null | .bool _ | .float _ | .str _ | .arr _ | .obj _ => none

def asArray : RawJson → Option (List RawJson)
  | .arr items => some items
  | .null | .bool _ | .int _ | .float _ | .str _ | .obj _ => none

/-- `from_value::<PatternEvidence>`. -/
def PatternEvidence.fromValue (v : RawJson) : Option PatternEvidence := do
  match ← members ["identifier", "offset", "length"] v with
  | [identifier, offset, length] =>
    return ⟨← identifier.asStr, ← asU64 offset, ← asU64 length⟩
  | _ => none

/-- `from_value::<RuleMatchEvidence>`. -/
def RuleMatchEvidence.fromValue (v : RawJson) : Option RuleMatchEvidence := do
  match ← members ["rule_id", "namespace", "patterns"] v with
  | [ruleId, ns, patterns] =>
    return ⟨← ruleId.asStr, ← ns.asStr, ← (← asArray patterns).mapM PatternEvidence.fromValue⟩
  | _ => none

/-- `outcome_from_json`. -/
def outcomeFromJson (v : RawJson) : ScanOutcome :=
  let status := (v.get? "status").bind RawJson.asStr
  { status :=
      if status = some "matched" then .matched
      else if status = some "clean" then .clean
      else if status = some "timeout" then .timeout
      else .error
    ruleMatches := (((v.get? "matches").bind asArray).map
      (·.filterMap RuleMatchEvidence.fromValue)).getD []
    durationMs := Int64.ofInt (((v.get? "duration_ms").bind RawJson.asI64).getD 0)
    errorCode := (v.get? "error_code").bind RawJson.asStr }

theorem asU64_toNat (n : UInt64) : asU64 (.int n.toNat) = some n := by
  have hlt := n.toNat_lt
  rw [asU64, if_pos ⟨Int.natCast_nonneg _, by omega⟩, Int.toNat_natCast, UInt64.ofNat_toNat]

theorem PatternEvidence.fromValue_eq {v offset length : RawJson} {p : PatternEvidence}
    (hmembers : members ["identifier", "offset", "length"] v =
      some [.str p.identifier, offset, length])
    (hoffset : asU64 offset = some p.offset) (hlength : asU64 length = some p.length) :
    fromValue v = some p := by
  simp [fromValue, hmembers, hoffset, hlength, RawJson.asStr]

theorem PatternEvidence.fromValue_toValue (p : PatternEvidence) :
    fromValue p.toValue = some p := by
  refine fromValue_eq ?_ (asU64_toNat p.offset) (asU64_toNat p.length)
  simp [members, toValue, RawJson.get?]

/-- A list that is read element by element. -/
theorem mapM_map_some {α β : Type} {f : β → Option α} {g : α → β} (h : ∀ a, f (g a) = some a)
    (l : List α) : (l.map g).mapM f = some l := by
  induction l with
  | nil => rfl
  | cons a l ih =>
    rw [List.map_cons, List.mapM_cons, h, ih]
    rfl

theorem RuleMatchEvidence.fromValue_toValue (m : RuleMatchEvidence) :
    fromValue m.toValue = some m := by
  have hmembers : members ["rule_id", "namespace", "patterns"] m.toValue =
      some [.str m.ruleId, .str m.ns, .arr (m.patterns.map PatternEvidence.toValue)] := by
    simp [members, toValue, RawJson.get?]
  simp [fromValue, hmembers, RawJson.asStr, asArray,
    mapM_map_some PatternEvidence.fromValue_toValue]

/-- **The server reads what the scanner has written.** -/
theorem outcomeFromJson_outcomeValue (o : ScanOutcome) : outcomeFromJson (outcomeValue o) = o := by
  obtain ⟨status, ruleMatches, durationMs, errorCode⟩ := o
  have hmatches : (ruleMatches.map RuleMatchEvidence.toValue).filterMap
      RuleMatchEvidence.fromValue = ruleMatches := by
    rw [List.filterMap_map]
    refine (List.filterMap_congr fun m _ => ?_).trans List.filterMap_some
    exact m.fromValue_toValue
  have hduration : RawJson.asI64 (.int durationMs.toInt) = some durationMs.toInt := by
    have hle := durationMs.le_toInt
    have hlt := durationMs.toInt_lt
    exact if_pos ⟨hle, hlt⟩
  have hstatus : (outcomeFromJson
      (outcomeValue ⟨status, ruleMatches, durationMs, errorCode⟩)).status = status := by
    cases status <;> rfl
  have herror : (outcomeFromJson
      (outcomeValue ⟨status, ruleMatches, durationMs, errorCode⟩)).errorCode = errorCode := by
    cases errorCode <;> rfl
  have hmatches' : (outcomeFromJson
      (outcomeValue ⟨status, ruleMatches, durationMs, errorCode⟩)).ruleMatches = ruleMatches :=
    hmatches
  have hduration' : (outcomeFromJson
      (outcomeValue ⟨status, ruleMatches, durationMs, errorCode⟩)).durationMs = durationMs := by
    show Int64.ofInt ((RawJson.asI64 (.int durationMs.toInt)).getD 0) = durationMs
    rw [hduration, Option.getD_some, Int64.ofInt_toInt]
  generalize outcomeFromJson (outcomeValue ⟨status, ruleMatches, durationMs, errorCode⟩) = o at *
  cases o
  simp_all

/-! ### The scanner -/

/-- `serde_json`: a job read from a text, a value written to bytes and read from them. -/
structure Serde where
  fromStr : String → Except String Gvisor.Job
  toBytes : RawJson → Bytes
  fromSlice : Bytes → Except String RawJson

/-- `from_str(..).ok()`. -/
def Serde.parse (sd : Serde) (text : List Char) : Option Gvisor.Job :=
  (sd.fromStr (String.ofList text)).toOption

/-- `run` of the scanner. -/
def run (y : Yara R) (files : String → Except String Bytes) (elapsed : Int64) (job : Gvisor.Job) :
    ScanOutcome :=
  match y.compile job.rules with
  | .error e => ⟨.error, [], 0, some ("compile: " ++ e)⟩
  | .ok rules =>
    match files job.samplePath with
    | .error e => ⟨.error, [], 0, some ("read sample: " ++ e)⟩
    | .ok bytes => scanBytes y elapsed rules bytes

/-- What the scanner prints about a job that it cannot read. -/
def badJob (e : String) : String :=
  "\x7b\"status\":\"error\",\"matches\":[],\"duration_ms\":0,\"error_code\":\"bad job json: " ++
    e ++ "\"\x7d\n"

/-- `main` of the scanner: what it prints, and its exit code. -/
def scannerMain (y : Yara R) (sd : Serde) (files : String → Except String Bytes) (elapsed : Int64)
    (stdin : Bytes) : Bytes × ℤ :=
  match Fuzzy.fromUtf8 stdin with
  | none => ([], 64)
  | some input =>
    match sd.fromStr input with
    | .error e => (Fuzzy.asBytes (badJob e), 64)
    | .ok job => (sd.toBytes (outcomeValue (run y files elapsed job)) ++ [10], 0)

/-! ### The server -/

/-- How the scanner ends: it does not start, it cannot be waited for, its time is up, or it has
printed something and is gone. -/
inductive ChildEnd where
  | spawnFailed (e : String)
  | waitFailed (e : String)
  | timedOut
  | exited (stdout : Bytes) (code : Option ℤ) (stderr : String)

/-- `{:?}` of an exit code. -/
def debugCode : Option ℤ → String
  | none => "None"
  | some code => "Some(" ++ toString code ++ ")"

/-- What the server makes up. -/
def failure (status : String) (durationMs : ℤ) (msg : String) : RawJson :=
  document status [] durationMs (.str msg)

/-- `run_sandboxed`. -/
def runSandboxed (sd : Serde) (timeoutMs outputCap : ℕ) : ChildEnd → Except String RawJson
  | .spawnFailed e => .error e
  | .waitFailed e => .error e
  | .timedOut => .ok (failure "timeout" timeoutMs
      ("scan exceeded " ++ toString timeoutMs ++ "ms sandbox timeout"))
  | .exited stdout code _ =>
    if stdout.length > outputCap then
      .ok (failure "error" 0 ("scanner output exceeded " ++ toString outputCap ++ " byte cap"))
    else match sd.fromSlice stdout with
      | .ok v => .ok v
      | .error _ => .ok (failure "error" 0
          ("scanner produced invalid output (exit " ++ debugCode code ++ ")"))

/-- `run_via_docker_runsc`, after the job has been written. -/
def runViaDockerRunsc (sd : Serde) (timeoutMs outputCap : ℕ) : ChildEnd → Except String RawJson
  | .spawnFailed e => .error ("docker run spawn: " ++ e)
  | .waitFailed e => .error ("docker wait: " ++ e)
  | .timedOut => .ok (failure "timeout" timeoutMs
      ("gvisor scan exceeded " ++ toString timeoutMs ++ "ms"))
  | .exited stdout code stderr =>
    if stdout.length > outputCap then
      .ok (failure "error" 0 ("scanner output exceeded " ++ toString outputCap ++ " byte cap"))
    else if code ≠ some 0 ∧ stdout = [] then
      .error ("gvisor docker run failed (exit " ++ debugCode code ++ "): " ++ stderr)
    else match sd.fromSlice stdout with
      | .ok v => .ok v
      | .error e => .error ("gvisor scanner invalid JSON (" ++ e ++ "); stderr=" ++ stderr)

/-- `ScannerTier`. -/
inductive ScannerTier where
  | inProcess
  | subprocess
  | gvisor
  deriving DecidableEq

/-- `error_outcome`. -/
def errorOutcome (msg : String) : ScanOutcome := ⟨.error, [], 0, some msg⟩

/-- `SCAN_TIMEOUT`, and the cap on the output. -/
def scanTimeoutMs : ℕ := 10000

def outputCap : ℕ := 1024 * 1024

/-- What the tier writes to the scanner. -/
def childInput (sd : Serde) (host : Gvisor.Host) (tier : ScannerTier)
    (sources : List (String × String)) (p : Gvisor.SamplePath) : Except String String :=
  match tier with
  | .inProcess => .error ""
  | .subprocess => .ok (String.ofList (Gvisor.Job.mk sources p.text).text)
  | .gvisor => (Gvisor.scanGvisor sd.parse host sources p).map String.ofList

/-- `scan_with_tier`, with a scanner that ends as `child` says of what is written to it; `none` is
a panic. -/
def scanWithTier (y : Yara R) (sd : Serde) (host : Gvisor.Host) (tier : ScannerTier)
    (sources : List (String × String)) (compiled : Option R) (bytes : Bytes)
    (samplePath : Option Gvisor.SamplePath) (elapsed : Int64) (child : String → ChildEnd) :
    Option ScanOutcome :=
  match tier, samplePath with
  | .inProcess, _ => compiled.map fun rules => scanBytes y elapsed rules bytes
  | .subprocess, none => some (errorOutcome "subprocess tier requires a sample path")
  | .gvisor, none => some (errorOutcome "gvisor tier requires a sample path")
  | .subprocess, some p =>
    match childInput sd host .subprocess sources p with
    | .error e => some (errorOutcome e)
    | .ok input =>
      match runSandboxed sd scanTimeoutMs outputCap (child input) with
      | .ok v => some (outcomeFromJson v)
      | .error e => some (errorOutcome ("sandbox spawn: " ++ e))
  | .gvisor, some p =>
    match childInput sd host .gvisor sources p with
    | .error e => some (errorOutcome e)
    | .ok input =>
      match runViaDockerRunsc sd scanTimeoutMs outputCap (child input) with
      | .ok v => some (outcomeFromJson v)
      | .error e => some (errorOutcome e)

/-! ### The files of the scanner -/

/-- What the scanner is kept from: files that landlock hides, with the error, and those that the
container has of its own. -/
structure Jail where
  hidden : String → Option String
  image : String → Except String Bytes

/-- What is behind `/sample/` in a path. -/
def mounted (path : String) : Option String :=
  if "/sample/".toList <+: path.toList then
    some (String.ofList (path.toList.drop "/sample/".length))
  else none

/-- A file in the directory of the sample. -/
def beside (p : Gvisor.SamplePath) (name : String) : String :=
  Gvisor.SamplePath.joined { p with name := name }

/-- The files that the scanner has; the container has the directory of the sample as `/sample`. -/
def scannerFiles (jail : Jail) (tier : ScannerTier) (p : Gvisor.SamplePath)
    (files : String → Except String Bytes) (path : String) : Except String Bytes :=
  match jail.hidden path with
  | some e => .error e
  | none =>
    match tier with
    | .inProcess | .subprocess => files path
    | .gvisor =>
      match mounted path with
      | some name => files (beside p name)
      | none => jail.image path

/-- The path that is written to the scanner, for a job that is not rewritten. -/
def writtenPath (tier : ScannerTier) (p : Gvisor.SamplePath) : String :=
  match tier with
  | .inProcess | .subprocess => p.text
  | .gvisor => "/sample/artifact"

/-- The file on the host that the scanner opens. -/
def scannedFile (tier : ScannerTier) (p : Gvisor.SamplePath) : String :=
  match tier with
  | .inProcess | .subprocess => p.text
  | .gvisor => beside p "artifact"

/-- The job for the container is not rewritten: the path of the sample does not occur in it, or is
replaced by itself. -/
def Untouched (sources : List (String × String)) (p : Gvisor.SamplePath) : Prop :=
  ∀ path ∈ [p.text, p.joined], (path = "/sample/artifact" ∧ p.name = "artifact") ∨
    ¬ path.toList <:+: (Gvisor.Job.mk sources "/sample/artifact").text

/-! ### What a scan in the sandbox says -/

/-- The document is read as it was written, with a line end or without, and no part of it is
read. -/
structure Serde.Reads (sd : Serde) (v : RawJson) : Prop where
  whole : ∀ tail, tail = [] ∨ tail = [10] → sd.fromSlice (sd.toBytes v ++ tail) = .ok v
  cut : ∀ part, part <+: sd.toBytes v → part ≠ sd.toBytes v → ∃ e, sd.fromSlice part = .error e

/-- The scanner has not printed anything but what it prints on its input, or the first part of
that. -/
def ChildEnd.Of (e : ChildEnd) (stdout : Bytes) : Prop :=
  ∀ part code stderr, e = .exited part code stderr → part <+: stdout

/-- The outcome tells of no scan. -/
def ScanOutcome.NotDone (o : ScanOutcome) : Prop :=
  (o.status = .timeout ∨ o.status = .error) ∧ o.ruleMatches = []

section Agree

variable {y : Yara R} {sd : Serde} {e : ChildEnd} {v : RawJson}

theorem outcomeFromJson_notDone {status : String} (h : status = "timeout" ∨ status = "error")
    (durationMs : ℤ) (msg : String) :
    (outcomeFromJson (failure status durationMs msg)).NotDone := by
  obtain rfl | rfl := h
  · exact ⟨.inl rfl, rfl⟩
  · exact ⟨.inr rfl, rfl⟩

theorem errorOutcome_notDone (msg : String) : (errorOutcome msg).NotDone := ⟨.inr rfl, rfl⟩

/-- A part of a line is a part of its text, or all of it. -/
theorem prefix_line {part text : Bytes} (h : part <+: text ++ [10]) :
    (part <+: text ∧ part ≠ text) ∨ ∃ tail, (tail = [] ∨ tail = [10]) ∧ part = text ++ tail := by
  rcases List.prefix_concat_iff.mp h with rfl | hpart
  · exact .inr ⟨[10], .inr rfl, rfl⟩
  · by_cases heq : part = text
    · exact .inr ⟨[], .inl rfl, by rw [heq, List.append_nil]⟩
    · exact .inl ⟨hpart, heq⟩

/-- What is read of a scanner that prints a document. -/
theorem fromSlice_part (hv : sd.Reads v) {part : Bytes} (h : part <+: sd.toBytes v ++ [10]) :
    (∃ e, sd.fromSlice part = .error e) ∨ sd.fromSlice part = .ok v := by
  obtain ⟨hpart, hne⟩ | ⟨tail, htail, rfl⟩ := prefix_line h
  · exact .inl (hv.cut part hpart hne)
  · exact .inr (hv.whole tail htail)

theorem runSandboxed_of (hv : sd.Reads v) (he : e.Of (sd.toBytes v ++ [10])) (timeoutMs cap : ℕ) :
    (∃ msg, runSandboxed sd timeoutMs cap e = .error msg) ∨
    (∃ status durationMs msg, (status = "timeout" ∨ status = "error") ∧
      runSandboxed sd timeoutMs cap e = .ok (failure status durationMs msg)) ∨
    runSandboxed sd timeoutMs cap e = .ok v := by
  cases e with
  | spawnFailed msg => exact .inl ⟨msg, rfl⟩
  | waitFailed msg => exact .inl ⟨msg, rfl⟩
  | timedOut => exact .inr (.inl ⟨_, _, _, .inl rfl, rfl⟩)
  | exited stdout code stderr =>
    rw [runSandboxed]
    split
    · exact .inr (.inl ⟨_, _, _, .inr rfl, rfl⟩)
    · obtain ⟨msg, hbad⟩ | hread := fromSlice_part hv (he stdout code stderr rfl)
      · rw [hbad]
        exact .inr (.inl ⟨_, _, _, .inr rfl, rfl⟩)
      · rw [hread]
        exact .inr (.inr rfl)

theorem runViaDockerRunsc_of (hv : sd.Reads v) (he : e.Of (sd.toBytes v ++ [10]))
    (timeoutMs cap : ℕ) :
    (∃ msg, runViaDockerRunsc sd timeoutMs cap e = .error msg) ∨
    (∃ status durationMs msg, (status = "timeout" ∨ status = "error") ∧
      runViaDockerRunsc sd timeoutMs cap e = .ok (failure status durationMs msg)) ∨
    runViaDockerRunsc sd timeoutMs cap e = .ok v := by
  cases e with
  | spawnFailed msg => exact .inl ⟨_, rfl⟩
  | waitFailed msg => exact .inl ⟨_, rfl⟩
  | timedOut => exact .inr (.inl ⟨_, _, _, .inl rfl, rfl⟩)
  | exited stdout code stderr =>
    rw [runViaDockerRunsc]
    split
    · exact .inr (.inl ⟨_, _, _, .inr rfl, rfl⟩)
    split
    · exact .inl ⟨_, rfl⟩
    · obtain ⟨msg, hbad⟩ | hread := fromSlice_part hv (he stdout code stderr rfl)
      · rw [hbad]
        exact .inl ⟨_, rfl⟩
      · rw [hread]
        exact .inr (.inr rfl)

theorem fromUtf8_asBytes (s : String) : Fuzzy.fromUtf8 (Fuzzy.asBytes s) = some s := by
  unfold Fuzzy.fromUtf8 String.fromUTF8?
  exact dif_pos s.isValidUTF8

theorem scannerMain_of_job {files : String → Except String Bytes} {elapsed : Int64} {input : String}
    {job : Gvisor.Job} (hjob : sd.fromStr input = .ok job) :
    scannerMain y sd files elapsed (Fuzzy.asBytes input) =
      (sd.toBytes (outcomeValue (run y files elapsed job)) ++ [10], 0) := by
  rw [scannerMain, fromUtf8_asBytes]
  dsimp only
  rw [hjob]

/-- An outcome of the scanner is one of no scan, or that of one. -/
theorem run_cases (y : Yara R) (files : String → Except String Bytes) (elapsed : Int64)
    (job : Gvisor.Job) : (run y files elapsed job).NotDone ∨
      ∃ rules bytes, y.compile job.rules = .ok rules ∧ files job.samplePath = .ok bytes ∧
        run y files elapsed job = scanBytes y elapsed rules bytes := by
  unfold run
  cases hrules : y.compile job.rules with
  | error e => exact .inl ⟨.inr rfl, rfl⟩
  | ok rules =>
    cases hbytes : files job.samplePath with
    | error e => exact .inl ⟨.inr rfl, rfl⟩
    | ok bytes => exact .inr ⟨rules, bytes, rfl, rfl, rfl⟩

/-- What the server makes of a scanner that prints a document. -/
theorem scanWithTier_of {host : Gvisor.Host} {tier : ScannerTier} (htier : tier ≠ .inProcess)
    {sources : List (String × String)} {compiled : Option R} {bytes : Bytes}
    {p : Gvisor.SamplePath} {elapsed : Int64} {child : String → ChildEnd} {o : ScanOutcome}
    (hv : sd.Reads v)
    (hchild : ∀ input, childInput sd host tier sources p = .ok input →
      (child input).Of (sd.toBytes v ++ [10]))
    (ho : scanWithTier y sd host tier sources compiled bytes (some p) elapsed child =
      some o) :
    o.NotDone ∨ o = outcomeFromJson v := by
  have hreport : ∀ {r : Except String RawJson} {f : String → String},
      ((∃ msg, r = .error msg) ∨ (∃ status durationMs msg, (status = "timeout" ∨ status = "error") ∧
        r = .ok (failure status durationMs msg)) ∨ r = .ok v) →
      (match r with
        | .ok v => some (outcomeFromJson v)
        | .error e => some (errorOutcome (f e))) = some o → o.NotDone ∨ o = outcomeFromJson v := by
    rintro r f (⟨msg, rfl⟩ | ⟨status, durationMs, msg, hstatus, rfl⟩ | rfl) hr
    · exact .inl (Option.some.inj hr ▸ errorOutcome_notDone _)
    · exact .inl (Option.some.inj hr ▸ outcomeFromJson_notDone hstatus _ _)
    · exact .inr (Option.some.inj hr).symm
  cases tier with
  | inProcess => exact absurd rfl htier
  | subprocess =>
    have hof := hchild _ rfl
    exact hreport (runSandboxed_of hv hof _ _) ho
  | gvisor =>
    rw [scanWithTier] at ho
    cases hinput : childInput sd host .gvisor sources p with
    | error e =>
      rw [hinput] at ho
      exact .inl (Option.some.inj ho ▸ errorOutcome_notDone _)
    | ok input =>
      rw [hinput] at ho
      exact hreport (f := id) (runViaDockerRunsc_of hv (hchild input hinput) _ _) ho

/-- A scanner that was let finish, under the cap. -/
theorem scanWithTier_exited {host : Gvisor.Host} {tier : ScannerTier} (htier : tier ≠ .inProcess)
    {sources : List (String × String)} {compiled : Option R} {bytes : Bytes}
    {p : Gvisor.SamplePath} {elapsed : Int64} {child : String → ChildEnd} {o : ScanOutcome}
    {input stderr : String} {printed : Bytes} (hread : sd.fromSlice printed = .ok v)
    (hlen : printed.length ≤ outputCap)
    (hinput : childInput sd host tier sources p = .ok input)
    (hend : child input = .exited printed (some 0) stderr)
    (ho : scanWithTier y sd host tier sources compiled bytes (some p) elapsed child = some o) :
    o = outcomeFromJson v := by
  have hcap := Nat.not_lt.mpr hlen
  cases tier with
  | inProcess => exact absurd rfl htier
  | subprocess =>
    rw [scanWithTier, hinput] at ho
    dsimp only at ho
    rw [hend, runSandboxed, if_neg hcap, hread] at ho
    exact (Option.some.inj ho).symm
  | gvisor =>
    rw [scanWithTier, hinput] at ho
    dsimp only at ho
    rw [hend, runViaDockerRunsc, if_neg hcap, if_neg (by simp), hread] at ho
    exact (Option.some.inj ho).symm

/-- A printed job is read. -/
theorem fromStr_text (hparse : Gvisor.Parser sd.parse) (job : Gvisor.Job) :
    sd.fromStr (String.ofList job.text) = .ok job := by
  have hprinted : (sd.fromStr (String.ofList job.text)).toOption = some job := hparse.printed job
  cases hread : sd.fromStr (String.ofList job.text) with
  | error e =>
    rw [hread] at hprinted
    cases hprinted
  | ok j =>
    rw [hread] at hprinted
    exact congrArg Except.ok (Option.some.inj hprinted)

/-- **The scanner reads the rules and the path that the server has written.** -/
theorem fromStr_childInput (hparse : Gvisor.Parser sd.parse) {host : Gvisor.Host}
    {tier : ScannerTier} {sources : List (String × String)} {p : Gvisor.SamplePath}
    (hpath : tier = .gvisor → Untouched sources p) {input : String}
    (hinput : childInput sd host tier sources p = .ok input) :
    sd.fromStr input = .ok ⟨sources, writtenPath tier p⟩ := by
  cases tier with
  | inProcess => cases hinput
  | subprocess =>
    obtain rfl := Except.ok.inj hinput
    exact fromStr_text hparse _
  | gvisor =>
    cases htext : Gvisor.scanGvisor sd.parse host sources p with
    | error e =>
      rw [childInput, htext] at hinput
      cases hinput
    | ok text =>
      rw [childInput, htext] at hinput
      obtain rfl := Except.ok.inj hinput
      -- The text comes from docker, and docker has not rewritten it.
      obtain ⟨path, hmem, rfl⟩ := Gvisor.scanGvisor_ok htext
      rw [Gvisor.rewriteJob_eq (hpath rfl path hmem)]
      exact fromStr_text hparse _

/-- What the scanner reads is the file of the host. -/
theorem files_of_scannerFiles {jail : Jail} {tier : ScannerTier} {p : Gvisor.SamplePath}
    {files : String → Except String Bytes} {found : Bytes}
    (h : scannerFiles jail tier p files (writtenPath tier p) = .ok found) :
    files (scannedFile tier p) = .ok found := by
  have hmounted : mounted "/sample/artifact" = some "artifact" := by decide
  unfold scannerFiles at h
  cases hhidden : jail.hidden (writtenPath tier p) with
  | some e =>
    rw [hhidden] at h
    cases h
  | none =>
    rw [hhidden] at h
    cases tier with
    | inProcess | subprocess => exact h
    | gvisor =>
      dsimp only [writtenPath] at h
      rw [hmounted] at h
      exact h

end Agree

/-- **A scan in the sandbox agrees with one in the process, or says that there was none.**  The
scanner is run on what the tier writes to it, and may be stopped at any byte of its output and at
any time.  Then the outcome is a timeout or an error without matches, or the one that a scan in the
process has for the same rules and for the bytes of the file that the scanner opens; and it is that
of the scanner if this was let finish, and did not print more than the cap.  A subprocess opens the
sample, a container the file called `artifact` in the directory of the sample. -/
theorem isolated_scan_agrees {y : Yara R} {sd : Serde} (hparse : Gvisor.Parser sd.parse)
    {host : Gvisor.Host} {tier : ScannerTier} (htier : tier ≠ .inProcess)
    {sources : List (String × String)} {compiled : Option R} {bytes : Bytes}
    {p : Gvisor.SamplePath} (hpath : tier = .gvisor → Untouched sources p) {elapsed : Int64}
    {child : String → ChildEnd} {files : String → Except String Bytes} {jail : Jail}
    (hdoc : sd.Reads (outcomeValue (run y (scannerFiles jail tier p files) elapsed
      ⟨sources, writtenPath tier p⟩)))
    (hchild : ∀ input, (child input).Of
      (scannerMain y sd (scannerFiles jail tier p files) elapsed (Fuzzy.asBytes input)).1)
    {o : ScanOutcome}
    (ho : scanWithTier y sd host tier sources compiled bytes (some p) elapsed child = some o) :
    (o.NotDone ∨ ∃ rules found, y.compile sources = .ok rules ∧
      files (scannedFile tier p) = .ok found ∧
      scanWithTier y sd host .inProcess sources (some rules) found (some p) elapsed child =
        some o) ∧
    ∀ input stderr, childInput sd host tier sources p = .ok input →
      let printed := scannerMain y sd (scannerFiles jail tier p files) elapsed (Fuzzy.asBytes input)
      child input = .exited printed.1 (some printed.2) stderr → printed.1.length ≤ outputCap →
        o = run y (scannerFiles jail tier p files) elapsed ⟨sources, writtenPath tier p⟩ := by
  generalize hjob : Gvisor.Job.mk sources (writtenPath tier p) = job at hdoc ⊢
  generalize hseen : scannerFiles jail tier p files = seen at hdoc hchild ⊢
  have hmain : ∀ input, childInput sd host tier sources p = .ok input →
      scannerMain y sd seen elapsed (Fuzzy.asBytes input) =
        (sd.toBytes (outcomeValue (run y seen elapsed job)) ++ [10], 0) := by
    intro input hinput
    have hread := fromStr_childInput hparse hpath hinput
    rw [hjob] at hread
    exact scannerMain_of_job hread
  constructor
  · have hof : ∀ input, childInput sd host tier sources p = .ok input →
        (child input).Of (sd.toBytes (outcomeValue (run y seen elapsed job)) ++ [10]) := by
      intro input hinput
      have := hchild input
      rwa [hmain input hinput] at this
    obtain hnone | rfl := scanWithTier_of htier hdoc hof ho
    · exact .inl hnone
    · rw [outcomeFromJson_outcomeValue]
      obtain hnone | ⟨rules, found, hrules, hfound, hrun⟩ := run_cases y seen elapsed job
      · exact .inl hnone
      · rw [← hjob] at hrules hfound
        rw [← hseen] at hfound
        refine .inr ⟨rules, found, hrules, files_of_scannerFiles hfound, ?_⟩
        rw [hrun]
        rfl
  · intro input stderr hinput printed hend hlen
    have hprinted : printed = (sd.toBytes (outcomeValue (run y seen elapsed job)) ++ [10], 0) :=
      hmain input hinput
    rw [hprinted] at hend hlen
    have hread := hdoc.whole [10] (.inr rfl)
    rw [scanWithTier_exited htier hread hlen hinput hend ho, outcomeFromJson_outcomeValue]

/-! ### A sample with a match -/

/-- A rule for one text, of a source with no other quotes. -/
structure TextRule where
  ns : String
  name : String
  text : Bytes

def readTextRule (source : String × String) : Except String TextRule :=
  match source.2.toList.splitOn '"' with
  | [head, text, _] => .ok ⟨source.1, String.ofList ((head.drop 5).takeWhile (· ≠ ' ')),
      Fuzzy.asBytes (String.ofList text)⟩
  | _ => .error "syntax error"

/-- Where the text stands. -/
def occurrences (text bytes : Bytes) : List MatchRange :=
  (List.range bytes.length).filterMap fun i =>
    if text.isPrefixOf (bytes.drop i) then
      if h : UInt64.ofNat i ≤ UInt64.ofNat (i + text.length) then some ⟨_, _, h⟩ else none
    else none

/-- YARA-X on such rules. -/
def textYara : Yara (List TextRule) where
  compile sources := sources.mapM readTextRule
  scan rules bytes := .ok (rules.filterMap fun r =>
    match occurrences r.text bytes with
    | [] => none
    | found => some ⟨r.name, r.ns, [⟨"$a", found⟩]⟩)
  lowercase := id

def PatternEvidence.text (p : PatternEvidence) : String :=
  "\x7b\"identifier\":" ++ String.ofList (JsonText.quote p.identifier) ++ ",\"offset\":" ++
    toString p.offset.toNat ++ ",\"length\":" ++ toString p.length.toNat ++ "\x7d"

def RuleMatchEvidence.text (m : RuleMatchEvidence) : String :=
  "\x7b\"rule_id\":" ++ String.ofList (JsonText.quote m.ruleId) ++ ",\"namespace\":" ++
    String.ofList (JsonText.quote m.ns) ++ ",\"patterns\":[" ++
    ",".intercalate (m.patterns.map PatternEvidence.text) ++ "]\x7d"

/-- A document as `serde_json` prints it. -/
def ScanOutcome.text (o : ScanOutcome) : String :=
  "\x7b\"status\":" ++ String.ofList (JsonText.quote (statusText o.status)) ++ ",\"matches\":[" ++
    ",".intercalate (o.ruleMatches.map RuleMatchEvidence.text) ++ "],\"duration_ms\":" ++
    toString o.durationMs.toInt ++ ",\"error_code\":" ++
    (match o.errorCode with
      | some msg => String.ofList (JsonText.quote msg)
      | none => "null") ++ "\x7d"

def evilSources : List (String × String) :=
  [("default", "rule Evil \x7b strings: $a = \"bad\" condition: $a \x7d")]

def evilBytes : Bytes := Fuzzy.asBytes "xbadxbad"

/-- The two matches. -/
def evilOutcome : ScanOutcome :=
  ⟨.matched, [⟨"Evil", "default", [⟨"$a", 1, 3⟩, ⟨"$a", 5, 3⟩]⟩], 3, none⟩

def evilPath : Gvisor.SamplePath := ⟨"/srv/artifact", "/srv", "artifact"⟩

/-- The files of the host. -/
def evilFiles (path : String) : Except String Bytes :=
  if path = "/srv/artifact" then .ok evilBytes
  else .error "No such file or directory (os error 2)"

/-- All printed jobs are read, and of documents that of this scan. -/
noncomputable def evilSerde : Serde where
  fromStr input :=
    match Gvisor.readPrinted input.toList with
    | some job => .ok job
    | none => .error "expected value at line 1 column 1"
  toBytes v := Fuzzy.asBytes (outcomeFromJson v).text
  fromSlice bytes :=
    if bytes = Fuzzy.asBytes evilOutcome.text ∨ bytes = Fuzzy.asBytes evilOutcome.text ++ [10] then
      .ok (outcomeValue evilOutcome)
    else .error "EOF while parsing an object"

theorem isParser_evilSerde : Gvisor.Parser evilSerde.parse := by
  have hparse : evilSerde.parse = Gvisor.readPrinted := by
    funext text
    show ((match Gvisor.readPrinted (String.ofList text).toList with
      | some job => .ok job
      | none => .error "expected value at line 1 column 1" : Except String Gvisor.Job)).toOption = _
    rw [String.toList_ofList]
    cases Gvisor.readPrinted text <;> rfl
  rw [hparse]
  exact Gvisor.isParser_readPrinted

/-- One document is read, and nothing else. -/
theorem Serde.reads_of_one {sd : Serde} {v : RawJson} (msg : String)
    (h : ∀ bytes, sd.fromSlice bytes =
      if bytes = sd.toBytes v ∨ bytes = sd.toBytes v ++ [10] then .ok v else .error msg) :
    sd.Reads v where
  whole tail htail := by
    rw [h]
    refine if_pos ?_
    obtain rfl | rfl := htail
    · exact .inl (List.append_nil _)
    · exact .inr rfl
  cut part hpart hne := by
    refine ⟨msg, ?_⟩
    rw [h]
    refine if_neg ?_
    rintro (heq | heq)
    · exact hne heq
    · have hlen := hpart.length_le
      rw [heq, List.length_append] at hlen
      exact absurd hlen (Nat.not_succ_le_self _)

theorem evilSerde_reads : evilSerde.Reads (outcomeValue evilOutcome) := by
  have hbytes : evilSerde.toBytes (outcomeValue evilOutcome) = Fuzzy.asBytes evilOutcome.text := by
    show Fuzzy.asBytes (outcomeFromJson (outcomeValue evilOutcome)).text = _
    rw [outcomeFromJson_outcomeValue]
  refine Serde.reads_of_one "EOF while parsing an object" fun bytes => ?_
  rw [hbytes]
  rfl

theorem untouched_evil : Untouched evilSources evilPath := by
  unfold Untouched
  decide +kernel

/-- The scanner of the tier is let finish. -/
noncomputable def evilChild (tier : ScannerTier) (input : String) : ChildEnd :=
  let printed := scannerMain textYara evilSerde
    (scannerFiles ⟨fun _ => none, fun _ => .error "No such file or directory (os error 2)"⟩ tier
      evilPath evilFiles) 3 (Fuzzy.asBytes input)
  .exited printed.1 (some printed.2) ""

/-- The outcome of the tier. -/
noncomputable def evilScan (tier : ScannerTier) : Option ScanOutcome :=
  scanWithTier textYara evilSerde (Gvisor.dockerHost false) tier evilSources none evilBytes
    (some evilPath) 3 (evilChild tier)

theorem isolated_scan_agrees_evil :
    evilScan .subprocess = some evilOutcome ∧ evilScan .gvisor = some evilOutcome := by
  have hscan : ∀ tier, tier ≠ .inProcess → (∃ input,
      childInput evilSerde (Gvisor.dockerHost false) tier evilSources evilPath = .ok input) →
      evilScan tier = some evilOutcome := by
    rintro tier htier ⟨input, hinput⟩
    obtain ⟨o, ho⟩ : ∃ o, evilScan tier = some o := by
      cases tier with
      | inProcess => exact absurd rfl htier
      | subprocess | gvisor =>
        rw [evilScan, scanWithTier, hinput]
        dsimp only
        split <;> exact ⟨_, rfl⟩
    rw [ho]
    have hrun : run textYara (scannerFiles ⟨fun _ => none, fun _ => .error
        "No such file or directory (os error 2)"⟩ tier evilPath evilFiles) 3
        ⟨evilSources, writtenPath tier evilPath⟩ = evilOutcome := by
      cases tier with
      | inProcess => exact absurd rfl htier
      | subprocess | gvisor => decide +kernel
    have hdoc := evilSerde_reads
    rw [← hrun] at hdoc
    have hread := fromStr_childInput isParser_evilSerde (fun _ => untouched_evil) hinput
    have hagrees := isolated_scan_agrees isParser_evilSerde htier (fun _ => untouched_evil) hdoc
      (fun input part code stderr hend => by
        obtain ⟨rfl, -, -⟩ := ChildEnd.exited.inj hend
        exact List.prefix_rfl) ho
    refine congrArg some ((hagrees.2 input "" hinput rfl ?_).trans hrun)
    rw [scannerMain_of_job hread, hrun]
    decide +kernel
  refine ⟨hscan .subprocess (by decide) ⟨_, rfl⟩, hscan .gvisor (by decide) ?_⟩
  rw [childInput, Gvisor.scanGvisor_dockerHost]
  exact ⟨_, rfl⟩

end Corpus.Sandbox
