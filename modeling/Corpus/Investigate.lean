/-
Investigations (`investigate.rs`, `report.rs`).

A blast radius is the artifacts and hosts of a seed, or of the matches of a hunt.  An
investigation of one artifact sums up its detections, its opinion and its hosts in a severity;
that of a hunt is the investigation of its oldest match, with the blast radius, the summary and
the recommended actions of the hunt.

* `Report.bySha256`, `Report.byHunt` — blast radii;
* `Investigate.bySha256`, `Investigate.byHunt` — investigations;
* `Investigate.byHunt_eq` — the severity and the title of a hunt are those of its seed;
* `Investigate.by_hunt_severe_iff` — when a hunt is as severe as its matches, and counts them.

Left out are times of observation, findings and techniques, and of a blast radius its occurrences,
its attestation and the members of variant groups.
-/
import Corpus.Droppers
import Corpus.Hunts
import Corpus.Neighborhood
import Corpus.Opinions

namespace Corpus

def Scope.asStr : Scope → String
  | endpoint => "endpoint"
  | intel => "intel"

/-! ### What the reports read -/

/-- `ORDER BY edge_type, score DESC`. -/
def Edge.leadKey (e : Edge) : Lex (String × ℚᵒᵈ) := toLex (e.edgeType.asStr, OrderDual.toDual e.score)

/-- The tables, the orders in which the database returns rows that its queries sort, and what
`{:?}` prints of a text. -/
structure ReportDb where
  db : Db
  opinions : OpinionTable
  artifactOrder : SortOrder Artifact.firstCommittedAt
  detectionOrder : SortOrder fun d : Detection => OrderDual.toDual d.createdAt
  edgeOrder : SortOrder Edge.leadKey
  debug : String → String

/-- The names that occur, sorted. -/
def distinctNames (names : List String) : List String := names.dedup.insertionSort (· ≤ ·)

structure Prevalence where
  hostCount : ℕ
  pathCount : ℕ

namespace ReportDb

variable (R : ReportDb) (t : Uuid)

/-- `detect::for_artifact`. -/
def detectionsFor (x : Uuid) (limit : ℕ) : List Detection :=
  (R.detectionOrder.sort (R.db.hunt.detections.filter fun d =>
    d.tenant = t && d.artifactId = x)).take limit

/-- `opinions::current_opinion`. -/
def opinionOf (x : Uuid) : Option String := (currentOpinion R.opinions t x).map OpinionRow.opinion

/-- `analyst::prevalence_for`. -/
def prevalenceFor (x : Uuid) : Prevalence where
  hostCount := ((R.db.occurrencesOf t x).map fun o => o.info.hostName).dedup.length
  pathCount := ((R.db.occurrencesOf t x).map fun o => o.info.path).dedup.length

/-- The rows of `artifact` with these ids. -/
def artifactsOf (ids : List Uuid) : List Artifact :=
  R.artifactOrder.sort (ids.filterMap (R.db.artifactById t))

/-- The hosts on which one of the artifacts was observed. -/
def hostsOf (ids : List Uuid) : List String :=
  distinctNames ((R.db.ingest.occurrences.rows.filter fun o =>
    o.tenant = t && o.artifactId.any (· ∈ ids)).map fun o => o.info.hostName)

end ReportDb

/-! ### Blast radii -/

/-- `BlastRadiusArtifact`. -/
structure BlastRadiusArtifact where
  artifactId : Uuid
  sha256 : String
  sizeBytes : ℤ
  artifactClass : ArtifactClass
  firstCommittedAt : Time
  matchedRules : List String
  prevalence : Prevalence
  opinion : Option String

/-- `SimilarEdgeView` of a lead. -/
structure SimilarLead where
  otherArtifact : Uuid
  otherSha256 : String
  edgeType : String
  modelVersion : String
  score : ℚ

/-- `BlastRadiusReport`. -/
structure BlastRadiusReport where
  hunt : Option Hunt
  artifacts : List BlastRadiusArtifact
  hosts : List String
  weakLeads : Option (List SimilarLead)

namespace Report

variable (R : ReportDb) (t : Uuid)

/-- A matched artifact, as a report shows it. -/
def view (matchedRules : Uuid → List String) (a : Artifact) : BlastRadiusArtifact where
  artifactId := a.id
  sha256 := hexEncode a.sha256
  sizeBytes := a.sizeBytes
  artifactClass := a.artifactClass
  firstCommittedAt := a.firstCommittedAt
  matchedRules := matchedRules a.id
  prevalence := R.prevalenceFor t a.id
  opinion := R.opinionOf t a.id

/-- The types of `expand_variants_for` that make a lead. -/
def isWeak (e : Edge) : Bool :=
  e.edgeType = .byteSimilar || e.edgeType = .sharedProvenance || e.edgeType = .semanticWeak

/-- The weak edges of an artifact, with the artifact at the other end. -/
def weakEdges (x : Uuid) : List (Edge × Uuid) :=
  ((R.edgeOrder.sort (R.db.sim.edges.rows.filter fun e =>
    e.tenant = t && (e.src = x || e.dst = x))).filter isWeak).map fun e =>
      (e, if e.src = x then e.dst else e.src)

/-- A lead; its artifact must be in the table. -/
def lead (p : Edge × Uuid) : Except Error SimilarLead :=
  match R.db.artifactById t p.2 with
  | some a => .ok ⟨p.2, hexEncode a.sha256, p.1.edgeType.asStr, p.1.modelVersion, p.1.score⟩
  | none => .error (.db "no rows returned by a query that expected to return at least one row")

/-- `expand_variants_for`, as to weak leads. -/
def weakLeads (ids : List Uuid) : Except Error (List SimilarLead) :=
  ((ids.flatMap (weakEdges R t)).filter fun p => p.2 ∉ ids).mapM (lead R t)

/-- `build_report`. -/
def buildReport (hunt : Option Hunt) (ids : List Uuid) (matchedRules : Uuid → List String)
    (expandVariants : Bool) : Except Error BlastRadiusReport :=
  if ids.isEmpty then .ok ⟨hunt, [], [], none⟩
  else do
    let leads ← if expandVariants then (weakLeads R t ids).map some else .ok none
    .ok ⟨hunt, (R.artifactsOf t ids).map (view R t matchedRules), R.hostsOf t ids, leads⟩

/-- The matches of a hunt. -/
def matchRows (h : Uuid) : List HuntMatch :=
  R.db.hunt.huntMatches.rows.filter fun m => m.tenant = t && m.huntId = h

/-- The rules under an artifact in `matched_rules`. -/
def rulesOf (rows : List HuntMatch) (x : Uuid) : List String :=
  (rows.filter fun m => m.artifactId = x).map HuntMatch.ruleId

/-- The keys of `matched_rules`. -/
def matchedIds (h : Uuid) : List Uuid :=
  ((matchRows R t h).map HuntMatch.artifactId).dedup.insertionSort (· ≤ ·)

/-- `report::by_hunt`. -/
def byHunt (h : Uuid) (expandVariants : Bool) : Except Error BlastRadiusReport :=
  match R.db.huntOf t h with
  | none => .error (.notFound s!"hunt {printUuid h}")
  | some hunt =>
    buildReport R t (some hunt) (matchedIds R t h) (rulesOf (matchRows R t h)) expandVariants

/-- `report::by_sha256`. -/
def bySha256 (sha256 : String) (expandVariants : Bool) : Except Error BlastRadiusReport :=
  match hexToRaw sha256 with
  | none =>
    let quoted := R.debug sha256
    .error (.badRequest s!"invalid sha256 hex: {quoted}")
  | some raw =>
    buildReport R t none ((R.db.ingest.artifacts.get (t, raw)).map Artifact.id).toList (fun _ => [])
      expandVariants

end Report

/-! ### Severity -/

/-- The levels of a severity. -/
inductive Severity where
  | info
  | low
  | medium
  | high
  | critical
  deriving DecidableEq

namespace Severity

def asStr : Severity → String
  | info => "info"
  | low => "low"
  | medium => "medium"
  | high => "high"
  | critical => "critical"

def rank : Severity → ℕ
  | info => 0
  | low => 1
  | medium => 2
  | high => 3
  | critical => 4

theorem rank_injective : Function.Injective rank := by
  intro a b h
  cases a <;> cases b <;> first | rfl | cases h

instance : LinearOrder Severity := LinearOrder.lift' rank rank_injective

end Severity

structure SeveritySummary where
  level : Severity
  reasons : List String

namespace Investigate

/-- The first part of `summarize_severity`: the strongest signal. -/
def signal (debug : String → String) (detections : List Detection) (opinion : Option String)
    (artifacts : List BlastRadiusArtifact) : Severity × List String :=
  if detections.any fun d => d.severity = "critical" then (.critical, ["critical detection event"])
  else if (detections.any fun d => d.severity = "high") || opinion = some "malicious" then
    (.high, ["high severity detection or malicious opinion"])
  else if (detections.any fun d => d.severity = "medium") || opinion = some "suspicious" ||
      artifacts.any fun a => !a.matchedRules.isEmpty then
    (.medium, ["rule match or suspicious opinion"])
  else if opinion = some "grayware" || opinion = some "vulnerable" then
    let quoted := debug (opinion.getD "")
    (.low, [s!"opinion=Some({quoted})"])
  else (.info, [])

/-- `summarize_severity`. -/
def summarizeSeverity (debug : String → String) (detections : List Detection) (opinion : Option String)
    (blast : BlastRadiusReport) : SeveritySummary :=
  let (level, reasons) := signal debug detections opinion blast.artifacts
  let broad := decide (5 < blast.hosts.length) && level ≠ .info
  let hosts := blast.hosts.length
  let reasons := if broad then reasons ++ [s!"broad host footprint ({hosts})"] else reasons
  { level := if broad && level = .medium then .high else level
    reasons := if reasons.isEmpty then ["no elevated signals"] else reasons }

/-! ### Investigations -/

/-- `title`, with the count that it announces. -/
inductive Title where
  | detection (title : String)
  | ruleMatch
  | investigation (sha256 : String)
  | noMatches (hunt : Uuid)
  | campaign (hunt : Uuid) (artifacts : ℕ)

/-- How identifiers and times are printed. -/
structure ReportText where
  uuid : Uuid → String
  rfc3339 : Time → String

def Title.text (text : ReportText) : Title → String
  | .detection title => title
  | .ruleMatch => "Rule match in retained corpus"
  | .investigation sha256 => s!"Investigation: {sha256}"
  | .noMatches hunt =>
    let id := text.uuid hunt
    s!"Hunt {id}: no matches"
  | .campaign hunt artifacts =>
    let id := text.uuid hunt
    s!"Hunt {id} campaign ({artifacts} artifacts)"

/-- The artifacts that a title counts. -/
def Title.announced : Title → Option ℕ
  | .noMatches _ => some 0
  | .campaign _ artifacts => some artifacts
  | _ => none

/-- `executive_summary`, with what it shows. -/
inductive Summary where
  | artifact (sha256 : String) (row : Artifact) (prevalence : Prevalence) (level : Severity)
      (detections ruleMatched variantMembers : ℕ)
  | noMatches (hunt : Uuid)
  | hunt (hosts artifacts : ℕ) (level : Severity)

def Summary.text (text : ReportText) : Summary → String
  | .artifact sha256 row prevalence level detections ruleMatched variantMembers =>
    let start := String.ofList (sha256.toList.take 16)
    let cls := row.artifactClass.asStr
    let size := row.sizeBytes
    let scope := row.scope.asStr
    let committed := text.rfc3339 row.firstCommittedAt
    let hosts := prevalence.hostCount
    let paths := prevalence.pathCount
    let severity := level.asStr
    s!"Artifact {start} ({cls}, {size} bytes, scope={scope}) first committed {committed}. " ++
    s!"Seen on {hosts} host(s) / {paths} path(s). Severity={severity}. " ++
    s!"Detections={detections} rule-matched-artifacts={ruleMatched} variant-members={variantMembers}."
  | .noMatches h =>
    let id := text.uuid h
    s!"Hunt {id} matched no artifacts across the pinned watermark. " ++
    "Proof-of-absence attestation is included on the blast-radius payload."
  | .hunt hosts artifacts level =>
    let severity := level.asStr
    s!"Hunt-driven investigation: {hosts} host(s) touched, {artifacts} artifact(s), " ++
    s!"severity={severity}."

/-- The artifacts that a summary counts. -/
def Summary.announced : Summary → Option ℕ
  | .noMatches _ => some 0
  | .hunt _ artifacts _ => some artifacts
  | .artifact .. => none

/-- `RecommendedAction`. -/
structure RecommendedAction where
  action : String
  priority : String
  detail : String
  hostNames : List String
  sha256s : List String

/-- `InvestigationReport`. -/
structure InvestigationReport where
  title : Title
  executiveSummary : Summary
  severity : SeveritySummary
  seedSha256 : String
  seedArtifactId : Uuid
  opinion : Option String
  prevalence : Prevalence
  detections : List Detection
  blastRadius : BlastRadiusReport
  recommendedActions : List RecommendedAction

/-- `recommend`. -/
def recommend (seed : String) (blast : BlastRadiusReport) (opinion : Option String)
    (detections : List Detection) (hostCount : ℕ) : List RecommendedAction :=
  let hosts := blast.hosts
  let shas := blast.artifacts.map BlastRadiusArtifact.sha256
  if opinion = some "malicious" || opinion = some "suspicious" ||
      (detections.any fun d => d.severity = "high" || d.severity = "critical") ||
      blast.artifacts.any fun a => !a.matchedRules.isEmpty then
    let n := hosts.length
    [⟨"block_hash", "high",
      s!"Block SHA-256 {seed} (and variant group members) in EDR/allowlist controls", hosts, shas⟩] ++
    (if 0 < hostCount then
      [⟨"contain_hosts", "high", s!"Review and contain {n} host(s) with historical observations; " ++
        "verify current-state presence out of band", hosts, shas⟩]
    else []) ++
    [⟨"detonate", "medium", "Optional: corpusctl detonate <sha256> if CORPUS_DETONATION_ENABLED " ++
        "and CAPE configured", [], [seed]⟩,
      ⟨"set_opinion", "medium", "Confirm human opinion (malicious|suspicious|…) for audit trail", [],
        [seed]⟩]
  else
    [⟨"monitor", "low",
      "No elevated detection; retain in corpus for future continuous re-analysis", hosts, shas⟩]

variable (R : ReportDb) (t : Uuid)

/-- The report on an artifact, with its blast radius. -/
def reportOf (sha256 : String) (a : Artifact) (blast : BlastRadiusReport) : InvestigationReport :=
  let detections := R.detectionsFor t a.id 50
  let opinion := R.opinionOf t a.id
  let prevalence := R.prevalenceFor t a.id
  let severity := summarizeSeverity R.debug detections opinion blast
  let ruleMatched := blast.artifacts.filter fun b => !b.matchedRules.isEmpty
  { title := match detections with
      | d :: _ => .detection d.title
      | [] => if ruleMatched.isEmpty then .investigation sha256 else .ruleMatch
    executiveSummary := .artifact sha256 a prevalence severity.level detections.length
      ruleMatched.length (R.db.groupMembers t a.id).length
    severity
    seedSha256 := sha256
    seedArtifactId := a.id
    opinion
    prevalence
    detections
    blastRadius := blast
    recommendedActions := recommend sha256 blast opinion detections prevalence.hostCount }

/-- `investigate::by_sha256`. -/
def bySha256 (sha256 : String) : Except Error InvestigationReport :=
  match hexToRaw sha256 with
  | none => .error (.badRequest "invalid sha256 hex")
  | some raw =>
    match (R.db.ingest.artifacts.get (t, raw)).filter fun a => a.storageState = .committed with
    | none => .error (.notFound s!"artifact {sha256}")
    | some a => (Report.bySha256 R t sha256 true).map (reportOf R t sha256 a)

/-- `investigate::by_hunt`. -/
def byHunt (h : Uuid) : Except Error InvestigationReport := do
  let blast ← Report.byHunt R t h true
  match blast.artifacts with
  | [] =>
    .ok
      { title := .noMatches h
        executiveSummary := .noMatches h
        severity := ⟨.info, ["no matches"]⟩
        seedSha256 := ""
        seedArtifactId := 0
        opinion := none
        prevalence := ⟨0, 0⟩
        detections := []
        blastRadius := blast
        recommendedActions := [⟨"none", "low",
          "No matched artifacts; retain attestation for the investigation record.", [], []⟩] }
  | seed :: _ => do
    let report ← bySha256 R t seed.sha256
    .ok
      { report with
        -- the blast radius is still that of the seed
        title := .campaign h report.blastRadius.artifacts.length
        blastRadius := blast
        executiveSummary := .hunt blast.hosts.length blast.artifacts.length report.severity.level
        recommendedActions :=
          recommend seed.sha256 blast report.opinion [] report.prevalence.hostCount }

/-! ### What an investigation of a hunt is for -/

section Spec

variable (R : ReportDb) (t h : Uuid)

/-- The artifact is committed, and what its weak edges lead to is in the table. -/
def Retrievable (a : Artifact) : Prop :=
  a.storageState = .committed ∧ ∃ leads, Report.weakLeads R t [a.id] = .ok leads

/-- The level of an artifact's own detections, opinion and hosts. -/
def levelOf (x : Uuid) : Severity :=
  (summarizeSeverity R.debug (R.detectionsFor t x 50) (R.opinionOf t x) ⟨none, [], R.hostsOf t [x], none⟩).level

/-- A recent detection or the opinion of the artifact calls for attention. -/
def Elevated (x : Uuid) : Prop :=
  (∃ d ∈ R.detectionsFor t x 50, d.severity ∈ ["critical", "high", "medium"]) ∨
    R.opinionOf t x = some "malicious" ∨ R.opinionOf t x = some "suspicious"

/-- The report is at least as severe as its worst match. -/
structure SevereAsMatches (r : InvestigationReport) : Prop where
  medium : .medium ≤ r.severity.level
  worst : ∀ x ∈ Report.matchedIds R t h, ∀ a, R.db.artifactById t x = some a →
    ∀ r', bySha256 R t (hexEncode a.sha256) = .ok r' → r'.severity.level ≤ r.severity.level

/-- What the report announces is the number of distinct matched artifacts. -/
def CountsMatches (r : InvestigationReport) : Prop :=
  ∀ n, r.title.announced = some n ∨ r.executiveSummary.announced = some n →
    n = (Report.matchedIds R t h).length

/-- The hunt has one match, which can be retrieved and calls for attention. -/
def OneElevated : Prop :=
  ∃ a, Report.matchedIds R t h = [a.id] ∧ R.db.artifactById t a.id = some a ∧
    Retrievable R t a ∧ Elevated R t a.id

/-- The oldest match can be retrieved, calls for attention and is the worst one. -/
def SeedWorst : Prop :=
  ∃ a rest, R.artifactsOf t (Report.matchedIds R t h) = a :: rest ∧
    (∃ leads, Report.weakLeads R t (Report.matchedIds R t h) = .ok leads) ∧ Retrievable R t a ∧
    Elevated R t a.id ∧ ∀ b ∈ rest, Retrievable R t b → levelOf R t b.id ≤ levelOf R t a.id

end Spec

/-! ### Levels -/

section Levels

variable {R : ReportDb} {t x : Uuid} {debug : String → String} {detections : List Detection}
  {opinion : Option String} {blast : BlastRadiusReport}

/-- Artifacts without matched rules make no difference. -/
theorem signal_of_no_rules {artifacts : List BlastRadiusArtifact}
    (h : ∀ a ∈ artifacts, a.matchedRules = []) :
    signal debug detections opinion artifacts = signal debug detections opinion [] := by
  have hany : (artifacts.any fun a => !a.matchedRules.isEmpty) = false := by
    rw [List.any_eq_false]
    intro a ha
    simp [h a ha]
  unfold signal
  rw [hany, List.any_nil]

theorem summarizeSeverity_of_no_rules {blast' : BlastRadiusReport} (hhosts : blast.hosts = blast'.hosts)
    (h : ∀ a ∈ blast.artifacts, a.matchedRules = [])
    (h' : ∀ a ∈ blast'.artifacts, a.matchedRules = []) :
    summarizeSeverity debug detections opinion blast =
      summarizeSeverity debug detections opinion blast' := by
  unfold summarizeSeverity
  rw [signal_of_no_rules h, signal_of_no_rules h', hhosts]

theorem signal_medium_le : .medium ≤ (signal debug detections opinion []).1 ↔
    (∃ d ∈ detections, d.severity ∈ ["critical", "high", "medium"]) ∨
      opinion = some "malicious" ∨ opinion = some "suspicious" := by
  have hof : ∀ {level : String}, level ∈ ["critical", "high", "medium"] →
      (∃ d ∈ detections, d.severity = level) →
        ∃ d ∈ detections, d.severity ∈ ["critical", "high", "medium"] :=
    fun hmem ⟨d, hd, hlevel⟩ => ⟨d, hd, hlevel ▸ hmem⟩
  unfold signal
  simp only [List.any_nil, Bool.or_false, List.any_eq_true, Bool.or_eq_true, decide_eq_true_eq]
  split
  · next h => exact iff_of_true (by decide) (.inl (hof (by decide) h))
  · next hcritical =>
    split
    · next h =>
      exact iff_of_true (by decide) (h.imp (hof (by decide)) .inl)
    · next hhigh =>
      split
      · next h =>
        exact iff_of_true (le_refl _) (h.imp (hof (by decide)) .inr)
      · next hmedium =>
        refine iff_of_false ?_ ?_
        · split
          · exact (by decide : ¬ Severity.medium ≤ .low)
          · exact (by decide : ¬ Severity.medium ≤ .info)
        · rintro (⟨d, hd, hlevel⟩ | hop | hop)
          · rcases List.mem_cons.mp hlevel with h | hlevel
            · exact hcritical ⟨d, hd, h⟩
            · rcases List.mem_cons.mp hlevel with h | hlevel
              · exact hhigh (.inl ⟨d, hd, h⟩)
              · exact hmedium (.inl ⟨d, hd, List.mem_singleton.mp hlevel⟩)
          · exact hhigh (.inr hop)
          · exact hmedium (.inr hop)

/-- A broad footprint makes no level less, and raises none to medium. -/
theorem summarizeSeverity_medium_le :
    .medium ≤ (summarizeSeverity debug detections opinion blast).level ↔
      .medium ≤ (signal debug detections opinion blast.artifacts).1 := by
  unfold summarizeSeverity
  generalize signal debug detections opinion blast.artifacts = p
  obtain ⟨level, reasons⟩ := p
  dsimp only
  split
  · next h =>
    obtain ⟨-, rfl⟩ : _ ∧ level = .medium := by simpa only [Bool.and_eq_true, decide_eq_true_eq] using h
    exact iff_of_true (by decide) (le_refl _)
  · rfl

theorem medium_le_levelOf : .medium ≤ levelOf R t x ↔ Elevated R t x :=
  summarizeSeverity_medium_le.trans signal_medium_le

end Levels

/-! ### The investigation of an artifact -/

section Artifact

variable {R : ReportDb} {t h x : Uuid} {a : Artifact} {r : InvestigationReport}

theorem artifactById_spec {s : Db} (ha : s.artifactById t x = some a) :
    a ∈ s.ingest.artifacts.rows ∧ a.tenant = t ∧ a.id = x := by
  have hp := List.find?_some ha
  exact ⟨List.mem_of_find?_eq_some ha, by simpa using hp⟩

theorem get_artifact {s : Db} (ha : s.artifactById t x = some a) :
    s.ingest.artifacts.get (t, a.sha256) = some a := by
  obtain ⟨hmem, rfl, -⟩ := artifactById_spec ha
  exact Table.mem_rows_iff.mp hmem

theorem artifactsOf_singleton (ha : R.db.artifactById t a.id = some a) :
    R.artifactsOf t [a.id] = [a] := by
  unfold ReportDb.artifactsOf
  rw [List.filterMap_cons_some ha, List.filterMap_nil]
  exact List.perm_singleton.mp (R.artifactOrder.perm [a])

/-- The blast radius of one artifact. -/
theorem report_bySha256 (ha : R.db.artifactById t a.id = some a) :
    Report.bySha256 R t (hexEncode a.sha256) true = (Report.weakLeads R t [a.id]).map fun leads =>
      ⟨none, [Report.view R t (fun _ => []) a], R.hostsOf t [a.id], some leads⟩ := by
  unfold Report.bySha256
  rw [hexToRaw_hexEncode]
  dsimp only
  rw [get_artifact ha]
  show Report.buildReport R t none [a.id] (fun _ => []) true = _
  unfold Report.buildReport
  rw [artifactsOf_singleton ha]
  cases Report.weakLeads R t [a.id] <;> rfl

/-- The investigation of an artifact. -/
theorem bySha256_eq (ha : R.db.artifactById t a.id = some a) :
    bySha256 R t (hexEncode a.sha256) = if a.storageState = .committed then
        (Report.weakLeads R t [a.id]).map fun leads => reportOf R t (hexEncode a.sha256) a
          ⟨none, [Report.view R t (fun _ => []) a], R.hostsOf t [a.id], some leads⟩
      else .error (.notFound ("artifact " ++ hexEncode a.sha256)) := by
  unfold bySha256
  rw [hexToRaw_hexEncode]
  dsimp only
  rw [get_artifact ha, Option.filter_some]
  by_cases hstate : a.storageState = .committed
  · rw [if_pos hstate, if_pos (decide_eq_true hstate), report_bySha256 ha]
    cases Report.weakLeads R t [a.id] <;> rfl
  · rw [if_neg hstate, if_neg (by simpa using hstate)]
    rfl

/-- What it reports. -/
theorem bySha256_ok (ha : R.db.artifactById t a.id = some a)
    (hr : bySha256 R t (hexEncode a.sha256) = .ok r) :
    Retrievable R t a ∧ r.severity.level = levelOf R t a.id ∧ r.blastRadius.artifacts.length = 1 := by
  rw [bySha256_eq ha] at hr
  split at hr
  · next hstate =>
    cases hleads : Report.weakLeads R t [a.id] with
    | error e =>
      rw [hleads] at hr
      cases hr
    | ok leads =>
      rw [hleads] at hr
      obtain rfl := Except.ok.inj hr
      refine ⟨⟨hstate, leads, hleads⟩, congrArg _ (summarizeSeverity_of_no_rules rfl ?_ ?_), rfl⟩
      · exact fun b hb => List.mem_singleton.mp hb ▸ rfl
      · exact fun b hb => absurd hb List.not_mem_nil
  · cases hr

/-- An artifact that can be retrieved has an investigation. -/
theorem Retrievable.bySha256 (ha : R.db.artifactById t a.id = some a) (h : Retrievable R t a) :
    ∃ r, bySha256 R t (hexEncode a.sha256) = .ok r := by
  obtain ⟨hstate, leads, hleads⟩ := h
  rw [bySha256_eq ha, if_pos hstate, hleads]
  exact ⟨_, rfl⟩

end Artifact

/-! ### The investigation of a hunt -/

section Hunts

variable {R : ReportDb} {t h : Uuid} {a b : Artifact} {rest : List Artifact} {hunt : Hunt}
  {r r₀ : InvestigationReport} {leads : List SimilarLead}

theorem mem_artifactsOf {ids : List Uuid} : a ∈ R.artifactsOf t ids ↔
    a.id ∈ ids ∧ R.db.artifactById t a.id = some a := by
  unfold ReportDb.artifactsOf
  rw [(R.artifactOrder.perm _).mem_iff, List.mem_filterMap]
  constructor
  · rintro ⟨x, hx, ha⟩
    obtain ⟨-, -, rfl⟩ := artifactById_spec ha
    exact ⟨hx, ha⟩
  · exact fun ⟨hx, ha⟩ => ⟨a.id, hx, ha⟩

/-- The oldest of the artifacts has a row. -/
theorem seed_row {ids : List Uuid} (hseed : R.artifactsOf t ids = a :: rest) :
    a.id ∈ ids ∧ R.db.artifactById t a.id = some a :=
  mem_artifactsOf.mp (hseed ▸ List.mem_cons_self ..)

/-- The blast radius of a hunt with matches. -/
theorem report_byHunt (hhunt : R.db.huntOf t h = some hunt) (hmatch : Report.matchedIds R t h ≠ []) :
    Report.byHunt R t h true = (Report.weakLeads R t (Report.matchedIds R t h)).map fun leads =>
      ⟨some hunt, (R.artifactsOf t (Report.matchedIds R t h)).map
        (Report.view R t (Report.rulesOf (Report.matchRows R t h))),
        R.hostsOf t (Report.matchedIds R t h), some leads⟩ := by
  unfold Report.byHunt
  rw [hhunt]
  dsimp only
  unfold Report.buildReport
  rw [if_neg (by simpa using hmatch)]
  cases Report.weakLeads R t (Report.matchedIds R t h) <;> rfl

/-- The investigation is that of the oldest match, with the counts of two blast radii. -/
theorem byHunt_eq (hhunt : R.db.huntOf t h = some hunt)
    (hleads : Report.weakLeads R t (Report.matchedIds R t h) = .ok leads)
    (hseed : R.artifactsOf t (Report.matchedIds R t h) = a :: rest)
    (hr₀ : bySha256 R t (hexEncode a.sha256) = .ok r₀) :
    ∃ r, byHunt R t h = .ok r ∧ r.severity = r₀.severity ∧
      r.title = .campaign h r₀.blastRadius.artifacts.length ∧
      r.executiveSummary.announced = some (rest.length + 1) ∧
      r.blastRadius.artifacts =
        (a :: rest).map (Report.view R t (Report.rulesOf (Report.matchRows R t h))) ∧
      r.recommendedActions = recommend (hexEncode a.sha256) r.blastRadius r₀.opinion []
        r₀.prevalence.hostCount := by
  have hmatch : Report.matchedIds R t h ≠ [] := List.ne_nil_of_mem (seed_row hseed).1
  unfold byHunt
  rw [report_byHunt hhunt hmatch, hleads, hseed]
  simp only [Except.map, bind, Except.bind, List.map_cons, Report.view, hr₀]
  exact ⟨_, rfl, rfl, rfl, by simp [Summary.announced], rfl, rfl⟩

/-- A hunt that has an investigation has a seed, unless no match has a row. -/
theorem byHunt_ok (hhunt : R.db.huntOf t h = some hunt) (hmatch : Report.matchedIds R t h ≠ [])
    (hr : byHunt R t h = .ok r) :
    (∃ leads, Report.weakLeads R t (Report.matchedIds R t h) = .ok leads) ∧
      (R.artifactsOf t (Report.matchedIds R t h) = [] ∧ r.severity.level = .info ∨
        ∃ a rest r₀, R.artifactsOf t (Report.matchedIds R t h) = a :: rest ∧
          bySha256 R t (hexEncode a.sha256) = .ok r₀) := by
  unfold byHunt at hr
  rw [report_byHunt hhunt hmatch] at hr
  cases hleads : Report.weakLeads R t (Report.matchedIds R t h) with
  | error e =>
    rw [hleads] at hr
    cases hr
  | ok leads =>
    refine ⟨⟨leads, rfl⟩, ?_⟩
    rw [hleads] at hr
    cases hseed : R.artifactsOf t (Report.matchedIds R t h) with
    | nil =>
      rw [hseed] at hr
      obtain rfl := Except.ok.inj hr
      exact .inl ⟨rfl, rfl⟩
    | cons a rest =>
      rw [hseed] at hr
      simp only [Except.map, bind, Except.bind, List.map_cons, Report.view] at hr
      cases hr₀ : bySha256 R t (hexEncode a.sha256) with
      | error e =>
        rw [hr₀] at hr
        cases hr
      | ok r₀ => exact .inr ⟨a, rest, r₀, rfl, hr₀⟩

/-- A report of medium severity or more is about a seed that calls for attention. -/
theorem seed_of_medium (hhunt : R.db.huntOf t h = some hunt) (hmatch : Report.matchedIds R t h ≠ [])
    (hr : byHunt R t h = .ok r) (hmedium : .medium ≤ r.severity.level) :
    (∃ leads, Report.weakLeads R t (Report.matchedIds R t h) = .ok leads) ∧ ∃ a rest,
      R.artifactsOf t (Report.matchedIds R t h) = a :: rest ∧ Retrievable R t a ∧
        Elevated R t a.id ∧ r.severity.level = levelOf R t a.id ∧ r.title.announced = some 1 := by
  obtain ⟨⟨leads, hleads⟩, ⟨-, hinfo⟩ | ⟨a, rest, r₀, hseed, hr₀⟩⟩ := byHunt_ok hhunt hmatch hr
  · rw [hinfo] at hmedium
    exact absurd hmedium (by decide)
  · obtain ⟨hret, hlevel, hone⟩ := bySha256_ok (seed_row hseed).2 hr₀
    obtain ⟨r', hr', hseverity, htitle, -⟩ := byHunt_eq hhunt hleads hseed hr₀
    obtain rfl := Except.ok.inj (hr.symm.trans hr')
    rw [hseverity, hlevel] at hmedium
    refine ⟨⟨leads, hleads⟩, a, rest, hseed, hret, medium_le_levelOf.mp hmedium, ?_, ?_⟩
    · rw [hseverity, hlevel]
    · rw [htitle, hone]
      rfl

/-- When the seed is the worst match. -/
theorem severe_iff (hhunt : R.db.huntOf t h = some hunt) (hmatch : Report.matchedIds R t h ≠ []) :
    (∃ r, byHunt R t h = .ok r ∧ SevereAsMatches R t h r) ↔ SeedWorst R t h := by
  constructor
  · rintro ⟨r, hr, hsevere⟩
    obtain ⟨hleads, a, rest, hseed, hret, helevated, hlevel, -⟩ :=
      seed_of_medium hhunt hmatch hr hsevere.medium
    refine ⟨a, rest, hseed, hleads, hret, helevated, fun b hb hretb => ?_⟩
    have hmem : b ∈ R.artifactsOf t (Report.matchedIds R t h) := hseed ▸ List.mem_cons_of_mem _ hb
    obtain ⟨hid, hrow⟩ := mem_artifactsOf.mp hmem
    obtain ⟨r', hr'⟩ := hretb.bySha256 hrow
    have hle := hsevere.worst b.id hid b hrow r' hr'
    rwa [(bySha256_ok hrow hr').2.1, hlevel] at hle
  · rintro ⟨a, rest, hseed, ⟨leads, hleads⟩, hret, helevated, hworst⟩
    obtain ⟨r₀, hr₀⟩ := hret.bySha256 (seed_row hseed).2
    have hlevel₀ := (bySha256_ok (seed_row hseed).2 hr₀).2.1
    obtain ⟨r, hr, hseverity, -⟩ := byHunt_eq hhunt hleads hseed hr₀
    refine ⟨r, hr, ?_, fun x hx b hb r' hr' => ?_⟩
    · rw [hseverity, hlevel₀]
      exact medium_le_levelOf.mpr helevated
    · obtain ⟨-, -, rfl⟩ := artifactById_spec hb
      obtain ⟨hretb, hlevel, -⟩ := bySha256_ok hb hr'
      rw [hseverity, hlevel₀, hlevel]
      have hmem : b ∈ a :: rest := hseed ▸ mem_artifactsOf.mpr ⟨hx, hb⟩
      rcases List.mem_cons.mp hmem with rfl | hmem
      · exact le_refl _
      · exact hworst b hmem hretb

/-- **When the investigation of a hunt is as severe as its matches and counts them**: just if
there is one match, which can be retrieved and calls for attention by itself; as to severity
alone, just if the oldest match is the worst one and does so. -/
theorem by_hunt_severe_iff (hhunt : R.db.huntOf t h = some hunt)
    (hmatch : Report.matchedIds R t h ≠ []) :
    ((∃ r, byHunt R t h = .ok r ∧ SevereAsMatches R t h r ∧ CountsMatches R t h r) ↔
      OneElevated R t h) ∧
    ((∃ r, byHunt R t h = .ok r ∧ SevereAsMatches R t h r) ↔ SeedWorst R t h) := by
  refine ⟨⟨?_, ?_⟩, severe_iff hhunt hmatch⟩
  · rintro ⟨r, hr, hsevere, hcounts⟩
    obtain ⟨-, a, rest, hseed, hret, helevated, -, htitle⟩ :=
      seed_of_medium hhunt hmatch hr hsevere.medium
    obtain ⟨x, hx⟩ := List.length_eq_one_iff.mp (hcounts 1 (.inl htitle)).symm
    obtain ⟨hid, hrow⟩ := seed_row hseed
    rw [hx] at hid
    refine ⟨a, ?_, hrow, hret, helevated⟩
    rw [hx, List.mem_singleton.mp hid]
  · rintro ⟨a, hone, hrow, hret, helevated⟩
    have hseed : R.artifactsOf t (Report.matchedIds R t h) = [a] :=
      hone ▸ artifactsOf_singleton hrow
    obtain ⟨r, hr, hsevere⟩ := (severe_iff hhunt hmatch).mpr
      ⟨a, [], hseed, hone ▸ hret.2, hret, helevated, fun b hb => absurd hb List.not_mem_nil⟩
    obtain ⟨r₀, hr₀⟩ := hret.bySha256 hrow
    obtain ⟨leads, hleads⟩ := hret.2
    obtain ⟨r', hr', -, htitle, hsummary, -⟩ := byHunt_eq hhunt (hone ▸ hleads) hseed hr₀
    obtain rfl := Except.ok.inj (hr.symm.trans hr')
    refine ⟨r, hr, hsevere, fun n hn => ?_⟩
    rw [hone]
    rcases hn with hn | hn
    · rw [htitle, (bySha256_ok hrow hr₀).2.2] at hn
      exact (Option.some.inj hn).symm
    · rw [hsummary] at hn
      exact (Option.some.inj hn).symm

end Hunts

/-! ### Hunts on a small corpus -/

section Runs

/-- A committed file of one byte. -/
def corpusFile (x : Uuid) : Artifact :=
  ⟨x, 0, x, [x.toUInt8], 1, .script, .committed, ⟨0, hexEncode [x.toUInt8]⟩, x, .endpoint, .null⟩

/-- The forward hunt 9 has matched a file. -/
def forwardMatch (x : Uuid) : HuntMatch := ⟨9, 0, x, "rule", "engine", .null, 0⟩

/-- The detection that the forward scan has recorded for it. -/
def forwardDetection (x : Uuid) : Detection :=
  ⟨0, x, "forward_scan", "medium", "Forward coverage match: rule", .null, [], 0⟩

/-- The files `1` and `2`, some of them matched. -/
def hunted (matched : List Uuid) : Db where
  ingest := { Db.empty.ingest with
    artifacts := (Table.empty.insertNew (corpusFile 1)).insertNew (corpusFile 2) }
  hunt := { Db.empty.hunt with
    hunts := Table.empty.insertNew { draftHunt 9 0 0 "digest" 0 with kind := .forward }
    huntMatches := (matched.map forwardMatch).foldl Table.insertNew .empty
    detections := matched.map forwardDetection }
  sim := Db.empty.sim
  triggers := []
  outbox := []

/-- The second file is malicious in the opinion of an analyst. -/
def verdicts : OpinionTable :=
  Table.empty.insertNew ⟨1, 0, 2, "malicious", "analyst", "", 1, none⟩

/-- The database returns equal rows as they are stored. -/
def reportDb (matched : List Uuid) : ReportDb :=
  ⟨hunted matched, verdicts, .stable _, .stable _, .stable _, String.quote⟩

/-- One match, by itself. -/
theorem by_hunt_severe_one : ∃ r, byHunt (reportDb [1]) 0 9 = .ok r ∧
    SevereAsMatches (reportDb [1]) 0 9 r ∧ CountsMatches (reportDb [1]) 0 9 r :=
  (by_hunt_severe_iff rfl (by decide)).1.mpr ⟨corpusFile 1, rfl, rfl, ⟨rfl, [], rfl⟩,
    .inl ⟨forwardDetection 1, List.mem_cons_self .., by decide⟩⟩

/-- **A malicious match is not in the severity**, if there is an older one: that one decides. -/
theorem malicious_match_unseen : ¬ ∀ (R : ReportDb) (t h : Uuid) (hunt : Hunt),
    R.db.huntOf t h = some hunt → Report.matchedIds R t h ≠ [] →
      ∃ r, byHunt R t h = .ok r ∧ SevereAsMatches R t h r ∧ CountsMatches R t h r := by
  intro hall
  obtain ⟨r, hr, hsevere, -⟩ := hall (reportDb [1, 2]) 0 9 _ rfl (by decide)
  obtain ⟨a, rest, hseed, -, -, -, hworst⟩ := (severe_iff rfl (by decide)).mp ⟨r, hr, hsevere⟩
  obtain ⟨rfl, rfl⟩ : corpusFile 1 = a ∧ [corpusFile 2] = rest := List.cons.inj hseed
  have hle := hworst (corpusFile 2) (List.mem_singleton_self _) ⟨rfl, [], rfl⟩
  exact absurd hle (by decide)

end Runs

end Investigate

end Corpus
