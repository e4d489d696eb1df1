/-
Similarity analysis (`similarity/edges.rs`, `lsh.rs`, `semantic/edges.rs`,
`func_index.rs`, `receipts.rs`).

`analyzeArtifact` stores the features and index rows of one artifact, finds
candidates layer by layer and inserts the edges; `backfill` runs it over the
artifacts that have no features yet.  Parsers, digests and scores are the
parameters of `Analyzer`; what is stored, looked up and skipped is not.
-/
import Corpus.Groups
import Mathlib.Algebra.Order.Ring.Rat
import Mathlib.Data.List.Sort
import Mathlib.Data.Rat.Cast.Order

namespace Corpus

/-! ### The model -/

/-- `ModelConfig`, by the fields that decide edges. -/
structure ModelConfig where
  byteSimilarMinScore : ℤ
  sizeRatioMax : ℚ
  entropyDeltaMax : ℚ
  semanticWeakCoverage : ℚ
  semanticStrongCoverage : ℚ
  semanticStrongMinPairs : ℕ
  packedEntropyLimit : ℚ

/-- `MODEL_V1`. -/
def modelV1 : ModelConfig where
  byteSimilarMinScore := 40
  sizeRatioMax := 4
  entropyDeltaMax := 2
  semanticWeakCoverage := 35 / 100
  semanticStrongCoverage := 60 / 100
  semanticStrongMinPairs := 3
  packedEntropyLimit := 72 / 10

/-- `classify_semantic_edge`. -/
def classifySemanticEdge (m : ModelConfig) (c : Coverage) : Option EdgeType :=
  if m.semanticStrongCoverage ≤ c.aToB ∧ m.semanticStrongCoverage ≤ c.bToA ∧
      m.semanticStrongMinPairs ≤ c.matchedPairs then some .semanticStrong
  else if m.semanticWeakCoverage ≤ c.aToB ∧ m.semanticWeakCoverage ≤ c.bToA then
    some .semanticWeak
  else none

/-- `EXTRACTOR_VERSION`. -/
def extractorVersion : String := "extractor:v1"

/-- `SEMANTIC_EXTRACTOR_VERSION`. -/
def semanticExtractorVersion : String := "semantic:v1"

/-- `CANDIDATE_CAP` of `lsh.rs`. -/
def candidateCap : ℕ := 512

/-- `FUNC_CANDIDATE_CAP`. -/
def funcCandidateCap : ℕ := 256

/-- `FUNC_BAND_COUNT`. -/
def funcBandCount : ℕ := 4

/-! ### Queries -/

namespace Db

/-- `artifact WHERE tenant_id AND id`. -/
def artifactById (s : Db) (t x : Uuid) : Option Artifact :=
  s.ingest.artifacts.rows.find? fun a => a.tenant = t && a.id = x

/-- Other artifacts with this value under a normalized feature. -/
def sameHash (s : Db) (t x : Uuid) (name hash : String) : List Uuid :=
  (s.sim.features.rows.filter fun r => r.tenant = t && r.family = .normalized && r.name = name &&
    r.value.hash? = some hash && r.artifactId ≠ x).map Feature.artifactId

/-- Other artifacts with this compiler hint. -/
def sameHint (s : Db) (t x : Uuid) (hint : String) : List Uuid :=
  (s.sim.features.rows.filter fun r => r.tenant = t && r.family = .provenance &&
    r.name = "compiler_hint" && r.value.value? = some hint && r.artifactId ≠ x).map
      Feature.artifactId

/-- The fuzzy digest and the entropy stored for an artifact. -/
def ssdeepOf (s : Db) (t x : Uuid) : Option (String × ℚ) :=
  (s.sim.features.get (t, x, .byte, "ssdeep", extractorVersion)).bind fun r => r.value.ssdeep?

/-- Other artifacts of the class, with their fuzzy digests. -/
def classScan (s : Db) (t x : Uuid) (cls : ArtifactClass) : List (Uuid × String × ℚ) :=
  (s.ingest.artifacts.rows.filter fun a =>
    a.tenant = t && a.artifactClass = cls && a.id ≠ x && decide (a.sizeBytes > 0)).filterMap
      fun a => (s.ssdeepOf t a.id).map fun d => (a.id, d.1, d.2)

/-- Other artifacts in one band of the byte index. -/
def inBand (s : Db) (t x : Uuid) (idx : ℕ) (key : String) : List Uuid :=
  ((s.sim.lshBands.rows.filter fun r => r.tenant = t && r.bandIdx = idx && r.bandKey = key &&
    r.artifactId ≠ x).map LshBand.artifactId).take candidateCap

/-- Other artifacts in one band of the function index. -/
def inFunctionBand (s : Db) (t x : Uuid) (idx : ℕ) (key : String) : List Uuid :=
  (((s.sim.functionBands.rows.filter fun r => r.tenant = t && r.version = semanticExtractorVersion &&
    r.bandKey = key && r.artifactId ≠ x && r.bandIdx % funcBandCount = idx).map
      FunctionBand.artifactId).dedup).take funcCandidateCap

/-- Other artifacts with stored functions. -/
def withFunctions (s : Db) (t x : Uuid) : List Uuid :=
  ((s.sim.functions.rows.filter fun r => r.tenant = t && r.artifactId ≠ x &&
    r.version = semanticExtractorVersion).map SimFunction.artifactId).dedup

/-- `load_functions`. -/
def loadFunctions (s : Db) (t x : Uuid) : List FunctionRow :=
  ((s.sim.functions.rows.filter fun r => r.tenant = t && r.artifactId = x &&
    r.version = semanticExtractorVersion).map SimFunction.function).insertionSort
      fun f g => f.offset ≤ g.offset

end Db

/-! ### Features and indexes -/

/-- `INSERT INTO similarity_feature … ON CONFLICT DO NOTHING`. -/
def storeFeature (t x : Uuid) (family : Family) (name version : String) (value : FeatureValue) :
    Srv Unit :=
  Prog.update (.sim (.analyze t x)) fun s _ =>
    { s with sim := { s.sim with
      features := s.sim.features.insertNew ⟨t, x, family, name, version, value⟩ } }

/-- The rows of `store_features`, in order. -/
def featureRows (f : ExtractedFeatures) : List (Family × String × FeatureValue) :=
  [(.byte, "ssdeep", .ssdeep f.ssdeep f.sizeBytes f.entropy)] ++
    f.normalized.map (fun n => (.normalized, n.1, .hash n.2)) ++
    (f.sectionLayout.map fun l => (.structural, "section_layout", .hash l)).toList ++
    (f.importSet.map fun l => (.structural, "import_set", .hash l)).toList ++
    (f.exportSet.map fun l => (.structural, "export_set", .hash l)).toList ++
    (f.compilerHint.map fun c => (.provenance, "compiler_hint", .value c)).toList ++
    (f.parseLimitation.map fun l => (.structural, "parse_limitation", .value l)).toList

/-- `store_features`. -/
def storeFeatures (t x : Uuid) (f : ExtractedFeatures) : Srv Unit :=
  Prog.loop (fun _ r => storeFeature t x r.1 r.2.1 extractorVersion r.2.2) (featureRows f) ()

/-- `lsh::store_bands`. -/
def storeBands (an : Analyzer) (t x : Uuid) (ssdeep : String) : Srv Unit := do
  Prog.update (.sim (.analyze t x)) fun s _ => { s with sim := { s.sim with
    lshBands := s.sim.lshBands.deleteWhere fun r => r.tenant = t && r.artifactId = x } }
  Prog.loop (fun _ b => Prog.update (.sim (.analyze t x)) fun s _ => { s with sim := { s.sim with
    lshBands := s.sim.lshBands.upsert ⟨t, x, b.1, b.2⟩ } }) (an.bandKeys ssdeep) ()

/-- The bands of every function, under packed indexes. -/
def packedBands (an : Analyzer) (fs : List FunctionRow) : List (ℕ × String × ℕ) :=
  (fs.mapIdx fun i f => (an.functionBands f.tokenHashes).map fun b =>
    (i * funcBandCount + b.1, b.2, f.offset)).flatten

/-- `func_index::store_function_bands`. -/
def storeFunctionBands (an : Analyzer) (t x : Uuid) (fs : List FunctionRow) : Srv Unit := do
  Prog.update (.sim (.analyze t x)) fun s _ => { s with sim := { s.sim with
    functionBands := s.sim.functionBands.deleteWhere fun r =>
      r.tenant = t && r.artifactId = x && r.version = semanticExtractorVersion } }
  Prog.loop (fun _ b => Prog.update (.sim (.analyze t x)) fun s _ => { s with sim := { s.sim with
    functionBands := s.sim.functionBands.upsert
      ⟨t, x, semanticExtractorVersion, b.1, b.2.1, b.2.2⟩ } }) (packedBands an fs) ()

/-- New ids of a band query, until the cap is reached. -/
def pushCandidates (cap : ℕ) (out ids : List Uuid) : List Uuid :=
  ids.foldl (fun out id =>
    if out.length ≥ cap then out else if id ∈ out then out else out ++ [id]) out

/-- The loop over band keys of both `candidates` functions. -/
def bandCandidates (t x : Uuid) (cap : ℕ) (look : Db → ℕ × String → List Uuid) :
    List (ℕ × String) → List Uuid → Srv (List Uuid) :=
  Prog.loop fun out key =>
    if out.length ≥ cap then return out
    else do
      let ids ← Prog.query (.sim (.analyze t x)) fun s => look s key
      return pushCandidates cap out ids

/-- `lsh::candidates`. -/
def lshCandidates (an : Analyzer) (t x : Uuid) (ssdeep : String) : Srv (List Uuid) :=
  bandCandidates t x candidateCap (fun s k => s.inBand t x k.1 k.2) (an.bandKeys ssdeep) []

/-- The set of band keys `func_index::candidates` looks up. -/
def functionKeys (an : Analyzer) (fs : List FunctionRow) : List (ℕ × String) :=
  an.keyOrder ((fs.flatMap fun f => (an.functionBands f.tokenHashes).map fun b =>
    (b.1 % funcBandCount, b.2)).dedup)

/-- `func_index::candidates`. -/
def functionCandidates (an : Analyzer) (t x : Uuid) (fs : List FunctionRow) : Srv (List Uuid) :=
  bandCandidates t x funcCandidateCap (fun s k => s.inFunctionBand t x k.1 k.2)
    (functionKeys an fs) []

/-! ### The byte layers -/

/-- Insert an edge and count it when its row is new. -/
def countEdge (t x : Uuid) (n : ℕ) (other : Uuid) (ty : EdgeType) (score : ℚ) : Srv ℕ := do
  let inserted ← insertEdge t x other ty score
  return if inserted then n + 1 else n

/-- Layer 1 for one candidate. -/
def linkNormalized (t x : Uuid) (cls : ArtifactClass) (n : ℕ) (other : Uuid) : Srv ℕ := do
  let otherClass ← Prog.query (.sim (.analyze t x)) fun s =>
    (s.artifactById t other).map Artifact.artifactClass
  if otherClass ≠ some cls then return n
  else countEdge t x n other .normalizedEquivalent 1

/-- Layer 1: equal normalized hashes. -/
def linkNormalizedAll (t x : Uuid) (cls : ArtifactClass) :
    List (String × String) → ℕ → Srv ℕ :=
  Prog.loop fun n feature => do
    let candidates ← Prog.query (.sim (.analyze t x)) fun s => s.sameHash t x feature.1 feature.2
    Prog.loop (linkNormalized t x cls) candidates n

/-- The part of `fuzzy_candidates` that looks the candidates of the index up. -/
def digestsOf (t x : Uuid) (cls : ArtifactClass) :
    List Uuid → List (Uuid × String × ℚ) → Srv (List (Uuid × String × ℚ)) :=
  Prog.loop fun out other => do
    let row ← Prog.query (.sim (.analyze t x)) fun s =>
      match s.ssdeepOf t other, s.artifactById t other with
      | some d, some a => some (d.1, d.2, a.artifactClass)
      | _, _ => none
    match row with
    | some (digest, entropy, c) =>
      if c = cls then return out ++ [(other, digest, entropy)] else return out
    | none => return out

/-- `fuzzy_candidates`: the byte index when it has anything, else the class. -/
def fuzzyCandidates (an : Analyzer) (t x : Uuid) (cls : ArtifactClass) (ssdeep : String) :
    Srv (List (Uuid × String × ℚ)) := do
  let _ ← Prog.query (.sim (.analyze t x)) fun s =>
    (s.sim.lshBands.rows.filter fun r => r.tenant = t).length
  let populated ← Prog.query (.sim (.analyze t x)) fun s =>
    s.sim.lshBands.rows.any fun r => r.tenant = t
  let ids ← (if populated then lshCandidates an t x ssdeep else pure [])
  if ids.isEmpty then Prog.query (.sim (.analyze t x)) fun s => s.classScan t x cls
  else digestsOf t x cls ids []

/-- The size ratio of two artifacts. -/
def sizeRatio (a b : ℕ) : ℚ := (max a b : ℚ) / (max (min a b) 1 : ℕ)

/-- The score that makes a byte-similar edge, if it is high enough. -/
def byteSimilar (an : Analyzer) (f : ExtractedFeatures) (otherSize : ℕ) (digest : String)
    (entropy : ℚ) : Option ℤ :=
  if modelV1.sizeRatioMax < sizeRatio f.sizeBytes otherSize then none
  else
    let score := an.fuzzyCompare f.ssdeep digest
    if score < modelV1.byteSimilarMinScore ∨ modelV1.entropyDeltaMax < |f.entropy - entropy| then
      none
    else some score

/-- Layers 2 and 3 for one candidate. -/
def linkFuzzy (an : Analyzer) (t x : Uuid) (f : ExtractedFeatures) (n : ℕ)
    (c : Uuid × String × ℚ) : Srv ℕ := do
  let size ← Prog.query (.sim (.analyze t x)) fun s =>
    (s.artifactById t c.1).map Artifact.sizeBytes
  match size with
  | none => Prog.err (.db "no rows returned")
  | some size =>
    match byteSimilar an f size.toNat c.2.1 c.2.2 with
    | none => return n
    | some score => countEdge t x n c.1 .byteSimilar score

/-- The provenance layer for one candidate. -/
def linkProvenance (t x : Uuid) (n : ℕ) (other : Uuid) : Srv ℕ :=
  countEdge t x n other .sharedProvenance 1

/-! ### The semantic layer -/

/-- The significant functions of the code regions and the number of all spans,
or the limitation when a region looks packed. -/
def significantFunctions (an : Analyzer) :
    List CodeRegion → List FunctionRow × ℕ → Except String (List FunctionRow × ℕ)
  | [], acc => .ok acc
  | r :: rs, acc =>
    if modelV1.packedEntropyLimit < r.entropy then
      .error s!"packed_or_high_entropy_code: entropy {r.entropy} > {modelV1.packedEntropyLimit}"
    else significantFunctions an rs
      (acc.1 ++ r.spans.filter an.isSignificant, acc.2 + r.spans.length)

/-- `store_limitation`. -/
def storeLimitation (t x : Uuid) (limitation : String) : Srv Unit :=
  storeFeature t x .semantic "analysis_limitation" semanticExtractorVersion (.value limitation)

/-- `extract_and_store`. -/
def extractAndStore (an : Analyzer) (t x : Uuid) (cls : ArtifactClass) (bytes : Bytes) :
    Srv (List FunctionRow × Option String) := do
  let report := an.triage cls bytes
  storeFeature t x .semantic "triage" semanticExtractorVersion
    (.report (.obj [("block_semantic", .bool report.1), ("summary", .str report.2)]))
  if report.1 then do
    let summary := report.2
    storeLimitation t x s!"packed_or_virtualized: {summary}"
    return ([], some s!"packed_or_virtualized: {summary}")
  else match significantFunctions an (an.functionsFor cls bytes) ([], 0) with
  | .error limitation => do
    storeLimitation t x limitation
    return ([], some limitation)
  | .ok (significant, total) => do
    Prog.loop (fun _ f => Prog.update (.sim (.analyze t x)) fun s _ => { s with sim := { s.sim with
      functions := s.sim.functions.insertNew ⟨t, x, semanticExtractorVersion, f⟩ } }) significant ()
    storeFunctionBands an t x significant
    storeFeature t x .semantic "aggregate" semanticExtractorVersion
      (.report (.obj [("function_count", .num total), ("significant_count", .num significant.length)]))
    return (significant, none)

/-- `receipts::persist`. -/
def persistReceipt (t x : Uuid) (r : Time → Receipt) : Srv Unit :=
  Prog.update (.sim (.analyze t x)) fun s env =>
    { s with sim := { s.sim with receipts := s.sim.receipts.upsert (r env.now) } }

/-- Semantic matching against one candidate. -/
def linkSemantic (an : Analyzer) (t x : Uuid) (cls : ArtifactClass) (scoring : List FunctionRow)
    (n : ℕ) (other : Uuid) : Srv ℕ := do
  let otherClass ← Prog.query (.sim (.analyze t x)) fun s =>
    (s.artifactById t other).map Artifact.artifactClass
  if otherClass ≠ some cls then return n
  else do
    let functions ← Prog.query (.sim (.analyze t x)) fun s => s.loadFunctions t other
    let cov := an.coverage scoring (functions.filter fun f => !an.suppressed f)
    match classifySemanticEdge modelV1 cov with
    | none => return n
    | some ty => countEdge t x n other ty ((cov.aToB + cov.bToA) / 2)

/-- The candidates of the semantic layer: the function index when it has any,
else every artifact with functions. -/
def semanticCandidates (an : Analyzer) (t x : Uuid) (scoring : List FunctionRow) :
    Srv (List Uuid) := do
  let live ← Prog.query (.sim (.analyze t x)) fun s => s.sim.functionBands.rows.any fun r =>
    r.tenant = t && r.version = semanticExtractorVersion
  let ids ← (if live then functionCandidates an t x scoring else pure [])
  if ids.isEmpty then Prog.query (.sim (.analyze t x)) fun s => s.withFunctions t x
  else return ids

/-- `receipt.status`. -/
def receiptStatus (functions : List FunctionRow) (limitation : Option String) : ReceiptStatus :=
  if limitation.isSome then .limitation else if functions.isEmpty then .empty else .ok

/-- `analyze_and_link`. -/
def analyzeAndLink (cfg : Config) (t x : Uuid) (cls : ArtifactClass) (bytes : Bytes) : Srv ℕ := do
  if cls ≠ .pe ∧ cls ≠ .elf ∧ cls ≠ .machO then return 0
  else do
    let (functions, limitation) ← extractAndStore cfg.analyzer t x cls bytes
    let receipt := fun (edges : ℕ) (now : Time) => (⟨t, x, cfg.sha256 bytes,
      receiptStatus functions limitation, functions.length, limitation, edges, now⟩ : Receipt)
    persistReceipt t x (receipt 0)
    if limitation.isSome ∨ functions = [] then return 0
    else do
      let scoring := functions.filter fun f => !cfg.analyzer.suppressed f
      storeFeature t x .semantic "suppression" semanticExtractorVersion
        (.report (.obj [("kept", .num scoring.length)]))
      if scoring = [] then return 0
      else do
        let others ← semanticCandidates cfg.analyzer t x scoring
        let edges ← Prog.loop (linkSemantic cfg.analyzer t x cls scoring) others 0
        persistReceipt t x (receipt edges)
        return edges

/-! ### The whole analysis -/

/-- `analyze_artifact`. -/
def analyzeArtifact (cfg : Config) (t x : Uuid) (cls : ArtifactClass) (bytes : Bytes) : Srv ℕ := do
  let f := cfg.analyzer.extract bytes
  storeFeatures t x f
  storeBands cfg.analyzer t x f.ssdeep
  let n ← linkNormalizedAll t x cls f.normalized 0
  let bucket ← fuzzyCandidates cfg.analyzer t x cls f.ssdeep
  let n ← Prog.loop (linkFuzzy cfg.analyzer t x f) bucket n
  let _ ← analyzeAndLink cfg t x cls bytes
  match f.compilerHint with
  | none => return n
  | some hint => do
    let candidates ← Prog.query (.sim (.analyze t x)) fun s => s.sameHint t x hint
    Prog.loop (linkProvenance t x) candidates n

/-- `analyze_new_artifact`. -/
def analyzeNewArtifact (cfg : Config) (t x : Uuid) (cls : ArtifactClass) (bytes : Bytes) : Srv ℕ :=
  analyzeArtifact cfg t x cls bytes

/-- The artifacts without features of the current extractor version, by `seq`. -/
def Db.pending (s : Db) (t : Uuid) : List Artifact :=
  (s.ingest.artifacts.rows.filter fun a => a.tenant = t && a.storageState = .committed &&
    !s.sim.features.rows.any fun r =>
      r.tenant = t && r.artifactId = a.id && r.version = extractorVersion).insertionSort
        fun a b => a.seq ≤ b.seq

/-- The loop of `backfill` for one artifact. -/
def backfillOne (cfg : Config) (t : Uuid) (n : ℕ) (a : Artifact) : Srv ℕ := do
  let content ← Prog.query (.sim (.analyze t a.id)) fun s => s.ingest.cas.objects a.objectKey
  match content with
  | none => Prog.err (.io "No such file or directory (os error 2)")
  | some bytes => do
    let _ ← analyzeArtifact cfg t a.id a.artifactClass bytes
    return n + 1

/-- `backfill`. -/
def backfill (cfg : Config) (t : Uuid) : Srv ℕ := do
  let pending ← Prog.query (.sim (.pending t)) fun s => s.pending t
  Prog.loop (backfillOne cfg t) pending 0

end Corpus
