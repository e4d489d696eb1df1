/-
The evidence of a semantic edge, and the view that explains it (`semantic/edges.rs`,
`semantic/suppress.rs`).

`analyze_and_link` takes the functions of the runtime out of both sides before it matches
them, and stores the coverage it finds with the edge.  `function_pair_evidence` matches all
the stored functions of both artifacts.

* `analyzeAndLink_erases` — `EvidenceDb` is the store with the column `evidence`; without
  it, the analysis is the one of `Corpus.Analysis`;
* `explains_iff` — the view reports the stored evidence exactly when no stored function of
  either artifact is suppressed.
-/
import Corpus.Erasure
import Corpus.Neighborhood
import Corpus.StoredFunctions

namespace Corpus

/-! ### Suppression -/

namespace Suppress

/-- `SUPPRESSOR_VERSION`. -/
def suppressorVersion : String := "suppress:v1"

/-- `NAME_PATTERNS`. -/
def namePatterns : List String :=
  ["crt", "__libc", "_start", "__main", "maincrt", "scrt_common", "gs_handler",
    "security_check_cookie", "findpeb", "memcpy", "memmove", "memset", "memcmp", "strlen",
    "strcmp", "strcpy", "malloc", "free", "calloc", "realloc", "operator new", "operator delete",
    "__chkstk", "_chkstk", "__security", "guard_check", "std::", "boost::"]

/-- `SuppressionDecision`. -/
structure Decision where
  offset : ℕ
  suppressed : Bool
  reason : Option String

/-- `char::to_lowercase`, as far as it gives ASCII letters: those of the ASCII capitals, of
the Kelvin sign and of the dotted capital I.  No pattern has any other character. -/
def lowerChar (c : Char) : List Char :=
  if c = '\u212a' then ['k'] else if c = '\u0130' then ['i', '\u0307'] else [c.toLower]

/-- `str::to_lowercase`, as far as the patterns can tell. -/
def toLowercase (s : String) : String := String.ofList (s.toList.flatMap lowerChar)

/-- `decide`. -/
def decide (f : FunctionRow) : Decision :=
  match f.name.bind fun name => namePatterns.find? fun pat => containsText (toLowercase name) pat with
  | some pat => ⟨f.offset, true, some ("name_pattern:" ++ pat)⟩
  | none =>
    if f.insnCount < 12 ∧ f.tokenHashes.length ≤ 4 then ⟨f.offset, true, some "tiny_generic_shape"⟩
    else ⟨f.offset, false, none⟩

/-- `partition`: what is kept, and all decisions. -/
def partition (functions : List FunctionRow) : List FunctionRow × List Decision :=
  functions.foldl (fun out f =>
    let d := decide f
    if d.suppressed then (out.1, out.2 ++ [d]) else (out.1 ++ [f], out.2 ++ [d])) ([], [])

theorem partition_eq (functions : List FunctionRow) :
    partition functions =
      (functions.filter fun f => !(decide f).suppressed, functions.map decide) := by
  have hfold : ∀ out : List FunctionRow × List Decision,
      functions.foldl (fun out f =>
        let d := decide f
        if d.suppressed then (out.1, out.2 ++ [d]) else (out.1 ++ [f], out.2 ++ [d])) out =
      (out.1 ++ functions.filter fun f => !(decide f).suppressed,
        out.2 ++ functions.map decide) := by
    induction functions with
    | nil => intro out; simp
    | cons f functions ih =>
      intro out
      rw [List.foldl_cons, ih]
      cases hd : (decide f).suppressed <;> simp [hd]
  exact hfold ([], [])

end Suppress

/-- With the coverage and the suppression of the semantic layer. -/
def Config.suppressing (cfg : Config) : Config :=
  { cfg with analyzer := { cfg.analyzer with
      coverage := coverage
      suppressed := fun f => (Suppress.decide f).suppressed } }

/-! ### The column -/

/-- The `evidence` of a semantic edge: `build_edge_evidence`, and what `analyze_and_link`
adds to it.  `receipt_id` is the payload it digests. -/
structure EdgeEvidence where
  coverageAToB : ℚ
  coverageBToA : ℚ
  matchedPairs : ℕ
  topPairs : List PairScore
  contestedA : List ℕ
  contestedB : List ℕ
  unmatchedACount : ℕ
  unmatchedBCount : ℕ
  tau : ℚ
  modelVersion : String
  modelConfigDigest : String
  extractorVersion : String
  receiptId : Uuid × Uuid × Bytes × ReceiptStatus × ℕ
  matching : String
  candidateSource : String
  suppressorVersion : String
  suppressedA : ℕ

/-- The artifact whose analysis found the edge: side `a`. -/
def EdgeEvidence.analysed (ev : EdgeEvidence) : Uuid := ev.receiptId.2.1

/-- `build_edge_evidence`, with the members that `analyze_and_link` inserts. -/
def buildEdgeEvidence (fmt : EvidenceFormat) (receipt : Receipt) (source : String) (suppressedA : ℕ)
    (cov : MatchReport) : EdgeEvidence where
  coverageAToB := cov.aToB
  coverageBToA := cov.bToA
  matchedPairs := cov.matchedPairs
  topPairs := cov.topPairs
  contestedA := cov.contestedA
  contestedB := cov.contestedB
  unmatchedACount := cov.unmatchedA.length
  unmatchedBCount := cov.unmatchedB.length
  tau := matchTau
  modelVersion := modelVersion
  modelConfigDigest := fmt.modelConfigDigest
  extractorVersion := semanticExtractorVersion
  receiptId := receipt.key
  matching := "one_to_one_greedy"
  candidateSource := source
  suppressorVersion := Suppress.suppressorVersion
  suppressedA := suppressedA

/-- The key of an edge. -/
abbrev EdgeKey := Uuid × Uuid × Uuid × EdgeType × String

/-- The store with the `evidence` of its edges.  The program never reads `rowsRead`: the
stored functions of the other artifact as they were when the edge was scored. -/
structure EvidenceDb where
  db : Db
  evidence : EdgeKey → Option EdgeEvidence
  rowsRead : EdgeKey → List FunctionRow

namespace EvidenceDb

/-- The store without the column. -/
def base : Lens EvidenceDb Db where
  get := db
  set s d := { s with db := d }
  get_set _ _ := rfl
  set_get _ := rfl
  set_set _ _ _ := rfl

/-- A program that leaves the column alone. -/
abbrev lift {α : Type} (p : Srv α) : Prog Pt EvidenceDb Env Error α := p.zoom id base id

/-- The row and its evidence. -/
def addEdge (s : EvidenceDb) (e : Edge) (ev : EdgeEvidence) (rows : List FunctionRow) :
    EvidenceDb where
  db := { s.db with sim := s.db.sim.addEdge e }
  evidence := if (s.db.sim.edges.get e.key).isNone then Function.update s.evidence e.key (some ev)
    else s.evidence
  rowsRead := if (s.db.sim.edges.get e.key).isNone then Function.update s.rowsRead e.key rows
    else s.rowsRead

/-- `insert_edge` of `semantic/edges.rs`. -/
def insertEdge (t a b : Uuid) (ty : EdgeType) (score : ℚ) (ev : EdgeEvidence)
    (rows : List FunctionRow) : Prog Pt EvidenceDb Env Error Bool := do
  let src := if a < b then a else b
  let dst := if a < b then b else a
  let inserted ← Prog.exec (.sim (.insertEdge t src dst ty)) fun s env =>
    if src < dst then
      .ok ((s.db.sim.edges.get (t, src, dst, ty, modelVersion)).isNone,
        s.addEdge ⟨t, src, dst, ty, modelVersion, score, env.now⟩ ev rows)
    else .error (.db "similarity_edge_check")
  if inserted && mergesGroups ty then
    lift (unionGroups t src dst)
  return inserted

/-- Semantic matching against one candidate. -/
def linkSemantic (t x : Uuid) (cls : ArtifactClass) (scoring : List FunctionRow)
    (build : MatchReport → EdgeEvidence) (n : ℕ) (other : Uuid) :
    Prog Pt EvidenceDb Env Error ℕ := do
  let otherClass ← Prog.query (.sim (.analyze t x)) fun s =>
    (s.db.artifactById t other).map Artifact.artifactClass
  if otherClass ≠ some cls then return n
  else do
    let functions ← Prog.query (.sim (.analyze t x)) fun s => s.db.loadFunctions t other
    let cov := coverageWithTau scoring (Suppress.partition functions).1 matchTau
    match classifySemanticEdge modelV1 cov.toCoverage with
    | none => return n
    | some ty => do
      let inserted ← insertEdge t x other ty ((cov.aToB + cov.bToA) / 2) (build cov) functions
      return if inserted then n + 1 else n

/-- The candidates, and `candidate_source`. -/
def semanticCandidates (an : Analyzer) (t x : Uuid) (scoring : List FunctionRow) :
    Prog Pt EvidenceDb Env Error (List Uuid × String) := do
  let live ← Prog.query (.sim (.analyze t x)) fun s => s.db.sim.functionBands.rows.any fun r =>
    r.tenant = t && r.version = semanticExtractorVersion
  let ids ← lift (if live then functionCandidates an t x scoring else pure [])
  if ids.isEmpty then do
    let ids ← Prog.query (.sim (.analyze t x)) fun s => s.db.withFunctions t x
    return (ids, if live then "full_scan_fallback" else "full_scan_cold")
  else return (ids, "function_index")

/-- `analyze_and_link`, with the evidence of the edges. -/
def analyzeAndLink (cfg : Config) (fmt : EvidenceFormat) (t x : Uuid) (cls : ArtifactClass)
    (bytes : Bytes) : Prog Pt EvidenceDb Env Error ℕ := do
  if cls ≠ .pe ∧ cls ≠ .elf ∧ cls ≠ .machO then return 0
  else do
    let (functions, limitation) ← lift (extractAndStore cfg.analyzer t x cls bytes)
    let receipt := fun (edges : ℕ) (now : Time) => (⟨t, x, cfg.sha256 bytes,
      receiptStatus functions limitation, functions.length, limitation, edges, now⟩ : Receipt)
    lift (persistReceipt t x (receipt 0))
    if limitation.isSome ∨ functions = [] then return 0
    else do
      let (scoring, decisions) := Suppress.partition functions
      lift (storeFeature t x .semantic "suppression" semanticExtractorVersion
        (.report (.obj [("kept", .num scoring.length)])))
      if scoring = [] then return 0
      else do
        let (others, source) ← semanticCandidates cfg.analyzer t x scoring
        let build := buildEdgeEvidence fmt (receipt 0 0) source
          (decisions.filter Suppress.Decision.suppressed).length
        let edges ← Prog.loop (linkSemantic t x cls scoring build) others 0
        lift (persistReceipt t x (receipt edges))
        return edges

end EvidenceDb

/-! ### Without the column -/

namespace EvidenceDb

variable {cfg : Config} {t x : Uuid} {cls : ArtifactClass}

theorem insertEdge_erases (a b : Uuid) (ty : EdgeType) (score : ℚ) (ev : EdgeEvidence)
    (rows : List FunctionRow) :
    (insertEdge t a b ty score ev rows).Erases db (· = ·) (Corpus.insertEdge t a b ty score) := by
  unfold insertEdge Corpus.insertEdge
  dsimp only
  generalize (if a < b then a else b) = src
  generalize (if a < b then b else a) = dst
  refine Prog.Erases.bind (Q := (· = ·))
    (Prog.erases_exec (fun s i e he => ?_) fun s i new s' hs' => ?_) ?_
  · split at he
    · cases he
    · next hlt =>
      obtain rfl := Except.error.inj he
      exact if_neg hlt
  · split at hs'
    · next hlt =>
      cases hs'
      exact ⟨_, if_pos hlt, rfl⟩
    · cases hs'
  · rintro new _ rfl
    split
    · exact Prog.Erases.bind (Prog.erases_zoom base _) fun _ _ _ => .ret rfl
    · exact .ret rfl

theorem linkSemantic_erases (scoring : List FunctionRow) (build : MatchReport → EdgeEvidence)
    (n : ℕ) (other : Uuid) :
    (linkSemantic t x cls scoring build n other).Erases db (· = ·)
      (Corpus.linkSemantic cfg.suppressing.analyzer t x cls scoring n other) := by
  refine Prog.Erases.bind (Q := (· = ·)) (Prog.erases_query fun s => rfl) ?_
  rintro c _ rfl
  split
  · exact .ret rfl
  refine Prog.Erases.bind (Q := (· = ·)) (Prog.erases_query fun s => rfl) ?_
  rintro functions _ rfl
  rw [Suppress.partition_eq]
  dsimp only
  have hclass : classifySemanticEdge modelV1 (coverageWithTau scoring
        (functions.filter fun f => !(Suppress.decide f).suppressed) matchTau).toCoverage =
      classifySemanticEdge modelV1 (cfg.suppressing.analyzer.coverage scoring
        (functions.filter fun f => !cfg.suppressing.analyzer.suppressed f)) := rfl
  rw [hclass]
  cases classifySemanticEdge modelV1 (cfg.suppressing.analyzer.coverage scoring
      (functions.filter fun f => !cfg.suppressing.analyzer.suppressed f)) with
  | none => exact .ret rfl
  | some ty =>
    refine Prog.Erases.bind (Q := (· = ·)) (insertEdge_erases _ _ _ _ _ _) ?_
    rintro new _ rfl
    exact .ret rfl

theorem semanticCandidates_erases (scoring : List FunctionRow) :
    (semanticCandidates cfg.analyzer t x scoring).Erases db (fun r ids => r.1 = ids)
      (Corpus.semanticCandidates cfg.analyzer t x scoring) := by
  refine Prog.Erases.bind (Q := (· = ·)) (Prog.erases_query fun s => rfl) ?_
  rintro live _ rfl
  refine Prog.Erases.bind (Prog.erases_zoom base _) ?_
  rintro ids _ rfl
  split
  · exact .stmt (fun _ _ => rfl) fun s _ => .ret rfl
  · exact .ret rfl

/-- **The column changes nothing else**: without it, the analysis is the one of the base
store. -/
theorem analyzeAndLink_erases (cfg : Config) (fmt : EvidenceFormat) (t x : Uuid)
    (cls : ArtifactClass) (bytes : Bytes) :
    (analyzeAndLink cfg.suppressing fmt t x cls bytes).Erases db (· = ·)
      (Corpus.analyzeAndLink cfg.suppressing t x cls bytes) := by
  unfold analyzeAndLink Corpus.analyzeAndLink
  split
  · exact .ret rfl
  refine Prog.Erases.bind (Prog.erases_zoom base _) ?_
  rintro ⟨functions, limitation⟩ _ rfl
  refine Prog.Erases.bind (Prog.erases_zoom base _) fun _ _ _ => ?_
  split
  · exact .ret rfl
  rw [Suppress.partition_eq]
  refine Prog.Erases.bind (Prog.erases_zoom base _) fun _ _ _ => ?_
  have hscoring : (functions.filter fun f => !(Suppress.decide f).suppressed) =
      functions.filter fun f => !cfg.suppressing.analyzer.suppressed f := rfl
  rw [hscoring]
  split
  · exact .ret rfl
  refine Prog.Erases.bind (semanticCandidates_erases _) ?_
  rintro ⟨others, source⟩ _ rfl
  refine Prog.Erases.bind (Q := (· = ·)) (Prog.Erases.loop ?_ _ _ _ rfl) ?_
  · rintro n _ other rfl
    exact linkSemantic_erases _ _ n other
  · rintro edges _ rfl
    exact Prog.Erases.bind (Prog.erases_zoom base _) fun _ _ _ => .ret rfl

end EvidenceDb

/-! ### Coverage with and without suppression -/

section Coverage

variable {an : Analyzer} {a b : List FunctionRow}

theorem coverage_pos {c : Coverage} {ty : EdgeType}
    (h : classifySemanticEdge modelV1 c = some ty) : 0 < c.aToB ∧ 0 < c.bToA := by
  have hstrong : 0 < modelV1.semanticStrongCoverage := by norm_num [modelV1]
  have hweak : 0 < modelV1.semanticWeakCoverage := by norm_num [modelV1]
  unfold classifySemanticEdge at h
  split at h
  · next hc => exact ⟨hstrong.trans_le hc.1, hstrong.trans_le hc.2.1⟩
  · split at h
    · next hc => exact ⟨hweak.trans_le hc.1, hweak.trans_le hc.2⟩
    · cases h

/-- Nothing is suppressed when as many functions are left. -/
theorem scoring_eq_of_length (h : (an.scoring a).length = a.length) : an.scoring a = a :=
  List.filter_sublist.eq_of_length h

theorem scoring_eq_iff : an.scoring a = a ↔ ∀ f ∈ a, an.suppressed f = false := by
  rw [Analyzer.scoring, List.filter_eq_self]
  simp only [Bool.not_eq_true']

theorem Coverage.eq_mk_iff {c : Coverage} {p q : ℚ} {m : ℕ} :
    c = ⟨p, q, m⟩ ↔ c.matchedPairs = m ∧ c.aToB = p ∧ c.bToA = q := by
  obtain ⟨p', q', m'⟩ := c
  simp only [Coverage.mk.injEq]
  exact ⟨fun h => ⟨h.2.2, h.1, h.2.1⟩, fun h => ⟨h.2.1, h.2.2, h.1⟩⟩

/-- A side with coverage: the ratio of the pairs to its functions. -/
theorem length_of_ratio {m : ℕ} {xs : List FunctionRow} {q : ℚ} (hq : 0 < q)
    (h : q = if xs.isEmpty then 0 else (m : ℚ) / (xs.length : ℚ)) : (xs.length : ℚ) = m / q := by
  rcases xs with _ | ⟨x, xs⟩
  · exact absurd (h ▸ hq) (lt_irrefl _)
  · have hlen : ((x :: xs).length : ℚ) ≠ 0 := by simp [Nat.cast_add_one_ne_zero]
    have heq : q * ((x :: xs).length : ℚ) = m := by
      rw [h]
      exact div_mul_cancel₀ _ hlen
    rw [← heq, mul_div_cancel_left₀ _ hq.ne']

/-- With coverage on both sides, suppression changes nothing exactly when there is nothing
to suppress. -/
theorem coverage_scoring_iff (ha : 0 < (coverage (an.scoring a) (an.scoring b)).aToB)
    (hb : 0 < (coverage (an.scoring a) (an.scoring b)).bToA) :
    coverage a b = coverage (an.scoring a) (an.scoring b) ↔
      ∀ f ∈ a ++ b, an.suppressed f = false := by
  have hall : (∀ f ∈ a ++ b, an.suppressed f = false) ↔ an.scoring a = a ∧ an.scoring b = b := by
    rw [List.forall_mem_append, scoring_eq_iff, scoring_eq_iff]
  rw [hall]
  refine ⟨fun h => ?_, fun h => by rw [h.1, h.2]⟩
  have hfull := coverage_eq a b
  have hkept := coverage_eq (an.scoring a) (an.scoring b)
  -- as many pairs, and the ratios give as many functions
  have hm : (assignedPairs a b matchTau).length =
      (assignedPairs (an.scoring a) (an.scoring b) matchTau).length := by
    rw [hfull, hkept] at h
    exact congrArg Coverage.matchedPairs h
  have ha₁ := length_of_ratio (m := _) (h ▸ ha) (congrArg Coverage.aToB hfull)
  have ha₂ := length_of_ratio (m := _) ha (congrArg Coverage.aToB hkept)
  have hb₁ := length_of_ratio (m := _) (h ▸ hb) (congrArg Coverage.bToA hfull)
  have hb₂ := length_of_ratio (m := _) hb (congrArg Coverage.bToA hkept)
  rw [h, hm, ← ha₂] at ha₁
  rw [h, hm, ← hb₂] at hb₁
  exact ⟨scoring_eq_of_length (Nat.cast_injective ha₁).symm,
    scoring_eq_of_length (Nat.cast_injective hb₁).symm⟩

end Coverage

/-! ### What the evidence says -/

section Evidence

variable (an : Analyzer) (bytes : Uuid → Uuid → Bytes) (s₀ : Db)

/-- Every function of the file has a row at its offset. -/
def Extracted (t x : Uuid) (s : Db) : Prop :=
  ∀ f ∈ freshOf an bytes s₀ t x, ∃ r ∈ s.sim.functions.rows, r.key = (functionRow t x f).key

namespace EvidenceDb

/-- What the evidence says of its edge: the coverage of the functions that are left of both
sides, of the file that was analysed and of the rows that were read. -/
structure Scored (s : EvidenceDb) (e : Edge) (ev : EdgeEvidence) : Prop where
  ends : e.src ≠ e.dst ∧ (ev.analysed = e.src ∨ ev.analysed = e.dst)
  extracted : Extracted an bytes s₀ e.tenant ev.analysed s.db
  distinct : DistinctOffsets (s.rowsRead e.key)
  pos : 0 < ev.coverageAToB ∧ 0 < ev.coverageBToA
  coverage : coverage (an.scoring (freshOf an bytes s₀ e.tenant ev.analysed))
    (an.scoring (s.rowsRead e.key)) = ⟨ev.coverageAToB, ev.coverageBToA, ev.matchedPairs⟩

/-- Every semantic edge has such evidence. -/
def AllScored (s : EvidenceDb) : Prop :=
  ∀ e ∈ s.db.sim.edges.rows, e.edgeType.semantic →
    ∃ ev, s.evidence e.key = some ev ∧ s.Scored an bytes s₀ e ev

/-- What the store may do: function rows stay, and `AllScored` is kept. -/
def Moves (s s' : EvidenceDb) : Prop :=
  s.db.sim.functions.rows ⊆ s'.db.sim.functions.rows ∧
    (s.AllScored an bytes s₀ → s'.AllScored an bytes s₀)

end EvidenceDb

end Evidence

section Statements

variable {an : Analyzer} {bytes : Uuid → Uuid → Bytes} {s₀ : Db} {t x other : Uuid}
  {cls : ArtifactClass} {s s' : EvidenceDb}

theorem Extracted.mono {d d' : Db} (h : Extracted an bytes s₀ t x d)
    (hrows : d.sim.functions.rows ⊆ d'.sim.functions.rows) : Extracted an bytes s₀ t x d' :=
  fun f hf => (h f hf).imp fun _ hr => ⟨hrows hr.1, hr.2⟩

/-- The functions and the edges are as before. -/
def SameLinks (d d' : Db) : Prop := d'.sim.functions = d.sim.functions ∧ d'.sim.edges = d.sim.edges

/-- The edges are as before. -/
def SameEdges (d d' : Db) : Prop := d'.sim.edges = d.sim.edges

theorem storeFeature_sameLinks (name : String) (value : FeatureValue) :
    (storeFeature t x .semantic name semanticExtractorVersion value).Within (fun _ => True)
      (fun _ => SameLinks) True :=
  Prog.within_update trivial fun _ _ => ⟨rfl, rfl⟩

theorem persistReceipt_sameLinks (r : Time → Receipt) :
    (persistReceipt t x r).Within (fun _ => True) (fun _ => SameLinks) True :=
  Prog.within_update trivial fun _ _ => ⟨rfl, rfl⟩

theorem storeFunctionBands_sameLinks (fs : List FunctionRow) :
    (storeFunctionBands an t x fs).Within (fun _ => True) (fun _ => SameLinks) True :=
  Prog.within_bind (Prog.within_update trivial fun _ _ => ⟨rfl, rfl⟩) fun _ =>
    Prog.within_loop (fun _ _ => Prog.within_update trivial fun _ _ => ⟨rfl, rfl⟩) _ ()

theorem functionCandidates_sameLinks (scoring : List FunctionRow) :
    (functionCandidates an t x scoring).Within (fun _ => True) (fun _ => SameLinks) True :=
  (bandCandidates_reads x _ _ _ _).mono (fun _ h => h) fun _ _ _ heq => heq ▸ ⟨rfl, rfl⟩

theorem extractAndStore_sameEdges (an : Analyzer) (cls : ArtifactClass) (bytes : Bytes) :
    (extractAndStore an t x cls bytes).Within (fun _ => True) (fun _ => SameEdges) True := by
  have hfeature : ∀ name value, (storeFeature t x .semantic name semanticExtractorVersion
      value).Within (fun _ => True) (fun _ => SameEdges) True :=
    fun name value => (storeFeature_sameLinks name value).mono (fun _ h => h) fun _ _ _ hF => hF.2
  refine Prog.within_bind (hfeature _ _) fun _ => ?_
  split
  · exact Prog.within_bind (hfeature _ _) fun _ => trivial
  · split
    · exact Prog.within_bind (hfeature _ _) fun _ => trivial
    · refine Prog.within_bind (Prog.within_loop (fun _ _ => Prog.within_update trivial
        fun _ _ => rfl) _ ()) fun _ => ?_
      refine Prog.within_bind ((storeFunctionBands_sameLinks _).mono (fun _ h => h)
        fun _ _ _ hF => hF.2) fun _ => ?_
      exact Prog.within_bind (hfeature _ _) fun _ => trivial

/-- What follows a statement that keeps the rows. -/
theorem sameLinks_keeps {α : Type} {p : Srv α} {K : Pt → Prop} {E : Prop} {J : Db → Prop}
    {Ok : Pt → Env → Db → Prop} {d : Db} (hp : p.Within K (fun _ => SameLinks) E)
    (hJ : ∀ d d' : Db, d.sim.functions.rows ⊆ d'.sim.functions.rows → J d → J d') (hd : J d) :
    p.Keeps (fun d d' => d.sim.functions.rows ⊆ d'.sim.functions.rows) Ok (fun _ d => J d) d :=
  Prog.Within.keeps hJ (fun _ _ _ (hF : SameLinks _ _) _ => hF.1 ▸ List.Subset.refl _) hp hd

/-- The extraction returns the functions of the file, and each has a row then. -/
theorem extractAndStore_keeps (hrow : (s₀.artifactById t x).map Artifact.artifactClass = some cls)
    {Ok : Pt → Env → Db → Prop} (d : Db) :
    (extractAndStore an t x cls (bytes t x)).Keeps
      (fun d d' => d.sim.functions.rows ⊆ d'.sim.functions.rows) Ok
      (fun r d => r.1 = freshOf an bytes s₀ t x ∧ Extracted an bytes s₀ t x d) d := by
  have hnone : freshOf an bytes s₀ t x = [] → ∀ d, Extracted an bytes s₀ t x d := by
    intro hnil d f hf
    rw [hnil] at hf
    cases hf
  have hquiet : ∀ {α : Type} {p : Srv α} {r : List FunctionRow × Option String} {d : Db},
      p.Within (fun _ => True) (fun _ => SameLinks) True → r.1 = freshOf an bytes s₀ t x →
        Extracted an bytes s₀ t x d → (p >>= fun _ => Prog.ret r).Keeps
          (fun d d' => d.sim.functions.rows ⊆ d'.sim.functions.rows) Ok
          (fun r d => r.1 = freshOf an bytes s₀ t x ∧ Extracted an bytes s₀ t x d) d :=
    fun hp hr hd => Prog.keeps_bind (sameLinks_keeps hp (fun _ _ h h' => h'.mono h) hd)
      fun _ _ hd => ⟨hr, hd⟩
  have hfresh : freshOf an bytes s₀ t x = freshFunctions an cls (bytes t x) := freshOf_eq hrow
  unfold freshFunctions at hfresh
  unfold extractAndStore
  refine Prog.keeps_bind (sameLinks_keeps (storeFeature_sameLinks _ _) (J := fun _ => True)
    (fun _ _ _ _ => trivial) trivial) fun _ d _ => ?_
  dsimp only
  split
  · next htriage =>
    rw [if_pos htriage] at hfresh
    exact hquiet (storeFeature_sameLinks _ _) hfresh.symm (hnone hfresh d)
  · next htriage =>
    rw [if_neg htriage] at hfresh
    cases hsig : significantFunctions an (an.functionsFor cls (bytes t x)) ([], 0) with
    | error l =>
      rw [hsig] at hfresh
      exact hquiet (storeFeature_sameLinks _ _) hfresh.symm (hnone hfresh d)
    | ok found =>
      rw [hsig] at hfresh
      refine Prog.keeps_bind (Prog.keeps_loop_rest (J := fun rest _ d =>
        ∀ f ∈ found.1, f ∈ rest ∨ ∃ r ∈ d.sim.functions.rows, r.key = (functionRow t x f).key)
        (fun _ f rest d hd => Prog.keeps_update fun d' hgrow _ => ⟨?_, fun g hg => ?_⟩) found.1 () d
        fun f hf => .inl hf) fun _ d hd => ?_
      · exact fun r hr => Table.rows_sublist_insertNew _ _ hr
      · -- the function of this turn has a row now, old or new
        obtain hg | ⟨r, hr, hkey⟩ := hd g hg
        · rcases List.mem_cons.mp hg with rfl | hg
          · exact .inr (Table.exists_key_insertNew _ (functionRow t x g))
          · exact .inl hg
        · exact .inr ⟨r, Table.rows_sublist_insertNew _ _ (hgrow hr), hkey⟩
      have hext : Extracted an bytes s₀ t x d := by
        rw [Extracted, hfresh]
        exact fun f hf => (hd f hf).resolve_left (List.not_mem_nil)
      refine Prog.keeps_bind (sameLinks_keeps (storeFunctionBands_sameLinks _)
        (fun _ _ h h' => h'.mono h) hext) fun _ d hext => ?_
      exact hquiet (storeFeature_sameLinks _ _) hfresh.symm hext

namespace EvidenceDb

theorem Moves.refl (s : EvidenceDb) : s.Moves an bytes s₀ s := ⟨List.Subset.refl _, id⟩

/-- Edges and their columns as before, and no function row gone. -/
theorem AllScored.frame (h : s.AllScored an bytes s₀)
    (hrows : s.db.sim.functions.rows ⊆ s'.db.sim.functions.rows)
    (hedges : s'.db.sim.edges = s.db.sim.edges) (hev : s'.evidence = s.evidence)
    (hread : s'.rowsRead = s.rowsRead) : s'.AllScored an bytes s₀ := by
  intro e he hty
  rw [hedges] at he
  obtain ⟨ev, hget, hsc⟩ := h e he hty
  refine ⟨ev, hev ▸ hget, hsc.ends, hsc.extracted.mono hrows, ?_, hsc.pos, ?_⟩
  · rw [hread]
    exact hsc.distinct
  · rw [hread]
    exact hsc.coverage

/-- A part of the analysis that inserts no edge. -/
theorem lift_keeps {α : Type} {p : Srv α} {K : Pt → Prop} {E : Prop} {Q : α → Db → Prop}
    {Ok : Pt → Env → EvidenceDb → Prop} (hp : p.Within K (fun _ => SameEdges) E)
    (h : p.Keeps (fun d d' => d.sim.functions.rows ⊆ d'.sim.functions.rows) (fun _ _ _ => True) Q
      s.db) : (lift p).Keeps (Moves an bytes s₀) Ok (fun a s => Q a s.db) s := by
  have hget : ∀ s s' : EvidenceDb, s.Moves an bytes s₀ s' →
      (base.get s).sim.functions.rows ⊆ (base.get s').sim.functions.rows := fun _ _ hmove => hmove.1
  have hset : ∀ (l : Pt) (s : EvidenceDb) (d : Db), SameEdges (base.get s) d →
      (base.get s).sim.functions.rows ⊆ d.sim.functions.rows →
        s.Moves an bytes s₀ (base.set s d) :=
    fun _ _ _ hF hrows => ⟨hrows, fun hs => hs.frame hrows hF rfl rfl⟩
  have hbase : p.Keeps (fun d d' => d.sim.functions.rows ⊆ d'.sim.functions.rows)
    (fun _ _ _ => True) Q (base.get s) := h
  exact Prog.Keeps.zoom_within hget hset (fun _ _ _ _ => trivial) hp hbase

/-- A part that keeps the functions and the edges. -/
theorem lift_quiet {α : Type} {p : Srv α} {K : Pt → Prop} {E : Prop}
    {Ok : Pt → Env → EvidenceDb → Prop} (hp : p.Within K (fun _ => SameLinks) E)
    (hs : Extracted an bytes s₀ t x s.db) :
    (lift p).Keeps (Moves an bytes s₀) Ok (fun _ s => Extracted an bytes s₀ t x s.db) s :=
  lift_keeps (hp.mono (fun _ h => h) fun _ _ _ hF => hF.2)
    (sameLinks_keeps hp (fun _ _ h h' => h'.mono h) hs)

/-- A new row with evidence. -/
theorem AllScored.addEdge (h : s.AllScored an bytes s₀) {e : Edge} {ev : EdgeEvidence}
    {rows : List FunctionRow} (he : (s.addEdge e ev rows).rowsRead e.key = rows →
      (s.addEdge e ev rows).Scored an bytes s₀ e ev) :
    (s.addEdge e ev rows).AllScored an bytes s₀ := by
  cases hget : s.db.sim.edges.get e.key with
  | some e' =>
    have hsame : (s.addEdge e ev rows).db.sim.edges = s.db.sim.edges :=
      Table.rows_insertNew_of_get hget
    refine h.frame (List.Subset.refl _) hsame ?_ ?_
    · exact if_neg (by simp [hget])
    · exact if_neg (by simp [hget])
  | none =>
    have hev : (s.addEdge e ev rows).evidence = Function.update s.evidence e.key (some ev) :=
      if_pos (by simp [hget])
    have hread : (s.addEdge e ev rows).rowsRead = Function.update s.rowsRead e.key rows :=
      if_pos (by simp [hget])
    intro e₁ he₁ hty
    obtain he₁ | rfl := (Table.mem_insertNew_of_none hget).mp he₁
    · -- an older edge has another key
      have hne : e₁.key ≠ e.key := by
        intro hkey
        rw [← hkey, Table.mem_rows_iff.mp he₁] at hget
        cases hget
      obtain ⟨ev₁, hget₁, hsc⟩ := h e₁ he₁ hty
      refine ⟨ev₁, ?_, hsc.ends, hsc.extracted, ?_, hsc.pos, ?_⟩
      · rw [hev, Function.update_of_ne hne, hget₁]
      · rw [hread, Function.update_of_ne hne]
        exact hsc.distinct
      · rw [hread, Function.update_of_ne hne]
        exact hsc.coverage
    · refine ⟨ev, ?_, he ?_⟩
      · rw [hev, Function.update_self]
      · rw [hread, Function.update_self]

/-- The row and its evidence, when they say what was found. -/
theorem insertEdge_keeps {Ok : Pt → Env → EvidenceDb → Prop} {ty : EdgeType} {score : ℚ}
    {ev : EdgeEvidence} {rows : List FunctionRow} (hx : ev.analysed = x)
    (hrows : DistinctOffsets rows) (hpos : 0 < ev.coverageAToB ∧ 0 < ev.coverageBToA)
    (hcov : coverage (an.scoring (freshOf an bytes s₀ t x)) (an.scoring rows) =
      ⟨ev.coverageAToB, ev.coverageBToA, ev.matchedPairs⟩) (hs : Extracted an bytes s₀ t x s.db) :
    (insertEdge t x other ty score ev rows).Keeps (Moves an bytes s₀) Ok
      (fun _ s => Extracted an bytes s₀ t x s.db) s := by
  have hends : x = (if x < other then x else other) ∨ x = (if x < other then other else x) := by
    by_cases hlt : x < other
    · exact .inl (if_pos hlt).symm
    · exact .inr (if_neg hlt).symm
  unfold insertEdge
  dsimp only
  generalize (if x < other then x else other) = src at hends ⊢
  generalize (if x < other then other else x) = dst at hends ⊢
  refine Prog.keeps_bind (Q := fun _ s => Extracted an bytes s₀ t x s.db)
    (Prog.keeps_exec Moves.refl fun s₁ hmove i _ new s₂ hok => ?_) fun new s₁ hs₁ => ?_
  · have hs₁ := hs.mono hmove.1
    split at hok
    · next hlt =>
      cases hok
      refine ⟨⟨List.Subset.refl _, fun hall => hall.addEdge fun hread => ?_⟩, hs₁⟩
      refine ⟨⟨Nat.ne_of_lt hlt, hx ▸ hends⟩, hx ▸ hs₁, ?_, hpos, ?_⟩
      · rw [hread]
        exact hrows
      · rw [hread, hx]
        exact hcov
    · cases hok
  · split
    · refine Prog.keeps_bind (lift_quiet ((unionGroups_inGroups _ _).mono (fun _ h => h) ?_) hs₁)
        fun _ _ hs₂ => hs₂
      rintro _ d d' ⟨g, m, o, rfl⟩
      exact ⟨rfl, rfl⟩
    · exact hs₁

/-- The comparison with one other artifact. -/
theorem linkSemantic_keeps {Ok : Pt → Env → EvidenceDb → Prop} {cfg : Config}
    {build : MatchReport → EdgeEvidence} (hbuild : ∀ cov, (build cov).analysed = x ∧
      (build cov).coverageAToB = cov.aToB ∧ (build cov).coverageBToA = cov.bToA ∧
      (build cov).matchedPairs = cov.matchedPairs) (n : ℕ) (other : Uuid)
    (hs : Extracted cfg.suppressing.analyzer bytes s₀ t x s.db) :
    (linkSemantic t x cls (cfg.suppressing.analyzer.scoring
      (freshOf cfg.suppressing.analyzer bytes s₀ t x)) build n other).Keeps
        (Moves cfg.suppressing.analyzer bytes s₀) Ok
        (fun _ s => Extracted cfg.suppressing.analyzer bytes s₀ t x s.db) s := by
  unfold linkSemantic
  refine Prog.keeps_query_bind Moves.refl fun s₁ hmove₁ _ _ => ?_
  have hs₁ := hs.mono hmove₁.1
  split
  · exact hs₁
  refine Prog.keeps_query_bind Moves.refl fun s₂ hmove₂ _ _ => ?_
  have hs₂ := hs₁.mono hmove₂.1
  rw [Suppress.partition_eq]
  dsimp only
  split
  · exact hs₂
  · next ty hty =>
    obtain ⟨hx, hab, hba, hm⟩ := hbuild (coverageWithTau _ _ matchTau)
    refine Prog.keeps_bind (insertEdge_keeps hx (loadFunctions_distinct s₂.db t other) ?_ ?_ hs₂)
      fun _ _ hs₃ => hs₃
    · rw [hab, hba]
      exact coverage_pos hty
    · rw [hab, hba, hm]
      rfl

theorem semanticCandidates_keeps {Ok : Pt → Env → EvidenceDb → Prop} (scoring : List FunctionRow)
    (hs : Extracted an bytes s₀ t x s.db) :
    (semanticCandidates an t x scoring).Keeps (Moves an bytes s₀) Ok
      (fun _ s => Extracted an bytes s₀ t x s.db) s := by
  unfold semanticCandidates
  refine Prog.keeps_query_bind Moves.refl fun s₁ hmove₁ _ _ => ?_
  have hs₁ := hs.mono hmove₁.1
  refine Prog.keeps_bind (lift_quiet (K := fun _ => True) (E := True) ?_ hs₁) fun ids s₂ hs₂ => ?_
  · split
    · exact functionCandidates_sameLinks _
    · trivial
  · split
    · exact Prog.keeps_query_bind Moves.refl fun s₃ hmove₃ _ _ => hs₂.mono hmove₃.1
    · exact hs₂

/-- Every statement of the analysis keeps what holds of the evidence. -/
theorem analyzeAndLink_keeps {Ok : Pt → Env → EvidenceDb → Prop} (cfg : Config)
    (fmt : EvidenceFormat) (hrow : (s₀.artifactById t x).map Artifact.artifactClass = some cls)
    (s : EvidenceDb) : (analyzeAndLink cfg.suppressing fmt t x cls (bytes t x)).Keeps
      (Moves cfg.suppressing.analyzer bytes s₀) Ok (fun _ _ => True) s := by
  unfold analyzeAndLink
  split
  · trivial
  refine Prog.keeps_bind
    (lift_keeps (extractAndStore_sameEdges _ _ _) (extractAndStore_keeps hrow s.db)) ?_
  rintro ⟨functions, limitation⟩ s₁ ⟨rfl, hs₁⟩
  refine Prog.keeps_bind (lift_quiet (persistReceipt_sameLinks _) hs₁) fun _ s₂ hs₂ => ?_
  split
  · trivial
  rw [Suppress.partition_eq]
  refine Prog.keeps_bind (lift_quiet (storeFeature_sameLinks _ _) hs₂) fun _ s₃ hs₃ => ?_
  split
  · trivial
  refine Prog.keeps_bind (semanticCandidates_keeps _ hs₃) ?_
  rintro ⟨others, source⟩ s₄ hs₄
  refine Prog.keeps_bind (Q := fun _ s => Extracted cfg.suppressing.analyzer bytes s₀ t x s.db)
    (Prog.keeps_loop (fun n other s hs => ?_) others 0 s₄ hs₄) fun edges s₅ hs₅ => ?_
  · refine linkSemantic_keeps ?_ n other hs
    exact fun cov => ⟨rfl, rfl, rfl, rfl⟩
  exact Prog.keeps_bind (lift_quiet (persistReceipt_sameLinks _) hs₅) fun _ _ _ => trivial

end EvidenceDb

end Statements

/-! ### The view -/

/-- The view reports the stored evidence, in the orientation it was asked in. -/
def PairEvidence.Explains (r : PairEvidence) (ev : EdgeEvidence) : Prop :=
  r.matchedPairs = ev.matchedPairs ∧
    if r.artifactA = ev.analysed then
      r.coverageAToB = ev.coverageAToB ∧ r.coverageBToA = ev.coverageBToA
    else r.coverageAToB = ev.coverageBToA ∧ r.coverageBToA = ev.coverageAToB

instance (r : PairEvidence) (ev : EdgeEvidence) : Decidable (r.Explains ev) :=
  inferInstanceAs (Decidable (r.matchedPairs = ev.matchedPairs ∧
    if r.artifactA = ev.analysed then
      r.coverageAToB = ev.coverageAToB ∧ r.coverageBToA = ev.coverageBToA
    else r.coverageAToB = ev.coverageBToA ∧ r.coverageBToA = ev.coverageAToB))

/-- The function rows are those the edge was scored with.  The rows of the artifact that was
analysed were all stored before, and none is ever changed; those of the other artifact may have
been stored since. -/
def EvidenceDb.RowsUnchanged (s : EvidenceDb) (e : Edge) (ev : EdgeEvidence) : Prop :=
  s.db.loadFunctions e.tenant (e.other ev.analysed) = s.rowsRead e.key

/-- `analyze_and_link` on an artifact, with the evidence of its edges. -/
def linkWithEvidence (cfg : Config) (fmt : EvidenceFormat) (bytes : Uuid → Uuid → Bytes) (s : Db)
    (a : s.Stored) : Prog Pt EvidenceDb Env Error ℕ :=
  EvidenceDb.analyzeAndLink cfg fmt a.1.tenant a.1.id a.1.artifactClass (bytes a.1.tenant a.1.id)

/-- The store before any analysis. -/
def EvidenceDb.start (s : Db) : EvidenceDb := ⟨s, fun _ => none, fun _ => []⟩

theorem evidence_of_returns {fmt : EvidenceFormat} {t a b : Uuid} {n k : ℕ} {s s' : Db}
    {ls : List Pt} {r : PairEvidence}
    (h : Prog.Returns (functionPairEvidence fmt t a b n k) s ls r s') :
    r = pairEvidence fmt t a b n k (s.loadFunctions t a) (s.loadFunctions t b) := by
  obtain ⟨-, hr⟩ := Prog.wp_returns h (wp_functionPairEvidence fmt t a b n k s)
  unfold boundedEvidence at hr
  split at hr
  · cases hr
  · exact Except.ok.inj hr

section Run

variable {cfg : Config} {fmt : EvidenceFormat} {bytes : Uuid → Uuid → Bytes} {s₀ : Db}
  {h : Pool.Hist s₀.Stored Pt EvidenceDb Env Error ℕ}
  {p : Pool s₀.Stored Pt EvidenceDb Env Error ℕ}

theorem allScored_of_reach (hs₀ : NoSemantics s₀)
    (hr : Pool.Reach (linkWithEvidence cfg.suppressing fmt bytes s₀) (.start s₀) h p) :
    p.store.AllScored cfg.suppressing.analyzer bytes s₀ := by
  have hstart : (EvidenceDb.start s₀).AllScored cfg.suppressing.analyzer bytes s₀ := by
    intro e he hty
    rw [hs₀.edges e he] at hty
    cases hty
  have hok : ∀ e ∈ h, Pool.StepOk (fun (_ : s₀.Stored) (_ : Pt) (_ : Env) (_ : EvidenceDb) => True)
      e.1 e.2 := fun e _ => .of_forall (fun _ _ _ _ => trivial) e.1 e.2
  refine (hr.kept (R := EvidenceDb.Moves cfg.suppressing.analyzer bytes s₀)
    (Q := fun _ _ _ => True) (fun _ => ⟨List.Subset.refl _, id⟩)
    (fun _ _ _ h h' => ⟨List.Subset.trans h.1 h'.1, fun hs => h'.2 (h.2 hs)⟩)
    (fun a s _ => ?_) hok).2 hstart
  refine EvidenceDb.analyzeAndLink_keeps cfg fmt ?_ s
  rw [a.2]
  rfl

/-- Without the column the history is one of `Corpus.Analysis`, whose rows are those of the
files. -/
theorem mem_fresh_of_reach (hs₀ : NoSemantics s₀)
    (hr : Pool.Reach (linkWithEvidence cfg.suppressing fmt bytes s₀) (.start s₀) h p) {t x : Uuid}
    {f : FunctionRow} (hf : f ∈ p.store.db.loadFunctions t x) :
    f ∈ freshOf cfg.suppressing.analyzer bytes s₀ t x := by
  have hbody : ∀ a, (linkWithEvidence cfg.suppressing fmt bytes s₀ a).Erases EvidenceDb.db (· = ·)
      (linkStored cfg.suppressing bytes s₀ a) :=
    fun a => EvidenceDb.analyzeAndLink_erases cfg fmt _ _ _ _
  obtain ⟨h', q, hq, herase⟩ := hr.erase hbody
  have hlinks : LinksOk cfg.suppressing.analyzer bytes s₀ False q.store :=
    links_kept False rfl hs₀ hq fun e _ => .of_forall (fun _ _ _ _ hP => hP.elim) e.1 e.2
  rw [herase.store] at hf
  exact hlinks.mem_fresh hf

end Run

/-- **The view explains a stored edge exactly when nothing is suppressed.**  For every semantic
edge of any history, with its rows unchanged: if the functions of the file that was analysed have
distinct offsets, the view reports the stored evidence exactly when no stored function of either
artifact is suppressed. -/
theorem explains_iff (cfg : Config) (fmt : EvidenceFormat) (bytes : Uuid → Uuid → Bytes) (s₀ : Db)
    (hs₀ : NoSemantics s₀) (h : Pool.Hist s₀.Stored Pt EvidenceDb Env Error ℕ)
    (p : Pool s₀.Stored Pt EvidenceDb Env Error ℕ)
    (hr : Pool.Reach (linkWithEvidence cfg.suppressing fmt bytes s₀) (.start s₀) h p) :
    ∀ e ∈ p.store.db.sim.edges.rows, e.edgeType.semantic → ∃ ev,
      p.store.evidence e.key = some ev ∧ (ev.analysed = e.src ∨ ev.analysed = e.dst) ∧
      (p.store.RowsUnchanged e ev →
        DistinctOffsets (freshOf cfg.suppressing.analyzer bytes s₀ e.tenant ev.analysed) →
        ∀ a b, a = e.src ∧ b = e.dst ∨ a = e.dst ∧ b = e.src → ∀ n k ls r s',
          Prog.Returns (functionPairEvidence fmt e.tenant a b n k) p.store.db ls r s' →
          (r.Explains ev ↔ ∀ f ∈ p.store.db.loadFunctions e.tenant a ++
            p.store.db.loadFunctions e.tenant b, (Suppress.decide f).suppressed = false)) := by
  intro e he hty
  obtain ⟨ev, hget, hsc⟩ := allScored_of_reach hs₀ hr e he hty
  refine ⟨ev, hget, hsc.ends.2, fun hrows hdistinct => ?_⟩
  have hperm := loadFunctions_perm (fun f => mem_fresh_of_reach hs₀ hr) hsc.extracted hdistinct
  have hother := loadFunctions_distinct p.store.db e.tenant (e.other ev.analysed)
  have hload := loadFunctions_distinct p.store.db e.tenant ev.analysed
  -- the view matches the functions of the file with the rows that were read
  have hcov : coverage (p.store.db.loadFunctions e.tenant ev.analysed)
      (p.store.db.loadFunctions e.tenant (e.other ev.analysed)) =
        ⟨ev.coverageAToB, ev.coverageBToA, ev.matchedPairs⟩ ↔
      ∀ f ∈ p.store.db.loadFunctions e.tenant ev.analysed ++
        p.store.db.loadFunctions e.tenant (e.other ev.analysed),
          (Suppress.decide f).suppressed = false := by
    have hpos := hsc.pos
    rw [hrows, coverage_perm hdistinct hsc.distinct hperm (List.Perm.refl _), ← hsc.coverage,
      coverage_scoring_iff (by rw [hsc.coverage]; exact hpos.1) (by rw [hsc.coverage]; exact hpos.2)]
    rw [List.forall_mem_append, List.forall_mem_append]
    exact and_congr_left fun _ => ⟨fun h f hf => h f (hperm.mem_iff.mp hf),
      fun h f hf => h f (hperm.mem_iff.mpr hf)⟩
  have hab : ∀ a b, a = e.src ∧ b = e.dst ∨ a = e.dst ∧ b = e.src →
      (a = ev.analysed ∧ b = e.other ev.analysed) ∨
        (a ≠ ev.analysed ∧ a = e.other ev.analysed ∧ b = ev.analysed) := by
    have hne := hsc.ends.1
    unfold Edge.other
    rcases hsc.ends.2 with hx | hx
    · rw [hx, if_pos rfl]
      rintro a b (⟨rfl, rfl⟩ | ⟨rfl, rfl⟩)
      · exact .inl ⟨rfl, rfl⟩
      · exact .inr ⟨hne.symm, rfl, rfl⟩
    · rw [hx, if_neg hne]
      rintro a b (⟨rfl, rfl⟩ | ⟨rfl, rfl⟩)
      · exact .inr ⟨hne, rfl, rfl⟩
      · exact .inl ⟨rfl, rfl⟩
  intro a b hends n k ls r s' hret
  obtain rfl := evidence_of_returns hret
  rcases hab a b hends with ⟨rfl, rfl⟩ | ⟨hne, rfl, rfl⟩
  · rw [← hcov, Coverage.eq_mk_iff]
    exact and_congr_right fun _ => iff_of_eq (if_pos rfl)
  · have hswap := coverage_swap hload hother
    rw [List.forall_mem_append, and_comm, ← List.forall_mem_append, ← hcov, Coverage.eq_mk_iff]
    refine and_congr (iff_of_eq (congrArg (·.matchedPairs = _) hswap)) ?_
    refine (iff_of_eq (if_neg hne)).trans (and_comm.trans (and_congr ?_ ?_))
    · exact iff_of_eq (congrArg (·.bToA = _) hswap)
    · exact iff_of_eq (congrArg (·.aToB = _) hswap)

/-! ### A function of the runtime -/

def ownFunctions : List FunctionRow :=
  [⟨0, 8, some "parse", 20, [1]⟩, ⟨16, 8, some "emit", 20, [2]⟩, ⟨32, 8, none, 20, [3]⟩]

/-- Files with three functions; the one that starts with the byte 1 also has a `memcpy`. -/
def Config.runtime : Config :=
  { Config.plain with analyzer := { Config.plain.analyzer with
      isSignificant := fun _ => true
      functionsFor := fun _ bytes => [⟨1, if bytes.head? = some 1 then
        ownFunctions ++ [⟨48, 8, some "MemCpy", 20, [4]⟩] else ownFunctions⟩] } }

/-- Answers that are never too large. -/
def EvidenceFormat.small : EvidenceFormat := ⟨"model", fun _ => 0⟩

/-- The three files, one after another. -/
def linkAll : List (Act threeFiles.Stored Env) :=
  let exec (n k : ℕ) : List (Act threeFiles.Stored Env) := List.replicate k (.exec n (.drawing 9))
  .spawn ⟨peArtifact 1, stored_one⟩ :: exec 0 12 ++
    .spawn ⟨peArtifact 2, stored_two⟩ :: exec 1 19 ++
    .spawn ⟨peArtifact 3, stored_three⟩ :: exec 2 23

theorem functionPairEvidence_returns (fmt : EvidenceFormat)
    (hfit : ∀ body, fmt.jsonLength body ≤ maxResponseBytes) (t a b : Uuid) (n k : ℕ) (s : Db) :
    ∃ ls, Prog.Returns (functionPairEvidence fmt t a b n k) s ls
      (pairEvidence fmt t a b n k (s.loadFunctions t a) (s.loadFunctions t b)) s := by
  have hbody : boundedEvidence fmt (pairEvidence fmt t a b n k (s.loadFunctions t a)
      (s.loadFunctions t b)) = .ok (pairEvidence fmt t a b n k (s.loadFunctions t a)
        (s.loadFunctions t b)) := if_neg (Nat.not_lt.mpr (hfit _))
  simp only [functionPairEvidence, Prog.query_bind]
  refine ⟨[.sim (.analyze t a), .sim (.analyze t b)],
    .head _ _ _ s (.drawing 0) (.head _ _ _ s (.drawing 0) ?_)⟩
  rw [hbody]
  exact .refl _ _

/-- The last two files have nothing that is suppressed: the view explains their edge. -/
theorem explains_iff_second : ∃ h p e ev r,
    Pool.Reach (linkWithEvidence Config.runtime.suppressing .small byteOf threeFiles)
      (.start threeFiles) h p ∧
    (e ∈ p.store.db.sim.edges.rows ∧ e.edgeType.semantic ∧ p.store.evidence e.key = some ev) ∧
    (∃ ls s', Prog.Returns (functionPairEvidence .small 0 2 3 64 64) p.store.db ls r s') ∧
    r.Explains ev := by
  obtain ⟨h, p, hr, hchk⟩ := Pool.exists_reach
    (linkWithEvidence Config.runtime.suppressing .small byteOf threeFiles) (.start threeFiles) linkAll
    (fun _ p => p.store.db.sim.edges.rows.any fun e => e.tenant = 0 && e.src = 2 && e.dst = 3 &&
      e.edgeType.semantic && ((p.store.evidence e.key).all fun ev =>
        p.store.db.loadFunctions e.tenant (e.other ev.analysed) = p.store.rowsRead e.key) &&
      (p.store.db.loadFunctions 0 2 ++ p.store.db.loadFunctions 0 3).all fun f =>
        !(Suppress.decide f).suppressed) (by decide +kernel)
  simp only [Bool.and_eq_true, List.any_eq_true, List.all_eq_true, decide_eq_true_eq,
    Bool.not_eq_true'] at hchk
  obtain ⟨⟨t, src, dst, ty, v, score, at'⟩, he, ⟨⟨⟨⟨ht, hsrc⟩, hdst⟩, hty⟩, hrows⟩, hkept⟩ := hchk
  obtain ⟨rfl, rfl, rfl⟩ : t = 0 ∧ src = 2 ∧ dst = 3 := ⟨ht, hsrc, hdst⟩
  obtain ⟨ev, hget, hends, hexplains⟩ := explains_iff Config.runtime .small byteOf threeFiles
    noSemantics_threeFiles h p hr _ he hty
  rw [hget, Option.all_some, decide_eq_true_eq] at hrows
  have hdistinct : ∀ x ∈ [2, 3], DistinctOffsets (freshOf Config.runtime.suppressing.analyzer byteOf
    threeFiles 0 x) := by decide +kernel
  have hmem : ev.analysed ∈ [2, 3] := by simpa using hends
  obtain ⟨ls, hret⟩ := functionPairEvidence_returns .small (fun _ => Nat.zero_le _) 0 2 3
    64 64 p.store.db
  exact ⟨h, p, _, ev, _, hr, ⟨he, hty, hget⟩, ⟨ls, _, hret⟩,
    (hexplains hrows (hdistinct _ hmem) 2 3 (.inl ⟨rfl, rfl⟩) 64 64 ls _ _ hret).mpr hkept⟩

/-- The first file has a function of the runtime: the view counts it. -/
theorem runtime_not_explained : ∃ h p e ev r,
    Pool.Reach (linkWithEvidence Config.runtime.suppressing .small byteOf threeFiles)
      (.start threeFiles) h p ∧
    (e ∈ p.store.db.sim.edges.rows ∧ e.edgeType.semantic ∧ p.store.evidence e.key = some ev ∧
      p.store.RowsUnchanged e ev) ∧
    (∃ ls s', Prog.Returns (functionPairEvidence .small e.tenant e.src e.dst 64 64) p.store.db ls r
      s') ∧
    ¬ r.Explains ev := by
  obtain ⟨h, p, hr, hchk⟩ := Pool.exists_reach
    (linkWithEvidence Config.runtime.suppressing .small byteOf threeFiles) (.start threeFiles) linkAll
    (fun _ p => p.store.db.sim.edges.rows.any fun e => e.edgeType.semantic &&
      (p.store.evidence e.key).any fun ev =>
        p.store.db.loadFunctions e.tenant (e.other ev.analysed) = p.store.rowsRead e.key &&
        !decide ((pairEvidence .small e.tenant e.src e.dst 64 64 (p.store.db.loadFunctions e.tenant
          e.src) (p.store.db.loadFunctions e.tenant e.dst)).Explains ev)) (by decide +kernel)
  simp only [Bool.and_eq_true, List.any_eq_true, Option.any_eq_true, decide_eq_true_eq,
    Bool.not_eq_true', decide_eq_false_iff_not] at hchk
  obtain ⟨e, he, hty, ev, hget, hrows, hnot⟩ := hchk
  obtain ⟨ls, hret⟩ := functionPairEvidence_returns .small (fun _ => Nat.zero_le _) e.tenant
    e.src e.dst 64 64 p.store.db
  exact ⟨h, p, e, ev, _, hr, ⟨he, hty, hget, hrows⟩, ⟨ls, _, hret⟩, hnot⟩

end Corpus
