/-
The byte index against the scan of a class (`similarity/lsh.rs`, `similarity/edges.rs`).

`fuzzy_candidates` looks up the bands of a digest, and scans the artifacts of the class only
when no band has any other artifact.  A band is the block size, a position and the three
characters there; `compare` also scores digests whose halves agree at other positions, or
whose block sizes differ by a factor of two.

* `analyzeWith` — the analysis, for any way to find candidates;
* `wp_analyzeWith` — the byte-similar edges that it inserts;
* `byte_index_exact_iff` — the index inserts what the scan inserts exactly when the two have
  the same artifacts among those that are newly linked, or when no band is met.
-/
import Corpus.CandidateIndex
import Corpus.Fuzzy

namespace Corpus

/-- With the digests, bands and scores of `fuzzy.rs` and `lsh.rs`. -/
def Config.fuzzy (cfg : Config) : Config :=
  { cfg with analyzer := { cfg.analyzer with
      extract := fun bytes => { cfg.analyzer.extract bytes with
        sizeBytes := bytes.length
        ssdeep := Fuzzy.fuzzyHash bytes }
      bandKeys := Fuzzy.bandKeys
      fuzzyCompare := Fuzzy.compare } }

/-! ### The analysis with other candidates -/

/-- `analyze_artifact`, when the candidates of layers 2 and 3 are found by `candidates`. -/
def analyzeWith (candidates : String → Srv (List (Uuid × String × ℚ))) (cfg : Config) (t x : Uuid)
    (cls : ArtifactClass) (bytes : Bytes) : Srv ℕ := do
  let f := cfg.analyzer.extract bytes
  storeFeatures t x f
  storeBands cfg.analyzer t x f.ssdeep
  let n ← linkNormalizedAll t x cls f.normalized 0
  let bucket ← candidates f.ssdeep
  let n ← Prog.loop (linkFuzzy cfg.analyzer t x f) bucket n
  let _ ← analyzeAndLink cfg t x cls bytes
  match f.compilerHint with
  | none => return n
  | some hint => do
    let candidates ← Prog.query (.sim (.analyze t x)) fun s => s.sameHint t x hint
    Prog.loop (linkProvenance t x) candidates n

/-- The analysis as it is. -/
theorem analyzeWith_fuzzyCandidates (cfg : Config) (t x : Uuid) (cls : ArtifactClass)
    (bytes : Bytes) : analyzeWith (fuzzyCandidates cfg.analyzer t x cls) cfg t x cls bytes =
      analyzeArtifact cfg t x cls bytes := rfl

/-- The candidates, were there no index: the artifacts of the class. -/
def scanClass (t x : Uuid) (cls : ArtifactClass) (_ : String) : Srv (List (Uuid × String × ℚ)) :=
  Prog.query (.sim (.analyze t x)) fun s => s.classScan t x cls

/-- The analysis that compares the artifacts of the class. -/
def scanAndAnalyze (cfg : Config) (t x : Uuid) (cls : ArtifactClass) (bytes : Bytes) : Srv ℕ :=
  analyzeWith (scanClass t x cls) cfg t x cls bytes

/-! ### Candidates -/

namespace Db

/-- What the bands of a digest have, one band after another. -/
def byteMeets (s : Db) (an : Analyzer) (t x : Uuid) (ssdeep : String) : List Uuid :=
  (an.bandKeys ssdeep).flatMap fun key => s.inBand t x key.1 key.2

/-- The digest of an artifact, if it is of the class. -/
def digestRow (s : Db) (t : Uuid) (cls : ArtifactClass) (o : Uuid) : Option (Uuid × String × ℚ) :=
  match s.ssdeepOf t o, s.artifactById t o with
  | some d, some a => if a.artifactClass = cls then some (o, d.1, d.2) else none
  | _, _ => none

/-- The candidates of the index; when no band has any, those of the scan. -/
def byteCandidates (s : Db) (an : Analyzer) (t x : Uuid) (cls : ArtifactClass) (ssdeep : String) :
    List (Uuid × String × ℚ) :=
  let ids := pushCandidates candidateCap [] (s.byteMeets an t x ssdeep)
  if ids.isEmpty then s.classScan t x cls else ids.filterMap (s.digestRow t cls)

/-- The artifact is of the class. -/
def OfClass (s : Db) (t : Uuid) (cls : ArtifactClass) (o : Uuid) : Prop :=
  (s.artifactById t o).map Artifact.artifactClass = some cls

/-- The scan of the class has the artifact: a row of the class that is not empty. -/
def Scanned (s : Db) (t : Uuid) (cls : ArtifactClass) (o : Uuid) : Prop :=
  ∃ a ∈ s.ingest.artifacts.rows, a.tenant = t ∧ a.id = o ∧ a.artifactClass = cls ∧ 0 < a.sizeBytes

/-- The score of the byte-similar edge with an artifact, if there is to be one. -/
def byteLink (s : Db) (an : Analyzer) (t : Uuid) (f : ExtractedFeatures) (o : Uuid) : Option ℤ :=
  (s.artifactById t o).bind fun a => (s.ssdeepOf t o).bind fun d =>
    byteSimilar an f a.sizeBytes.toNat d.1 d.2

end Db

/-- The digests and bands of the other artifacts, the artifacts and the byte-similar edges are
as before. -/
structure SameBytes (t x : Uuid) (s s' : Db) : Prop where
  artifacts : s'.ingest.artifacts = s.ingest.artifacts
  digests : ∀ o, o ≠ x → s'.ssdeepOf t o = s.ssdeepOf t o
  bands : ∀ idx key, s'.inBand t x idx key = s.inBand t x idx key
  edges : ∀ k : EdgeKey, k.2.2.2.1 = .byteSimilar → s'.sim.edges.get k = s.sim.edges.get k

section Others

variable {an : Analyzer} {t x o : Uuid} {cls : ArtifactClass} {f : ExtractedFeatures}
  {s s' : Db} {ssdeep : String}

theorem SameBytes.refl (s : Db) : SameBytes t x s s :=
  ⟨rfl, fun _ _ => rfl, fun _ _ => rfl, fun _ _ => rfl⟩

theorem SameBytes.trans {s'' : Db} (h : SameBytes t x s s') (h' : SameBytes t x s' s'') :
    SameBytes t x s s'' :=
  ⟨h'.artifacts.trans h.artifacts, fun o ho => (h'.digests o ho).trans (h.digests o ho),
    fun i k => (h'.bands i k).trans (h.bands i k), fun k hk => (h'.edges k hk).trans (h.edges k hk)⟩

/-- A step on other tables. -/
theorem SameBytes.frame {s'' : Db} (h : SameBytes t x s s')
    (ha : s''.ingest.artifacts = s'.ingest.artifacts) (hf : s''.sim.features = s'.sim.features)
    (hb : s''.sim.lshBands = s'.sim.lshBands) (he : s''.sim.edges = s'.sim.edges) :
    SameBytes t x s s'' := by
  refine h.trans ⟨ha, fun o _ => ?_, fun i k => ?_, fun k _ => by rw [he]⟩
  · unfold Db.ssdeepOf
    rw [hf]
  · unfold Db.inBand
    rw [hb]

theorem SameBytes.byteMeets (h : SameBytes t x s s') :
    s'.byteMeets an t x ssdeep = s.byteMeets an t x ssdeep := by
  unfold Db.byteMeets
  simp only [h.bands]

theorem SameBytes.digestRow (h : SameBytes t x s s') (ho : o ≠ x) :
    s'.digestRow t cls o = s.digestRow t cls o := by
  unfold Db.digestRow
  rw [h.digests o ho, artifactById_congr h.artifacts]

theorem SameBytes.classScan (h : SameBytes t x s s') : s'.classScan t x cls = s.classScan t x cls := by
  unfold Db.classScan
  rw [h.artifacts]
  refine List.filterMap_congr fun a ha => ?_
  have hsel := (List.mem_filter.mp ha).2
  simp only [Bool.and_eq_true, decide_eq_true_eq] at hsel
  rw [h.digests a.id hsel.1.2]

theorem SameBytes.hasEdge {k : EdgeKey} {score : ℚ} (h : SameBytes t x s s')
    (hk : k.2.2.2.1 = .byteSimilar) : s'.HasEdge k score ↔ s.HasEdge k score := by
  unfold Db.HasEdge
  rw [h.edges k hk]

theorem byteLink_eq_some {d : String × ℚ} {n : ℤ} (hd : s.ssdeepOf t o = some d) :
    s.byteLink an t f o = some n ↔ ∃ a, s.artifactById t o = some a ∧
      byteSimilar an f a.sizeBytes.toNat d.1 d.2 = some n := by
  unfold Db.byteLink
  rw [Option.bind_eq_some_iff]
  simp only [hd, Option.bind_some]

theorem exists_ssdeepOf_of_byteLink {n : ℤ} (h : s.byteLink an t f o = some n) :
    ∃ d, s.ssdeepOf t o = some d := by
  obtain ⟨a, _, h⟩ := Option.bind_eq_some_iff.mp h
  obtain ⟨d, hd, _⟩ := Option.bind_eq_some_iff.mp h
  exact ⟨d, hd⟩

theorem mem_inBand_ne {idx : ℕ} {key : String} (h : o ∈ s.inBand t x idx key) : o ≠ x := by
  obtain ⟨r, hr, rfl⟩ := List.mem_map.mp (List.mem_of_mem_take h)
  have hsel := (List.mem_filter.mp hr).2
  simp only [Bool.and_eq_true, decide_eq_true_eq] at hsel
  exact hsel.2

theorem ne_of_met {cap : ℕ} (h : Met cap (s.byteMeets an t x ssdeep) o) : o ≠ x := by
  obtain ⟨key, _, ho⟩ := List.mem_flatMap.mp h.mem
  exact mem_inBand_ne ho

theorem ne_of_mem_pushCandidates
    (h : o ∈ pushCandidates candidateCap [] (s.byteMeets an t x ssdeep)) : o ≠ x :=
  ne_of_met (mem_pushCandidates.mp h)

theorem SameBytes.byteCandidates (h : SameBytes t x s s') :
    s'.byteCandidates an t x cls ssdeep = s.byteCandidates an t x cls ssdeep := by
  unfold Db.byteCandidates
  rw [h.byteMeets, h.classScan]
  dsimp only
  split
  · rfl
  · exact List.filterMap_congr fun o ho => h.digestRow (ne_of_mem_pushCandidates ho)

/-- Without rows of the tenant no band has anything. -/
theorem byteMeets_of_cold (h : (s.sim.lshBands.rows.any fun r => r.tenant = t) = false) :
    s.byteMeets an t x ssdeep = [] := by
  refine List.flatMap_eq_nil_iff.mpr fun key _ => ?_
  have hnone : (s.sim.lshBands.rows.filter fun r => r.tenant = t && r.bandIdx = key.1 &&
      r.bandKey = key.2 && r.artifactId ≠ x) = [] := by
    refine List.filter_eq_nil_iff.mpr fun r hr hsel => ?_
    simp only [Bool.and_eq_true] at hsel
    exact List.any_eq_false.mp h r hr hsel.1.1.1
  unfold Db.inBand
  rw [hnone]
  rfl

theorem digestRow_eq_some {c : Uuid × String × ℚ} : s.digestRow t cls o = some c ↔
    s.OfClass t cls o ∧ ∃ d, s.ssdeepOf t o = some d ∧ c = (o, d) := by
  unfold Db.digestRow Db.OfClass
  cases s.ssdeepOf t o with
  | none => simp
  | some d =>
    cases s.artifactById t o with
    | none => simp
    | some a =>
      simp only [Option.map_some, Option.some.injEq]
      split
      · next hcls => simp [hcls, eq_comm]
      · next hcls => simp [hcls]

theorem mem_classScan {c : Uuid × String × ℚ} : c ∈ s.classScan t x cls ↔
    s.Scanned t cls c.1 ∧ c.1 ≠ x ∧ s.ssdeepOf t c.1 = some c.2 := by
  unfold Db.classScan Db.Scanned
  simp only [List.mem_filterMap, List.mem_filter, Bool.and_eq_true, decide_eq_true_eq,
    Option.map_eq_some_iff]
  constructor
  · rintro ⟨a, ⟨ha, ⟨⟨ht, hcls⟩, hne⟩, hsize⟩, d, hd, rfl⟩
    exact ⟨⟨a, ha, ht, rfl, hcls, hsize⟩, hne, hd⟩
  · rintro ⟨⟨a, ha, ht, hid, hcls, hsize⟩, hne, hd⟩
    rw [← hid] at hne hd
    exact ⟨a, ⟨ha, ⟨⟨ht, hcls⟩, hne⟩, hsize⟩, c.2, hd, Prod.ext hid rfl⟩

/-- The candidates that an analysis compares. -/
theorem mem_byteCandidates {c : Uuid × String × ℚ} : c ∈ s.byteCandidates an t x cls ssdeep ↔
    (if s.byteMeets an t x ssdeep = [] then s.Scanned t cls c.1
      else Met candidateCap (s.byteMeets an t x ssdeep) c.1 ∧ s.OfClass t cls c.1) ∧
      c.1 ≠ x ∧ s.ssdeepOf t c.1 = some c.2 := by
  unfold Db.byteCandidates
  dsimp only
  by_cases hids : s.byteMeets an t x ssdeep = []
  · rw [if_pos (List.isEmpty_iff.mpr ((pushCandidates_eq_nil (by decide)).mpr hids)), if_pos hids]
    exact mem_classScan
  · rw [if_neg fun h => hids ((pushCandidates_eq_nil (by decide)).mp (List.isEmpty_iff.mp h)),
      if_neg hids, List.mem_filterMap]
    constructor
    · rintro ⟨o, ho, hrow⟩
      obtain ⟨hcls, d, hd, rfl⟩ := digestRow_eq_some.mp hrow
      have hmet := mem_pushCandidates.mp ho
      exact ⟨⟨hmet, hcls⟩, ne_of_met hmet, hd⟩
    · rintro ⟨⟨hmet, hcls⟩, _, hd⟩
      exact ⟨c.1, mem_pushCandidates.mpr hmet, digestRow_eq_some.mpr ⟨hcls, c.2, hd, rfl⟩⟩

end Others

/-! ### Run alone -/

section Alone

variable {cfg : Config} {an : Analyzer} {t x o : Uuid} {cls : ArtifactClass} {bytes : Bytes}
  {f : ExtractedFeatures} {s s' : Db} {ssdeep : String}

theorem wp_digestsOf (ids : List Uuid) : ∀ out, (digestsOf t x cls ids out).wp (fun _ _ => True)
    (fun r s' => s' = s ∧ r = .ok (out ++ ids.filterMap (s.digestRow t cls))) s := by
  induction ids with
  | nil => exact fun out => ⟨rfl, by rw [List.filterMap_nil, List.append_nil]⟩
  | cons o ids ih =>
    intro out
    refine Prog.wp_bind ⟨trivial, fun _ => ?_⟩
    beta_reduce
    cases hd : s.ssdeepOf t o with
    | none =>
      have hrow : s.digestRow t cls o = none := by simp [Db.digestRow, hd]
      rw [List.filterMap_cons_none hrow]
      exact ih out
    | some d =>
      cases ha : s.artifactById t o with
      | none =>
        have hrow : s.digestRow t cls o = none := by simp [Db.digestRow, hd, ha]
        rw [List.filterMap_cons_none hrow]
        exact ih out
      | some a =>
        have hrow : s.digestRow t cls o = if a.artifactClass = cls then some (o, d.1, d.2) else none := by
          simp [Db.digestRow, hd, ha]
        show Prog.wp _ _ (if a.artifactClass = cls then _ else _) s
        by_cases hcls : a.artifactClass = cls
        · rw [if_pos hcls] at hrow ⊢
          rw [List.filterMap_cons_some hrow, List.append_cons]
          exact ih _
        · rw [if_neg hcls] at hrow ⊢
          rw [List.filterMap_cons_none hrow]
          exact ih out

theorem wp_fuzzyCandidates (s : Db) : (fuzzyCandidates an t x cls ssdeep).wp (fun _ _ => True)
    (fun r s' => s' = s ∧ r = .ok (s.byteCandidates an t x cls ssdeep)) s := by
  have hlast : ∀ ids, ids = pushCandidates candidateCap [] (s.byteMeets an t x ssdeep) →
      Prog.wp (fun _ _ => True) (fun r s' => s' = s ∧ r = .ok (s.byteCandidates an t x cls ssdeep))
        (if ids.isEmpty then Prog.query (.sim (.analyze t x)) fun s => s.classScan t x cls
          else digestsOf t x cls ids []) s := by
    rintro ids rfl
    unfold Db.byteCandidates
    dsimp only
    split
    · exact ⟨trivial, fun _ => ⟨rfl, rfl⟩⟩
    · exact wp_digestsOf _ []
  unfold fuzzyCandidates
  refine ⟨trivial, fun _ => ⟨trivial, fun _ => ?_⟩⟩
  beta_reduce
  cases hlive : s.sim.lshBands.rows.any fun r => r.tenant = t with
  | false =>
    refine hlast [] ?_
    rw [byteMeets_of_cold hlive]
    rfl
  | true =>
    show Prog.wp _ _ (lshCandidates an t x ssdeep >>= fun ids => if ids.isEmpty then _ else _) s
    refine Prog.wp_bind (Prog.wp_mono (fun _ _ h => h) (fun r s' hr => ?_)
      (wp_bandCandidates t x candidateCap (fun s k => s.inBand t x k.1 k.2) (an.bandKeys ssdeep) s []))
    obtain ⟨rfl, rfl⟩ := hr
    exact hlast _ rfl

theorem storeFeature_sameBytes (family : Family) (name version : String) (value : FeatureValue) :
    (storeFeature t x family name version value).Maintains (SameBytes t x s) fun _ => True := by
  refine Prog.maintains_update fun s' _ h =>
    h.trans ⟨rfl, fun o ho => ?_, fun _ _ => rfl, fun _ _ => rfl⟩
  have hne : Feature.key ⟨t, x, family, name, version, value⟩ ≠
      (t, o, .byte, "ssdeep", extractorVersion) :=
    fun heq => ho (Prod.mk.inj (Prod.mk.inj heq).2).1.symm
  show Option.bind ((s'.sim.features.insertNew _).get _) _ = _
  rw [Table.get_insertNew_of_ne hne]
  rfl

theorem storeBands_sameBytes (an : Analyzer) (ssdeep : String) :
    (storeBands an t x ssdeep).Maintains (SameBytes t x s) fun _ => True := by
  have hbands : ∀ (s' : Db) (bands : Table LshBand.key), SameBytes t x s s' →
      (∀ p : LshBand → Bool, (∀ r, r.artifactId = x → p r = false) →
        bands.rows.filter p = s'.sim.lshBands.rows.filter p) →
      SameBytes t x s { s' with sim := { s'.sim with lshBands := bands } } := by
    intro s' bands h hfilter
    refine h.trans ⟨rfl, fun _ _ => rfl, fun idx key => ?_, fun _ _ => rfl⟩
    unfold Db.inBand
    rw [hfilter]
    rintro r rfl
    simp
  refine Prog.maintains_bind (Prog.maintains_update fun s' _ h => hbands s' _ h fun p hp =>
    Table.filter_deleteWhere fun r hr => hp r ?_) fun _ _ =>
      Prog.maintains_loop (fun _ b _ => Prog.maintains_update fun s' _ h => hbands s' _ h fun p hp =>
        Table.filter_upsert fun r hr => hp r ?_) _ () trivial
  · simp only [Bool.and_eq_true, decide_eq_true_eq] at hr
    exact hr.2
  · exact (Prod.mk.inj (Prod.mk.inj hr).2).1

/-- An edge of another type. -/
theorem countEdge_sameBytes {n : ℕ} {other : Uuid} {ty : EdgeType} {score : ℚ}
    (hty : ty ≠ .byteSimilar) :
    (countEdge t x n other ty score).Maintains (SameBytes t x s) fun _ => True := by
  refine countEdge_maintains_of (fun src dst s' now _ _ h => ?_) ?_
  · refine h.trans ⟨rfl, fun _ _ => rfl, fun _ _ => rfl, fun k hk => ?_⟩
    refine Table.get_insertNew_of_ne fun heq => hty ?_
    rw [← hk, ← heq]
    rfl
  · rintro s₁ s₂ ⟨g, m, o, rfl⟩ hs
    exact hs.frame rfl rfl rfl rfl

theorem linkNormalizedAll_sameBytes (entries : List (String × String)) (n : ℕ) :
    (linkNormalizedAll t x cls entries n).Maintains (SameBytes t x s) fun _ => True := by
  refine Prog.maintains_loop (fun n feature _ => Prog.maintains_bind (Q := fun _ => True)
    (Prog.maintains_query fun _ _ => trivial) fun others _ =>
      Prog.maintains_loop (fun n other _ => Prog.maintains_bind (Q := fun _ => True)
        (Prog.maintains_query fun _ _ => trivial) fun otherClass _ => ?_) _ n trivial) entries n trivial
  split
  · trivial
  · exact countEdge_sameBytes (by decide)

/-- The semantic layer makes semantic edges. -/
theorem classify_semantic {c : Coverage} {ty : EdgeType}
    (h : classifySemanticEdge modelV1 c = some ty) : ty ≠ .byteSimilar := by
  rintro rfl
  unfold classifySemanticEdge at h
  split at h
  · cases h
  · split at h
    · cases h
    · cases h

theorem extractAndStore_sameBytes (an : Analyzer) (cls : ArtifactClass) (bytes : Bytes) :
    (extractAndStore an t x cls bytes).Maintains (SameBytes t x s) fun _ => True := by
  unfold extractAndStore
  refine Prog.maintains_bind (storeFeature_sameBytes _ _ _ _) fun _ _ => ?_
  split
  · exact Prog.maintains_bind (storeFeature_sameBytes _ _ _ _) fun _ _ => trivial
  · cases significantFunctions an (an.functionsFor cls bytes) ([], 0) with
    | error l => exact Prog.maintains_bind (storeFeature_sameBytes _ _ _ _) fun _ _ => trivial
    | ok found =>
      refine Prog.maintains_bind (Q := fun _ => True) (Prog.maintains_loop (fun _ f _ =>
        Prog.maintains_update fun _ _ h => h.frame rfl rfl rfl rfl) _ () trivial) fun _ _ => ?_
      refine Prog.maintains_bind (Q := fun _ => True) (Prog.maintains_bind
        (Prog.maintains_update fun _ _ h => h.frame rfl rfl rfl rfl) fun _ _ =>
          Prog.maintains_loop (fun _ f _ => Prog.maintains_update fun _ _ h =>
            h.frame rfl rfl rfl rfl) _ () trivial) fun _ _ => ?_
      exact Prog.maintains_bind (storeFeature_sameBytes _ _ _ _) fun _ _ => trivial

theorem linkSemantic_sameBytes (scoring : List FunctionRow) (n : ℕ) (other : Uuid) :
    (linkSemantic an t x cls scoring n other).Maintains (SameBytes t x s) fun _ => True := by
  refine Prog.maintains_bind (Q := fun _ => True) (Prog.maintains_query fun _ _ => trivial)
    fun otherClass _ => ?_
  split
  · trivial
  · refine Prog.maintains_bind (Q := fun _ => True) (Prog.maintains_query fun _ _ => trivial)
      fun functions _ => ?_
    dsimp only
    cases hty : classifySemanticEdge modelV1
        (an.coverage scoring (functions.filter fun f => !an.suppressed f)) with
    | none => trivial
    | some ty => exact countEdge_sameBytes (classify_semantic hty)

theorem analyzeAndLink_sameBytes (cfg : Config) (cls : ArtifactClass) (bytes : Bytes) :
    (analyzeAndLink cfg t x cls bytes).Maintains (SameBytes t x s) fun _ => True := by
  have hreceipt : ∀ r, (persistReceipt t x r).Maintains (SameBytes t x s) fun _ => True :=
    fun r => Prog.maintains_update fun _ _ h => h.frame rfl rfl rfl rfl
  unfold analyzeAndLink
  split
  · trivial
  refine Prog.maintains_bind (extractAndStore_sameBytes _ _ _) ?_
  rintro ⟨functions, limitation⟩ _
  refine Prog.maintains_bind (hreceipt _) fun _ _ => ?_
  split
  · trivial
  refine Prog.maintains_bind (storeFeature_sameBytes _ _ _ _) fun _ _ => ?_
  dsimp only
  split
  · trivial
  refine Prog.maintains_bind (semanticCandidates_maintains _) fun others _ => ?_
  refine Prog.maintains_bind (Q := fun _ => True) (Prog.maintains_loop
    (fun n other _ => linkSemantic_sameBytes _ n other) others 0 trivial) fun _ _ => ?_
  exact Prog.maintains_bind (hreceipt _) fun _ _ => trivial

/-- After the fuzzy layer, no more byte-similar edges. -/
theorem afterFuzzy_sameBytes (cfg : Config) (cls : ArtifactClass) (bytes : Bytes) (n : ℕ) :
    (analyzeAndLink cfg t x cls bytes >>= fun _ =>
      match (cfg.analyzer.extract bytes).compilerHint with
      | none => pure n
      | some hint => do
        let candidates ← Prog.query (.sim (.analyze t x)) fun s => s.sameHint t x hint
        Prog.loop (linkProvenance t x) candidates n).Maintains (SameBytes t x s) fun _ => True := by
  refine Prog.maintains_bind (analyzeAndLink_sameBytes cfg cls bytes) fun _ _ => ?_
  cases (cfg.analyzer.extract bytes).compilerHint with
  | none => trivial
  | some hint =>
    exact Prog.maintains_bind (Q := fun _ => True) (Prog.maintains_query fun _ _ => trivial)
      fun others _ => Prog.maintains_loop (fun n other _ => countEdge_sameBytes (by decide)) _ n trivial

/-- The edges of the fuzzy layer with the artifacts `others`. -/
def FuzzyLinks (an : Analyzer) (s : Db) (t x : Uuid) (f : ExtractedFeatures) (others : Set Uuid)
    (k : EdgeKey) (score : ℚ) : Prop :=
  ∃ o ∈ others, ∃ n : ℤ, s.byteLink an t f o = some n ∧ k = edgeKey t x o .byteSimilar ∧ score = n

/-- The edge with one candidate. -/
theorem wp_linkFuzzy (n : ℕ) (c : Uuid × String × ℚ) (h : EdgeFrame s s') :
    (linkFuzzy an t x f n c).wp (fun _ _ => True) (fun r s'' => ∀ m, r = .ok m →
      EdgeFrame s' s'' ∧ Grows (fun k score => ∃ a i, s.artifactById t c.1 = some a ∧
        byteSimilar an f a.sizeBytes.toNat c.2.1 c.2.2 = some i ∧
          k = edgeKey t x c.1 .byteSimilar ∧ score = i) s' s'') s' := by
  have hart : s'.artifactById t c.1 = s.artifactById t c.1 := by
    obtain ⟨e, g, m, o, rfl⟩ := h
    rfl
  refine ⟨trivial, fun _ => ?_⟩
  beta_reduce
  rw [hart]
  cases ha : s.artifactById t c.1 with
  | none =>
    intro m hm
    cases hm
  | some a =>
    dsimp only [Option.map_some, Prog.bind]
    cases hscore : byteSimilar an f a.sizeBytes.toNat c.2.1 c.2.2 with
    | none =>
      refine fun m _ => ⟨.refl s', (Grows.refl s').congr fun k score => ?_⟩
      refine iff_of_false id ?_
      rintro ⟨a', i, ha', hi, _⟩
      obtain rfl := Option.some.inj ha'
      rw [hscore] at hi
      cases hi
    | some i =>
      refine Prog.wp_mono (fun _ _ h => h) (fun r s'' hr m hm => ?_)
        (wp_countEdge t x n c.1 .byteSimilar i s')
      obtain ⟨hframe, hgrow⟩ := hr m hm
      refine ⟨hframe, hgrow.congr fun k score => ?_⟩
      constructor
      · rintro ⟨rfl, rfl⟩
        exact ⟨a, i, rfl, hscore, rfl, rfl⟩
      · rintro ⟨a', j, ha', hj, rfl, rfl⟩
        obtain rfl := Option.some.inj ha'
        obtain rfl := Option.some.inj (hscore.symm.trans hj)
        exact ⟨rfl, rfl⟩

/-- **The byte-similar edges that an analysis inserts**, run alone: those of its candidates. -/
theorem wp_analyzeWith {candidates : String → Srv (List (Uuid × String × ℚ))}
    {find : Db → String → List (Uuid × String × ℚ)}
    (hfind : ∀ ssdeep s, (candidates ssdeep).wp (fun _ _ => True)
      (fun r s' => s' = s ∧ r = .ok (find s ssdeep)) s)
    (hothers : ∀ ssdeep s', SameBytes t x s s' → find s' ssdeep = find s ssdeep)
    (hrow : ∀ ssdeep, ∀ c ∈ find s ssdeep, c.1 ≠ x ∧ s.ssdeepOf t c.1 = some c.2) :
    (analyzeWith candidates cfg t x cls bytes).wp (fun _ _ => True) (fun r s' => ∀ n, r = .ok n →
      ∀ k : EdgeKey, k.2.2.2.1 = .byteSimilar → ∀ score, s'.HasEdge k score ↔ s.HasEdge k score ∨
        s.sim.edges.get k = none ∧ FuzzyLinks cfg.analyzer s t x (cfg.analyzer.extract bytes)
          { o | ∃ c ∈ find s (cfg.analyzer.extract bytes).ssdeep, c.1 = o } k score) s := by
  have hbefore : (storeFeatures t x (cfg.analyzer.extract bytes) >>= fun _ =>
      storeBands cfg.analyzer t x (cfg.analyzer.extract bytes).ssdeep >>= fun _ =>
        linkNormalizedAll t x cls (cfg.analyzer.extract bytes).normalized 0).Maintains
          (SameBytes t x s) fun _ => True :=
    Prog.maintains_bind (Prog.maintains_loop (fun _ _ _ => storeFeature_sameBytes _ _ _ _) _ () trivial)
      fun _ _ => Prog.maintains_bind (storeBands_sameBytes _ _) fun _ _ =>
        linkNormalizedAll_sameBytes _ _
  have heq : analyzeWith candidates cfg t x cls bytes =
      ((storeFeatures t x (cfg.analyzer.extract bytes) >>= fun _ =>
        storeBands cfg.analyzer t x (cfg.analyzer.extract bytes).ssdeep >>= fun _ =>
          linkNormalizedAll t x cls (cfg.analyzer.extract bytes).normalized 0) >>= fun n =>
            candidates (cfg.analyzer.extract bytes).ssdeep >>= fun bucket =>
              Prog.loop (linkFuzzy cfg.analyzer t x (cfg.analyzer.extract bytes)) bucket n >>= fun n =>
                analyzeAndLink cfg t x cls bytes >>= fun _ =>
                  match (cfg.analyzer.extract bytes).compilerHint with
                  | none => pure n
                  | some hint => do
                    let candidates ← Prog.query (.sim (.analyze t x)) fun s => s.sameHint t x hint
                    Prog.loop (linkProvenance t x) candidates n) := by
    rw [Prog.bind_assoc']
    simp only [Prog.bind_assoc']
    rfl
  rw [heq]
  refine Prog.wp_bind (Prog.wp_mono (fun _ _ _ => trivial) (fun r s₁ hr => ?_) (hbefore.wp (.refl s)))
  obtain ⟨hs₁, _⟩ := hr
  cases r with
  | error e => exact fun _ => nofun
  | ok n₁ =>
    refine Prog.wp_bind (Prog.wp_mono (fun _ _ _ => trivial) (fun r s₂ hr => ?_)
      (hfind (cfg.analyzer.extract bytes).ssdeep s₁))
    obtain ⟨rfl, rfl⟩ := hr
    dsimp only
    rw [hothers _ _ hs₁]
    refine Prog.wp_bind (Prog.wp_mono (fun _ _ _ => trivial) (fun r s₃ hr => ?_)
      (wp_links (s := s₂) (fun n c s' hs' => wp_linkFuzzy n c hs') ?_ n₁ s₂ (.refl s₂)))
    · cases r with
      | error e => exact fun _ => nofun
      | ok n₃ =>
        obtain ⟨_, hgrow⟩ := hr n₃ rfl
        refine Prog.wp_mono (fun _ _ _ => trivial) (fun r s₄ hr n _ k hk score => ?_)
          ((afterFuzzy_sameBytes cfg cls bytes n₃).wp (.refl s₃))
        rw [hr.1.hasEdge hk, hgrow k score, hs₁.hasEdge hk, hs₁.edges k hk]
        refine or_congr_right (and_congr_right fun _ => ?_)
        constructor
        · rintro ⟨c, hc, a, i, ha, hi, rfl, rfl⟩
          rw [artifactById_congr hs₁.artifacts] at ha
          exact ⟨c.1, ⟨c, hc, rfl⟩, i, (byteLink_eq_some (hrow _ c hc).2).mpr ⟨a, ha, hi⟩, rfl, rfl⟩
        · rintro ⟨o, ⟨c, hc, rfl⟩, i, hlink, rfl, rfl⟩
          obtain ⟨a, ha, hi⟩ := (byteLink_eq_some (hrow _ c hc).2).mp hlink
          exact ⟨c, hc, a, i, (artifactById_congr hs₁.artifacts t c.1).trans ha, hi, rfl, rfl⟩
    · -- two candidates with one key are one artifact, with one digest
      rintro c hc c' hc' k p q ⟨a, i, ha, hi, rfl, rfl⟩ ⟨a', j, ha', hj, hkey, rfl⟩
      obtain ⟨hne, hd⟩ := hrow _ c hc
      obtain ⟨hne', hd'⟩ := hrow _ c' hc'
      obtain ⟨ho, _⟩ := edgeKey_inj hkey hne hne'
      rw [← ho] at ha' hd'
      rw [Option.some.inj (ha.symm.trans ha'), Option.some.inj (hd.symm.trans hd')] at hi
      rw [Option.some.inj (hi.symm.trans hj)]

/-- The byte-similar edges that are in the second store and not in the first. -/
def ByteInserted (s s' : Db) : Set (EdgeKey × ℚ) :=
  { p | p ∈ Inserted s s' ∧ p.1.2.2.2.1 = .byteSimilar }

theorem byteInserted_ne {s₁ s₂ : Db} {k : EdgeKey} (hk : k.2.2.2.1 = .byteSimilar)
    (hbefore : s.sim.edges.get k = none) (h₁ : s₁.sim.edges.get k = none)
    (h₂ : (s₂.sim.edges.get k).isSome) : ByteInserted s s₁ ≠ ByteInserted s s₂ := by
  intro heq
  obtain ⟨e, he⟩ := Option.isSome_iff_exists.mp h₂
  have hmem : (k, e.score) ∈ ByteInserted s s₂ := ⟨⟨hbefore, e, he, rfl⟩, hk⟩
  rw [← heq] at hmem
  obtain ⟨⟨_, e', he', _⟩, _⟩ := hmem
  exact Option.some_ne_none e' (he'.symm.trans h₁)

/-- The analysis of `x` would insert a byte-similar edge with `o` that the store does not have. -/
def NewByteLink (an : Analyzer) (s : Db) (t x : Uuid) (f : ExtractedFeatures) (o : Uuid) : Prop :=
  o ≠ x ∧ (∃ n, s.byteLink an t f o = some n) ∧
    s.sim.edges.get (edgeKey t x o .byteSimilar) = none

/-- What two analyses insert is the same exactly when they have the same candidates among
those that are newly linked. -/
theorem byteInserted_eq_iff {s₁ s₂ : Db} {others₁ others₂ : Set Uuid}
    (hne₁ : ∀ o ∈ others₁, o ≠ x) (hne₂ : ∀ o ∈ others₂, o ≠ x)
    (h₁ : ∀ k : EdgeKey, k.2.2.2.1 = .byteSimilar → ∀ score, s₁.HasEdge k score ↔
      s.HasEdge k score ∨ s.sim.edges.get k = none ∧ FuzzyLinks an s t x f others₁ k score)
    (h₂ : ∀ k : EdgeKey, k.2.2.2.1 = .byteSimilar → ∀ score, s₂.HasEdge k score ↔
      s.HasEdge k score ∨ s.sim.edges.get k = none ∧ FuzzyLinks an s t x f others₂ k score) :
    ByteInserted s s₁ = ByteInserted s s₂ ↔
      ∀ o, NewByteLink an s t x f o → (o ∈ others₁ ↔ o ∈ others₂) := by
  have hset : ∀ {s' : Db} {others : Set Uuid},
      (∀ k : EdgeKey, k.2.2.2.1 = .byteSimilar → ∀ score, s'.HasEdge k score ↔
        s.HasEdge k score ∨ s.sim.edges.get k = none ∧ FuzzyLinks an s t x f others k score) →
      ∀ k score, (k, score) ∈ ByteInserted s s' ↔
        s.sim.edges.get k = none ∧ FuzzyLinks an s t x f others k score := by
    intro s' others h k score
    constructor
    · rintro ⟨⟨hnone, hedge⟩, hk⟩
      rcases (h k hk score).mp hedge with ⟨e, he, _⟩ | hnew
      · rw [hnone] at he
        cases he
      · exact hnew
    · rintro ⟨hnone, hlinks⟩
      have hk : k.2.2.2.1 = .byteSimilar := by
        obtain ⟨o, _, n, _, rfl, _⟩ := hlinks
        rfl
      exact ⟨⟨hnone, (h k hk score).mpr (.inr ⟨hnone, hlinks⟩)⟩, hk⟩
  -- an edge that one of them inserts and the other should insert too
  have hmem : ∀ {s' s'' : Db} {others others' : Set Uuid}, (∀ o ∈ others', o ≠ x) →
      (∀ k score, (k, score) ∈ ByteInserted s s' ↔
        s.sim.edges.get k = none ∧ FuzzyLinks an s t x f others k score) →
      (∀ k score, (k, score) ∈ ByteInserted s s'' ↔
        s.sim.edges.get k = none ∧ FuzzyLinks an s t x f others' k score) →
      ByteInserted s s' = ByteInserted s s'' →
      ∀ o, NewByteLink an s t x f o → o ∈ others → o ∈ others' := by
    rintro s' s'' others others' hne' hs' hs'' heq o ⟨hne, ⟨n, hlink⟩, hnone⟩ ho
    have hin := (hs' (edgeKey t x o .byteSimilar) n).mpr ⟨hnone, o, ho, n, hlink, rfl, rfl⟩
    rw [heq] at hin
    obtain ⟨_, o', ho', _, _, hkey, _⟩ := (hs'' _ _).mp hin
    obtain ⟨rfl, _⟩ := edgeKey_inj hkey hne (hne' o' ho')
    exact ho'
  constructor
  · intro heq o ho
    exact ⟨hmem hne₂ (hset h₁) (hset h₂) heq o ho, hmem hne₁ (hset h₂) (hset h₁) heq.symm o ho⟩
  · intro hsame
    ext ⟨k, score⟩
    rw [hset h₁, hset h₂]
    refine and_congr_right fun hnone => exists_congr fun o => ?_
    constructor
    · rintro ⟨ho, n, hlink, rfl, rfl⟩
      exact ⟨(hsame o ⟨hne₁ o ho, ⟨n, hlink⟩, hnone⟩).mp ho, n, hlink, rfl, rfl⟩
    · rintro ⟨ho, n, hlink, rfl, rfl⟩
      exact ⟨(hsame o ⟨hne₂ o ho, ⟨n, hlink⟩, hnone⟩).mpr ho, n, hlink, rfl, rfl⟩

/-- When the candidates of the index and of the scan are the same, among those newly linked. -/
theorem sameCandidates_iff : (∀ o, NewByteLink an s t x f o →
      (o ∈ { o | ∃ c ∈ s.byteCandidates an t x cls ssdeep, c.1 = o } ↔
        o ∈ { o | ∃ c ∈ s.classScan t x cls, c.1 = o })) ↔
    s.byteMeets an t x ssdeep = [] ∨ ∀ o, NewByteLink an s t x f o →
      (Met candidateCap (s.byteMeets an t x ssdeep) o ∧ s.OfClass t cls o ↔ s.Scanned t cls o) := by
  have hindex : ∀ o, NewByteLink an s t x f o →
      ((∃ c ∈ s.byteCandidates an t x cls ssdeep, c.1 = o) ↔
        if s.byteMeets an t x ssdeep = [] then s.Scanned t cls o
        else Met candidateCap (s.byteMeets an t x ssdeep) o ∧ s.OfClass t cls o) := by
    rintro o ⟨hne, ⟨n, hlink⟩, _⟩
    obtain ⟨d, hd⟩ := exists_ssdeepOf_of_byteLink hlink
    constructor
    · rintro ⟨c, hc, rfl⟩
      exact (mem_byteCandidates.mp hc).1
    · exact fun hfound => ⟨(o, d), mem_byteCandidates.mpr ⟨hfound, hne, hd⟩, rfl⟩
  have hscan : ∀ o, NewByteLink an s t x f o →
      ((∃ c ∈ s.classScan t x cls, c.1 = o) ↔ s.Scanned t cls o) := by
    rintro o ⟨hne, ⟨n, hlink⟩, _⟩
    obtain ⟨d, hd⟩ := exists_ssdeepOf_of_byteLink hlink
    constructor
    · rintro ⟨c, hc, rfl⟩
      exact (mem_classScan.mp hc).1
    · exact fun hfound => ⟨(o, d), mem_classScan.mpr ⟨hfound, hne, hd⟩, rfl⟩
  by_cases hids : s.byteMeets an t x ssdeep = []
  · -- nothing is met: the candidates are those of the scan
    refine iff_of_true (fun o ho => ?_) (.inl hids)
    exact ((hindex o ho).trans (iff_of_eq (if_pos hids))).trans (hscan o ho).symm
  · rw [or_iff_right hids]
    refine forall₂_congr fun o ho => ?_
    exact iff_congr ((hindex o ho).trans (iff_of_eq (if_neg hids))) (hscan o ho)

/-- An artifact of the class whose digest scores high enough. -/
def Scores (an : Analyzer) (s : Db) (t x : Uuid) (cls : ArtifactClass) (ssdeep : String) (o : Uuid) :
    Prop :=
  o ≠ x ∧ s.OfClass t cls o ∧ ∃ d, s.ssdeepOf t o = some d ∧
    modelV1.byteSimilarMinScore ≤ an.fuzzyCompare ssdeep d.1

/-- Every artifact that scores high enough is compared exactly when each is met, or when nothing
is met and the scan has each. -/
theorem allCompared_iff : (∀ o, Scores an s t x cls ssdeep o →
      ∃ c ∈ s.byteCandidates an t x cls ssdeep, c.1 = o) ↔
    ∀ o, Scores an s t x cls ssdeep o →
      if s.byteMeets an t x ssdeep = [] then s.Scanned t cls o
      else Met candidateCap (s.byteMeets an t x ssdeep) o := by
  refine forall₂_congr fun o ⟨hne, hcls, d, hd, _⟩ => ?_
  constructor
  · rintro ⟨c, hc, rfl⟩
    obtain ⟨hfound, _⟩ := mem_byteCandidates.mp hc
    split at hfound
    · next hnil => rwa [if_pos hnil]
    · next hnil =>
      rw [if_neg hnil]
      exact hfound.1
  · intro hfound
    refine ⟨(o, d), mem_byteCandidates.mpr ⟨?_, hne, hd⟩, rfl⟩
    split
    · next hnil => rwa [if_pos hnil] at hfound
    · next hnil =>
      rw [if_neg hnil] at hfound
      exact ⟨hfound, hcls⟩

end Alone

/-- **The byte index changes nothing exactly when it meets what is linked.**  In any store, the
analysis of an artifact inserts the byte-similar edges that the scan of the class would insert
exactly when no band of the digest has any other artifact, or when of the artifacts that are
newly linked it has those of the class met, before there are `CANDIDATE_CAP` others, that the
scan has too.  Every artifact of the class with a high enough score is compared exactly when each
is met, or none and the scan has each. -/
theorem byte_index_exact_iff (cfg : Config) (t x : Uuid) (cls : ArtifactClass) (bytes : Bytes)
    (s : Db) {ls₁ ls₂ : List Pt} {n₁ n₂ : ℕ} {s₁ s₂ : Db}
    (h₁ : Prog.Returns (analyzeArtifact cfg.fuzzy t x cls bytes) s ls₁ n₁ s₁)
    (h₂ : Prog.Returns (scanAndAnalyze cfg.fuzzy t x cls bytes) s ls₂ n₂ s₂) :
    let an := cfg.fuzzy.analyzer
    let f := an.extract bytes
    let ids := s.byteMeets an t x f.ssdeep
    (ByteInserted s s₁ = ByteInserted s s₂ ↔ ids = [] ∨ ∀ o, NewByteLink an s t x f o →
      (Met candidateCap ids o ∧ s.OfClass t cls o ↔ s.Scanned t cls o)) ∧
    ∀ ls bucket s', Prog.Returns (fuzzyCandidates an t x cls f.ssdeep) s ls bucket s' →
      ((∀ o, Scores an s t x cls f.ssdeep o → ∃ c ∈ bucket, c.1 = o) ↔
        ∀ o, Scores an s t x cls f.ssdeep o →
          if ids = [] then s.Scanned t cls o else Met candidateCap ids o) := by
  rw [← analyzeWith_fuzzyCandidates] at h₁
  have hindex := Prog.wp_returns h₁ (wp_analyzeWith (fun _ s => wp_fuzzyCandidates s)
    (fun _ _ h => h.byteCandidates) (fun _ c hc => (mem_byteCandidates.mp hc).2)) n₁ rfl
  have hquery : ∀ ssdeep (s : Db), (scanClass t x cls ssdeep).wp (fun _ _ => True)
      (fun r s' => s' = s ∧ r = .ok (s.classScan t x cls)) s :=
    fun _ s => ⟨trivial, fun _ => ⟨rfl, rfl⟩⟩
  have hscan := Prog.wp_returns h₂ (wp_analyzeWith hquery (fun _ _ h => h.classScan)
    (fun _ c hc => (mem_classScan.mp hc).2)) n₂ rfl
  refine ⟨(byteInserted_eq_iff ?_ ?_ hindex hscan).trans sameCandidates_iff, fun ls bucket s' h => ?_⟩
  · rintro o ⟨c, hc, rfl⟩
    exact (mem_byteCandidates.mp hc).2.1
  · rintro o ⟨c, hc, rfl⟩
    exact (mem_classScan.mp hc).2.1
  · obtain ⟨_, hbucket⟩ := Prog.wp_returns h (wp_fuzzyCandidates s)
    rw [Except.ok.inj hbucket]
    exact allCompared_iff

/-! ### A score at another position -/

/-- Runs of different bytes: from 1 to 64, from 2 to 17 and from 2 to 65. -/
def runOf (x : Uuid) : Bytes :=
  (if x = 1 then List.range' 1 64 else if x = 2 then List.range' 2 16 else List.range' 2 64).map
    UInt8.ofNat

/-- Their entropy: as many different bytes. -/
def Config.runs : Config :=
  { Config.plain with analyzer := { Config.plain.analyzer with
      extract := fun bytes => { Config.plain.analyzer.extract bytes with
        entropy := if bytes.length = 64 then 6 else 4 } } }

def runArtifact (x : Uuid) : Artifact :=
  ⟨x, 0, x, [x.toUInt8], (runOf x).length, .unknown, .committed, ⟨0, hexEncode [x.toUInt8]⟩, 0,
    .endpoint, .null⟩

/-- Three artifacts, nothing analysed. -/
def threeRuns : Db :=
  { Db.empty with ingest := { Db.empty.ingest with
    artifacts := (((Table.empty.insertNew (runArtifact 1)).insertNew (runArtifact 2)).insertNew
      (runArtifact 3)) } }

/-- What an analysis of a file leaves. -/
def afterRun (candidates : Uuid → String → Srv (List (Uuid × String × ℚ))) (x : Uuid) (s : Db) :
    Except Error ℕ × Db :=
  (analyzeWith (candidates x) Config.runs.fuzzy 0 x .unknown (runOf x)).eval (.drawing 9) s

abbrev indexRun : Uuid → Db → Except Error ℕ × Db :=
  afterRun fun x => fuzzyCandidates Config.runs.fuzzy.analyzer 0 x .unknown

abbrev scanRun : Uuid → Db → Except Error ℕ × Db := afterRun fun x => scanClass 0 x .unknown

theorem returns_afterRun {candidates : Uuid → String → Srv (List (Uuid × String × ℚ))} {x : Uuid}
    {s : Db} {r : Except Error ℕ × Db} {n : ℕ} (hr : afterRun candidates x s = r) (h : r.1 = .ok n) :
    ∃ ls, Prog.Returns (analyzeWith (candidates x) Config.runs.fuzzy 0 x .unknown (runOf x)) s ls n
      r.2 := by
  subst hr
  exact Prog.returns_of_eval h

/-- When only the third file is stored, the first shares no band with it: the class is scanned. -/
theorem byte_index_exact_iff_cold : ∃ ls n s ls₁ n₁ s₁ ls₂ n₂ s₂,
    Prog.Returns (analyzeArtifact Config.runs.fuzzy 0 3 .unknown (runOf 3)) threeRuns ls n s ∧
    Prog.Returns (analyzeArtifact Config.runs.fuzzy 0 1 .unknown (runOf 1)) s ls₁ n₁ s₁ ∧
    Prog.Returns (scanAndAnalyze Config.runs.fuzzy 0 1 .unknown (runOf 1)) s ls₂ n₂ s₂ ∧
    n₁ = 1 ∧ ByteInserted s s₁ = ByteInserted s s₂ := by
  have hchk : ((indexRun 3 threeRuns).1 = .ok 0 && (indexRun 1 (indexRun 3 threeRuns).2).1 = .ok 1 &&
      (scanRun 1 (indexRun 3 threeRuns).2).1 = .ok 1 && ((indexRun 3 threeRuns).2.byteMeets
        Config.runs.fuzzy.analyzer 0 1 (Fuzzy.fuzzyHash (runOf 1))).isEmpty) = true := by
    decide +kernel
  generalize hr : indexRun 3 threeRuns = r at hchk
  generalize hr₁ : indexRun 1 r.2 = r₁ at hchk
  generalize hr₂ : scanRun 1 r.2 = r₂ at hchk
  simp only [Bool.and_eq_true, decide_eq_true_eq, List.isEmpty_iff] at hchk
  obtain ⟨⟨⟨h, h₁⟩, h₂⟩, hids⟩ := hchk
  obtain ⟨ls, h⟩ := returns_afterRun hr h
  obtain ⟨ls₁, h₁⟩ := returns_afterRun hr₁ h₁
  obtain ⟨ls₂, h₂⟩ := returns_afterRun hr₂ h₂
  exact ⟨ls, _, _, ls₁, _, _, ls₂, _, _, h, h₁, h₂, rfl,
    (byte_index_exact_iff Config.runs 0 1 .unknown (runOf 1) _ h₁ h₂).1.mpr (.inl hids)⟩

/-- The third file has most of its digest in common with the first, at other places, and the
first characters with the second: the link with the first is not found. -/
theorem byte_index_misses_link : ∃ ls n s ls' n' s' ls₁ n₁ s₁ ls₂ n₂ s₂,
    Prog.Returns (analyzeArtifact Config.runs.fuzzy 0 1 .unknown (runOf 1)) threeRuns ls n s ∧
    Prog.Returns (analyzeArtifact Config.runs.fuzzy 0 2 .unknown (runOf 2)) s ls' n' s' ∧
    Prog.Returns (analyzeArtifact Config.runs.fuzzy 0 3 .unknown (runOf 3)) s' ls₁ n₁ s₁ ∧
    Prog.Returns (scanAndAnalyze Config.runs.fuzzy 0 3 .unknown (runOf 3)) s' ls₂ n₂ s₂ ∧
    ByteInserted s' s₁ ≠ ByteInserted s' s₂ := by
  have hchk : ((indexRun 1 threeRuns).1 = .ok 0 && (indexRun 2 (indexRun 1 threeRuns).2).1 = .ok 0 &&
      (indexRun 3 (indexRun 2 (indexRun 1 threeRuns).2).2).1 = .ok 0 &&
      (scanRun 3 (indexRun 2 (indexRun 1 threeRuns).2).2).1 = .ok 1 &&
      ((indexRun 2 (indexRun 1 threeRuns).2).2.sim.edges.get (edgeKey 0 3 1 .byteSimilar)).isNone &&
      ((indexRun 3 (indexRun 2 (indexRun 1 threeRuns).2).2).2.sim.edges.get
        (edgeKey 0 3 1 .byteSimilar)).isNone &&
      ((scanRun 3 (indexRun 2 (indexRun 1 threeRuns).2).2).2.sim.edges.get
        (edgeKey 0 3 1 .byteSimilar)).isSome) = true := by
    decide +kernel
  generalize hr : indexRun 1 threeRuns = r at hchk
  generalize hr' : indexRun 2 r.2 = r' at hchk
  generalize hr₁ : indexRun 3 r'.2 = r₁ at hchk
  generalize hr₂ : scanRun 3 r'.2 = r₂ at hchk
  simp only [Bool.and_eq_true, decide_eq_true_eq, Option.isNone_iff_eq_none] at hchk
  obtain ⟨⟨⟨⟨⟨⟨h, h'⟩, h₁⟩, h₂⟩, hbefore⟩, hindex⟩, hscan⟩ := hchk
  obtain ⟨ls, h⟩ := returns_afterRun hr h
  obtain ⟨ls', h'⟩ := returns_afterRun hr' h'
  obtain ⟨ls₁, h₁⟩ := returns_afterRun hr₁ h₁
  obtain ⟨ls₂, h₂⟩ := returns_afterRun hr₂ h₂
  exact ⟨ls, _, _, ls', _, _, ls₁, _, _, ls₂, _, _, h, h', h₁, h₂,
    byteInserted_ne rfl hbefore hindex hscan⟩

end Corpus
