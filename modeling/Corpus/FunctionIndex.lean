/-
The function index against the scan of all functions (`semantic/func_index.rs`,
`semantic/edges.rs`).

`analyze_and_link` compares an artifact with the candidates of the index, and falls back to
every artifact with stored functions only when the index gives none.  A candidate shares one
of four features of a function; whether two artifacts are linked is decided by the Jaccard
scores.  An artifact that would be linked is therefore missed when it shares no feature and
some other artifact does.

* `linkWith` — the analysis, for any way to find candidates;
* `wp_linkWith` — the edges it inserts: those of the candidates that are linked;
* `function_index_exact_iff` — the index inserts what the scan inserts exactly when it meets
  every artifact that is newly linked, or none at all.
-/
import Corpus.CandidateIndex

namespace Corpus

/-! ### The bands of a function -/

/-- `{:016x}`. -/
def hex16 (n : UInt64) : String := hexEncode (toLe 8 n.toNat).reverse

/-- `len_bucket`. -/
def lenBucket (n : ℕ) : ℕ := if n ≤ 4 then 0 else if n ≤ 16 then 1 else if n ≤ 64 then 2 else 3

/-- `function_bands`. -/
def functionBands (tokenHashes : List UInt64) : List (ℕ × String) :=
  match tokenHashes with
  | [] => []
  | first :: rest =>
    let fold := (first :: rest).foldl (fun a b => a ^^^ b) 0
    let mid := (first :: rest).getD ((first :: rest).length / 2) 0
    [(0, hex16 first), (1, hex16 (rest.getLastD first)), (2, hex16 fold),
      (3, toString (lenBucket (first :: rest).length) ++ ":" ++ hex16 mid)]

/-- With the bands of `func_index.rs`, besides coverage and suppression. -/
def Config.indexed (cfg : Config) : Config :=
  { cfg.suppressing with analyzer := { cfg.suppressing.analyzer with functionBands } }

/-! ### The scan -/

/-- The candidates, were there no index: every artifact with stored functions. -/
def scanCandidates (t x : Uuid) (_ : List FunctionRow) : Srv (List Uuid) :=
  Prog.query (.sim (.analyze t x)) fun s => s.withFunctions t x

/-- `analyze_and_link`, when the candidates are found by `candidates`. -/
def linkWith (candidates : List FunctionRow → Srv (List Uuid)) (cfg : Config) (t x : Uuid)
    (cls : ArtifactClass) (bytes : Bytes) : Srv ℕ := do
  if cls ≠ .pe ∧ cls ≠ .elf ∧ cls ≠ .machO then return 0
  else do
    let (functions, limitation) ← extractAndStore cfg.analyzer t x cls bytes
    let receipt := fun (edges : ℕ) (now : Time) => (⟨t, x, cfg.sha256 bytes,
      receiptStatus functions limitation, functions.length, limitation, edges, now⟩ : Receipt)
    persistReceipt t x (receipt 0)
    if limitation.isSome ∨ functions = [] then return 0
    else do
      let scoring := functions.filter fun f => !cfg.analyzer.suppressed f
      storeFeature t x .semantic "suppression" semanticExtractorVersion
        (.report (.obj [("kept", .num scoring.length)]))
      if scoring = [] then return 0
      else do
        let others ← candidates scoring
        let edges ← Prog.loop (linkSemantic cfg.analyzer t x cls scoring) others 0
        persistReceipt t x (receipt edges)
        return edges

/-- The analysis as it is. -/
theorem linkWith_semanticCandidates (cfg : Config) (t x : Uuid) (cls : ArtifactClass)
    (bytes : Bytes) : linkWith (semanticCandidates cfg.analyzer t x) cfg t x cls bytes =
      analyzeAndLink cfg t x cls bytes := rfl

/-- The analysis that compares every artifact with stored functions. -/
def scanAndLink (cfg : Config) (t x : Uuid) (cls : ArtifactClass) (bytes : Bytes) : Srv ℕ :=
  linkWith (scanCandidates t x) cfg t x cls bytes

/-! ### What other artifacts have stored -/

/-- The rows of the other artifacts, the artifacts and the edges are as before. -/
structure SameOthers (t x : Uuid) (s s' : Db) : Prop where
  artifacts : s'.ingest.artifacts = s.ingest.artifacts
  functions : s'.sim.functions.rows.filter (fun r => !(r.tenant = t && r.artifactId = x)) =
    s.sim.functions.rows.filter fun r => !(r.tenant = t && r.artifactId = x)
  bands : s'.sim.functionBands.rows.filter (fun r => !(r.tenant = t && r.artifactId = x)) =
    s.sim.functionBands.rows.filter fun r => !(r.tenant = t && r.artifactId = x)
  edges : s'.sim.edges = s.sim.edges

/-- The link of the functions `scoring` of an artifact of the class `cls` with another artifact. -/
def Db.linkOf (s : Db) (an : Analyzer) (t : Uuid) (cls : ArtifactClass) (scoring : List FunctionRow)
    (other : Uuid) : Option (EdgeType × ℚ) :=
  if (s.artifactById t other).map Artifact.artifactClass = some cls then
    (an.coverage scoring (an.scoring (s.loadFunctions t other))).link
  else none

section Others

variable {an : Analyzer} {t x o : Uuid} {cls : ArtifactClass} {s s' : Db} {scoring : List FunctionRow}

theorem SameOthers.refl (s : Db) : SameOthers t x s s := ⟨rfl, rfl, rfl, rfl⟩

/-- A filter that drops the artifact anyway. -/
theorem filter_of_others {ρ : Type} {own p : ρ → Bool} {rows rows' : List ρ}
    (h : rows'.filter (fun r => !own r) = rows.filter fun r => !own r)
    (hp : ∀ r, own r = true → p r = false) : rows'.filter p = rows.filter p := by
  have hstep : ∀ rows : List ρ, rows.filter p = (rows.filter fun r => !own r).filter p := by
    intro rows
    rw [List.filter_filter]
    refine List.filter_congr fun r _ => ?_
    cases hown : own r with
    | true => simp [hp r hown]
    | false => simp
  rw [hstep rows', hstep rows, h]

theorem SameOthers.withFunctions (h : SameOthers t x s s') :
    s'.withFunctions t x = s.withFunctions t x := by
  unfold Db.withFunctions
  rw [filter_of_others h.functions fun r hr => ?_]
  simp only [Bool.and_eq_true, decide_eq_true_eq] at hr
  simp [hr.2]

theorem ne_of_mem_withFunctions (h : o ∈ s.withFunctions t x) : o ≠ x := by
  obtain ⟨r, hr, rfl⟩ := List.mem_map.mp (List.mem_dedup.mp h)
  have hsel := (List.mem_filter.mp hr).2
  simp only [Bool.and_eq_true, decide_eq_true_eq] at hsel
  exact hsel.1.2

theorem SameOthers.inFunctionBand (h : SameOthers t x s s') (idx : ℕ) (key : String) :
    s'.inFunctionBand t x idx key = s.inFunctionBand t x idx key := by
  unfold Db.inFunctionBand
  rw [filter_of_others h.bands fun r hr => ?_]
  simp only [Bool.and_eq_true, decide_eq_true_eq] at hr
  simp [hr.2]

theorem SameOthers.loadFunctions (h : SameOthers t x s s') (ho : o ≠ x) :
    s'.loadFunctions t o = s.loadFunctions t o := by
  unfold Db.loadFunctions
  rw [filter_of_others h.functions fun r hr => ?_]
  simp only [Bool.and_eq_true, decide_eq_true_eq] at hr
  simp [hr.2, Ne.symm ho]

theorem SameOthers.linkOf (h : SameOthers t x s s') (ho : o ≠ x) :
    s'.linkOf an t cls scoring o = s.linkOf an t cls scoring o := by
  unfold Db.linkOf
  rw [h.loadFunctions ho, artifactById_congr h.artifacts]

theorem EdgeFrame.linkOf (h : EdgeFrame s s') :
    s'.linkOf an t cls scoring o = s.linkOf an t cls scoring o := by
  obtain ⟨e, g, m, o, rfl⟩ := h
  rfl

end Others

/-! ### Run alone -/

section Alone

variable {cfg : Config} {an : Analyzer} {t x o : Uuid} {cls : ArtifactClass} {bytes : Bytes}
  {s s' : Db} {scoring : List FunctionRow}

theorem storeFeature_others (family : Family) (name version : String) (value : FeatureValue) :
    (storeFeature t x family name version value).Maintains (SameOthers t x s) fun _ => True :=
  Prog.maintains_update fun _ _ h => ⟨h.artifacts, h.functions, h.bands, h.edges⟩

theorem persistReceipt_others (r : Time → Receipt) :
    (persistReceipt t x r).Maintains (SameOthers t x s) fun _ => True :=
  Prog.maintains_update fun _ _ h => ⟨h.artifacts, h.functions, h.bands, h.edges⟩

/-- The extraction writes rows of its own artifact, and returns the functions of the file. -/
theorem extractAndStore_others (an : Analyzer) (cls : ArtifactClass) (bytes : Bytes) :
    (extractAndStore an t x cls bytes).Maintains (SameOthers t x s)
      fun r => r.1 = freshFunctions an cls bytes ∧ (r.2.isSome = true → r.1 = []) := by
  unfold extractAndStore freshFunctions
  refine Prog.maintains_bind (storeFeature_others _ _ _ _) fun _ _ => ?_
  split
  · exact Prog.maintains_bind (storeFeature_others _ _ _ _) fun _ _ => ⟨rfl, fun _ => rfl⟩
  · cases significantFunctions an (an.functionsFor cls bytes) ([], 0) with
    | error l =>
      exact Prog.maintains_bind (storeFeature_others _ _ _ _) fun _ _ => ⟨rfl, fun _ => rfl⟩
    | ok found =>
      refine Prog.maintains_bind (Q := fun _ => True) ?_ fun _ _ => ?_
      · refine Prog.maintains_loop (fun _ f _ => Prog.maintains_update fun s i h =>
          ⟨h.artifacts, ?_, h.bands, h.edges⟩) _ () trivial
        exact (Table.filter_insertNew (by simp)).trans h.functions
      refine Prog.maintains_bind (Q := fun _ => True) ?_ fun _ _ => ?_
      · refine Prog.maintains_bind (Prog.maintains_update fun s i h =>
          ⟨h.artifacts, h.functions, ?_, h.edges⟩) fun _ _ => ?_
        · refine (Table.filter_deleteWhere fun r hr => ?_).trans h.bands
          simp only [Bool.and_eq_true, decide_eq_true_eq] at hr
          simp [hr.1.1, hr.1.2]
        · refine Prog.maintains_loop (fun _ b _ => Prog.maintains_update fun s i h =>
            ⟨h.artifacts, h.functions, ?_, h.edges⟩) _ () trivial
          refine (Table.filter_upsert fun r hr => ?_).trans h.bands
          simp only [FunctionBand.key, Prod.mk.injEq] at hr
          simp [hr.1, hr.2.1]
      exact Prog.maintains_bind (storeFeature_others _ _ _ _) fun _ _ => ⟨rfl, nofun⟩

/-- The edge with one candidate. -/
theorem wp_linkSemantic (n : ℕ) (other : Uuid) (h : EdgeFrame s s') :
    (linkSemantic an t x cls scoring n other).wp (fun _ _ => True) (fun r s'' => ∀ m, r = .ok m →
      EdgeFrame s' s'' ∧ Grows (fun k score => ∃ ty,
        s.linkOf an t cls scoring other = some (ty, score) ∧ k = edgeKey t x other ty) s' s'') s' := by
  have hlink : s'.linkOf an t cls scoring other = s.linkOf an t cls scoring other := h.linkOf
  have hnothing : s.linkOf an t cls scoring other = none → EdgeFrame s' s' ∧
      Grows (fun k score => ∃ ty, s.linkOf an t cls scoring other = some (ty, score) ∧
        k = edgeKey t x other ty) s' s' := by
    intro hnone
    exact ⟨.refl s', (Grows.refl s').congr fun k score => by simp [hnone]⟩
  rw [← hlink] at hnothing ⊢
  unfold Db.linkOf at hnothing ⊢
  unfold linkSemantic
  refine ⟨trivial, fun _ => ?_⟩
  show Prog.wp _ _ (if _ then _ else _) s'
  by_cases hcls : (s'.artifactById t other).map Artifact.artifactClass = some cls
  · rw [if_neg (not_not.mpr hcls)]
    rw [if_pos hcls] at hnothing ⊢
    refine ⟨trivial, fun _ => ?_⟩
    have hscoring : ((s'.loadFunctions t other).filter fun f => !an.suppressed f) =
      an.scoring (s'.loadFunctions t other) := rfl
    dsimp only [Prog.bind]
    rw [hscoring]
    cases hty : classifySemanticEdge modelV1 (an.coverage scoring
        (an.scoring (s'.loadFunctions t other))) with
    | none => exact fun _ _ => hnothing (by rw [Coverage.link, hty]; rfl)
    | some ty =>
      have hlinked : (an.coverage scoring (an.scoring (s'.loadFunctions t other))).link =
          some (ty, _) := congrArg (Option.map fun ty => (ty, _)) hty
      refine Prog.wp_mono (fun _ _ h => h) (fun r s'' hr m hm => ?_)
        (wp_countEdge t x n other ty _ s')
      obtain ⟨hframe, hgrow⟩ := hr m hm
      refine ⟨hframe, hgrow.congr fun k score => ?_⟩
      rw [hlinked]
      constructor
      · rintro ⟨rfl, rfl⟩
        exact ⟨ty, rfl, rfl⟩
      · rintro ⟨ty', heq, rfl⟩
        obtain ⟨rfl, rfl⟩ := Prod.mk.inj (Option.some.inj heq)
        exact ⟨rfl, rfl⟩
  · rw [if_pos hcls]
    rw [if_neg hcls] at hnothing ⊢
    exact fun _ _ => hnothing rfl

/-- What the keys of the index have for the functions `scoring`, one key after another. -/
def Db.indexMeets (s : Db) (an : Analyzer) (t x : Uuid) (scoring : List FunctionRow) : List Uuid :=
  (functionKeys an scoring).flatMap fun key => s.inFunctionBand t x key.1 key.2

/-- The candidates of the index; when it has none, those of the scan. -/
def Db.indexCandidates (s : Db) (an : Analyzer) (t x : Uuid) (scoring : List FunctionRow) :
    List Uuid :=
  let ids := pushCandidates funcCandidateCap [] (s.indexMeets an t x scoring)
  if ids.isEmpty then s.withFunctions t x else ids

/-- Without rows of the tenant no key has anything. -/
theorem indexMeets_of_cold (h : (s.sim.functionBands.rows.any fun r =>
    r.tenant = t && r.version = semanticExtractorVersion) = false) :
    s.indexMeets an t x scoring = [] := by
  refine List.flatMap_eq_nil_iff.mpr fun key _ => ?_
  have hnone : (s.sim.functionBands.rows.filter fun r => r.tenant = t &&
      r.version = semanticExtractorVersion && r.bandKey = key.2 && r.artifactId ≠ x &&
        r.bandIdx % funcBandCount = key.1) = [] := by
    refine List.filter_eq_nil_iff.mpr fun r hr hsel => ?_
    have hcold := List.any_eq_false.mp h r hr
    simp only [Bool.and_eq_true] at hsel
    exact hcold (by simp only [Bool.and_eq_true]; exact hsel.1.1.1)
  unfold Db.inFunctionBand
  rw [hnone]
  rfl

theorem wp_semanticCandidates (s : Db) : (semanticCandidates an t x scoring).wp (fun _ _ => True)
    (fun r s' => s' = s ∧ r = .ok (s.indexCandidates an t x scoring)) s := by
  have hlast : ∀ ids, ids = pushCandidates funcCandidateCap [] (s.indexMeets an t x scoring) →
      Prog.wp (fun _ _ => True) (fun r s' => s' = s ∧ r = .ok (s.indexCandidates an t x scoring))
        (if ids.isEmpty then Prog.query (.sim (.analyze t x)) fun s => s.withFunctions t x
          else return ids : Srv (List Uuid)) s := by
    rintro ids rfl
    unfold Db.indexCandidates
    dsimp only
    split
    · exact ⟨trivial, fun _ => ⟨rfl, rfl⟩⟩
    · exact ⟨rfl, rfl⟩
  unfold semanticCandidates
  rw [Prog.query_bind, Prog.wp_stmt]
  refine ⟨trivial, fun _ => ?_⟩
  cases hlive : s.sim.functionBands.rows.any fun r =>
      r.tenant = t && r.version = semanticExtractorVersion with
  | false =>
    refine hlast [] ?_
    rw [indexMeets_of_cold hlive]
    rfl
  | true =>
    refine Prog.wp_bind (Prog.wp_mono (fun _ _ h => h) (fun r s' hr => ?_)
      (wp_bandCandidates t x funcCandidateCap (fun s k => s.inFunctionBand t x k.1 k.2)
        (functionKeys an scoring) s []))
    obtain ⟨rfl, rfl⟩ := hr
    exact hlast _ rfl

/-- The candidates do not include the artifact itself. -/
theorem ne_of_mem_indexCandidates (h : o ∈ s.indexCandidates an t x scoring) : o ≠ x := by
  unfold Db.indexCandidates at h
  dsimp only at h
  split at h
  · exact ne_of_mem_withFunctions h
  · obtain ⟨key, _, ho⟩ := List.mem_flatMap.mp (mem_pushCandidates.mp h).mem
    have ho := List.mem_dedup.mp (List.mem_of_mem_take ho)
    obtain ⟨r, hr, rfl⟩ := List.mem_map.mp ho
    have hsel := (List.mem_filter.mp hr).2
    simp only [Bool.and_eq_true, decide_eq_true_eq] at hsel
    exact hsel.1.2

theorem SameOthers.indexCandidates (h : SameOthers t x s s') :
    s'.indexCandidates an t x scoring = s.indexCandidates an t x scoring := by
  unfold Db.indexCandidates Db.indexMeets
  simp only [h.inFunctionBand, h.withFunctions]

/-- The functions of a file that enter matching. -/
def scoringOf (an : Analyzer) (cls : ArtifactClass) (bytes : Bytes) : List FunctionRow :=
  an.scoring (freshFunctions an cls bytes)

/-- The edges of the analysis, when its candidates are `others`. -/
def LinkedBy (an : Analyzer) (s : Db) (t x : Uuid) (cls : ArtifactClass) (bytes : Bytes)
    (others : List Uuid) (k : EdgeKey) (score : ℚ) : Prop :=
  cls.analysed ∧ ∃ o ∈ others, ∃ ty,
    s.linkOf an t cls (scoringOf an cls bytes) o = some (ty, score) ∧ k = edgeKey t x o ty

theorem analysed_iff : cls.analysed ↔ ¬ (cls ≠ .pe ∧ cls ≠ .elf ∧ cls ≠ .machO) := by
  unfold ArtifactClass.analysed
  tauto

/-- Without functions there is no edge. -/
theorem linkOf_nil (hcov : an.coverage = coverage) : s.linkOf an t cls [] o = none := by
  unfold Db.linkOf
  split
  · have hzero : ∀ b, ¬ 0 < (coverage [] b).aToB := by
      intro b
      rw [coverage_eq]
      exact lt_irrefl 0
    rw [hcov, Coverage.link]
    cases hty : classifySemanticEdge modelV1 (coverage [] (an.scoring (s.loadFunctions t o))) with
    | none => rfl
    | some ty => exact absurd (coverage_pos hty).1 (hzero _)
  · rfl

/-- **The edges that the analysis inserts**, run alone: those of its candidates. -/
theorem wp_linkWith {candidates : List FunctionRow → Srv (List Uuid)}
    {find : Db → List FunctionRow → List Uuid}
    (hfind : ∀ scoring s, (candidates scoring).wp (fun _ _ => True)
      (fun r s' => s' = s ∧ r = .ok (find s scoring)) s)
    (hothers : ∀ scoring s', SameOthers t x s s' → find s' scoring = find s scoring)
    (hne : ∀ scoring, ∀ o ∈ find s scoring, o ≠ x) (hcov : cfg.analyzer.coverage = coverage) :
    (linkWith candidates cfg t x cls bytes).wp (fun _ _ => True) (fun r s' => ∀ n, r = .ok n →
      Grows (LinkedBy cfg.analyzer s t x cls bytes
        (find s (scoringOf cfg.analyzer cls bytes))) s s') s := by
  have hstop : ∀ s', SameOthers t x s s' → cls.analysed → scoringOf cfg.analyzer cls bytes = [] →
      Grows (LinkedBy cfg.analyzer s t x cls bytes (find s (scoringOf cfg.analyzer cls bytes))) s s' := by
    intro s' hs' _ hnil
    refine ((Grows.refl s).of_edges rfl hs'.edges).congr fun k score => ?_
    refine iff_of_false id ?_
    rintro ⟨_, o, _, ty, hlink, _⟩
    rw [hnil, linkOf_nil hcov] at hlink
    cases hlink
  unfold linkWith
  by_cases hcls : cls ≠ .pe ∧ cls ≠ .elf ∧ cls ≠ .machO
  · rw [if_pos hcls]
    refine fun _ _ => (Grows.refl s).congr fun k score => ?_
    exact iff_of_false id fun h => absurd hcls (analysed_iff.mp h.1)
  rw [if_neg hcls]
  have hanalysed := analysed_iff.mpr hcls
  refine Prog.wp_bind (Prog.wp_mono (fun _ _ _ => trivial) (fun r s₁ hr => ?_)
    ((extractAndStore_others cfg.analyzer cls bytes).wp (.refl s)))
  obtain ⟨hs₁, hres⟩ := hr
  cases r with
  | error e => exact fun _ => nofun
  | ok res =>
    obtain ⟨functions, limitation⟩ := res
    obtain ⟨rfl, hlimited⟩ : functions = freshFunctions cfg.analyzer cls bytes ∧
      (limitation.isSome = true → functions = []) := hres _ rfl
    refine Prog.wp_bind (Prog.wp_mono (fun _ _ _ => trivial) (fun r s₂ hr => ?_)
      ((persistReceipt_others _).wp hs₁))
    obtain ⟨hs₂, _⟩ := hr
    cases r with
    | error e => exact fun _ => nofun
    | ok _ =>
      show Prog.wp _ _ (if _ then _ else _) s₂
      split
      · next hnone =>
        have hnil : freshFunctions cfg.analyzer cls bytes = [] := hnone.elim hlimited id
        refine fun _ _ => hstop s₂ hs₂ hanalysed ?_
        rw [scoringOf, hnil]
        rfl
      refine Prog.wp_bind (Prog.wp_mono (fun _ _ _ => trivial) (fun r s₃ hr => ?_)
        ((storeFeature_others _ _ _ _).wp hs₂))
      obtain ⟨hs₃, _⟩ := hr
      cases r with
      | error e => exact fun _ => nofun
      | ok _ =>
        show Prog.wp _ _ (if scoringOf cfg.analyzer cls bytes = [] then _ else _) s₃
        split
        · next hnil => exact fun _ _ => hstop s₃ hs₃ hanalysed hnil
        refine Prog.wp_bind (Prog.wp_mono (fun _ _ _ => trivial) (fun r s₄ hr => ?_)
          (hfind (scoringOf cfg.analyzer cls bytes) s₃))
        obtain ⟨rfl, rfl⟩ := hr
        rw [hothers _ _ hs₃]
        -- the loop, from the store after the rows of the artifact
        refine Prog.wp_bind (Prog.wp_mono (fun _ _ _ => trivial) (fun r s₅ hr => ?_)
          (wp_links (s := s₄) (fun n o s' hs' => wp_linkSemantic n o hs') ?_ 0 s₄ (.refl s₄)))
        · cases r with
          | error e => exact fun _ => nofun
          | ok edges =>
            obtain ⟨_, hgrow⟩ := hr edges rfl
            refine ⟨trivial, fun env n _ => (hgrow.of_edges hs₃.edges.symm rfl).congr fun k score => ?_⟩
            refine Iff.trans ?_ (and_iff_right hanalysed).symm
            refine exists_congr fun o => and_congr_right fun ho => exists_congr fun ty => ?_
            rw [hs₃.linkOf (hne _ o ho)]
            rfl
        · rintro o ho o' ho' k p q ⟨ty, hlink, rfl⟩ ⟨ty', hlink', hkey⟩
          obtain ⟨rfl, rfl⟩ := edgeKey_inj hkey (hne _ o ho) (hne _ o' ho')
          rw [hlink] at hlink'
          exact (Prod.mk.inj (Option.some.inj hlink')).2

/-- An artifact that is linked has stored functions. -/
theorem mem_withFunctions_of_linkOf {link : EdgeType × ℚ} (hcov : an.coverage = coverage) (ho : o ≠ x)
    (h : s.linkOf an t cls scoring o = some link) : o ∈ s.withFunctions t x := by
  have hload : s.loadFunctions t o ≠ [] := by
    intro hnil
    unfold Db.linkOf at h
    split at h
    · rw [hnil, hcov] at h
      unfold Coverage.link at h
      rw [show an.scoring [] = [] from rfl, classify_nil] at h
      cases h
    · cases h
  obtain ⟨f, hf⟩ := List.exists_mem_of_ne_nil _ hload
  refine List.mem_dedup.mpr (List.mem_map.mpr ⟨_, List.mem_filter.mpr ⟨mem_loadFunctions.mp hf, ?_⟩, rfl⟩)
  simp [ho]

/-- The analysis of `x` would insert an edge with `o` that the store does not have. -/
def NewLink (an : Analyzer) (s : Db) (t x : Uuid) (cls : ArtifactClass) (bytes : Bytes) (o : Uuid) :
    Prop :=
  o ≠ x ∧ cls.analysed ∧ ∃ ty score,
    s.linkOf an t cls (scoringOf an cls bytes) o = some (ty, score) ∧
      s.sim.edges.get (edgeKey t x o ty) = none

/-- What is inserted with some candidates is what is inserted by the scan exactly when every new
link is among them. -/
theorem linkedBy_eq_iff {others all : List Uuid} (hcov : an.coverage = coverage)
    (hothers : ∀ o ∈ others, o ≠ x) (hall : all = s.withFunctions t x) :
    ({ p | s.sim.edges.get p.1 = none ∧ LinkedBy an s t x cls bytes others p.1 p.2 } : Set (EdgeKey × ℚ)) =
      { p | s.sim.edges.get p.1 = none ∧ LinkedBy an s t x cls bytes all p.1 p.2 } ↔
      ∀ o, NewLink an s t x cls bytes o → o ∈ others := by
  subst hall
  constructor
  · rintro heq o ⟨hne, hcls, ty, score, hlink, hnone⟩
    have hmem : (edgeKey t x o ty, score) ∈ { p : EdgeKey × ℚ | s.sim.edges.get p.1 = none ∧
        LinkedBy an s t x cls bytes (s.withFunctions t x) p.1 p.2 } :=
      ⟨hnone, hcls, o, mem_withFunctions_of_linkOf hcov hne hlink, ty, hlink, rfl⟩
    rw [← heq] at hmem
    obtain ⟨_, _, o', ho', ty', _, hkey⟩ := hmem
    obtain ⟨rfl, _⟩ := edgeKey_inj hkey hne (hothers o' ho')
    exact ho'
  · intro hnew
    ext ⟨k, score⟩
    refine and_congr_right fun hnone => and_congr_right fun hcls => ?_
    constructor
    · rintro ⟨o, ho, ty, hlink, hkey⟩
      exact ⟨o, mem_withFunctions_of_linkOf hcov (hothers o ho) hlink, ty, hlink, hkey⟩
    · rintro ⟨o, ho, ty, hlink, rfl⟩
      exact ⟨o, hnew o ⟨ne_of_mem_withFunctions ho, hcls, ty, score, hlink, hnone⟩, ty, hlink, rfl⟩

end Alone

/-- **The function index changes nothing exactly when it meets what is linked.**  In any store,
the analysis of an artifact inserts the edges that the comparison with every artifact with stored
functions would insert exactly when no key of the index has any other artifact, or when every
artifact that is newly linked is met before there are `FUNC_CANDIDATE_CAP` others. -/
theorem function_index_exact_iff (cfg : Config) (t x : Uuid) (cls : ArtifactClass) (bytes : Bytes)
    (s : Db) {ls₁ ls₂ : List Pt} {n₁ n₂ : ℕ} {s₁ s₂ : Db}
    (h₁ : Prog.Returns (analyzeAndLink cfg.indexed t x cls bytes) s ls₁ n₁ s₁)
    (h₂ : Prog.Returns (scanAndLink cfg.indexed t x cls bytes) s ls₂ n₂ s₂) :
    let an := cfg.indexed.analyzer
    let ids := s.indexMeets an t x (scoringOf an cls bytes)
    Inserted s s₁ = Inserted s s₂ ↔
      ids = [] ∨ ∀ o, NewLink an s t x cls bytes o → Met funcCandidateCap ids o := by
  intro an ids
  rw [← linkWith_semanticCandidates] at h₁
  have hindex := Prog.wp_returns h₁ (wp_linkWith (fun _ s => wp_semanticCandidates s)
    (fun _ _ h => h.indexCandidates) (fun _ _ ho => ne_of_mem_indexCandidates ho) rfl) n₁ rfl
  have hfind : ∀ scoring (s : Db), (scanCandidates t x scoring).wp (fun _ _ => True)
      (fun r s' => s' = s ∧ r = .ok (s.withFunctions t x)) s :=
    fun _ s => ⟨trivial, fun _ => ⟨rfl, rfl⟩⟩
  have hscan : Grows (LinkedBy an s t x cls bytes (s.withFunctions t x)) s s₂ :=
    Prog.wp_returns h₂ (wp_linkWith hfind (fun _ _ h => h.withFunctions)
      (fun _ _ ho => ne_of_mem_withFunctions ho) rfl) n₂ rfl
  rw [hindex.inserted, hscan.inserted,
    linkedBy_eq_iff rfl (fun o ho => ne_of_mem_indexCandidates ho) rfl]
  unfold Db.indexCandidates
  dsimp only
  by_cases hids : ids = []
  · -- nothing is met: the candidates are those of the scan
    rw [if_pos (List.isEmpty_iff.mpr ((pushCandidates_eq_nil (by decide)).mpr hids))]
    refine iff_of_true ?_ (.inl hids)
    rintro o ⟨hne, _, ty, score, hlink, _⟩
    exact mem_withFunctions_of_linkOf rfl hne hlink
  · rw [if_neg fun h => hids ((pushCandidates_eq_nil (by decide)).mp (List.isEmpty_iff.mp h))]
    rw [or_iff_right hids]
    exact forall₂_congr fun o _ => mem_pushCandidates

/-! ### A link that is missed -/

/-- Files with one function, whose tokens depend on the first byte. -/
def Config.tokens : Config :=
  { Config.plain with analyzer := { Config.plain.analyzer with
      isSignificant := fun _ => true
      functionsFor := fun _ bytes => [⟨1, [⟨0, 8, none, 20,
        if bytes.head? = some 1 then [2, 3, 4, 6]
        else if bytes.head? = some 2 then [1, 2, 3, 5] else [1, 2, 3, 4, 5]⟩]⟩] } }

/-- What an analysis of a file leaves. -/
def afterLink (candidates : Uuid → List FunctionRow → Srv (List Uuid)) (x : Uuid) (s : Db) :
    Except Error ℕ × Db :=
  (linkWith (candidates x) Config.tokens.indexed 0 x .pe [x.toUInt8]).eval (.drawing 9) s

/-- With the candidates of the index, and with those of the scan. -/
abbrev afterIndex : Uuid → Db → Except Error ℕ × Db :=
  afterLink (semanticCandidates Config.tokens.indexed.analyzer 0)

abbrev afterScan : Uuid → Db → Except Error ℕ × Db := afterLink (scanCandidates 0)

/-- When only the second file is stored, the third is linked with it by both. -/
theorem function_index_exact_iff_second : ∃ ls n s ls₁ n₁ s₁ ls₂ n₂ s₂,
    Prog.Returns (analyzeAndLink Config.tokens.indexed 0 2 .pe [2]) threeFiles ls n s ∧
    Prog.Returns (analyzeAndLink Config.tokens.indexed 0 3 .pe [3]) s ls₁ n₁ s₁ ∧
    Prog.Returns (scanAndLink Config.tokens.indexed 0 3 .pe [3]) s ls₂ n₂ s₂ ∧
    n₁ = 1 ∧ Inserted s s₁ = Inserted s s₂ := by
  obtain ⟨ls, h⟩ := Prog.returns_of_eval (show (afterIndex 2 threeFiles).1 = .ok 0 by decide +kernel)
  obtain ⟨ls₁, h₁⟩ := Prog.returns_of_eval
    (show (afterIndex 3 (afterIndex 2 threeFiles).2).1 = .ok 1 by decide +kernel)
  obtain ⟨ls₂, h₂⟩ := Prog.returns_of_eval
    (show (afterScan 3 (afterIndex 2 threeFiles).2).1 = .ok 1 by decide +kernel)
  refine ⟨ls, _, _, ls₁, _, _, ls₂, _, _, h, h₁, h₂, rfl,
    (function_index_exact_iff Config.tokens 0 3 .pe [3] _ h₁ h₂).mpr (.inr ?_)⟩
  rintro o ⟨hne, _, ty, score, hlink, _⟩
  have honly : (afterIndex 2 threeFiles).2.withFunctions 0 3 = [2] := by decide +kernel
  have ho : o ∈ (afterIndex 2 threeFiles).2.withFunctions 0 3 :=
    mem_withFunctions_of_linkOf rfl hne hlink
  rw [honly, List.mem_singleton] at ho
  subst ho
  refine mem_pushCandidates.mp ?_
  decide +kernel

/-- The third file shares the first token with the second and none of the four features with the
first: the link with the first is not found. -/
theorem index_misses_link : ∃ ls n s ls' n' s' ls₁ n₁ s₁ ls₂ n₂ s₂,
    Prog.Returns (analyzeAndLink Config.tokens.indexed 0 1 .pe [1]) threeFiles ls n s ∧
    Prog.Returns (analyzeAndLink Config.tokens.indexed 0 2 .pe [2]) s ls' n' s' ∧
    Prog.Returns (analyzeAndLink Config.tokens.indexed 0 3 .pe [3]) s' ls₁ n₁ s₁ ∧
    Prog.Returns (scanAndLink Config.tokens.indexed 0 3 .pe [3]) s' ls₂ n₂ s₂ ∧
    Inserted s' s₁ ≠ Inserted s' s₂ := by
  obtain ⟨ls, h⟩ := Prog.returns_of_eval (show (afterIndex 1 threeFiles).1 = .ok 0 by decide +kernel)
  obtain ⟨ls', h'⟩ := Prog.returns_of_eval
    (show (afterIndex 2 (afterIndex 1 threeFiles).2).1 = .ok 0 by decide +kernel)
  obtain ⟨ls₁, h₁⟩ := Prog.returns_of_eval
    (show (afterIndex 3 (afterIndex 2 (afterIndex 1 threeFiles).2).2).1 = .ok 1 by decide +kernel)
  obtain ⟨ls₂, h₂⟩ := Prog.returns_of_eval
    (show (afterScan 3 (afterIndex 2 (afterIndex 1 threeFiles).2).2).1 = .ok 2 by decide +kernel)
  refine ⟨ls, _, _, ls', _, _, ls₁, _, _, ls₂, _, _, h, h', h₁, h₂, fun heq => ?_⟩
  set s := (afterIndex 2 (afterIndex 1 threeFiles).2).2 with hs
  have hbefore : s.sim.edges.get (edgeKey 0 3 1 .semanticWeak) = none := by decide +kernel
  have hindex : (afterIndex 3 s).2.sim.edges.get (edgeKey 0 3 1 .semanticWeak) = none := by
    decide +kernel
  have hscan : (afterScan 3 s).2.sim.edges.get (edgeKey 0 3 1 .semanticWeak) ≠ none := by
    decide +kernel
  obtain ⟨score, hedge⟩ := hasEdge_of_get_ne_none hscan
  have hmem : (edgeKey 0 3 1 .semanticWeak, score) ∈ Inserted s (afterScan 3 s).2 := ⟨hbefore, hedge⟩
  obtain ⟨_, e, he, _⟩ := heq ▸ hmem
  exact Option.some_ne_none e (he.symm.trans hindex)

end Corpus
