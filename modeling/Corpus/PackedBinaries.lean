/-
Packed binaries get no semantic edges (`semantic/edges.rs`).

An artifact whose code looks packed gets an `analysis_limitation` feature in place of
functions.  It becomes the end of a semantic edge neither when it is analysed, since the
analysis stops there, nor when another artifact is compared with it, since without stored
functions the coverage of its side is zero.

The file and the class of an artifact are fixed, so whether it is packed does not depend
on the run: `Unpacked` is what a stored function says of its artifact, whoever stored it
and whatever was cut off (`SemanticOk`).

* `packed_never_linked` — runs of `analyze_and_link` on any artifacts, in any order, at the
  same time or not, each cut off anywhere.
-/
import Corpus.Rely
import Corpus.SemanticCoverage
import Corpus.ServerMoves
import Mathlib.Tactic.NormNum

namespace Corpus

/-- The semantic layer stores edges of these types. -/
def EdgeType.semantic : EdgeType → Bool
  | semanticStrong | semanticWeak => true
  | _ => false

/-- The classes that are compared. -/
def ArtifactClass.analysed (cls : ArtifactClass) : Prop := cls = .pe ∨ cls = .elf ∨ cls = .machO

/-- With the coverage of `semantic/edges.rs`. -/
def Config.scored (cfg : Config) : Config :=
  { cfg with analyzer := { cfg.analyzer with coverage := coverage } }

/-- Triage blocks the file, or one of its code regions has too much entropy. -/
def Limited (an : Analyzer) (cls : ArtifactClass) (bytes : Bytes) : Prop :=
  (an.triage cls bytes).1 = true ∨
    ∃ l, significantFunctions an (an.functionsFor cls bytes) ([], 0) = .error l

section Packed

variable (an : Analyzer) (bytes : Uuid → Uuid → Bytes) (s₀ : Db)

/-- The artifact `x` has the class `cls`, which is analysed, and is not packed. -/
structure Unpacked (t x : Uuid) (cls : ArtifactClass) : Prop where
  row : (s₀.artifactById t x).map Artifact.artifactClass = some cls
  analysed : cls.analysed
  free : ¬ Limited an cls (bytes t x)

/-- What holds of the semantic rows, for the artifacts of `s₀`. -/
structure SemanticOk (s : Db) : Prop where
  artifacts : s.ingest.artifacts = s₀.ingest.artifacts
  functions : ∀ r ∈ s.sim.functions.rows, ∃ cls, Unpacked an bytes s₀ r.tenant r.artifactId cls
  limitations : ∀ f ∈ s.sim.features.rows, f.family = .semantic → f.name = "analysis_limitation" →
    ∃ cls, (s₀.artifactById f.tenant f.artifactId).map Artifact.artifactClass = some cls ∧
      Limited an cls (bytes f.tenant f.artifactId)
  edges : ∀ e ∈ s.sim.edges.rows, e.edgeType.semantic → ∃ cls,
    Unpacked an bytes s₀ e.tenant e.src cls ∧ Unpacked an bytes s₀ e.tenant e.dst cls

end Packed

/-! ### Statements -/

section Statements

variable {an : Analyzer} {bytes : Uuid → Uuid → Bytes} {s₀ s s' : Db} {t x other : Uuid}
  {cls cls' : ArtifactClass}

theorem Unpacked.class_eq (h : Unpacked an bytes s₀ t x cls)
    (hcls : (s₀.artifactById t x).map Artifact.artifactClass = some cls') : cls = cls' :=
  Option.some.inj (h.row.symm.trans hcls)

/-- Statements on other tables. -/
theorem SemanticOk.frame (h : SemanticOk an bytes s₀ s)
    (ha : s'.ingest.artifacts = s.ingest.artifacts) (hf : s'.sim.functions = s.sim.functions)
    (hl : s'.sim.features = s.sim.features) (he : s'.sim.edges = s.sim.edges) :
    SemanticOk an bytes s₀ s' where
  artifacts := ha.trans h.artifacts
  functions := hf ▸ h.functions
  limitations := hl ▸ h.limitations
  edges := he ▸ h.edges

theorem storeFeature_maintains {name version : String} {value : FeatureValue}
    (h : name = "analysis_limitation" →
      ∃ cls, (s₀.artifactById t x).map Artifact.artifactClass = some cls ∧
        Limited an cls (bytes t x)) :
    (storeFeature t x .semantic name version value).Maintains (SemanticOk an bytes s₀)
      fun _ => True := by
  refine Prog.maintains_update fun s i hs =>
    ⟨hs.artifacts, hs.functions, fun f hf hfam hname => ?_, hs.edges⟩
  obtain hf | rfl := Table.mem_insertNew hf
  · exact hs.limitations f hf hfam hname
  · exact h hname

/-- A packed file leaves a limitation, another one its functions. -/
theorem extractAndStore_maintains
    (hrow : (s₀.artifactById t x).map Artifact.artifactClass = some cls) (hcls : cls.analysed) :
    (extractAndStore an t x cls (bytes t x)).Maintains (SemanticOk an bytes s₀)
      fun r => r.2 = none → Unpacked an bytes s₀ t x cls := by
  unfold extractAndStore
  refine Prog.maintains_bind (storeFeature_maintains fun h => absurd h (by decide)) fun _ _ => ?_
  split
  · next htriage =>
    refine Prog.maintains_bind (storeFeature_maintains fun _ => ⟨cls, hrow, .inl htriage⟩) fun _ _ => ?_
    exact nofun
  · next htriage =>
    cases hsig : significantFunctions an (an.functionsFor cls (bytes t x)) ([], 0) with
    | error l =>
      refine Prog.maintains_bind (storeFeature_maintains fun _ => ⟨cls, hrow, .inr ⟨l, hsig⟩⟩)
        fun _ _ => ?_
      exact nofun
    | ok found =>
      have hfree : Unpacked an bytes s₀ t x cls := by
        refine ⟨hrow, hcls, ?_⟩
        rintro (h | ⟨l, h⟩)
        · exact htriage h
        · rw [hsig] at h
          cases h
      refine Prog.maintains_bind (Q := fun _ => True) ?_ fun _ _ => ?_
      · refine Prog.maintains_loop (fun _ f _ => Prog.maintains_update fun s i hs => ?_) _ () trivial
        refine ⟨hs.artifacts, fun r hr => ?_, hs.limitations, hs.edges⟩
        obtain hr | rfl := Table.mem_insertNew hr
        · exact hs.functions r hr
        · exact ⟨cls, hfree⟩
      refine Prog.maintains_bind (Q := fun _ => True) ?_ fun _ _ => ?_
      · refine Prog.maintains_bind (Prog.maintains_update fun s i hs => hs.frame rfl rfl rfl rfl)
          fun _ _ => Prog.maintains_loop (fun _ f _ => Prog.maintains_update fun s i hs =>
            hs.frame rfl rfl rfl rfl) _ () trivial
      exact Prog.maintains_bind (storeFeature_maintains fun h => absurd h (by decide)) fun _ _ _ => hfree

/-- A counted edge keeps what its row keeps, whichever end comes first, and what the union of
two groups keeps. -/
theorem countEdge_maintains_of {I : Db → Prop} {n : ℕ} {ty : EdgeType} {score : ℚ}
    (hedge : ∀ src dst s now, src = x ∧ dst = other ∨ src = other ∧ dst = x → src < dst → I s →
      I { s with sim := s.sim.addEdge ⟨t, src, dst, ty, modelVersion, score, now⟩ })
    (hgroups : ∀ s s', GroupFrame s s' → I s → I s') :
    (countEdge t x n other ty score).Maintains I fun _ => True := by
  have hends : (if x < other then x else other) = x ∧ (if x < other then other else x) = other ∨
      (if x < other then x else other) = other ∧ (if x < other then other else x) = x := by
    by_cases hlt : x < other
    · exact .inl ⟨if_pos hlt, if_pos hlt⟩
    · exact .inr ⟨if_neg hlt, if_neg hlt⟩
  unfold countEdge insertEdge
  dsimp only
  generalize (if x < other then x else other) = src at hends ⊢
  generalize (if x < other then other else x) = dst at hends ⊢
  refine Prog.maintains_bind (Q := fun _ => True) ?_ fun _ _ => trivial
  refine Prog.maintains_bind (Q := fun _ => True) (Prog.maintains_exec fun s i a s' hs hok => ?_)
    fun inserted _ => ?_
  · split at hok
    · next hlt =>
      cases hok
      exact ⟨hedge src dst s _ hends hlt hs, trivial⟩
    · cases hok
  · split
    · exact Prog.maintains_bind (Q := fun _ => True)
        ((unionGroups_inGroups _ _).maintains fun _ s s' hF hs => hgroups s s' hF hs)
        fun _ _ => trivial
    · trivial

/-- An edge between unpacked artifacts. -/
theorem countEdge_maintains {n : ℕ} {ty : EdgeType} {score : ℚ}
    (hx : Unpacked an bytes s₀ t x cls) (ho : Unpacked an bytes s₀ t other cls) :
    (countEdge t x n other ty score).Maintains (SemanticOk an bytes s₀) fun _ => True := by
  refine countEdge_maintains_of (fun src dst s now hends _ hs => ?_) ?_
  · have hboth : Unpacked an bytes s₀ t src cls ∧ Unpacked an bytes s₀ t dst cls := by
      rcases hends with ⟨rfl, rfl⟩ | ⟨rfl, rfl⟩
      · exact ⟨hx, ho⟩
      · exact ⟨ho, hx⟩
    refine ⟨hs.artifacts, hs.functions, hs.limitations, fun e he hty => ?_⟩
    obtain he | rfl := Table.mem_insertNew he
    · exact hs.edges e he hty
    · exact ⟨cls, hboth⟩
  · rintro s s' ⟨g, m, o, rfl⟩ hs
    exact hs.frame rfl rfl rfl rfl

/-- Without functions on the other side there is no edge. -/
theorem classify_nil (scoring : List FunctionRow) :
    classifySemanticEdge modelV1 (coverage scoring []) = none := by
  have hzero : (coverage scoring []).bToA = 0 := rfl
  have hstrong : ¬ modelV1.semanticStrongCoverage ≤ 0 := by norm_num [modelV1]
  have hweak : ¬ modelV1.semanticWeakCoverage ≤ 0 := by norm_num [modelV1]
  unfold classifySemanticEdge
  rw [hzero, if_neg fun h => hstrong h.2.1, if_neg fun h => hweak h.2]

theorem SemanticOk.unpacked (hs : SemanticOk an bytes s₀ s) {f : FunctionRow}
    (hf : f ∈ s.loadFunctions t other) : ∃ cls, Unpacked an bytes s₀ t other cls := by
  obtain ⟨r, hr, rfl⟩ := List.mem_map.mp ((List.mem_insertionSort _).mp hf)
  obtain ⟨hrow, hkey⟩ := List.mem_filter.mp hr
  simp only [Bool.and_eq_true, decide_eq_true_eq] at hkey
  obtain ⟨⟨ht, hid⟩, -⟩ := hkey
  exact ht ▸ hid ▸ hs.functions r hrow

theorem artifactById_congr (h : s'.ingest.artifacts = s.ingest.artifacts) (t x : Uuid) :
    s'.artifactById t x = s.artifactById t x := by
  unfold Db.artifactById
  rw [h]

theorem linkSemantic_maintains (hcov : an.coverage = coverage) (hx : Unpacked an bytes s₀ t x cls)
    (scoring : List FunctionRow) (n : ℕ) (other : Uuid) :
    (linkSemantic an t x cls scoring n other).Maintains (SemanticOk an bytes s₀) fun _ => True := by
  unfold linkSemantic
  refine Prog.maintains_bind (Q := fun c => c = (s₀.artifactById t other).map Artifact.artifactClass)
    (Prog.maintains_query fun s hs => ?_) fun c hc => ?_
  · rw [artifactById_congr hs.artifacts]
  split
  · trivial
  · next hclass =>
    refine Prog.maintains_bind
      (Q := fun fs => ∀ f ∈ fs, ∃ cls, Unpacked an bytes s₀ t other cls)
      (Prog.maintains_query fun s hs f hf => hs.unpacked hf) fun fs hfs => ?_
    dsimp only
    cases hty : classifySemanticEdge modelV1
        (an.coverage scoring (fs.filter fun f => !an.suppressed f)) with
    | none => trivial
    | some ty =>
      obtain ⟨f, hf⟩ : ∃ f, f ∈ fs.filter fun f => !an.suppressed f := by
        refine List.exists_mem_of_ne_nil _ fun hnil => ?_
        rw [hcov, hnil, classify_nil] at hty
        cases hty
      obtain ⟨cls', ho⟩ := hfs f (List.mem_filter.mp hf).1
      obtain rfl : cls' = cls := ho.class_eq (hc.symm.trans (not_not.mp hclass))
      exact countEdge_maintains hx ho

/-- Candidates are only looked up. -/
theorem semanticCandidates_maintains {I : Db → Prop} (scoring : List FunctionRow) :
    (semanticCandidates an t x scoring).Maintains I fun _ => True := by
  unfold semanticCandidates functionCandidates
  refine Prog.maintains_bind (Q := fun _ => True) (Prog.maintains_query fun _ _ => trivial)
    fun live _ => Prog.maintains_bind (Q := fun _ => True) ?_ fun ids _ => ?_
  · split
    · exact (bandCandidates_reads x _ _ _ _).maintains fun _ _ _ heq hs => heq ▸ hs
    · trivial
  · split
    · exact Prog.maintains_query fun _ _ => trivial
    · trivial

/-- Every statement of `analyze_and_link` keeps what holds of the semantic rows. -/
theorem analyzeAndLink_maintains {cfg : Config} (hcov : cfg.analyzer.coverage = coverage)
    (hrow : (s₀.artifactById t x).map Artifact.artifactClass = some cls) :
    (analyzeAndLink cfg t x cls (bytes t x)).Maintains (SemanticOk cfg.analyzer bytes s₀)
      fun _ => True := by
  unfold analyzeAndLink
  split
  · trivial
  · next hcls =>
    have hcls : cls.analysed := by
      unfold ArtifactClass.analysed
      tauto
    have hreceipt : ∀ r, (persistReceipt t x r).Maintains (SemanticOk cfg.analyzer bytes s₀)
        fun _ => True := fun r => Prog.maintains_update fun s i hs => hs.frame rfl rfl rfl rfl
    refine Prog.maintains_bind (extractAndStore_maintains hrow hcls) ?_
    rintro ⟨functions, limitation⟩ hfree
    refine Prog.maintains_bind (hreceipt _) fun _ _ => ?_
    split
    · trivial
    · next hgo =>
      have hx : Unpacked cfg.analyzer bytes s₀ t x cls := hfree (by
        cases limitation with
        | none => rfl
        | some l => exact absurd (.inl rfl) hgo)
      refine Prog.maintains_bind (storeFeature_maintains fun h => absurd h (by decide)) fun _ _ => ?_
      split
      · trivial
      · refine Prog.maintains_bind (semanticCandidates_maintains _) fun others _ => ?_
        refine Prog.maintains_bind (Prog.maintains_loop
          (fun n other _ => linkSemantic_maintains hcov hx _ n other) others 0 trivial) fun _ _ => ?_
        exact Prog.maintains_bind (hreceipt _) fun _ _ => trivial

end Statements

/-! ### Runs -/

/-- No semantic row yet. -/
structure NoSemantics (s : Db) : Prop where
  functions : s.sim.functions.rows = []
  features : ∀ f ∈ s.sim.features.rows, f.family ≠ .semantic
  edges : ∀ e ∈ s.sim.edges.rows, e.edgeType.semantic = false

/-- The artifacts of the store. -/
def Db.Stored (s : Db) : Type := { a : Artifact // s.artifactById a.tenant a.id = some a }

/-- `analyze_and_link` on an artifact, with the bytes of its object. -/
def linkStored (cfg : Config) (bytes : Uuid → Uuid → Bytes) (s : Db) (a : s.Stored) : Srv ℕ :=
  analyzeAndLink cfg a.1.tenant a.1.id a.1.artifactClass (bytes a.1.tenant a.1.id)

/-- **Packed binaries get no semantic edges.**  Whatever runs of `analyze_and_link` there
have been, and wherever they were cut off. -/
theorem packed_never_linked (cfg : Config) (bytes : Uuid → Uuid → Bytes) (s₀ : Db)
    (hs₀ : NoSemantics s₀) (h : Pool.Hist s₀.Stored Pt Db Env Error ℕ)
    (p : Pool s₀.Stored Pt Db Env Error ℕ)
    (hr : Pool.Reach (linkStored cfg.scored bytes s₀) s₀ h p) :
    (∀ f ∈ p.store.sim.features.rows, f.family = .semantic → f.name = "analysis_limitation" →
        (∀ r ∈ p.store.sim.functions.rows, r.tenant = f.tenant → r.artifactId ≠ f.artifactId) ∧
        ∀ e ∈ p.store.sim.edges.rows, e.edgeType.semantic → e.tenant = f.tenant →
          e.src ≠ f.artifactId ∧ e.dst ≠ f.artifactId) ∧
      ∀ e ∈ p.store.sim.edges.rows, e.edgeType.semantic →
        ∃ a b, p.store.artifactById e.tenant e.src = some a ∧
          p.store.artifactById e.tenant e.dst = some b ∧ a.artifactClass = b.artifactClass ∧
          a.artifactClass.analysed := by
  have hstart : SemanticOk cfg.scored.analyzer bytes s₀ s₀ := by
    refine ⟨rfl, fun r hr => ?_, fun f hf hfam => absurd hfam (hs₀.features f hf), fun e he hty => ?_⟩
    · rw [hs₀.functions] at hr
      cases hr
    · rw [hs₀.edges e he] at hty
      cases hty
  have hok : SemanticOk cfg.scored.analyzer bytes s₀ p.store := by
    refine hr.maintained hstart fun a => analyzeAndLink_maintains rfl ?_
    rw [a.2]
    rfl
  -- a packed artifact is not unpacked
  have hpacked : ∀ f ∈ p.store.sim.features.rows, f.family = .semantic →
      f.name = "analysis_limitation" →
        ∀ cls, ¬ Unpacked cfg.scored.analyzer bytes s₀ f.tenant f.artifactId cls := by
    intro f hf hfam hname cls hfree
    obtain ⟨cls', hcls', hlim⟩ := hok.limitations f hf hfam hname
    obtain rfl := hfree.class_eq hcls'
    exact hfree.free hlim
  refine ⟨fun f hf hfam hname => ⟨fun r hrow ht hid => ?_, fun e he hty ht => ?_⟩, fun e he hty => ?_⟩
  · obtain ⟨cls, hfree⟩ := hok.functions r hrow
    exact hpacked f hf hfam hname cls (ht ▸ hid ▸ hfree)
  · obtain ⟨cls, hsrc, hdst⟩ := hok.edges e he hty
    exact ⟨fun hid => hpacked f hf hfam hname cls (ht ▸ hid ▸ hsrc),
      fun hid => hpacked f hf hfam hname cls (ht ▸ hid ▸ hdst)⟩
  · obtain ⟨cls, hsrc, hdst⟩ := hok.edges e he hty
    obtain ⟨a, ha, hacls⟩ := Option.map_eq_some_iff.mp hsrc.row
    obtain ⟨b, hb, hbcls⟩ := Option.map_eq_some_iff.mp hdst.row
    refine ⟨a, b, ?_, ?_, hacls.trans hbcls.symm, hacls ▸ hsrc.analysed⟩
    · rw [artifactById_congr hok.artifacts, ha]
    · rw [artifactById_congr hok.artifacts, hb]

/-- Files with one function; the one that starts with the byte 1 also has a region that looks
packed, behind it. -/
def Config.regions : Config :=
  { Config.plain with analyzer := { Config.plain.analyzer with
      isSignificant := fun _ => true
      functionsFor := fun _ bytes =>
        ⟨1, [⟨0, 8, none, 8, [1]⟩]⟩ :: if bytes.head? = some 1 then [⟨8, []⟩] else [] } }

def peArtifact (x : Uuid) : Artifact :=
  ⟨x, 0, x, [x.toUInt8], 1, .pe, .committed, ⟨0, hexEncode [x.toUInt8]⟩, 0, .endpoint, .null⟩

/-- Three artifacts, nothing analysed. -/
def threeFiles : Db :=
  { Db.empty with ingest := { Db.empty.ingest with
    artifacts := (((Table.empty.insertNew (peArtifact 1)).insertNew (peArtifact 2)).insertNew
      (peArtifact 3)) } }

theorem stored_one : threeFiles.artifactById 0 1 = some (peArtifact 1) := rfl

theorem stored_two : threeFiles.artifactById 0 2 = some (peArtifact 2) := rfl

theorem stored_three : threeFiles.artifactById 0 3 = some (peArtifact 3) := rfl

theorem noSemantics_threeFiles : NoSemantics threeFiles where
  functions := rfl
  features _ hf := absurd hf List.not_mem_nil
  edges _ he := absurd he List.not_mem_nil

/-- The packed one is analysed, the second after a run that was cut off, and the third. -/
def linkThree : List (Act threeFiles.Stored Env) :=
  let exec (n k : ℕ) : List (Act threeFiles.Stored Env) := List.replicate k (.exec n (.drawing 9))
  .spawn ⟨peArtifact 1, stored_one⟩ :: exec 0 3 ++ .spawn ⟨peArtifact 2, stored_two⟩ :: exec 1 2 ++
    .kill 1 :: .spawn ⟨peArtifact 2, stored_two⟩ :: exec 2 9 ++
    .spawn ⟨peArtifact 3, stored_three⟩ :: exec 3 12

/-- There are limitations and semantic edges to speak of. -/
theorem packed_never_linked_three : ∃ h p,
    Pool.Reach (linkStored Config.regions.scored (fun _ x => [x.toUInt8]) threeFiles) threeFiles h p ∧
      (∃ f ∈ p.store.sim.features.rows, f.name = "analysis_limitation" ∧
        ∀ r ∈ p.store.sim.functions.rows, r.tenant = f.tenant → r.artifactId ≠ f.artifactId) ∧
      ∃ e ∈ p.store.sim.edges.rows, ∃ a b, p.store.artifactById e.tenant e.src = some a ∧
        p.store.artifactById e.tenant e.dst = some b ∧ a.artifactClass = b.artifactClass := by
  obtain ⟨h, p, hr, hchk⟩ := Pool.exists_reach
    (linkStored Config.regions.scored (fun _ x => [x.toUInt8]) threeFiles) threeFiles linkThree
    (fun _ p => (p.store.sim.features.rows.any fun f =>
        f.family = .semantic && f.name = "analysis_limitation") &&
      p.store.sim.edges.rows.any fun e => e.edgeType.semantic) (by decide +kernel)
  simp only [Bool.and_eq_true, List.any_eq_true, decide_eq_true_eq] at hchk
  obtain ⟨⟨f, hf, hfam, hname⟩, e, he, hty⟩ := hchk
  obtain ⟨hpacked, hedges⟩ := packed_never_linked Config.regions (fun _ x => [x.toUInt8])
    threeFiles noSemantics_threeFiles h p hr
  obtain ⟨a, b, ha, hb, hcls, _⟩ := hedges e he hty
  exact ⟨h, p, hr, ⟨f, hf, hname, (hpacked f hf hfam hname).1⟩, e, he, a, b, ha, hb, hcls⟩

end Corpus
