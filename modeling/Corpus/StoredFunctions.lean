/-
Functions as they are scored, and as they are stored (`semantic/edges.rs`).

`extract_and_store` returns the significant functions of a file and stores them: words as
signed columns, token hashes packed as little-endian bytes, one row per offset.  A later
analysis of another file reads the rows back.  The columns lose nothing
(`unpack_pack`), but of several functions at one offset, such as aliased symbols,
only the first is stored: what is read back is what was returned exactly when the offsets
are distinct.

* `semanticLink_comm`, `semanticLink_perm` — over distinct offsets, the type and score of an
  edge depend neither on the side nor on the order of the rows;
* `LinksOk` — what holds of the rows of any history, and of the edges when no analysis takes
  a step while another artifact's functions are partly stored;
* `stored_as_fresh` — the claims of this file together.
-/
import Corpus.Extraction
import Corpus.PackedBinaries
import Corpus.PairEvidence

namespace Corpus

/-! ### Columns -/

/-- The columns of `similarity_function` that `load_functions` reads. -/
structure FunctionColumns where
  funcOffset : Int64
  funcSize : Int64
  name : Option String
  insnCount : Int64
  sig : Bytes

/-- The token hashes, eight bytes each. -/
def packHashes (hashes : List UInt64) : Bytes := hashes.flatMap fun h => toLe 8 h.toNat

/-- `chunks_exact(8)` and `from_le_bytes`. -/
def unpackHashes : Bytes → List UInt64
  | b₀ :: b₁ :: b₂ :: b₃ :: b₄ :: b₅ :: b₆ :: b₇ :: rest =>
    UInt64.ofNat (fromLe [b₀, b₁, b₂, b₃, b₄, b₅, b₆, b₇]) :: unpackHashes rest
  | _ => []

/-- The columns that `extract_and_store` binds. -/
def FunctionRow.pack (f : FunctionRow) : FunctionColumns where
  funcOffset := (UInt64.ofNat f.offset).toInt64
  funcSize := (UInt64.ofNat f.size).toInt64
  name := f.name
  insnCount := (UInt64.ofNat f.insnCount).toInt64
  sig := packHashes f.tokenHashes

/-- The row that `load_functions` makes of the columns. -/
def FunctionColumns.unpack (c : FunctionColumns) : FunctionRow where
  offset := c.funcOffset.toUInt64.toNat
  size := c.funcSize.toUInt64.toNat
  name := c.name
  insnCount := c.insnCount.toUInt64.toNat
  tokenHashes := unpackHashes c.sig

/-- The numbers of the row are words. -/
structure FunctionRow.Words (f : FunctionRow) : Prop where
  offset : f.offset < 2 ^ 64
  size : f.size < 2 ^ 64
  insnCount : f.insnCount < 2 ^ 64

theorem unpackHashes_packHashes (hashes : List UInt64) :
    unpackHashes (packHashes hashes) = hashes := by
  induction hashes with
  | nil => rfl
  | cons h hashes ih =>
    have hword : UInt64.ofNat (fromLe (toLe 8 h.toNat)) = h := by
      rw [fromLe_toLe_mod, Nat.mod_eq_of_lt (Nat.lt_of_lt_of_le h.toNat_lt (by decide)),
        UInt64.ofNat_toNat]
    show UInt64.ofNat (fromLe (toLe 8 h.toNat)) :: unpackHashes (packHashes hashes) = _
    rw [hword, ih]

/-- Reading a row back from its columns. -/
theorem unpack_pack {f : FunctionRow} (h : f.Words) : f.pack.unpack = f := by
  unfold FunctionRow.pack FunctionColumns.unpack
  simp only [UInt64.toUInt64_toInt64, UInt64.toNat_ofNat', Nat.mod_eq_of_lt h.offset,
    Nat.mod_eq_of_lt h.size, Nat.mod_eq_of_lt h.insnCount, unpackHashes_packHashes]

/-! ### What a file gives -/

/-- The functions that `extract_and_store` returns. -/
def freshFunctions (an : Analyzer) (cls : ArtifactClass) (bytes : Bytes) : List FunctionRow :=
  if (an.triage cls bytes).1 then []
  else match significantFunctions an (an.functionsFor cls bytes) ([], 0) with
  | .error _ => []
  | .ok r => r.1

/-- The functions that enter matching. -/
def Analyzer.scoring (an : Analyzer) (fs : List FunctionRow) : List FunctionRow :=
  fs.filter fun f => !an.suppressed f

/-- The type and score of an edge with this coverage. -/
def Coverage.link (c : Coverage) : Option (EdgeType × ℚ) :=
  (classifySemanticEdge modelV1 c).map fun ty => (ty, (c.aToB + c.bToA) / 2)

/-- The coverage from the other side. -/
def Coverage.swap (c : Coverage) : Coverage := ⟨c.bToA, c.aToB, c.matchedPairs⟩

/-- The type and score of the edge between two lists of functions. -/
def semanticLink (an : Analyzer) (a b : List FunctionRow) : Option (EdgeType × ℚ) :=
  (an.coverage (an.scoring a) (an.scoring b)).link

section Scores

variable {a b a' b' : List FunctionRow}

theorem DistinctOffsets.perm (h : DistinctOffsets a) (hp : a'.Perm a) : DistinctOffsets a' :=
  (hp.map FunctionRow.offset).nodup_iff.mpr h

theorem DistinctOffsets.scoring {an : Analyzer} (h : DistinctOffsets a) :
    DistinctOffsets (an.scoring a) :=
  h.sublist (List.filter_sublist.map _)

theorem coverage_swap (ha : DistinctOffsets a) (hb : DistinctOffsets b) :
    coverage b a = (coverage a b).swap := by
  obtain ⟨-, ⟨hm, hab, hba⟩, -⟩ := coverageWithTau_symm matchTau ha hb
  show Coverage.mk (coverageWithTau b a matchTau).aToB (coverageWithTau b a matchTau).bToA
    (coverageWithTau b a matchTau).matchedPairs = _
  rw [hab, hba, hm]
  rfl

/-- The coverage, by the number of assigned pairs. -/
theorem coverage_eq (a b : List FunctionRow) :
    coverage a b =
      ⟨if a.isEmpty then 0 else ((assignedPairs a b matchTau).length : ℚ) / (a.length : ℚ),
        if b.isEmpty then 0 else ((assignedPairs a b matchTau).length : ℚ) / (b.length : ℚ),
        (assignedPairs a b matchTau).length⟩ := by
  rw [length_assignedPairs]
  rfl

theorem coverage_perm (ha : DistinctOffsets a) (hb : DistinctOffsets b) (hpa : a'.Perm a)
    (hpb : b'.Perm b) : coverage a' b' = coverage a b := by
  have hmem : ∀ p, p ∈ assignedPairs a' b' matchTau ↔ p ∈ assignedPairs a b matchTau :=
    mem_assignedPairs_perm ha hb hpa hpb
  have hlen : (assignedPairs a' b' matchTau).length = (assignedPairs a b matchTau).length :=
    ((List.perm_ext_iff_of_nodup (assignedPairs_nodup (ha.perm hpa)) (assignedPairs_nodup ha)).mpr
      hmem).length_eq
  rw [coverage_eq, coverage_eq, hlen, hpa.length_eq, hpb.length_eq, hpa.isEmpty_eq, hpb.isEmpty_eq]

theorem Coverage.link_swap (c : Coverage) : c.swap.link = c.link := by
  have hclass : classifySemanticEdge modelV1 c.swap = classifySemanticEdge modelV1 c :=
    if_congr and_left_comm rfl (if_congr and_comm rfl rfl)
  rw [Coverage.link, hclass, Coverage.link]
  simp only [Coverage.swap, add_comm]

/-- The edge is the same from either side. -/
theorem semanticLink_comm {an : Analyzer} (hcov : an.coverage = coverage) (ha : DistinctOffsets a)
    (hb : DistinctOffsets b) : semanticLink an b a = semanticLink an a b := by
  unfold semanticLink
  rw [hcov, coverage_swap ha.scoring hb.scoring, Coverage.link_swap]

/-- The order of the rows does not matter. -/
theorem semanticLink_perm {an : Analyzer} (hcov : an.coverage = coverage) (ha : DistinctOffsets a)
    (hb : DistinctOffsets b) (hpa : a'.Perm a) (hpb : b'.Perm b) :
    semanticLink an a' b' = semanticLink an a b := by
  unfold semanticLink
  have hpa : (an.scoring a').Perm (an.scoring a) := hpa.filter _
  have hpb : (an.scoring b').Perm (an.scoring b) := hpb.filter _
  rw [hcov, coverage_perm ha.scoring hb.scoring hpa hpb]

end Scores

/-! ### Rows of a history -/

section Rows

variable (an : Analyzer) (bytes : Uuid → Uuid → Bytes) (s₀ : Db)

/-- The functions of an artifact of `s₀`. -/
def freshOf (t x : Uuid) : List FunctionRow :=
  match (s₀.artifactById t x).map Artifact.artifactClass with
  | none => []
  | some cls => freshFunctions an cls (bytes t x)

/-- Every artifact but `x` has all of its functions stored, or none; of those with functions
at one offset nothing is asked. -/
def OthersWhole (t x : Uuid) (s : Db) : Prop :=
  ∀ y, y ≠ x → DistinctOffsets (freshOf an bytes s₀ t y) →
    s.loadFunctions t y = [] ∨ (s.loadFunctions t y).Perm (freshOf an bytes s₀ t y)

/-- The edge has the type and the score of its ends, as far as their offsets are distinct. -/
def LinkOk (e : Edge) : Prop :=
  DistinctOffsets (freshOf an bytes s₀ e.tenant e.src) →
    DistinctOffsets (freshOf an bytes s₀ e.tenant e.dst) →
      semanticLink an (freshOf an bytes s₀ e.tenant e.src) (freshOf an bytes s₀ e.tenant e.dst) =
        some (e.edgeType, e.score)

/-- What holds of the rows that analyses store; of the edges, if `P`. -/
structure LinksOk (P : Prop) (s : Db) : Prop where
  artifacts : s.ingest.artifacts = s₀.ingest.artifacts
  functions : ∀ r ∈ s.sim.functions.rows, r.version = semanticExtractorVersion →
    r.function ∈ freshOf an bytes s₀ r.tenant r.artifactId
  edges : P → ∀ e ∈ s.sim.edges.rows, e.edgeType.semantic →
    e.modelVersion = modelVersion ∧ LinkOk an bytes s₀ e

end Rows

section Statements

variable {an : Analyzer} {bytes : Uuid → Uuid → Bytes} {s₀ s s' : Db} {P : Prop}
  {t x other : Uuid} {cls : ArtifactClass}

theorem freshOf_eq (h : (s₀.artifactById t x).map Artifact.artifactClass = some cls) :
    freshOf an bytes s₀ t x = freshFunctions an cls (bytes t x) := by
  rw [freshOf, h]

/-- Statements on other tables. -/
theorem LinksOk.frame (h : LinksOk an bytes s₀ P s)
    (ha : s'.ingest.artifacts = s.ingest.artifacts) (hf : s'.sim.functions = s.sim.functions)
    (he : s'.sim.edges = s.sim.edges) : LinksOk an bytes s₀ P s' where
  artifacts := ha.trans h.artifacts
  functions := hf ▸ h.functions
  edges := he ▸ h.edges

theorem mem_loadFunctions {f : FunctionRow} : f ∈ s.loadFunctions t x ↔
    ⟨t, x, semanticExtractorVersion, f⟩ ∈ s.sim.functions.rows := by
  rw [Db.loadFunctions, List.mem_insertionSort, List.mem_map]
  constructor
  · rintro ⟨⟨t', x', version, g⟩, hr, rfl⟩
    obtain ⟨hrow, hkey⟩ := List.mem_filter.mp hr
    simp only [Bool.and_eq_true, decide_eq_true_eq] at hkey
    obtain ⟨⟨rfl, rfl⟩, rfl⟩ := hkey
    exact hrow
  · exact fun hrow => ⟨_, List.mem_filter.mpr ⟨hrow, by simp⟩, rfl⟩

/-- Stored functions are among those of their artifact. -/
theorem LinksOk.mem_fresh (h : LinksOk an bytes s₀ P s) {f : FunctionRow}
    (hf : f ∈ s.loadFunctions t x) : f ∈ freshOf an bytes s₀ t x :=
  h.functions _ (mem_loadFunctions.mp hf) rfl

theorem storeFeature_links (family : Family) (name version : String) (value : FeatureValue) :
    (storeFeature t x family name version value).Maintains (LinksOk an bytes s₀ P) fun _ => True :=
  Prog.maintains_update fun _ _ hs => hs.frame rfl rfl rfl

/-- The extraction stores functions of its artifact, and returns all of them. -/
theorem extractAndStore_links
    (hrow : (s₀.artifactById t x).map Artifact.artifactClass = some cls) :
    (extractAndStore an t x cls (bytes t x)).Maintains (LinksOk an bytes s₀ P)
      fun r => r.1 = freshOf an bytes s₀ t x := by
  rw [freshOf_eq hrow]
  unfold extractAndStore freshFunctions
  refine Prog.maintains_bind (storeFeature_links _ _ _ _) fun _ _ => ?_
  split
  · exact Prog.maintains_bind (storeFeature_links _ _ _ _) fun _ _ => rfl
  · next htriage =>
    cases hsig : significantFunctions an (an.functionsFor cls (bytes t x)) ([], 0) with
    | error l => exact Prog.maintains_bind (storeFeature_links _ _ _ _) fun _ _ => rfl
    | ok found =>
      have hfresh : freshOf an bytes s₀ t x = found.1 := by
        rw [freshOf_eq hrow, freshFunctions, if_neg htriage, hsig]
      refine Prog.maintains_bind (Q := fun _ => True) ?_ fun _ _ => ?_
      · refine Prog.maintains_loop_mem _ (fun f hf _ _ => Prog.maintains_update fun s i hs => ?_)
          () trivial
        refine ⟨hs.artifacts, fun r hr hv => ?_, hs.edges⟩
        obtain hr | rfl := Table.mem_insertNew hr
        · exact hs.functions r hr hv
        · exact hfresh ▸ hf
      refine Prog.maintains_bind (Q := fun _ => True) ?_ fun _ _ => ?_
      · refine Prog.maintains_bind (Prog.maintains_update fun s i hs => hs.frame rfl rfl rfl)
          fun _ _ => Prog.maintains_loop (fun _ f _ => Prog.maintains_update fun s i hs =>
            hs.frame rfl rfl rfl) _ () trivial
      exact Prog.maintains_bind (storeFeature_links _ _ _ _) fun _ _ => rfl

/-- A semantic edge that is right from the side of `x`. -/
theorem countEdge_links (hcov : an.coverage = coverage) {n : ℕ} {ty : EdgeType} {score : ℚ}
    (hlink : P → x ≠ other → DistinctOffsets (freshOf an bytes s₀ t x) →
      DistinctOffsets (freshOf an bytes s₀ t other) →
        semanticLink an (freshOf an bytes s₀ t x) (freshOf an bytes s₀ t other) =
          some (ty, score)) :
    (countEdge t x n other ty score).Maintains (LinksOk an bytes s₀ P) fun _ => True := by
  refine countEdge_maintains_of (fun src dst s now hends hlt hs => ?_) ?_
  · have hok : P → LinkOk an bytes s₀ ⟨t, src, dst, ty, modelVersion, score, now⟩ := by
      rcases hends with ⟨rfl, rfl⟩ | ⟨rfl, rfl⟩
      · exact fun hP => hlink hP (Nat.ne_of_lt hlt)
      · exact fun hP ho hx => (semanticLink_comm hcov hx ho).trans (hlink hP (Nat.ne_of_gt hlt) hx ho)
    refine ⟨hs.artifacts, hs.functions, fun hP e he hty => ?_⟩
    obtain he | rfl := Table.mem_insertNew he
    · exact hs.edges hP e he hty
    · exact ⟨rfl, hok hP⟩
  · rintro s s' ⟨g, m, o, rfl⟩ hs
    exact hs.frame rfl rfl rfl

/-- What the store may do while an analysis of `x` runs: keep `LinksOk`. -/
abbrev KeepsLinks (an : Analyzer) (bytes : Uuid → Uuid → Bytes) (s₀ : Db) (P : Prop) (s s' : Db) :
    Prop :=
  LinksOk an bytes s₀ P s → LinksOk an bytes s₀ P s'

/-- What is assumed of the statements of an analysis of `x` on its rows, if `P`. -/
abbrev WholeIf (an : Analyzer) (bytes : Uuid → Uuid → Bytes) (s₀ : Db) (P : Prop) (t x : Uuid) :
    Pt → Env → Db → Prop :=
  fun l _ s => P → l = .sim (.analyze t x) → OthersWhole an bytes s₀ t x s

/-- The comparison with one other artifact: its rows are read while they are whole. -/
theorem linkSemantic_links (hcov : an.coverage = coverage) (n : ℕ) (other : Uuid)
    (hs : LinksOk an bytes s₀ P s) :
    (linkSemantic an t x cls (an.scoring (freshOf an bytes s₀ t x)) n other).Keeps
      (KeepsLinks an bytes s₀ P) (WholeIf an bytes s₀ P t x) (fun _ s => LinksOk an bytes s₀ P s)
      s := by
  unfold linkSemantic
  refine Prog.keeps_query_bind (fun _ h => h) fun s₁ hR₁ _ _ => ?_
  have hs₁ := hR₁ hs
  split
  · exact hs₁
  refine Prog.keeps_query_bind (fun _ h => h) fun s₂ hR₂ _ hwhole => ?_
  have hs₂ := hR₂ hs₁
  dsimp only
  cases hty : classifySemanticEdge modelV1 (an.coverage (an.scoring (freshOf an bytes s₀ t x))
      ((s₂.loadFunctions t other).filter fun f => !an.suppressed f)) with
  | none => exact hs₂
  | some ty =>
    refine ((countEdge_links hcov fun hP hne hx ho => ?_).keeps_and hs₂).mono fun _ _ h => h.2
    -- the rows that were read are those of the file
    have hread : (s₂.loadFunctions t other).Perm (freshOf an bytes s₀ t other) := by
      refine (hwhole hP rfl other (Ne.symm hne) ho).resolve_left fun hnil => ?_
      rw [hnil, hcov, List.filter_nil, classify_nil] at hty
      cases hty
    rw [← semanticLink_perm hcov hx ho (List.Perm.refl _) hread]
    exact congrArg (Option.map fun ty => (ty, _)) hty

/-- Every statement of `analyze_and_link` keeps what holds of the rows and edges. -/
theorem analyzeAndLink_links {cfg : Config} (hcov : cfg.analyzer.coverage = coverage)
    (hrow : (s₀.artifactById t x).map Artifact.artifactClass = some cls)
    (hs : LinksOk cfg.analyzer bytes s₀ P s) :
    (analyzeAndLink cfg t x cls (bytes t x)).Keeps (KeepsLinks cfg.analyzer bytes s₀ P)
      (WholeIf cfg.analyzer bytes s₀ P t x) (fun _ _ => True) s := by
  unfold analyzeAndLink
  split
  · trivial
  refine Prog.keeps_bind ((extractAndStore_links hrow).keeps_and hs) ?_
  rintro ⟨functions, limitation⟩ s₁ ⟨rfl, hs₁⟩
  have hreceipt : ∀ r, (persistReceipt t x r).Maintains (LinksOk cfg.analyzer bytes s₀ P)
      fun _ => True := fun r => Prog.maintains_update fun s i hs => hs.frame rfl rfl rfl
  refine Prog.keeps_bind ((hreceipt _).keeps_and hs₁) fun _ s₂ hs₂ => ?_
  split
  · trivial
  refine Prog.keeps_bind ((storeFeature_links _ _ _ _).keeps_and hs₂.2) fun _ s₃ hs₃ => ?_
  split
  · trivial
  refine Prog.keeps_bind ((semanticCandidates_maintains _).keeps_and hs₃.2) fun others s₄ hs₄ => ?_
  refine Prog.keeps_bind (Prog.keeps_loop (fun n other s hs =>
    linkSemantic_links hcov n other hs) others 0 s₄ hs₄.2) fun edges s₅ hs₅ => ?_
  exact Prog.keeps_bind ((hreceipt _).keeps_and hs₅) fun _ _ _ => trivial

end Statements

/-! ### Storing and reading back -/

section Reading

variable {an : Analyzer} {s s' : Db} {t x : Uuid} {cls : ArtifactClass} {bytes : Bytes}

/-- The row of `similarity_function` for a function. -/
def functionRow (t x : Uuid) (f : FunctionRow) : SimFunction := ⟨t, x, semanticExtractorVersion, f⟩

theorem wp_storeFunctions (t x : Uuid) (fs : List FunctionRow) (s : Db) :
    Prog.wp (fun _ _ => True) (fun _ s' => s'.sim.functions =
      (fs.map (functionRow t x)).foldl Table.insertNew s.sim.functions)
      (Prog.loop (fun _ f => Prog.update (.sim (.analyze t x)) fun s _ => { s with sim := { s.sim with
        functions := s.sim.functions.insertNew ⟨t, x, semanticExtractorVersion, f⟩ } }) fs () :
          Srv Unit) s := by
  refine Prog.wp_loop (I := fun rest _ s' =>
    (rest.map (functionRow t x)).foldl Table.insertNew s'.sim.functions =
      (fs.map (functionRow t x)).foldl Table.insertNew s.sim.functions) ?_ ?_ _ _ _ rfl
  · exact fun _ _ h => h
  · exact fun f rest _ s' h => ⟨trivial, fun _ => h⟩

/-- Run alone, the extraction returns the functions of the file and inserts a row for each. -/
theorem wp_extractAndStore (an : Analyzer) (t x : Uuid) (cls : ArtifactClass) (bytes : Bytes)
    (s : Db) : (extractAndStore an t x cls bytes).wp (fun _ _ => True)
      (fun r s' => ∀ res, r = .ok res → res.1 = freshFunctions an cls bytes ∧
        s'.sim.functions = ((freshFunctions an cls bytes).map (functionRow t x)).foldl
          Table.insertNew s.sim.functions) s := by
  have hfeature : ∀ T name value, (storeFeature t x .semantic name semanticExtractorVersion
      value).Maintains (fun s : Db => s.sim.functions = T) fun _ => True := fun T name value =>
    Prog.maintains_update fun _ _ h => h
  have hbands : ∀ T fs, (storeFunctionBands an t x fs).Maintains
      (fun s : Db => s.sim.functions = T) fun _ => True := fun T fs =>
    Prog.maintains_bind (Prog.maintains_update fun _ _ h => h) fun _ _ =>
      Prog.maintains_loop (fun _ _ _ => Prog.maintains_update fun _ _ h => by exact h) _ () trivial
  have hlate : ∀ {α : Type} T (p : Srv α) (a : List FunctionRow × Option String) (s : Db),
      p.Maintains (fun s : Db => s.sim.functions = T) (fun _ => True) → s.sim.functions = T →
      a.1 = freshFunctions an cls bytes →
      (p >>= fun _ => Prog.ret a).wp (fun _ _ => True) (fun r s' => ∀ res, r = .ok res →
        res.1 = freshFunctions an cls bytes ∧ s'.sim.functions = T) s := by
    intro α T p a s hp hT ha
    refine Prog.wp_bind (Prog.wp_mono (fun _ _ _ => trivial) (fun r s' hr => ?_) (hp.wp hT))
    cases r with
    | error e => exact nofun
    | ok _ =>
      intro res hres
      obtain rfl := Except.ok.inj hres
      exact ⟨ha, hr.1⟩
  unfold extractAndStore
  refine Prog.wp_bind (Prog.wp_mono (fun _ _ _ => trivial) (fun r s₁ hr => ?_)
    ((hfeature s.sim.functions _ _).wp rfl))
  cases r with
  | error e => exact nofun
  | ok _ =>
    have hs₁ : s₁.sim.functions = s.sim.functions := hr.1
    dsimp only
    split
    · next htriage =>
      have hfresh : freshFunctions an cls bytes = [] := by rw [freshFunctions, if_pos htriage]
      rw [hfresh]
      rw [hfresh] at hlate
      exact hlate _ _ _ s₁ (hfeature _ _ _) hs₁ rfl
    · next htriage =>
      cases hsig : significantFunctions an (an.functionsFor cls bytes) ([], 0) with
      | error l =>
        have hfresh : freshFunctions an cls bytes = [] := by
          rw [freshFunctions, if_neg htriage, hsig]
        rw [hfresh]
        rw [hfresh] at hlate
        exact hlate _ _ _ s₁ (hfeature _ _ _) hs₁ rfl
      | ok found =>
        have hfresh : freshFunctions an cls bytes = found.1 := by
          rw [freshFunctions, if_neg htriage, hsig]
        refine Prog.wp_bind (Prog.wp_mono (fun _ _ h => h) (fun r s₂ hr => ?_)
          (wp_storeFunctions t x found.1 s₁))
        cases r with
        | error e => exact nofun
        | ok _ =>
          rw [hs₁, ← hfresh] at hr
          refine Prog.wp_bind (Prog.wp_mono (fun _ _ _ => trivial) (fun r s₃ hr => ?_)
            ((hbands _ _).wp hr))
          cases r with
          | error e => exact nofun
          | ok _ => exact hlate _ _ _ s₃ (hfeature _ _ _) hr.1 hfresh.symm

/-- Rows of the file, at every offset of the file. -/
theorem loadFunctions_perm {fresh : List FunctionRow} (hmem : ∀ f ∈ s.loadFunctions t x, f ∈ fresh)
    (hrow : ∀ f ∈ fresh, ∃ r ∈ s.sim.functions.rows, r.key = (functionRow t x f).key)
    (hd : DistinctOffsets fresh) : (s.loadFunctions t x).Perm fresh := by
  refine (List.perm_ext_iff_of_nodup ((loadFunctions_distinct s t x).of_map _)
    (List.Nodup.of_map _ hd)).mpr fun f => ⟨hmem f, fun hf => ?_⟩
  obtain ⟨⟨t', x', version, g⟩, hr, hkey⟩ := hrow f hf
  simp only [SimFunction.key, functionRow, Prod.mk.injEq] at hkey
  obtain ⟨rfl, rfl, hoff, rfl⟩ := hkey
  have hg := mem_loadFunctions.mpr hr
  obtain rfl : g = f := List.inj_on_of_nodup_map hd (hmem g hg) hf hoff
  exact hg

section Insert

variable {fresh : List FunctionRow} (hold : ∀ f ∈ s.loadFunctions t x, f ∈ fresh)
  (hnew : s'.sim.functions =
    (fresh.map (functionRow t x)).foldl Table.insertNew s.sim.functions)

include hold hnew

/-- A row with the key of `f` is a row of the file with its offset. -/
theorem stored_of_get {f : FunctionRow} {r : SimFunction}
    (h : s'.sim.functions.get (functionRow t x f).key = some r) :
    ∃ g ∈ fresh, r = functionRow t x g ∧ g.offset = f.offset := by
  rw [hnew, Table.get_foldl_insertNew] at h
  rcases Option.or_eq_some_iff.mp h with h | ⟨-, h⟩
  · obtain ⟨t', x', version, g⟩ := r
    obtain ⟨hmem, hkey⟩ := Table.mem_of_get h
    simp only [SimFunction.key, functionRow, Prod.mk.injEq] at hkey
    obtain ⟨rfl, rfl, hoff, rfl⟩ := hkey
    exact ⟨g, hold g (mem_loadFunctions.mpr hmem), rfl, hoff⟩
  · obtain ⟨g, hg, rfl⟩ := List.mem_map.mp (List.mem_of_find?_eq_some h)
    have hkey : (functionRow t x g).key = (functionRow t x f).key := by
      simpa using List.find?_some h
    simp only [SimFunction.key, functionRow, Prod.mk.injEq] at hkey
    exact ⟨g, hg, rfl, hkey.2.2.1⟩

theorem mem_fresh_of_load {f : FunctionRow} (hf : f ∈ s'.loadFunctions t x) : f ∈ fresh := by
  obtain ⟨g, hg, heq, -⟩ :=
    stored_of_get hold hnew (Table.mem_rows_iff.mp (mem_loadFunctions.mp hf))
  have hfg : f = g := congrArg SimFunction.function heq
  exact hfg ▸ hg

/-- What is read back is what was returned exactly when the offsets are distinct. -/
theorem loadFunctions_perm_iff : (s'.loadFunctions t x).Perm fresh ↔ DistinctOffsets fresh := by
  refine ⟨fun h => (loadFunctions_distinct s' t x).perm h.symm, fun hd => ?_⟩
  refine loadFunctions_perm (fun f => mem_fresh_of_load hold hnew) (fun f hf => ?_) hd
  have hsome : ∃ r, s'.sim.functions.get (functionRow t x f).key = some r := by
    rw [hnew, Table.get_foldl_insertNew]
    refine Option.isSome_iff_exists.mp ?_
    rw [Option.isSome_or, Bool.or_eq_true]
    exact .inr (List.find?_isSome.mpr ⟨_, List.mem_map_of_mem hf, by simp⟩)
  obtain ⟨r, hr⟩ := hsome
  exact ⟨r, Table.mem_of_get hr⟩

end Insert

end Reading

/-! ### Runs -/

theorem LinksOk.start {an : Analyzer} {bytes : Uuid → Uuid → Bytes} {s₀ : Db} (P : Prop)
    (h : NoSemantics s₀) : LinksOk an bytes s₀ P s₀ := by
  refine ⟨rfl, fun r hr => ?_, fun _ e he hty => ?_⟩
  · rw [h.functions] at hr
    cases hr
  · rw [h.edges e he] at hty
    cases hty

/-- What holds of the rows after any history; of the edges, when rows are read whole. -/
theorem links_kept {cfg : Config} {bytes : Uuid → Uuid → Bytes} {s₀ : Db} (P : Prop)
    (hcov : cfg.analyzer.coverage = coverage) (hs₀ : NoSemantics s₀)
    {h : Pool.Hist s₀.Stored Pt Db Env Error ℕ} {p : Pool s₀.Stored Pt Db Env Error ℕ}
    (hr : Pool.Reach (linkStored cfg bytes s₀) s₀ h p)
    (hok : ∀ e ∈ h, Pool.StepOk (fun a : s₀.Stored =>
      WholeIf cfg.analyzer bytes s₀ P a.1.tenant a.1.id) e.1 e.2) :
    LinksOk cfg.analyzer bytes s₀ P p.store := by
  refine hr.kept (R := KeepsLinks cfg.analyzer bytes s₀ P) (Q := fun _ _ _ => True)
    (fun _ h => h) (fun _ _ _ h h' hs => h' (h hs)) (fun a s hs => ?_) hok (.start P hs₀)
  refine analyzeAndLink_links hcov ?_ (hs (.start P hs₀))
  rw [a.2]
  rfl

/-- **Stored functions are the fresh ones exactly when the offsets are distinct**, and then
a pair has one semantic edge, whichever side was analysed last. -/
theorem stored_as_fresh (cfg : Config) (bytes : Uuid → Uuid → Bytes) (s₀ : Db)
    (hs₀ : NoSemantics s₀)
    (hwords : ∀ t x, ∀ f ∈ freshOf cfg.scored.analyzer bytes s₀ t x, f.Words)
    (h : Pool.Hist s₀.Stored Pt Db Env Error ℕ) (p : Pool s₀.Stored Pt Db Env Error ℕ)
    (hr : Pool.Reach (linkStored cfg.scored bytes s₀) s₀ h p) :
    let an := cfg.scored.analyzer
    let fresh := freshOf an bytes s₀
    (∀ (a : s₀.Stored) ls r s', Prog.Returns (extractAndStore an a.1.tenant a.1.id
        a.1.artifactClass (bytes a.1.tenant a.1.id)) p.store ls r s' →
      (((s'.loadFunctions a.1.tenant a.1.id).map fun f => f.pack.unpack).Perm r.1 ↔
        DistinctOffsets (fresh a.1.tenant a.1.id))) ∧
    (∀ t x y fs gs, DistinctOffsets (fresh t x) → DistinctOffsets (fresh t y) →
      fs.Perm (fresh t x) → gs.Perm (fresh t y) →
        semanticLink an (fresh t x) gs = semanticLink an (fresh t y) fs) ∧
    ((∀ e ∈ h, Pool.StepOk (fun a l _ s => l = .sim (.analyze a.1.tenant a.1.id) →
        OthersWhole an bytes s₀ a.1.tenant a.1.id s) e.1 e.2) →
      ∀ e ∈ p.store.sim.edges.rows, e.edgeType.semantic → LinkOk an bytes s₀ e ∧
        ∀ e' ∈ p.store.sim.edges.rows, e'.edgeType.semantic → e'.tenant = e.tenant →
          e'.src = e.src → e'.dst = e.dst → DistinctOffsets (fresh e.tenant e.src) →
            DistinctOffsets (fresh e.tenant e.dst) → e' = e) := by
  intro an fresh
  have hcov : an.coverage = coverage := rfl
  have hedges : (∀ e ∈ h, Pool.StepOk (fun a l _ s => l = .sim (.analyze a.1.tenant a.1.id) →
      OthersWhole an bytes s₀ a.1.tenant a.1.id s) e.1 e.2) →
        LinksOk an bytes s₀ True p.store := fun hok =>
    links_kept True hcov hs₀ hr fun e he => (hok e he).mono fun _ _ _ _ h _ => h
  refine ⟨fun a ls r s' hret => ?_, fun t x y fs gs hx hy hfs hgs => ?_,
    fun hok e he hty => ⟨?_, fun e' he' hty' ht hsrc hdst hds hdd => ?_⟩⟩
  · have hrows : LinksOk an bytes s₀ False p.store :=
      links_kept False hcov hs₀ hr fun e _ => .of_forall (fun _ _ _ _ hP => hP.elim) e.1 e.2
    have hclass : (s₀.artifactById a.1.tenant a.1.id).map Artifact.artifactClass =
        some a.1.artifactClass := by
      rw [a.2]
      rfl
    obtain ⟨hres, hfun⟩ := Prog.wp_returns hret (wp_extractAndStore an _ _ _ _ _) r rfl
    have hfresh : fresh a.1.tenant a.1.id = freshFunctions an a.1.artifactClass
      (bytes a.1.tenant a.1.id) := freshOf_eq hclass
    rw [← hfresh] at hres hfun
    rw [hres, ← loadFunctions_perm_iff (fun f hf => hrows.mem_fresh hf) hfun]
    -- the columns lose nothing
    have hload : ∀ f ∈ s'.loadFunctions a.1.tenant a.1.id, f.pack.unpack = f := by
      intro f hf
      refine unpack_pack (hwords a.1.tenant a.1.id f ?_)
      exact mem_fresh_of_load (fun f hf => hrows.mem_fresh hf) hfun hf
    rw [List.map_congr_left hload, List.map_id']
  · rw [semanticLink_perm hcov hx hy (List.Perm.refl _) hgs,
      semanticLink_perm hcov hy hx (List.Perm.refl _) hfs, semanticLink_comm hcov hx hy]
  · exact ((hedges hok).edges trivial e he hty).2
  · obtain ⟨hv, hlink⟩ := (hedges hok).edges trivial e he hty
    obtain ⟨hv', hlink'⟩ := (hedges hok).edges trivial e' he' hty'
    have hlink := hlink hds hdd
    unfold LinkOk at hlink'
    rw [ht, hsrc, hdst] at hlink'
    have heq := Option.some.inj ((hlink' hds hdd).symm.trans hlink)
    refine Table.eq_of_mem he' he ?_
    rw [Edge.key, Edge.key, ht, hsrc, hdst, (Prod.mk.inj heq).1, hv, hv']

/-! ### Aliased functions -/

def threeFunctions : List FunctionRow :=
  [⟨0, 8, some "open", 8, [1]⟩, ⟨16, 8, some "read", 8, [2]⟩, ⟨32, 8, some "close", 8, [3]⟩]

/-- Files with three functions; the one that starts with the byte 1 has two symbols for each. -/
def Config.aliased : Config :=
  { Config.plain with analyzer := { Config.plain.analyzer with
      isSignificant := fun _ => true
      functionsFor := fun _ bytes => [⟨1, if bytes.head? = some 1 then
        threeFunctions ++ threeFunctions else threeFunctions⟩] } }

def byteOf (_ x : Uuid) : Bytes := [x.toUInt8]

theorem fresh_aliased (cls : ArtifactClass) (bytes : Bytes) :
    freshFunctions Config.aliased.scored.analyzer cls bytes =
      if bytes.head? = some 1 then threeFunctions ++ threeFunctions else threeFunctions := by
  let fs := if bytes.head? = some 1 then threeFunctions ++ threeFunctions else threeFunctions
  have hlow : ¬ modelV1.packedEntropyLimit < 1 := by norm_num [modelV1]
  have hfound : significantFunctions Config.aliased.scored.analyzer
      (Config.aliased.scored.analyzer.functionsFor cls bytes) ([], 0) =
        .ok ([] ++ fs.filter fun _ => true, 0 + fs.length) := by
    show (if modelV1.packedEntropyLimit < 1 then _ else _) = _
    rw [if_neg hlow]
    rfl
  have htriage : ¬ (Config.aliased.scored.analyzer.triage cls bytes).1 = true := Bool.false_ne_true
  rw [freshFunctions, if_neg htriage, hfound]
  show [] ++ fs.filter (fun _ => true) = fs
  rw [List.nil_append, List.filter_true]

theorem words_aliased (t x : Uuid) :
    ∀ f ∈ freshOf Config.aliased.scored.analyzer byteOf threeFiles t x, f.Words := by
  have hthree : ∀ f ∈ threeFunctions, f.Words := by
    intro f hf
    simp only [threeFunctions, List.mem_cons, List.not_mem_nil, or_false] at hf
    rcases hf with rfl | rfl | rfl
    · exact ⟨by decide, by decide, by decide⟩
    · exact ⟨by decide, by decide, by decide⟩
    · exact ⟨by decide, by decide, by decide⟩
  intro f hf
  unfold freshOf at hf
  split at hf
  · cases hf
  · rw [fresh_aliased] at hf
    split at hf
    · rcases List.mem_append.mp hf with hf | hf
      · exact hthree f hf
      · exact hthree f hf
    · exact hthree f hf

/-- The functions of the second file, read back as they were returned. -/
theorem stored_as_fresh_second : ∃ ls r s',
    Prog.Returns (extractAndStore Config.aliased.scored.analyzer 0 2 .pe (byteOf 0 2)) threeFiles
      ls r s' ∧ r.1 = threeFunctions ∧
    ((s'.loadFunctions 0 2).map fun f => f.pack.unpack).Perm r.1 := by
  have hrun : ((extractAndStore Config.aliased.scored.analyzer 0 2 .pe (byteOf 0 2)).run
      (List.replicate 8 (.drawing 9)) threeFiles).any (fun r =>
        r.2.1.toOption.any fun a => decide (a.1 = threeFunctions)) = true := by decide +kernel
  cases heq : (extractAndStore Config.aliased.scored.analyzer 0 2 .pe (byteOf 0 2)).run
      (List.replicate 8 (.drawing 9)) threeFiles with
  | none =>
    rw [heq] at hrun
    cases hrun
  | some res =>
    obtain ⟨ls, a, s'⟩ := res
    rw [heq] at hrun
    cases a with
    | error e => cases hrun
    | ok a =>
      have hret := Prog.returns_of_run _ heq
      have hdistinct : DistinctOffsets (freshOf Config.aliased.scored.analyzer byteOf threeFiles 0 2) := by
        decide +kernel
      exact ⟨ls, a, s', hret, of_decide_eq_true hrun,
        ((stored_as_fresh Config.aliased byteOf threeFiles noSemantics_threeFiles words_aliased [] _
          .init).1 ⟨peArtifact 2, rfl⟩ ls a s' hret).mpr hdistinct⟩

/-- The first file is analysed, the second, and the first again. -/
def linkAgain : List (Act threeFiles.Stored Env) :=
  let exec (n k : ℕ) : List (Act threeFiles.Stored Env) := List.replicate k (.exec n (.drawing 9))
  .spawn ⟨peArtifact 1, stored_one⟩ :: exec 0 14 ++ .spawn ⟨peArtifact 2, stored_two⟩ :: exec 1 19 ++
    .spawn ⟨peArtifact 1, stored_one⟩ :: exec 2 17

/-- Of six functions three are read back, and the pair gets a strong edge when the second
file is analysed last, and a weak one when the first is. -/
theorem aliased_twice : ∃ h p,
    Pool.Reach (linkStored Config.aliased.scored byteOf threeFiles) threeFiles h p ∧
      ((p.store.loadFunctions 0 1).length = 3 ∧
        (freshOf Config.aliased.scored.analyzer byteOf threeFiles 0 1).length = 6) ∧
      (∃ e ∈ p.store.sim.edges.rows, e.tenant = 0 ∧ e.src = 1 ∧ e.dst = 2 ∧
        e.modelVersion = modelVersion ∧ e.edgeType = .semanticStrong) ∧
      ∃ e ∈ p.store.sim.edges.rows, e.tenant = 0 ∧ e.src = 1 ∧ e.dst = 2 ∧
        e.modelVersion = modelVersion ∧ e.edgeType = .semanticWeak := by
  obtain ⟨h, p, hr, hchk⟩ := Pool.exists_reach
    (linkStored Config.aliased.scored byteOf threeFiles) threeFiles linkAgain
    (fun _ p => ((p.store.loadFunctions 0 1).length = 3 &&
        (freshOf Config.aliased.scored.analyzer byteOf threeFiles 0 1).length = 6) &&
      (p.store.sim.edges.rows.any fun e => e.tenant = 0 && e.src = 1 && e.dst = 2 &&
        e.modelVersion = modelVersion && e.edgeType = .semanticStrong) &&
      p.store.sim.edges.rows.any fun e => e.tenant = 0 && e.src = 1 && e.dst = 2 &&
        e.modelVersion = modelVersion && e.edgeType = .semanticWeak) (by decide +kernel)
  simp only [Bool.and_eq_true, List.any_eq_true, decide_eq_true_eq] at hchk
  obtain ⟨⟨hrows, e, he, ⟨⟨⟨ht, hsrc⟩, hdst⟩, hv⟩, hty⟩, e', he', ⟨⟨⟨ht', hsrc'⟩, hdst'⟩, hv'⟩, hty'⟩ :=
    hchk
  exact ⟨h, p, hr, hrows, ⟨e, he, ht, hsrc, hdst, hv, hty⟩, e', he', ht', hsrc', hdst', hv', hty'⟩

end Corpus
