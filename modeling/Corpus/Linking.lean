/-
The byte layers of the linking (`similarity/edges.rs`), over a whole history of analyses.

An analysis stores the features of its artifact and then looks for other artifacts that
have stored the same ones.  A pair is found by whichever run comes later, so with at most
one entry of each name the order does not matter.  But a feature row is keyed by the name:
of several entries with one name only the first is stored, while the lookup goes through
all of them.  What is shared beyond the first entries is found in one order and not in
the other.

* `Adds` — a part of an analysis that adds the edges `new` and keeps what the lookups
  read, the groups the components of the strong edges, and the ends in their order;
* `Stored` — the rows that a history of analyses leaves;
* `linking_exact_iff` — the edges are the shared features exactly when every sharing pair
  has a run that finds it.
-/
import Corpus.CleanupGroups
import Corpus.Rely
import Corpus.ServerMoves

open Relation

namespace Corpus

/-- A stored edge of the type `ty` between `u` and `v`. -/
def SimDb.Pair (d : SimDb) (ty : EdgeType) (t u v : Uuid) : Prop :=
  ∃ e ∈ d.edges.rows, e.tenant = t ∧ e.edgeType = ty ∧
    (e.src = u ∧ e.dst = v ∨ e.src = v ∧ e.dst = u)

/-- The lookups of the byte layers read rows of these families. -/
def Feature.linking (r : Feature) : Bool := r.family = .normalized || r.family = .provenance

/-! ### Parts that add edges -/

/-- What a part of the analysis relies on and keeps: the artifacts `A`, the features `F`, and
that the edges are well formed and the groups their components. -/
structure Fixed (A : Table Artifact.key) (F : List Feature) (s : Db) : Prop where
  artifacts : s.ingest.artifacts = A
  features : s.sim.features.rows.filter Feature.linking = F
  grouped : Grouped s.sim
  ordered : ∀ e ∈ s.sim.edges.rows, e.src < e.dst ∧ e.modelVersion = modelVersion
  strong : ∀ e ∈ s.sim.edges.rows, mergesGroups e.edgeType = true →
    e.edgeType = .normalizedEquivalent

/-- The program adds the edges `new`, and perhaps byte-similar ones. -/
def Adds {α : Type} (A : Table Artifact.key) (F : List Feature)
    (new : EdgeType → Uuid → Uuid → Uuid → Prop) (p : Srv α) : Prop :=
  ∀ s, Fixed A F s → p.wp (fun _ _ => True) (fun r s' => ∀ a, r = .ok a → Fixed A F s' ∧
    ∀ ty, ty ≠ .byteSimilar → ∀ t u v, s'.sim.Pair ty t u v ↔ s.sim.Pair ty t u v ∨ new ty t u v) s

section Adds

variable {α β γ : Type} {A : Table Artifact.key} {F : List Feature}
  {new new' : EdgeType → Uuid → Uuid → Uuid → Prop}

theorem Adds.ret (a : α) : Adds A F (fun _ _ _ _ => False) (Prog.ret a) := by
  refine fun s hs b _ => ⟨hs, fun ty _ t u v => ?_⟩
  rw [or_false]

theorem Adds.err (e : Error) : Adds A F new (Prog.err e : Srv α) := fun _ _ _ => nofun

theorem Adds.congr {p : Srv α} (hp : Adds A F new p)
    (h : ∀ ty, ty ≠ .byteSimilar → ∀ t u v, new ty t u v ↔ new' ty t u v) : Adds A F new' p := by
  refine fun s hs => Prog.wp_mono (fun _ _ h => h) (fun r s' hr a ha => ?_) (hp s hs)
  obtain ⟨hfix, hpair⟩ := hr a ha
  refine ⟨hfix, fun ty hty t u v => ?_⟩
  rw [hpair ty hty, h ty hty]

theorem Adds.bind {p : Srv α} {g : α → Srv β} (hp : Adds A F new p) (hg : ∀ a, Adds A F new' (g a)) :
    Adds A F (fun ty t u v => new ty t u v ∨ new' ty t u v) (p >>= g) := by
  intro s hs
  refine Prog.wp_bind (Prog.wp_mono (fun _ _ h => h) (fun r s' hr => ?_) (hp s hs))
  cases r with
  | error e => exact fun _ => nofun
  | ok a =>
    obtain ⟨hfix, hpair⟩ := hr a rfl
    refine Prog.wp_mono (fun _ _ h => h) (fun r s'' hr b hb => ?_) (hg a s' hfix)
    obtain ⟨hfix', hpair'⟩ := hr b hb
    refine ⟨hfix', fun ty hty t u v => ?_⟩
    rw [hpair' ty hty, hpair ty hty, or_assoc]

/-- A lookup, and what follows it for what it has found. -/
theorem Adds.query {l : Pt} {q : Db → α} {g : α → Srv β}
    (h : ∀ s, Fixed A F s → Adds A F new (g (q s))) : Adds A F new (Prog.query l q >>= g) :=
  fun s hs => ⟨trivial, fun _ => h s hs s hs⟩

/-- The edges of a loop are those of its items. -/
theorem Adds.loop {body : γ → β → Srv γ} {each : β → EdgeType → Uuid → Uuid → Uuid → Prop}
    (hbody : ∀ c x, Adds A F (each x) (body c x)) (xs : List β) : ∀ c,
    Adds A F (fun ty t u v => ∃ x ∈ xs, each x ty t u v) (Prog.loop body xs c) := by
  induction xs with
  | nil => exact fun c => (Adds.ret c).congr fun ty _ t u v => by simp
  | cons x xs ih =>
    refine fun c => ((hbody c x).bind ih).congr fun ty _ t u v => ?_
    rw [List.exists_mem_cons_iff]

/-- As `Adds.bind`, when what follows depends on what the first part returns. -/
theorem Adds.side_bind {p : Srv α} {g : α → Srv β} {Q : α → Prop}
    (h : ∀ E, p.Maintains (fun s => Fixed A F s ∧ s.sim.edges = E) Q)
    (hg : ∀ a, Q a → Adds A F new (g a)) : Adds A F new (p >>= g) := by
  intro s hs
  refine Prog.wp_bind (Prog.wp_mono (fun _ _ _ => trivial) (fun r s' hr => ?_)
    ((h s.sim.edges).wp ⟨hs, rfl⟩))
  obtain ⟨⟨hfix, hedges⟩, hQ⟩ := hr
  cases r with
  | error e => exact fun _ => nofun
  | ok a =>
    refine Prog.wp_mono (fun _ _ h => h) (fun r s'' hr b hb => ?_) (hg a (hQ a rfl) s' hfix)
    obtain ⟨hfix', hpair⟩ := hr b hb
    refine ⟨hfix', fun ty hty t u v => ?_⟩
    rw [hpair ty hty]
    unfold SimDb.Pair
    rw [hedges]

/-- Statements on other tables keep what the parts rely on. -/
theorem Fixed.frame {s s' : Db} (h : Fixed A F s)
    (ha : s'.ingest.artifacts = s.ingest.artifacts)
    (hf : s'.sim.features.rows.filter Feature.linking = s.sim.features.rows.filter Feature.linking)
    (he : s'.sim.edges = s.sim.edges) (hg : s'.sim.groups = s.sim.groups)
    (hm : s'.sim.members = s.sim.members) : Fixed A F s' where
  artifacts := ha.trans h.artifacts
  features := hf.trans h.features
  grouped := h.grouped.of_eq he hg hm
  ordered := he ▸ h.ordered
  strong := he ▸ h.strong

end Adds

/-! ### The layers -/

/-- The edges of one call of `insert_edge`. -/
def Joins (x o : Uuid) (ty₀ : EdgeType) (t₀ : Uuid) (ty : EdgeType) (t u v : Uuid) : Prop :=
  ty = ty₀ ∧ t = t₀ ∧ (u = x ∧ v = o ∨ u = o ∧ v = x)

/-- The class of an artifact. -/
def classOf (A : Table Artifact.key) (t x : Uuid) : Option ArtifactClass :=
  (A.rows.find? fun a => a.tenant = t && a.id = x).map Artifact.artifactClass

/-- The artifact `o` has stored the entry `e` of a normalized feature. -/
def HasHash (F : List Feature) (t : Uuid) (e : String × String) (o : Uuid) : Prop :=
  ∃ r ∈ F, r.tenant = t ∧ r.family = .normalized ∧ r.name = e.1 ∧ r.value.hash? = some e.2 ∧
    r.artifactId = o

/-- The artifact `o` has stored this compiler hint. -/
def HasHint (F : List Feature) (t : Uuid) (hint : String) (o : Uuid) : Prop :=
  ∃ r ∈ F, r.tenant = t ∧ r.family = .provenance ∧ r.name = "compiler_hint" ∧
    r.value.value? = some hint ∧ r.artifactId = o

section Layers

variable {A : Table Artifact.key} {F : List Feature} {t x other : Uuid} {cls : ArtifactClass} {s : Db}

theorem SimDb.pair_addEdge (d : SimDb) (e : Edge) (ty : EdgeType) (t u v : Uuid) :
    (d.addEdge e).Pair ty t u v ↔ d.Pair ty t u v ∨ e.tenant = t ∧ e.edgeType = ty ∧
      (e.src = u ∧ e.dst = v ∨ e.src = v ∧ e.dst = u) :=
  d.exists_addEdge e (Q := fun t' src dst ty' => t' = t ∧ ty' = ty ∧
    (src = u ∧ dst = v ∨ src = v ∧ dst = u))

/-- The ends of the row that `insert_edge` writes. -/
theorem edgeRow_ends (t x other : Uuid) (ty : EdgeType) (score : ℚ) (now : Time) (u v : Uuid) :
    ((edgeRow t x other ty score now).src = u ∧ (edgeRow t x other ty score now).dst = v ∨
      (edgeRow t x other ty score now).src = v ∧ (edgeRow t x other ty score now).dst = u) ↔
      u = x ∧ v = other ∨ u = other ∧ v = x := by
  unfold edgeRow
  by_cases h : x < other
  · simp only [h, if_true]
    tauto
  · simp only [h, if_false]
    tauto

/-- One more row, with the groups brought up to date. -/
theorem Fixed.addEdge {s' : Db} {e : Edge} (h : Fixed A F s)
    (hf : s'.forgetGroups = (s.withEdge e).forgetGroups) (hg : Grouped s'.sim) (hlt : e.src < e.dst)
    (hv : e.modelVersion = modelVersion)
    (hstrong : mergesGroups e.edgeType = true → e.edgeType = .normalizedEquivalent) :
    Fixed A F s' := by
  have hedges : s'.sim.edges = s.sim.edges.insertNew e := edges_of_forgetGroups hf
  have ha : s'.ingest = s.ingest := by
    have := congrArg (fun s : Db => s.ingest) hf
    exact this
  have hfeatures : s'.sim.features = s.sim.features := by
    have := congrArg (fun s : Db => s.sim.features) hf
    exact this
  refine ⟨ha ▸ h.artifacts, hfeatures ▸ h.features, hg, fun e' he' => ?_, fun e' he' => ?_⟩
  · rw [hedges] at he'
    obtain he' | rfl := Table.mem_insertNew he'
    · exact h.ordered e' he'
    · exact ⟨hlt, hv⟩
  · rw [hedges] at he'
    obtain he' | rfl := Table.mem_insertNew he'
    · exact h.strong e' he'
    · exact hstrong

theorem countEdge_adds (n : ℕ) {ty : EdgeType} (score : ℚ)
    (hty : mergesGroups ty = true → ty = .normalizedEquivalent) :
    Adds A F (Joins x other ty t) (countEdge t x n other ty score) := by
  intro s hs
  unfold countEdge
  by_cases hab : x = other
  · -- the check of the table refuses a loop
    subst hab
    refine Prog.wp_bind (Prog.wp_exec_bind.mpr ⟨trivial, fun env => ?_⟩)
    have hlt : ¬ (if x < x then x else x) < (if x < x then x else x) := lt_irrefl _
    dsimp only
    rw [if_neg hlt]
    exact fun _ => nofun
  refine Prog.wp_bind (Prog.wp_mono (fun _ _ _ => trivial) (fun r s' hr => ?_)
    (wp_insertEdge hab ty score hs.grouped))
  obtain ⟨now, hf, hr⟩ := hr
  cases r with
  | error e => exact fun _ => nofun
  | ok new =>
    refine fun m _ => ⟨hs.addEdge hf hr (edgeRow_lt t ty score now hab) rfl hty, fun ty' _ t' u v => ?_⟩
    have hedges : s'.sim.edges = (s.sim.addEdge (edgeRow t x other ty score now)).edges :=
      edges_of_forgetGroups hf
    have hpair : s'.sim.Pair ty' t' u v ↔
        (s.sim.addEdge (edgeRow t x other ty score now)).Pair ty' t' u v := by
      unfold SimDb.Pair
      rw [hedges]
    rw [hpair, SimDb.pair_addEdge, edgeRow_ends]
    unfold Joins
    show _ ∨ t = t' ∧ ty = ty' ∧ _ ↔ _
    rw [eq_comm (a := t), eq_comm (a := ty)]
    tauto

theorem Fixed.artifactById (hs : Fixed A F s) (t x : Uuid) :
    (s.artifactById t x).map Artifact.artifactClass = classOf A t x := by
  unfold classOf
  rw [← hs.artifacts]
  rfl

theorem linkNormalized_adds (n : ℕ) : Adds A F
    (fun ty t' u v => classOf A t other = some cls ∧ Joins x other .normalizedEquivalent t ty t' u v)
    (linkNormalized t x cls n other) := by
  refine Adds.query fun s hs => ?_
  rw [hs.artifactById]
  split
  · next hcls => exact (Adds.ret n).congr fun ty _ t' u v => by simp [hcls]
  · next hcls =>
    have hcls : classOf A t other = some cls := not_not.mp hcls
    exact (countEdge_adds n 1 fun _ => rfl).congr fun ty _ t' u v => by simp [hcls]

theorem Fixed.mem_sameHash (hs : Fixed A F s) (name hash : String) (o : Uuid) :
    o ∈ s.sameHash t x name hash ↔ HasHash F t (name, hash) o ∧ o ≠ x := by
  unfold Db.sameHash HasHash
  rw [← hs.features]
  simp only [List.mem_map, List.mem_filter, Bool.and_eq_true, decide_eq_true_eq, Feature.linking,
    Bool.or_eq_true]
  constructor
  · rintro ⟨r, ⟨hr, ⟨⟨⟨ht, hfam⟩, hname⟩, hval⟩, hne⟩, rfl⟩
    exact ⟨⟨r, ⟨hr, .inl hfam⟩, ht, hfam, hname, hval, rfl⟩, hne⟩
  · rintro ⟨⟨r, ⟨hr, _⟩, ht, hfam, hname, hval, rfl⟩, hne⟩
    exact ⟨r, ⟨hr, ⟨⟨⟨ht, hfam⟩, hname⟩, hval⟩, hne⟩, rfl⟩

theorem Fixed.mem_sameHint (hs : Fixed A F s) (hint : String) (o : Uuid) :
    o ∈ s.sameHint t x hint ↔ HasHint F t hint o ∧ o ≠ x := by
  unfold Db.sameHint HasHint
  rw [← hs.features]
  simp only [List.mem_map, List.mem_filter, Bool.and_eq_true, decide_eq_true_eq, Feature.linking,
    Bool.or_eq_true]
  constructor
  · rintro ⟨r, ⟨hr, ⟨⟨⟨ht, hfam⟩, hname⟩, hval⟩, hne⟩, rfl⟩
    exact ⟨⟨r, ⟨hr, .inr hfam⟩, ht, hfam, hname, hval, rfl⟩, hne⟩
  · rintro ⟨⟨r, ⟨hr, _⟩, ht, hfam, hname, hval, rfl⟩, hne⟩
    exact ⟨r, ⟨hr, ⟨⟨⟨ht, hfam⟩, hname⟩, hval⟩, hne⟩, rfl⟩

/-- Layer 1 joins the artifact with every other of its class that has stored an entry of
its own. -/
theorem linkNormalizedAll_adds (entries : List (String × String)) (n : ℕ) :
    Adds A F (fun ty t' u v => ∃ e ∈ entries, ∃ o, (HasHash F t e o ∧ o ≠ x) ∧
        classOf A t o = some cls ∧ Joins x o .normalizedEquivalent t ty t' u v)
      (linkNormalizedAll t x cls entries n) := by
  refine Adds.loop (fun n e => Adds.query fun s hs => ?_) entries n
  refine (Adds.loop (fun n o => linkNormalized_adds n) _ n).congr fun ty _ t' u v => ?_
  simp only [hs.mem_sameHash]

theorem linkProvenance_adds (hint : String) (n : ℕ) :
    Adds A F (fun ty t' u v => ∃ o, (HasHint F t hint o ∧ o ≠ x) ∧
        Joins x o .sharedProvenance t ty t' u v)
      (Prog.query (.sim (.analyze t x)) (fun s => s.sameHint t x hint) >>= fun candidates =>
        Prog.loop (linkProvenance t x) candidates n) := by
  refine Adds.query fun s hs => ?_
  refine (Adds.loop (fun n o => countEdge_adds n 1 fun h => absurd h (by decide)) _ n).congr
    fun ty _ t' u v => ?_
  simp only [hs.mem_sameHint]

/-- The fuzzy layer adds byte-similar edges only. -/
theorem linkFuzzy_adds (an : Analyzer) (f : ExtractedFeatures) (n : ℕ) (c : Uuid × String × ℚ) :
    Adds A F (fun _ _ _ _ => False) (linkFuzzy an t x f n c) := by
  refine Adds.query fun s _ => ?_
  cases (s.artifactById t c.1).map Artifact.sizeBytes with
  | none => exact .err _
  | some size =>
    dsimp only
    cases byteSimilar an f size.toNat c.2.1 c.2.2 with
    | none => exact .ret _
    | some score =>
      refine (countEdge_adds n _ fun h => absurd h (by decide)).congr fun ty hty t' u v => ?_
      unfold Joins
      simp [hty]

theorem linkFuzzyAll_adds (an : Analyzer) (f : ExtractedFeatures) (bucket : List (Uuid × String × ℚ))
    (n : ℕ) : Adds A F (fun _ _ _ _ => False) (Prog.loop (linkFuzzy an t x f) bucket n) :=
  (Adds.loop (linkFuzzy_adds an f) bucket n).congr fun ty _ t' u v => by simp

end Layers

/-! ### The parts that write elsewhere -/

section Side

variable {A : Table Artifact.key} {F : List Feature} {E : Table Edge.key} {t x : Uuid} {s s' : Db}

/-- What a part keeps that adds no edge. -/
def Side (A : Table Artifact.key) (F : List Feature) (E : Table Edge.key) (s : Db) : Prop :=
  Fixed A F s ∧ s.sim.edges = E

theorem Side.frame (h : Side A F E s)
    (ha : s'.ingest.artifacts = s.ingest.artifacts)
    (hf : s'.sim.features.rows.filter Feature.linking = s.sim.features.rows.filter Feature.linking)
    (he : s'.sim.edges = s.sim.edges) (hg : s'.sim.groups = s.sim.groups)
    (hm : s'.sim.members = s.sim.members) : Side A F E s' :=
  ⟨h.1.frame ha hf he hg hm, he.trans h.2⟩

theorem storeFeature_side (name version : String) (value : FeatureValue) :
    (storeFeature t x .semantic name version value).Maintains (Side A F E) fun _ => True :=
  Prog.maintains_update fun _ _ hs => hs.frame rfl (Table.filter_insertNew rfl) rfl rfl rfl

theorem storeBands_side (an : Analyzer) (ssdeep : String) :
    (storeBands an t x ssdeep).Maintains (Side A F E) fun _ => True :=
  Prog.maintains_bind (Prog.maintains_update fun _ _ hs => hs.frame rfl rfl rfl rfl rfl) fun _ _ =>
    Prog.maintains_loop (fun _ _ _ => Prog.maintains_update fun _ _ hs =>
      hs.frame rfl rfl rfl rfl rfl) _ () trivial

theorem digestsOf_side (cls : ArtifactClass) (ids : List Uuid) (out : List (Uuid × String × ℚ)) :
    (digestsOf t x cls ids out).Maintains (Side A F E) fun _ => True := by
  refine Prog.maintains_loop (fun out other _ => Prog.maintains_bind (Q := fun _ => True)
    (Prog.maintains_query fun _ _ => trivial) fun row _ => ?_) ids out trivial
  rcases row with _ | ⟨digest, entropy, c⟩
  · trivial
  · dsimp only
    split
    · trivial
    · trivial

theorem fuzzyCandidates_side (an : Analyzer) (cls : ArtifactClass) (ssdeep : String) :
    (fuzzyCandidates an t x cls ssdeep).Maintains (Side A F E) fun _ => True := by
  unfold fuzzyCandidates lshCandidates
  refine Prog.maintains_bind (Q := fun _ => True) (Prog.maintains_query fun _ _ => trivial)
    fun _ _ => Prog.maintains_bind (Q := fun _ => True) (Prog.maintains_query fun _ _ => trivial)
      fun _ _ => Prog.maintains_bind (Q := fun _ => True) ?_ fun ids _ => ?_
  · split
    · exact (bandCandidates_reads x _ _ _ _).maintains fun _ _ _ heq hs => heq ▸ hs
    · trivial
  · split
    · exact Prog.maintains_query fun _ _ => trivial
    · exact digestsOf_side cls ids []

/-- A file without code regions has no functions. -/
theorem extractAndStore_side {an : Analyzer} {cls : ArtifactClass} {bytes : Bytes}
    (hno : an.functionsFor cls bytes = []) :
    (extractAndStore an t x cls bytes).Maintains (Side A F E) fun r => r.1 = [] := by
  unfold extractAndStore
  refine Prog.maintains_bind (storeFeature_side _ _ _) fun _ _ => ?_
  split
  · exact Prog.maintains_bind (storeFeature_side _ _ _) fun _ _ => rfl
  · rw [hno]
    refine Prog.maintains_bind (Q := fun _ => True) trivial fun _ _ => ?_
    refine Prog.maintains_bind (Q := fun _ => True) ?_ fun _ _ => ?_
    · exact Prog.maintains_bind
        (Prog.maintains_update fun _ _ hs => hs.frame rfl rfl rfl rfl rfl) fun _ _ => trivial
    · exact Prog.maintains_bind (storeFeature_side _ _ _) fun _ _ => rfl

theorem analyzeAndLink_side {cfg : Config} {cls : ArtifactClass} {bytes : Bytes}
    (hno : cfg.analyzer.functionsFor cls bytes = []) :
    (analyzeAndLink cfg t x cls bytes).Maintains (Side A F E) fun _ => True := by
  unfold analyzeAndLink
  split
  · trivial
  · refine Prog.maintains_bind (extractAndStore_side hno) ?_
    rintro ⟨functions, limitation⟩ hnil
    refine Prog.maintains_bind (Q := fun _ => True)
      (Prog.maintains_update fun _ _ hs => hs.frame rfl rfl rfl rfl rfl) fun _ _ => ?_
    rw [if_pos (.inr hnil)]
    trivial

end Side

/-! ### One analysis -/

/-- With no code regions, so that the semantic layer finds nothing. -/
def Config.byteLayers (cfg : Config) : Config :=
  { cfg with analyzer := { cfg.analyzer with functionsFor := fun _ _ => [] } }

section Analysis

variable {A : Table Artifact.key} {F : List Feature} {t x : Uuid} {cls : ArtifactClass} {s s' : Db}

/-- The rows of `store_features`. -/
def storedRows (t x : Uuid) (f : ExtractedFeatures) : List Feature :=
  (featureRows f).map fun r => ⟨t, x, r.1, r.2.1, extractorVersion, r.2.2⟩

/-- The edges that an analysis adds once its features are stored. -/
def NewEdges (A : Table Artifact.key) (F : List Feature) (t x : Uuid) (cls : ArtifactClass)
    (f : ExtractedFeatures) (ty : EdgeType) (t' u v : Uuid) : Prop :=
  (∃ e ∈ f.normalized, ∃ o, (HasHash F t e o ∧ o ≠ x) ∧ classOf A t o = some cls ∧
      Joins x o .normalizedEquivalent t ty t' u v) ∨
    ∃ hint, f.compilerHint = some hint ∧ ∃ o, (HasHint F t hint o ∧ o ≠ x) ∧
      Joins x o .sharedProvenance t ty t' u v

theorem wp_storeFeatures (t x : Uuid) (f : ExtractedFeatures) (s : Db) :
    (storeFeatures t x f).wp (fun _ _ => True) (fun _ s' => s' = { s with sim := { s.sim with
      features := (storedRows t x f).foldl Table.insertNew s.sim.features } }) s := by
  let row := fun r : Family × String × FeatureValue =>
    (⟨t, x, r.1, r.2.1, extractorVersion, r.2.2⟩ : Feature)
  refine Prog.wp_loop (I := fun rows _ s' => ({ s' with sim := { s'.sim with
      features := (rows.map row).foldl Table.insertNew s'.sim.features } } : Db) =
    { s with sim := { s.sim with
      features := (storedRows t x f).foldl Table.insertNew s.sim.features } }) ?_ ?_ _ _ _ rfl
  · exact fun _ _ h => h
  · exact fun r rows _ s' h => ⟨trivial, fun _ => h⟩

/-- The provenance layer, for a file with or without a compiler hint. -/
theorem provenance_adds (hint : Option String) (n : ℕ) :
    Adds A F (fun ty t' u v => ∃ h, hint = some h ∧ ∃ o, (HasHint F t h o ∧ o ≠ x) ∧
        Joins x o .sharedProvenance t ty t' u v)
      (match hint with
        | none => pure n
        | some hint => do
          let candidates ← Prog.query (.sim (.analyze t x)) fun s => s.sameHint t x hint
          Prog.loop (linkProvenance t x) candidates n) := by
  cases hint with
  | none => exact (Adds.ret n).congr fun ty _ t' u v => by simp
  | some hint => exact (linkProvenance_adds hint n).congr fun ty _ t' u v => by simp

/-- **One analysis**, with the edges that it adds. -/
theorem wp_analyzeArtifact (cfg : Config) (bytes : Bytes) (s : Db) {F : List Feature}
    (hs : Fixed A F { s with sim := { s.sim with features :=
      (storedRows t x (cfg.analyzer.extract bytes)).foldl Table.insertNew s.sim.features } }) :
    (analyzeArtifact cfg.byteLayers t x cls bytes).wp (fun _ _ => True)
      (fun r s' => ∀ n, r = .ok n → Fixed A F s' ∧ ∀ ty, ty ≠ .byteSimilar → ∀ t' u v,
        s'.sim.Pair ty t' u v ↔ s.sim.Pair ty t' u v ∨
          NewEdges A F t x cls (cfg.analyzer.extract bytes) ty t' u v) s := by
  unfold analyzeArtifact
  refine Prog.wp_bind (Prog.wp_mono (fun _ _ h => h) (fun r s₁ hr => ?_)
    (wp_storeFeatures t x _ s))
  cases r with
  | error e => exact fun _ => nofun
  | ok _ =>
    subst hr
    -- from the last layer to the first
    have hsemantic : ∀ E, (analyzeAndLink cfg.byteLayers t x cls bytes).Maintains (Side A F E)
        fun _ => True := fun E => analyzeAndLink_side rfl
    have hfuzzy : ∀ E, (fuzzyCandidates cfg.analyzer t x cls (cfg.analyzer.extract bytes).ssdeep).Maintains
        (Side A F E) fun _ => True := fun E => fuzzyCandidates_side _ _ _
    have hbands : ∀ E, (storeBands cfg.analyzer t x (cfg.analyzer.extract bytes).ssdeep).Maintains
        (Side A F E) fun _ => True := fun E => storeBands_side _ _
    have hlate := fun n => Adds.side_bind hsemantic fun _ _ =>
      provenance_adds (A := A) (F := F) (t := t) (x := x) (cfg.analyzer.extract bytes).compilerHint n
    have hmiddle := fun n => Adds.side_bind hfuzzy fun bucket _ =>
      (linkFuzzyAll_adds (t := t) (x := x) cfg.analyzer (cfg.analyzer.extract bytes) bucket n).bind hlate
    refine (Adds.side_bind hbands fun _ _ => (linkNormalizedAll_adds (t := t) (x := x) _ 0).bind
      hmiddle).congr (fun ty _ t' u v => ?_) _ hs
    rw [false_or]
    exact Iff.rfl

end Analysis

/-! ### Histories -/

section History

variable (cfg : Config) (bytes : Uuid → Uuid → Bytes)

/-- What the extractor finds in the file of an artifact. -/
def found (a : Artifact) : ExtractedFeatures := cfg.analyzer.extract (bytes a.tenant a.id)

/-- The two artifacts share a normalized feature. -/
def Shares (a b : Artifact) : Prop :=
  ∃ e ∈ (found cfg bytes a).normalized, e ∈ (found cfg bytes b).normalized

/-- One of the entries of `b` is the first entry of its name in `a`. -/
def Finds (b a : Artifact) : Prop :=
  ∃ e ∈ (found cfg bytes b).normalized,
    (found cfg bytes a).normalized.find? (fun e' => e'.1 = e.1) = some e

/-- The two artifacts have the same compiler hint. -/
def SameHint (a b : Artifact) : Prop :=
  ∃ h, (found cfg bytes a).compilerHint = some h ∧ (found cfg bytes b).compilerHint = some h

/-- Some analysis of one of the two comes after one of the other, and finds it. -/
def Discovered (runs : List Artifact) (a b : Artifact) : Prop :=
  [a, b].Sublist runs ∧ Finds cfg bytes b a ∨ [b, a].Sublist runs ∧ Finds cfg bytes a b

/-- The features after a history: of each artifact and name the first entry. -/
def Stored (runs : List Artifact) (F : List Feature) : Prop :=
  ∀ r, r ∈ F ↔ r.linking = true ∧ ∃ a ∈ runs,
    (storedRows a.tenant a.id (found cfg bytes a)).find? (fun r' => r'.key = r.key) = some r

/-- Analyses of artifacts of `s₀` with the byte layers, one after another and each to
completion. -/
inductive LinkRuns (s₀ : Db) : List Artifact → Db → Prop where
  | start : LinkRuns s₀ [] s₀
  | analyze {runs s ls n s'} (a : Artifact) : LinkRuns s₀ runs s →
      s₀.artifactById a.tenant a.id = some a →
      Prog.Returns (analyzeArtifact cfg.byteLayers a.tenant a.id a.artifactClass
        (bytes a.tenant a.id)) s ls n s' →
      LinkRuns s₀ (runs ++ [a]) s'

/-- What holds after a history. -/
structure Linked (s₀ : Db) (runs : List Artifact) (s : Db) : Prop where
  rows : ∀ a ∈ runs, s₀.artifactById a.tenant a.id = some a
  fixed : ∃ F, Fixed s₀.ingest.artifacts F s ∧ Stored cfg bytes runs F
  normalized : ∀ t u v, s.sim.Pair .normalizedEquivalent t u v ↔
    ∃ a b, Discovered cfg bytes runs a b ∧ a.tenant = t ∧ b.tenant = t ∧ a.id = u ∧ b.id = v ∧
      u ≠ v ∧ a.artifactClass = b.artifactClass
  provenance : ∀ t u v, s.sim.Pair .sharedProvenance t u v ↔
    ∃ a ∈ runs, ∃ b ∈ runs, SameHint cfg bytes a b ∧ a.tenant = t ∧ b.tenant = t ∧ a.id = u ∧
      b.id = v ∧ u ≠ v

end History

section Step

variable {cfg : Config} {bytes : Uuid → Uuid → Bytes} {s₀ s s' : Db} {runs : List Artifact}
  {F F' : List Feature} {a b c : Artifact}

theorem pair_sublist_snoc : [a, b].Sublist (runs ++ [c]) ↔ [a, b].Sublist runs ∨ a ∈ runs ∧ b = c := by
  rw [List.sublist_append_iff]
  constructor
  · rintro ⟨l₁, l₂, heq, h₁, h₂⟩
    obtain rfl | rfl : l₂ = [] ∨ l₂ = [c] := by simpa using List.sublist_singleton.mp h₂
    · rw [List.append_nil] at heq
      exact .inl (heq ▸ h₁)
    · obtain ⟨hl, hb⟩ : [a] = l₁ ∧ [b] = [c] := List.append_inj' heq rfl
      rw [← hl] at h₁
      exact .inr ⟨List.singleton_sublist.mp h₁, List.singleton_inj.mp hb⟩
  · rintro (h | ⟨ha, rfl⟩)
    · exact ⟨[a, b], [], rfl, h, List.nil_sublist _⟩
    · exact ⟨[a], [b], rfl, List.singleton_sublist.mpr ha, List.Sublist.refl _⟩

theorem discovered_snoc : Discovered cfg bytes (runs ++ [c]) a b ↔ Discovered cfg bytes runs a b ∨
    a ∈ runs ∧ b = c ∧ Finds cfg bytes c a ∨ b ∈ runs ∧ a = c ∧ Finds cfg bytes c b := by
  unfold Discovered
  rw [pair_sublist_snoc, pair_sublist_snoc]
  constructor
  · rintro (⟨h | ⟨h, rfl⟩, hf⟩ | ⟨h | ⟨h, rfl⟩, hf⟩)
    · exact .inl (.inl ⟨h, hf⟩)
    · exact .inr (.inl ⟨h, rfl, hf⟩)
    · exact .inl (.inr ⟨h, hf⟩)
    · exact .inr (.inr ⟨h, rfl, hf⟩)
  · rintro ((⟨h, hf⟩ | ⟨h, hf⟩) | ⟨h, rfl, hf⟩ | ⟨h, rfl, hf⟩)
    · exact .inl ⟨.inl h, hf⟩
    · exact .inr ⟨.inl h, hf⟩
    · exact .inl ⟨.inr ⟨h, rfl⟩, hf⟩
    · exact .inr ⟨.inr ⟨h, rfl⟩, hf⟩

/-- An optional row of another kind. -/
theorem find_optional {α β : Type} {o : Option α} {g : α → β} {p : β → Bool}
    (h : ∀ a, p (g a) = false) : (o.map g).toList.find? p = none := by
  cases o with
  | none => rfl
  | some a => exact List.find?_cons_of_neg (by simp [h])

/-- The row of a normalized feature. -/
theorem find_normalized (f : ExtractedFeatures) (t x : Uuid) (name : String) :
    (storedRows t x f).find? (fun r => r.key = (t, x, .normalized, name, extractorVersion)) =
      (f.normalized.find? fun e => e.1 = name).map fun e =>
        ⟨t, x, .normalized, e.1, extractorVersion, .hash e.2⟩ := by
  unfold storedRows featureRows
  simp [List.find?_append, Function.comp_def, Feature.key, find_optional]

theorem mem_featureRows_provenance {f : ExtractedFeatures} {r : Family × String × FeatureValue}
    (hr : r ∈ featureRows f) (hfamily : r.1 = .provenance) :
    ∃ c, f.compilerHint = some c ∧ r = (.provenance, "compiler_hint", .value c) := by
  simp only [featureRows, List.mem_append, List.mem_singleton, List.mem_map, Option.mem_toList,
    Option.map_eq_some_iff] at hr
  obtain (((((rfl | ⟨_, _, rfl⟩) | ⟨_, _, rfl⟩) | ⟨_, _, rfl⟩) | ⟨_, _, rfl⟩) | ⟨c, hc, rfl⟩) |
    ⟨_, _, rfl⟩ := hr
  case inl.inr => exact ⟨c, hc, rfl⟩
  all_goals cases hfamily

/-- The row of the compiler's hint. -/
theorem find_hint (f : ExtractedFeatures) (t x : Uuid) :
    (storedRows t x f).find? (fun r => r.key = (t, x, .provenance, "compiler_hint", extractorVersion)) =
      f.compilerHint.map fun h => ⟨t, x, .provenance, "compiler_hint", extractorVersion, .value h⟩ := by
  have hrow : ∀ r ∈ storedRows t x f,
      r.key = (t, x, .provenance, "compiler_hint", extractorVersion) →
        ∃ c, f.compilerHint = some c ∧
          r = ⟨t, x, .provenance, "compiler_hint", extractorVersion, .value c⟩ := by
    intro r hr hkey
    obtain ⟨q, hq, rfl⟩ := List.mem_map.mp hr
    simp only [Feature.key, Prod.mk.injEq] at hkey
    obtain ⟨c, hc, rfl⟩ := mem_featureRows_provenance hq hkey.2.2.1
    exact ⟨c, hc, rfl⟩
  cases hhint : f.compilerHint with
  | none =>
    refine List.find?_eq_none.mpr fun r hr hkey => ?_
    obtain ⟨c, hc, -⟩ := hrow r hr (of_decide_eq_true hkey)
    cases hhint.symm.trans hc
  | some h =>
    have hmem : (.provenance, "compiler_hint", .value h) ∈ featureRows f := by
      simp [featureRows, hhint]
    cases hfind : (storedRows t x f).find? fun r =>
        r.key = (t, x, .provenance, "compiler_hint", extractorVersion) with
    | none =>
      have hnot := List.find?_eq_none.mp hfind _ (List.mem_map_of_mem hmem)
      exact absurd (decide_eq_true rfl) hnot
    | some r =>
      have hkey := List.find?_some hfind
      obtain ⟨c, hc, rfl⟩ := hrow r (List.mem_of_find?_eq_some hfind) (of_decide_eq_true hkey)
      cases hhint.symm.trans hc
      rfl

theorem mem_storedRows {t x : Uuid} {f : ExtractedFeatures} {r : Feature} (h : r ∈ storedRows t x f) :
    r.tenant = t ∧ r.artifactId = x ∧ r.version = extractorVersion := by
  obtain ⟨q, _, rfl⟩ := List.mem_map.mp h
  exact ⟨rfl, rfl, rfl⟩

theorem Stored.hasHash_iff (h : Stored cfg bytes runs F) {t o : Uuid} {e : String × String} :
    HasHash F t e o ↔ ∃ b ∈ runs, b.tenant = t ∧ b.id = o ∧
      (found cfg bytes b).normalized.find? (fun e' => e'.1 = e.1) = some e := by
  constructor
  · rintro ⟨r, hr, ht, hfam, hname, hval, hid⟩
    obtain ⟨-, b, hb, hfind⟩ := (h r).mp hr
    obtain ⟨hbt, hbid, hbv⟩ := mem_storedRows (List.mem_of_find?_eq_some hfind)
    have hkey : r.key = (b.tenant, b.id, .normalized, e.1, extractorVersion) := by
      rw [Feature.key, hbt, hbid, hbv, hfam, hname]
    rw [hkey, find_normalized] at hfind
    obtain ⟨e', he', rfl⟩ := Option.map_eq_some_iff.mp hfind
    have heq : e' = e := Prod.ext hname (Option.some.inj hval)
    exact ⟨b, hb, hbt.symm.trans ht, hbid.symm.trans hid, heq ▸ he'⟩
  · rintro ⟨b, hb, rfl, rfl, hfind⟩
    refine ⟨⟨b.tenant, b.id, .normalized, e.1, extractorVersion, .hash e.2⟩, ?_, rfl, rfl, rfl, rfl, rfl⟩
    refine (h _).mpr ⟨rfl, b, hb, ?_⟩
    rw [Feature.key, find_normalized, hfind]
    rfl

theorem Stored.hasHint_iff (h : Stored cfg bytes runs F) {t o : Uuid} {hint : String} :
    HasHint F t hint o ↔ ∃ b ∈ runs, b.tenant = t ∧ b.id = o ∧
      (found cfg bytes b).compilerHint = some hint := by
  constructor
  · rintro ⟨r, hr, ht, hfam, hname, hval, hid⟩
    obtain ⟨-, b, hb, hfind⟩ := (h r).mp hr
    obtain ⟨hbt, hbid, hbv⟩ := mem_storedRows (List.mem_of_find?_eq_some hfind)
    have hkey : r.key = (b.tenant, b.id, .provenance, "compiler_hint", extractorVersion) := by
      rw [Feature.key, hbt, hbid, hbv, hfam, hname]
    rw [hkey, find_hint] at hfind
    obtain ⟨v, hv, rfl⟩ := Option.map_eq_some_iff.mp hfind
    exact ⟨b, hb, hbt.symm.trans ht, hbid.symm.trans hid, hv.trans hval⟩
  · rintro ⟨b, hb, rfl, rfl, hfind⟩
    refine ⟨⟨b.tenant, b.id, .provenance, "compiler_hint", extractorVersion, .value hint⟩, ?_, rfl,
      rfl, rfl, rfl, rfl⟩
    refine (h _).mpr ⟨rfl, b, hb, ?_⟩
    rw [Feature.key, find_hint, hfind]
    rfl

/-- Storing the features of one more artifact, whether it has been analysed before or not. -/
theorem Stored.snoc {T : Table Feature.key} (h : Stored cfg bytes runs (T.rows.filter Feature.linking))
    (hc : ∀ a ∈ runs, a.tenant = c.tenant → a.id = c.id → a = c) :
    Stored cfg bytes (runs ++ [c]) (((storedRows c.tenant c.id (found cfg bytes c)).foldl
      Table.insertNew T).rows.filter Feature.linking) := by
  intro r
  rw [List.mem_filter, Table.mem_rows_iff, Table.get_foldl_insertNew, and_comm]
  refine and_congr_right fun hlink => ?_
  have hold : ∀ r' : Feature, T.get r.key = some r' → r'.key = r.key ∧ ∃ a ∈ runs,
      (storedRows a.tenant a.id (found cfg bytes a)).find? (fun q => q.key = r.key) = some r' := by
    intro r' hget
    obtain ⟨hmem, hkey⟩ := Table.mem_of_get hget
    have hfam : r'.family = r.family := congrArg (fun k => k.2.2.1) hkey
    have hlink' : r'.linking = true := by
      unfold Feature.linking at hlink ⊢
      rw [hfam]
      exact hlink
    rw [← hkey]
    exact ⟨rfl, ((h r').mp (List.mem_filter.mpr ⟨hmem, hlink'⟩)).2⟩
  constructor
  · intro hget
    cases hT : T.get r.key with
    | some r' =>
      rw [hT, Option.some_or] at hget
      obtain rfl := Option.some.inj hget
      obtain ⟨_, a, ha, hfind⟩ := hold r' hT
      exact ⟨a, List.mem_append_left _ ha, hfind⟩
    | none =>
      rw [hT, Option.none_or] at hget
      exact ⟨c, List.mem_append_right _ (List.mem_singleton_self c), hget⟩
  · rintro ⟨a, ha, hfind⟩
    obtain ha | ha := List.mem_append.mp ha
    · have hr : r ∈ T.rows := (List.mem_filter.mp ((h r).mpr ⟨hlink, a, ha, hfind⟩)).1
      rw [Table.mem_rows_iff.mp hr]
      rfl
    · obtain rfl := List.mem_singleton.mp ha
      cases hT : T.get r.key with
      | none =>
        rw [Option.none_or]
        exact hfind
      | some r' =>
        -- an earlier analysis of the same artifact
        obtain ⟨hkey, a', ha', hfind'⟩ := hold r' hT
        obtain ⟨ht, hid, _⟩ := mem_storedRows (List.mem_of_find?_eq_some hfind)
        obtain ⟨ht', hid', _⟩ := mem_storedRows (List.mem_of_find?_eq_some hfind')
        have hkt : r'.tenant = r.tenant := congrArg (fun k => k.1) hkey
        have hkid : r'.artifactId = r.artifactId := congrArg (fun k => k.2.1) hkey
        obtain rfl := hc a' ha' (ht'.symm.trans (hkt.trans ht)) (hid'.symm.trans (hkid.trans hid))
        rw [Option.some_or, ← hfind, hfind']

/-- The normalized edges that the analysis of `c` adds. -/
theorem newEdges_normalized {runs : List Artifact}
    (hrows : ∀ a ∈ runs, s₀.artifactById a.tenant a.id = some a)
    (hc : s₀.artifactById c.tenant c.id = some c) (hF : Stored cfg bytes (runs ++ [c]) F)
    (t u v : Uuid) :
    NewEdges s₀.ingest.artifacts F c.tenant c.id c.artifactClass (found cfg bytes c)
        .normalizedEquivalent t u v ↔
      ∃ b ∈ runs, Finds cfg bytes c b ∧ b.tenant = c.tenant ∧ b.id ≠ c.id ∧
        b.artifactClass = c.artifactClass ∧ t = c.tenant ∧
        (u = c.id ∧ v = b.id ∨ u = b.id ∧ v = c.id) := by
  have hclass : ∀ b ∈ runs, classOf s₀.ingest.artifacts b.tenant b.id = some b.artifactClass := by
    intro b hb
    have hrow := hrows b hb
    unfold classOf
    unfold Db.artifactById at hrow
    rw [hrow]
    rfl
  constructor
  · rintro (⟨e, he, o, ⟨hhash, hne⟩, hcls, _, ht, hends⟩ | ⟨_, _, _, _, hty, _⟩)
    · obtain ⟨b, hb, hbt, rfl, hfind⟩ := hF.hasHash_iff.mp hhash
      obtain hb | hb := List.mem_append.mp hb
      · rw [← hbt, hclass b hb] at hcls
        exact ⟨b, hb, ⟨e, he, hfind⟩, hbt, hne, Option.some.inj hcls, ht, hends⟩
      · obtain rfl := List.mem_singleton.mp hb
        exact absurd rfl hne
    · cases hty
  · rintro ⟨b, hb, ⟨e, he, hfind⟩, hbt, hne, hcls, ht, hends⟩
    refine .inl ⟨e, he, b.id, ⟨hF.hasHash_iff.mpr ?_, hne⟩, ?_, rfl, ht, hends⟩
    · exact ⟨b, List.mem_append_left _ hb, hbt, rfl, hfind⟩
    · rw [← hbt, hclass b hb, hcls]

theorem newEdges_provenance (hF : Stored cfg bytes (runs ++ [c]) F) (A : Table Artifact.key)
    (t u v : Uuid) :
    NewEdges A F c.tenant c.id c.artifactClass (found cfg bytes c) .sharedProvenance t u v ↔
      ∃ b ∈ runs, SameHint cfg bytes c b ∧ b.tenant = c.tenant ∧ b.id ≠ c.id ∧ t = c.tenant ∧
        (u = c.id ∧ v = b.id ∨ u = b.id ∧ v = c.id) := by
  constructor
  · rintro (⟨_, _, _, _, _, hty, _⟩ | ⟨hint, hc, o, ⟨hhint, hne⟩, _, ht, hends⟩)
    · cases hty
    · obtain ⟨b, hb, hbt, rfl, hbh⟩ := hF.hasHint_iff.mp hhint
      obtain hb | hb := List.mem_append.mp hb
      · exact ⟨b, hb, ⟨hint, hc, hbh⟩, hbt, hne, ht, hends⟩
      · obtain rfl := List.mem_singleton.mp hb
        exact absurd rfl hne
  · rintro ⟨b, hb, ⟨hint, hc, hbh⟩, hbt, hne, ht, hends⟩
    refine .inr ⟨hint, hc, b.id, ⟨hF.hasHint_iff.mpr ?_, hne⟩, rfl, ht, hends⟩
    exact ⟨b, List.mem_append_left _ hb, hbt, rfl, hbh⟩

theorem Fixed.withFeatures {A : Table Artifact.key} (h : Fixed A F s) (T : Table Feature.key) :
    Fixed A (T.rows.filter Feature.linking) { s with sim := { s.sim with features := T } } where
  artifacts := h.artifacts
  features := rfl
  grouped := ⟨h.grouped.labels, h.grouped.row, h.grouped.pair⟩
  ordered := h.ordered
  strong := h.strong

/-- **One more analysis.** -/
theorem Linked.snoc {ls : List Pt} {n : ℕ} (h : Linked cfg bytes s₀ runs s)
    (hc : s₀.artifactById c.tenant c.id = some c)
    (hret : Prog.Returns (analyzeArtifact cfg.byteLayers c.tenant c.id c.artifactClass
      (bytes c.tenant c.id)) s ls n s') : Linked cfg bytes s₀ (runs ++ [c]) s' := by
  obtain ⟨F, hfix, hF⟩ := h.fixed
  have hsame : ∀ a ∈ runs, a.tenant = c.tenant → a.id = c.id → a = c := by
    intro a ha ht hid
    have hrow := h.rows a ha
    rw [ht, hid, hc] at hrow
    exact (Option.some.inj hrow).symm
  rw [← hfix.features] at hF
  have hF' := hF.snoc hsame
  obtain ⟨hfix', hpair⟩ := Prog.wp_returns hret
    (wp_analyzeArtifact cfg (bytes c.tenant c.id) s (hfix.withFeatures _)) n rfl
  refine ⟨fun a ha => ?_, ⟨_, hfix', hF'⟩, fun t u v => ?_, fun t u v => ?_⟩
  · obtain ha | ha := List.mem_append.mp ha
    · exact h.rows a ha
    · obtain rfl := List.mem_singleton.mp ha
      exact hc
  · refine (hpair _ (by decide) t u v).trans ?_
    rw [h.normalized]
    refine (or_congr_right (newEdges_normalized h.rows hc hF' t u v)).trans ?_
    constructor
    · rintro (⟨a, b, hdisc, h'⟩ | ⟨b, hb, hfind, hbt, hne, hcls, rfl, hends⟩)
      · exact ⟨a, b, discovered_snoc.mpr (.inl hdisc), h'⟩
      · obtain ⟨rfl, rfl⟩ | ⟨rfl, rfl⟩ := hends
        · exact ⟨c, b, discovered_snoc.mpr (.inr (.inr ⟨hb, rfl, hfind⟩)), rfl, hbt, rfl, rfl,
            Ne.symm hne, hcls.symm⟩
        · exact ⟨b, c, discovered_snoc.mpr (.inr (.inl ⟨hb, rfl, hfind⟩)), hbt, rfl, rfl, rfl, hne,
            hcls⟩
    · rintro ⟨a, b, hdisc, hat, hbt, rfl, rfl, hne, hcls⟩
      obtain hdisc | ⟨ha, rfl, hfind⟩ | ⟨hb, rfl, hfind⟩ := discovered_snoc.mp hdisc
      · exact .inl ⟨a, b, hdisc, hat, hbt, rfl, rfl, hne, hcls⟩
      · exact .inr ⟨a, ha, hfind, hat.trans hbt.symm, hne, hcls, hbt.symm, .inr ⟨rfl, rfl⟩⟩
      · exact .inr ⟨b, hb, hfind, hbt.trans hat.symm, Ne.symm hne, hcls.symm, hat.symm,
          .inl ⟨rfl, rfl⟩⟩
  · refine (hpair _ (by decide) t u v).trans ?_
    rw [h.provenance]
    refine (or_congr_right (newEdges_provenance hF' _ t u v)).trans ?_
    constructor
    · rintro (⟨a, ha, b, hb, h'⟩ | ⟨b, hb, ⟨hint, hch, hbh⟩, hbt, hne, rfl, hends⟩)
      · exact ⟨a, List.mem_append_left _ ha, b, List.mem_append_left _ hb, h'⟩
      · have hmem : c ∈ runs ++ [c] := List.mem_append_right _ (List.mem_singleton_self c)
        obtain ⟨rfl, rfl⟩ | ⟨rfl, rfl⟩ := hends
        · exact ⟨c, hmem, b, List.mem_append_left _ hb, ⟨hint, hch, hbh⟩, rfl, hbt, rfl, rfl,
            Ne.symm hne⟩
        · exact ⟨b, List.mem_append_left _ hb, c, hmem, ⟨hint, hbh, hch⟩, hbt, rfl, rfl, rfl, hne⟩
    · rintro ⟨a, ha, b, hb, ⟨hint, hah, hbh⟩, hat, hbt, rfl, rfl, hne⟩
      obtain hold | hnew := List.mem_append.mp ha
      · obtain hold' | hnew' := List.mem_append.mp hb
        · exact .inl ⟨a, hold, b, hold', ⟨hint, hah, hbh⟩, hat, hbt, rfl, rfl, hne⟩
        · obtain rfl := List.mem_singleton.mp hnew'
          exact .inr ⟨a, hold, ⟨hint, hbh, hah⟩, hat.trans hbt.symm, hne, hbt.symm, .inr ⟨rfl, rfl⟩⟩
      · obtain rfl := List.mem_singleton.mp hnew
        obtain hold' | hnew' := List.mem_append.mp hb
        · exact .inr ⟨b, hold', ⟨hint, hah, hbh⟩, hbt.trans hat.symm, Ne.symm hne, hat.symm,
            .inl ⟨rfl, rfl⟩⟩
        · obtain rfl := List.mem_singleton.mp hnew'
          exact absurd rfl hne

theorem Linked.start (h₀ : s₀.sim = .empty) : Linked cfg bytes s₀ [] s₀ := by
  have hpair : ∀ ty t u v, ¬ s₀.sim.Pair ty t u v := by
    intro ty t u v h
    unfold SimDb.Pair at h
    rw [h₀] at h
    obtain ⟨e, he, _⟩ := h
    cases he
  refine ⟨nofun, ⟨[], ⟨rfl, ?_, .empty h₀, ?_, ?_⟩, fun r => ⟨nofun, ?_⟩⟩, fun t u v => ?_,
    fun t u v => ?_⟩
  · rw [h₀]
    rfl
  · rw [h₀]
    exact nofun
  · rw [h₀]
    exact nofun
  · rintro ⟨_, a, ha, _⟩
    cases ha
  · refine iff_of_false (hpair _ t u v) ?_
    rintro ⟨a, b, ⟨h, _⟩ | ⟨h, _⟩, _⟩
    · cases h
    · cases h
  · refine iff_of_false (hpair _ t u v) ?_
    rintro ⟨a, ha, _⟩
    cases ha

theorem LinkRuns.linked (h₀ : s₀.sim = .empty) (h : LinkRuns cfg bytes s₀ runs s) :
    Linked cfg bytes s₀ runs s := by
  induction h with
  | start => exact .start h₀
  | analyze a _ hrow hret ih => exact ih.snoc hrow hret

end Step

/-! ### The edges and groups of a history -/

/-- The edges and groups are what the files say, whatever the order of the analyses. -/
structure Exact (cfg : Config) (bytes : Uuid → Uuid → Bytes) (runs : List Artifact) (d : SimDb) :
    Prop where
  normalized : ∀ t u v, d.Pair .normalizedEquivalent t u v ↔ ∃ a ∈ runs, ∃ b ∈ runs,
    Shares cfg bytes a b ∧ a.tenant = t ∧ b.tenant = t ∧ a.id = u ∧ b.id = v ∧ u ≠ v ∧
      a.artifactClass = b.artifactClass
  provenance : ∀ t u v, d.Pair .sharedProvenance t u v ↔ ∃ a ∈ runs, ∃ b ∈ runs,
    SameHint cfg bytes a b ∧ a.tenant = t ∧ b.tenant = t ∧ a.id = u ∧ b.id = v ∧ u ≠ v
  ordered : ∀ e ∈ d.edges.rows, e.src < e.dst
  once : ∀ e ∈ d.edges.rows, ∀ e' ∈ d.edges.rows, e.tenant = e'.tenant → e.src = e'.src →
    e.dst = e'.dst → e.edgeType = e'.edgeType → e = e'
  groups : ∀ t u v, u ≠ v → (d.SameGroup t u v ↔ EqvGen (d.Pair .normalizedEquivalent t) u v)

section Exact

variable {cfg : Config} {bytes : Uuid → Uuid → Bytes} {s₀ s : Db} {runs : List Artifact}
  {A : Table Artifact.key} {F : List Feature}

/-- The strong edges are the normalized ones. -/
theorem Fixed.eqvGen_pair (h : Fixed A F s) (t : Uuid) :
    EqvGen (s.sim.StrongEdge t) = EqvGen (s.sim.Pair .normalizedEquivalent t) := by
  funext u v
  refine propext ⟨fun huv => ?_, fun huv => ?_⟩
  · refine EqvGen.mono (fun u v hs => ?_) u v huv
    obtain ⟨e, he, ht, hsrc, hdst, hstrong⟩ := hs
    exact ⟨e, he, ht, h.strong e he hstrong, .inl ⟨hsrc, hdst⟩⟩
  · induction huv with
    | rel u v hp =>
      obtain ⟨e, he, ht, hty, hends⟩ := hp
      have hstrong : mergesGroups e.edgeType = true := by rw [hty]; rfl
      obtain ⟨hsrc, hdst⟩ | ⟨hsrc, hdst⟩ := hends
      · exact .rel _ _ ⟨e, he, ht, hsrc, hdst, hstrong⟩
      · exact .symm _ _ (.rel _ _ ⟨e, he, ht, hsrc, hdst, hstrong⟩)
    | refl u => exact .refl u
    | symm u v _ ih => exact .symm _ _ ih
    | trans u v w _ _ ih ih' => exact .trans _ _ _ ih ih'

theorem Discovered.mem {a b : Artifact} (h : Discovered cfg bytes runs a b) : a ∈ runs ∧ b ∈ runs := by
  obtain ⟨h, _⟩ | ⟨h, _⟩ := h
  · exact ⟨h.subset List.mem_cons_self, h.subset (List.mem_cons_of_mem _ List.mem_cons_self)⟩
  · exact ⟨h.subset (List.mem_cons_of_mem _ List.mem_cons_self), h.subset List.mem_cons_self⟩

/-- What is found is shared. -/
theorem Discovered.shares {a b : Artifact} (h : Discovered cfg bytes runs a b) :
    Shares cfg bytes a b := by
  obtain ⟨_, e, he, hfind⟩ | ⟨_, e, he, hfind⟩ := h
  · exact ⟨e, List.mem_of_find?_eq_some hfind, he⟩
  · exact ⟨e, he, List.mem_of_find?_eq_some hfind⟩

end Exact

/-- **The linking is exact exactly when every sharing pair is found.**  For two artifacts of
a class that share a normalized feature, some run on one of them after a run on the other
must have among its entries the first entry of its name of the other. -/
theorem linking_exact_iff (cfg : Config) (bytes : Uuid → Uuid → Bytes) (s₀ s : Db)
    (h₀ : s₀.sim = .empty) (runs : List Artifact) (h : LinkRuns cfg bytes s₀ runs s) :
    Exact cfg bytes runs s.sim ↔
      ∀ a ∈ runs, ∀ b ∈ runs, a.tenant = b.tenant → a.id ≠ b.id →
        a.artifactClass = b.artifactClass → Shares cfg bytes a b → Discovered cfg bytes runs a b := by
  have hlinked := h.linked h₀
  obtain ⟨F, hfix, _⟩ := hlinked.fixed
  constructor
  · intro hexact a ha b hb ht hne hcls hshare
    have hpair := (hexact.normalized a.tenant a.id b.id).mpr
      ⟨a, ha, b, hb, hshare, rfl, ht.symm, rfl, rfl, hne, hcls⟩
    obtain ⟨a', b', hdisc, hat, hbt, haid, hbid, _⟩ := (hlinked.normalized _ _ _).mp hpair
    obtain ⟨ha', hb'⟩ := hdisc.mem
    have hrowa := hlinked.rows a' ha'
    rw [hat, haid, hlinked.rows a ha] at hrowa
    have hrowb := hlinked.rows b' hb'
    rw [hbt, hbid, ht, hlinked.rows b hb] at hrowb
    obtain rfl := Option.some.inj hrowa
    obtain rfl := Option.some.inj hrowb
    exact hdisc
  · intro hall
    refine ⟨fun t u v => ?_, hlinked.provenance, fun e he => (hfix.ordered e he).1, ?_, ?_⟩
    · rw [hlinked.normalized]
      constructor
      · rintro ⟨a, b, hdisc, h'⟩
        exact ⟨a, hdisc.mem.1, b, hdisc.mem.2, hdisc.shares, h'⟩
      · rintro ⟨a, ha, b, hb, hshare, hat, hbt, rfl, rfl, hne, hcls⟩
        exact ⟨a, b, hall a ha b hb (hat.trans hbt.symm) hne hcls hshare, hat, hbt, rfl, rfl, hne, hcls⟩
    · intro e he e' he' ht hsrc hdst hty
      refine Table.eq_of_mem he he' ?_
      rw [Edge.key, Edge.key, ht, hsrc, hdst, hty, (hfix.ordered e he).2, (hfix.ordered e' he').2]
    · intro t u v huv
      rw [hfix.grouped.sameGroup_iff huv, SimDb.connected_iff, hfix.eqvGen_pair]

/-! ### Two build ids -/

/-- Every byte of a file is a build id. -/
def Config.buildIds : Config :=
  { Config.plain with analyzer := { Config.plain.analyzer with
      extract := fun bytes => { Config.plain.analyzer.extract bytes with
        normalized := bytes.map fun b => ("elf_build_id", hexEncode [b]) } } }

/-- The first file has the build ids 1 and 2, the second has 2. -/
def idsOf (_ x : Uuid) : Bytes := if x = 1 then [1, 2] else [2]

def elfFile (x : Uuid) : Artifact :=
  ⟨x, 0, x, idsOf 0 x, 1, .elf, .committed, ⟨0, hexEncode (idsOf 0 x)⟩, 0, .endpoint, .null⟩

def twoFiles : Db :=
  { Db.empty with ingest := { Db.empty.ingest with
    artifacts := (Table.empty.insertNew (elfFile 1)).insertNew (elfFile 2) } }

/-- Analyse the files one after another. -/
def analyzeAll : List Artifact → Db → Option Db
  | [], s => some s
  | a :: as, s =>
    match (analyzeArtifact Config.buildIds.byteLayers a.tenant a.id a.artifactClass
        (idsOf a.tenant a.id)).run (List.replicate 40 (.drawing 9)) s with
    | some (_, .ok _, s') => analyzeAll as s'
    | _ => none

theorem linkRuns_of_analyzeAll {s₀ : Db} : ∀ (as : List Artifact) {runs : List Artifact} {s s' : Db},
    LinkRuns Config.buildIds idsOf s₀ runs s → (∀ a ∈ as, s₀.artifactById a.tenant a.id = some a) →
      analyzeAll as s = some s' → LinkRuns Config.buildIds idsOf s₀ (runs ++ as) s' := by
  intro as
  induction as with
  | nil =>
    intro runs s s' hruns _ h
    obtain rfl := Option.some.inj h
    rw [List.append_nil]
    exact hruns
  | cons a as ih =>
    intro runs s s' hruns hrow h
    unfold analyzeAll at h
    split at h
    · next ls n s₁ hrun =>
      have hruns₁ := hruns.analyze a (hrow a List.mem_cons_self) (Prog.returns_of_run _ hrun)
      have := ih hruns₁ (fun b hb => hrow b (List.mem_cons_of_mem _ hb)) h
      rwa [List.append_assoc] at this
    · cases h

theorem exists_linkRuns (as : List Artifact) (chk : Db → Bool)
    (hrow : ∀ a ∈ as, twoFiles.artifactById a.tenant a.id = some a)
    (h : ((analyzeAll as twoFiles).any chk) = true) :
    ∃ s, LinkRuns Config.buildIds idsOf twoFiles as s ∧ chk s = true := by
  cases hrun : analyzeAll as twoFiles with
  | none =>
    rw [hrun] at h
    cases h
  | some s =>
    rw [hrun] at h
    exact ⟨s, linkRuns_of_analyzeAll as .start hrow hrun, h⟩

/-- The second file is analysed before the first: its build id is found. -/
theorem linking_exact_iff_backwards : ∃ s,
    LinkRuns Config.buildIds idsOf twoFiles [elfFile 2, elfFile 1] s ∧
      Exact Config.buildIds idsOf [elfFile 2, elfFile 1] s.sim := by
  obtain ⟨s, hrun, _⟩ := exists_linkRuns [elfFile 2, elfFile 1] (fun _ => true)
    (by
      intro a ha
      simp only [List.mem_cons, List.not_mem_nil, or_false] at ha
      obtain rfl | rfl := ha
      · rfl
      · rfl) (by decide +kernel)
  refine ⟨s, hrun, (linking_exact_iff Config.buildIds idsOf twoFiles s rfl _ hrun).mpr ?_⟩
  have hfind : Finds Config.buildIds idsOf (elfFile 1) (elfFile 2) :=
    ⟨("elf_build_id", hexEncode [2]), List.mem_cons_of_mem _ List.mem_cons_self, by decide +kernel⟩
  intro a ha b hb _ hne _ _
  simp only [List.mem_cons, List.not_mem_nil, or_false] at ha hb
  obtain rfl | rfl := ha
  · obtain rfl | rfl := hb
    · exact absurd rfl hne
    · exact .inl ⟨List.Sublist.refl _, hfind⟩
  · obtain rfl | rfl := hb
    · exact .inr ⟨List.Sublist.refl _, hfind⟩
    · exact absurd rfl hne

/-- The first file is analysed before the second: only its first build id is stored, and the
shared one is missed. -/
theorem build_id_missed : ∃ s,
    LinkRuns Config.buildIds idsOf twoFiles [elfFile 1, elfFile 2] s ∧
      ¬ Exact Config.buildIds idsOf [elfFile 1, elfFile 2] s.sim := by
  obtain ⟨s, hrun, hnone⟩ := exists_linkRuns [elfFile 1, elfFile 2]
    (fun s => s.sim.edges.rows.isEmpty)
    (by
      intro a ha
      simp only [List.mem_cons, List.not_mem_nil, or_false] at ha
      obtain rfl | rfl := ha
      · rfl
      · rfl) (by decide +kernel)
  refine ⟨s, hrun, fun hexact => ?_⟩
  have hshare : Shares Config.buildIds idsOf (elfFile 1) (elfFile 2) :=
    ⟨("elf_build_id", hexEncode [2]), List.mem_cons_of_mem _ List.mem_cons_self, List.mem_cons_self⟩
  obtain ⟨e, he, _⟩ := (hexact.normalized 0 1 2).mpr ⟨elfFile 1, List.mem_cons_self, elfFile 2,
    List.mem_cons_of_mem _ List.mem_cons_self, hshare, rfl, rfl, rfl, rfl, by decide, rfl⟩
  rw [List.isEmpty_iff.mp hnone] at he
  cases he

end Corpus
