/-
A semantic analysis that is run again (`semantic/edges.rs`, `similarity/receipts.rs`).

Rows of features, functions, edges and groups are written where there are none, and the bands of
an artifact are written anew.  The receipt is overwritten: its `edge_count` is the number of edges
that the last run has inserted.

* `SemanticRows` — what an analysis writes whatever the store has;
* `Ran` — a run, with as many new edges as it returns;
* `analyze_twice_iff` — a second run changes nothing but times exactly when neither walk through
  the index finds an artifact that is newly linked.
-/
import Corpus.FunctionIndex

namespace Corpus

/-! ### What is written in any case -/

/-- The rows of an analysis, without those of edges and receipts: the names and values of features,
the functions and, where they are indexed, their bands. -/
structure SemanticRows where
  features : List (String × FeatureValue)
  functions : List FunctionRow
  bands : Option (List (ℕ × String × ℕ))

namespace SemanticRows

variable (t x : Uuid)

def feature (f : String × FeatureValue) : Feature :=
  ⟨t, x, .semantic, f.1, semanticExtractorVersion, f.2⟩

def function (f : FunctionRow) : SimFunction := ⟨t, x, semanticExtractorVersion, f⟩

def band (b : ℕ × String × ℕ) : FunctionBand := ⟨t, x, semanticExtractorVersion, b.1, b.2.1, b.2.2⟩

/-- The bands that are deleted before they are written. -/
def ownBand (r : FunctionBand) : Bool :=
  r.tenant = t && r.artifactId = x && r.version = semanticExtractorVersion

/-- The tables with these rows. -/
def store (w : SemanticRows) (d : SimDb) : SimDb :=
  { d with
    features := (w.features.map (feature t x)).foldl .insertNew d.features
    functions := (w.functions.map (function t x)).foldl .insertNew d.functions
    functionBands := match w.bands with
      | none => d.functionBands
      | some bs => (bs.map (band t x)).foldl .upsert (d.functionBands.deleteWhere (ownBand t x)) }

variable {t x} {w : SemanticRows}

theorem store_append (f : String × FeatureValue) (d : SimDb) :
    store t x { w with features := w.features ++ [f] } d =
      { w.store t x d with
        features := (w.store t x d).features.insertNew (feature t x f) } := by
  unfold store
  rw [List.map_append, List.foldl_append]
  rfl

/-- A second time, nothing changes. -/
theorem store_store (d : SimDb) : w.store t x (w.store t x d) = w.store t x d := by
  -- The bands are deleted by the key that all of them have, then written as before.
  have hbands : (w.store t x (w.store t x d)).functionBands = (w.store t x d).functionBands := by
    obtain ⟨features, functions, bands⟩ := w
    cases bands with
    | none => rfl
    | some bs =>
      refine congrArg (List.foldl _ · _) ((Table.deleteWhere_foldl_upsert _ ?_ _).trans
        (Table.deleteWhere_deleteWhere_self _ _))
      intro r hr y hy
      obtain ⟨b, -, rfl⟩ := List.mem_map.mp hr
      simp only [FunctionBand.key, band, Prod.mk.injEq] at hy
      simp [ownBand, hy.1, hy.2.1, hy.2.2.1]
  have hfeatures : (w.store t x (w.store t x d)).features = (w.store t x d).features :=
    Table.foldl_insertNew_foldl _ _
  have hfunctions : (w.store t x (w.store t x d)).functions = (w.store t x d).functions :=
    Table.foldl_insertNew_foldl _ _
  calc w.store t x (w.store t x d)
      = { w.store t x d with
          features := (w.store t x (w.store t x d)).features
          functions := (w.store t x (w.store t x d)).functions
          functionBands := (w.store t x (w.store t x d)).functionBands } := rfl
    _ = w.store t x d := by rw [hbands, hfeatures, hfunctions]

/-- The rows of other artifacts are left alone. -/
theorem store_others (s : Db) : SameOthers t x s { s with sim := w.store t x s.sim } where
  artifacts := rfl
  edges := rfl
  functions := by
    show List.filter _
      ((w.functions.map (function t x)).foldl Table.insertNew s.sim.functions).rows = _
    generalize s.sim.functions = table
    induction w.functions generalizing table with
    | nil => rfl
    | cons f fs ih =>
      rw [List.map_cons, List.foldl_cons, ih]
      exact Table.filter_insertNew (by simp [function])
  bands := by
    obtain ⟨features, functions, bands⟩ := w
    cases bands with
    | none => rfl
    | some bs =>
      show List.filter _ ((bs.map (band t x)).foldl Table.upsert _).rows = _
      have hdelete : (s.sim.functionBands.deleteWhere (ownBand t x)).rows.filter
          (fun r => !(r.tenant = t && r.artifactId = x)) =
          s.sim.functionBands.rows.filter fun r => !(r.tenant = t && r.artifactId = x) := by
        refine Table.filter_deleteWhere fun r hr => ?_
        simp only [ownBand, Bool.and_eq_true, decide_eq_true_eq] at hr
        simp [hr.1.1, hr.1.2]
      rw [← hdelete]
      generalize s.sim.functionBands.deleteWhere (ownBand t x) = table
      induction bs generalizing table with
      | nil => rfl
      | cons b bs ih =>
        rw [List.map_cons, List.foldl_cons, ih]
        refine Table.filter_upsert fun r hr => ?_
        simp only [FunctionBand.key, band, Prod.mk.injEq] at hr
        simp [hr.1, hr.2.1]

end SemanticRows

/-- A loop of statements that write one row each. -/
theorem wp_writeAll {β τ : Type} {l : Pt} {g : β → Db → Db} (put : τ → Db) (step : τ → β → τ)
    (hg : ∀ b a, g b (put a) = put (step a b)) (xs : List β) : ∀ a,
    (Prog.loop (fun (_ : Unit) b => Prog.update l fun s _ => g b s) xs () : Srv Unit).wp
      (fun _ _ => True) (fun r s' => r = .ok () ∧ s' = put (xs.foldl step a)) (put a) := by
  induction xs with
  | nil => exact fun a => ⟨rfl, rfl⟩
  | cons b xs ih =>
    refine fun a => ⟨trivial, fun _ => ?_⟩
    show Prog.wp _ _ (Prog.loop _ xs ()) (g b (put a))
    rw [hg]
    exact ih (step a b)

section Extraction

variable {t x : Uuid} {cls : ArtifactClass} {bytes : Bytes}

theorem wp_storeFunctionBands (an : Analyzer) (fs : List FunctionRow) (s : Db) :
    (storeFunctionBands an t x fs).wp (fun _ _ => True) (fun r s' => r = .ok () ∧
      s' = { s with
        sim := (SemanticRows.mk [] [] (some (packedBands an fs))).store t x s.sim }) s := by
  refine ⟨trivial, fun _ => ?_⟩
  refine Prog.wp_mono (fun _ _ h => h) ?_ (wp_writeAll
    (fun table : Table FunctionBand.key =>
      { s with sim := { s.sim with functionBands := table } })
    (fun table b => table.upsert (SemanticRows.band t x b)) (fun _ _ => rfl)
    (packedBands an fs) (s.sim.functionBands.deleteWhere (SemanticRows.ownBand t x)))
  rintro r s' ⟨rfl, rfl⟩
  refine ⟨rfl, ?_⟩
  rw [← List.foldl_map]
  rfl

/-- The feature of a triage report. -/
def triageFeature (report : Bool × String) : String × FeatureValue :=
  ("triage", .report (.obj [("block_semantic", .bool report.1), ("summary", .str report.2)]))

/-- The feature that counts the functions. -/
def aggregateFeature (found : List FunctionRow × ℕ) : String × FeatureValue :=
  ("aggregate", .report (.obj [("function_count", .num found.2),
    ("significant_count", .num found.1.length)]))

/-- What the extraction writes and returns does not depend on the store. -/
theorem exists_wp_extractAndStore (an : Analyzer) (t x : Uuid) (cls : ArtifactClass) (bytes : Bytes) :
    ∃ w res, (res.1 = freshFunctions an cls bytes ∧ (res.2.isSome = true → res.1 = [])) ∧
      ∀ s, (extractAndStore an t x cls bytes).wp (fun _ _ => True)
        (fun r s' => r = .ok res ∧ s' = { s with sim := SemanticRows.store t x w s.sim }) s := by
  unfold extractAndStore freshFunctions
  dsimp only
  split
  -- Files that are blocked by policy, then those whose analysis fails: two features, no functions.
  · exact ⟨⟨[("triage", _), ("analysis_limitation", _)], [], none⟩, _, ⟨rfl, fun _ => rfl⟩,
      fun s => ⟨trivial, fun _ => ⟨trivial, fun _ => ⟨rfl, rfl⟩⟩⟩⟩
  · cases significantFunctions an (an.functionsFor cls bytes) ([], 0) with
    | error limitation =>
      exact ⟨⟨[("triage", _), ("analysis_limitation", _)], [], none⟩, _, ⟨rfl, fun _ => rfl⟩,
        fun s => ⟨trivial, fun _ => ⟨trivial, fun _ => ⟨rfl, rfl⟩⟩⟩⟩
    | ok found =>
      -- Features, functions and bands, each in a loop of statements.
      refine ⟨⟨[triageFeature (an.triage cls bytes), aggregateFeature found], found.1,
        some (packedBands an found.1)⟩, (found.1, none), ⟨rfl, nofun⟩,
        fun s => ⟨trivial, fun _ => ?_⟩⟩
      show Prog.wp _ _ ((Prog.loop _ found.1 () : Srv Unit) >>= _) _
      refine Prog.wp_bind (Prog.wp_mono (fun _ _ h => h) ?_ (wp_writeAll
        (fun table : Table SimFunction.key =>
          { s with sim := { (SemanticRows.mk [triageFeature (an.triage cls bytes)] [] none).store t x
            s.sim with functions := table } })
        (fun table f => table.insertNew (SemanticRows.function t x f)) (fun _ _ => rfl)
        found.1 s.sim.functions))
      rintro r s₁ ⟨rfl, rfl⟩
      refine Prog.wp_bind (Prog.wp_mono (fun _ _ h => h) ?_ (wp_storeFunctionBands an found.1 _))
      rintro r s₂ ⟨rfl, rfl⟩
      refine ⟨trivial, fun _ => ⟨rfl, ?_⟩⟩
      rw [← List.foldl_map]
      rfl

end Extraction

/-! ### How many edges are new -/

/-- There are `k` more edges; when there are none, the groups are as before. -/
structure Added (k : ℕ) (s s' : Db) : Prop where
  edges : ∃ es : List Edge, es.length = k ∧ s'.sim.edges.rows = s.sim.edges.rows ++ es
  groups : k = 0 → s'.sim.groups = s.sim.groups ∧ s'.sim.members = s.sim.members

section Added

variable {k l n : ℕ} {s s' s'' : Db} {t x : Uuid} {new : EdgeKey → ℚ → Prop}

theorem Added.refl (s : Db) : Added 0 s s :=
  ⟨⟨[], rfl, (List.append_nil _).symm⟩, fun _ => ⟨rfl, rfl⟩⟩

theorem Added.trans (h : Added k s s') (h' : Added l s' s'') : Added (k + l) s s'' where
  edges := by
    obtain ⟨es, hlen, hes⟩ := h.edges
    obtain ⟨es', hlen', hes'⟩ := h'.edges
    refine ⟨es ++ es', ?_, ?_⟩
    · rw [List.length_append, hlen, hlen']
    · rw [hes', hes, List.append_assoc]
  groups := by
    intro h0
    obtain ⟨rfl, rfl⟩ := Nat.add_eq_zero_iff.mp h0
    obtain ⟨hg, hm⟩ := h.groups rfl
    obtain ⟨hg', hm'⟩ := h'.groups rfl
    exact ⟨hg'.trans hg, hm'.trans hm⟩

theorem Added.edges_eq (h : Added 0 s s') : s'.sim.edges = s.sim.edges := by
  obtain ⟨es, hlen, hes⟩ := h.edges
  rw [List.eq_nil_of_length_eq_zero hlen, List.append_nil] at hes
  exact Table.ext_rows hes

theorem Added.eq_zero (h : Added k s s') (hsame : s'.sim.edges = s.sim.edges) : k = 0 := by
  obtain ⟨es, hlen, hes⟩ := h.edges
  rw [hsame] at hes
  rw [← hlen, List.self_eq_append_right.mp hes]
  rfl

/-- The edges that are added are the new ones that the store did not have. -/
theorem Added.eq_zero_iff (h : Added k s s') (hgrow : Grows new s s') :
    k = 0 ↔ ∀ key score, new key score → s.sim.edges.get key ≠ none := by
  constructor
  · rintro rfl key score hnew hnone
    obtain ⟨e, he, -⟩ := (hgrow key score).mpr (.inr ⟨hnone, hnew⟩)
    rw [h.edges_eq, hnone] at he
    cases he
  · intro hnew
    obtain ⟨es, hlen, hes⟩ := h.edges
    rw [← hlen]
    cases es with
    | nil => rfl
    | cons e es =>
      -- A row of its own key would be there twice.
      have hmem : e ∈ s'.sim.edges.rows := by
        rw [hes]
        exact List.mem_append_right _ List.mem_cons_self
      have hnone : s.sim.edges.get e.key = none := by
        refine Table.get_eq_none.mpr fun hkey => ?_
        have hnodup := s'.sim.edges.nodup
        rw [hes, List.map_append] at hnodup
        exact List.disjoint_of_nodup_append hnodup hkey (List.mem_map_of_mem List.mem_cons_self)
      obtain ⟨e', he', -⟩ | ⟨-, hnew'⟩ :=
        (hgrow e.key e.score).mp ⟨e, Table.mem_rows_iff.mp hmem, rfl⟩
      · rw [hnone] at he'
        cases he'
      · exact absurd hnone (hnew _ _ hnew')

theorem wp_countEdge_added (t x : Uuid) (n : ℕ) (other : Uuid) (ty : EdgeType) (score : ℚ) (s : Db) :
    (countEdge t x n other ty score).wp (fun _ _ => True)
      (fun r s' => ∀ m, r = .ok m → ∃ k, m = n + k ∧ EdgeFrame s s' ∧ Added k s s') s := by
  unfold countEdge insertEdge
  dsimp only
  generalize (if x < other then x else other) = src
  generalize (if x < other then other else x) = dst
  refine Prog.wp_bind (Prog.wp_exec_bind.mpr ⟨trivial, fun env => ?_⟩)
  by_cases hlt : src < dst
  · rw [if_pos hlt]
    dsimp only
    -- An edge that is there is not counted; a new one may merge groups.
    cases hget : s.sim.edges.get (t, src, dst, ty, modelVersion) with
    | some e =>
      have hsame : s.sim.addEdge ⟨t, src, dst, ty, modelVersion, score, env.now⟩ = s.sim := by
        rw [SimDb.addEdge, Table.rows_insertNew_of_get hget]
      rw [hsame]
      intro m hm
      obtain rfl := Except.ok.inj hm
      exact ⟨0, rfl, .refl s, .refl s⟩
    | none =>
      set row : Edge := ⟨t, src, dst, ty, modelVersion, score, env.now⟩ with hrow
      have hadded : ∀ s', GroupFrame { s with sim := s.sim.addEdge row } s' →
          EdgeFrame s s' ∧ Added 1 s s' := by
        rintro s' ⟨g, m, o, rfl⟩
        exact ⟨⟨_, g, m, o, rfl⟩, ⟨[row], rfl, Table.rows_insertNew_of_none hget⟩, nofun⟩
      have hcount : ∀ s', GroupFrame { s with sim := s.sim.addEdge row } s' →
          ∀ m, (.ok (n + 1) : Except Error ℕ) = .ok m →
            ∃ k, m = n + k ∧ EdgeFrame s s' ∧ Added k s s' := by
        intro s' hs' m hm
        obtain rfl := Except.ok.inj hm
        exact ⟨1, rfl, hadded s' hs'⟩
      cases hmerge : mergesGroups ty with
      | false => exact hcount _ (.refl _)
      | true =>
        refine Prog.wp_bind (Prog.Within.wp (I := GroupFrame { s with sim := s.sim.addEdge row })
          (fun _ _ _ _ => trivial) ?_ (fun r s' hs' => ?_) (unionGroups_inGroups _ _) (.refl _))
        · rintro _ _ _ ⟨g, m, o, rfl⟩ ⟨g', m', o', rfl⟩
          exact ⟨g, m, o, rfl⟩
        · cases r with
          | error e => exact fun _ => nofun
          | ok u => exact hcount s' hs'
  · rw [if_neg hlt]
    exact fun _ => nofun

theorem wp_linkSemantic_added (an : Analyzer) (cls : ArtifactClass) (scoring : List FunctionRow)
    (n : ℕ) (other : Uuid) (s : Db) :
    (linkSemantic an t x cls scoring n other).wp (fun _ _ => True)
      (fun r s' => ∀ m, r = .ok m → ∃ k, m = n + k ∧ EdgeFrame s s' ∧ Added k s s') s := by
  have hnothing : ∀ m, (.ok n : Except Error ℕ) = .ok m →
      ∃ k, m = n + k ∧ EdgeFrame s s ∧ Added k s s := by
    intro m hm
    obtain rfl := Except.ok.inj hm
    exact ⟨0, rfl, .refl s, .refl s⟩
  unfold linkSemantic
  refine ⟨trivial, fun _ => ?_⟩
  show Prog.wp _ _ (if _ then _ else _) s
  split
  · exact hnothing
  · refine ⟨trivial, fun _ => ?_⟩
    dsimp only [Prog.bind]
    split
    · exact hnothing
    · exact wp_countEdge_added t x n other _ _ s

/-- The number that the loop over the candidates returns. -/
theorem wp_linkAll_added (an : Analyzer) (cls : ArtifactClass) (scoring : List FunctionRow)
    (others : List Uuid) (s : Db) :
    (Prog.loop (linkSemantic an t x cls scoring) others 0).wp (fun _ _ => True)
      (fun r s' => ∀ m, r = .ok m → EdgeFrame s s' ∧ Added m s s') s := by
  -- The invariant: the count is the number of the rows behind those of the start.
  refine Prog.wp_loop (I := fun _ c s' => EdgeFrame s s' ∧ Added c s s') ?_ ?_ others 0 s
    ⟨.refl s, .refl s⟩
  · rintro c s' hs' m hm
    obtain rfl := Except.ok.inj hm
    exact hs'
  · rintro o _ c s' ⟨hframe, hs'⟩
    refine Prog.wp_mono (fun _ _ h => h) (fun r s'' hr => ?_)
      (wp_linkSemantic_added an cls scoring c o s')
    cases r with
    | error e => exact fun _ => nofun
    | ok c' =>
      obtain ⟨k, rfl, hframe', hk⟩ := hr c' rfl
      exact ⟨hframe.trans hframe', hs'.trans hk⟩

end Added

/-! ### A run -/

/-- The fields of a receipt without the time. -/
def Receipt.untimed (r : Receipt) :
    Uuid × Uuid × Bytes × ReceiptStatus × ℕ × Option String × ℕ :=
  (r.tenant, r.artifactId, r.inputSha256, r.status, r.functionCount, r.limitation, r.edgeCount)

/-- The receipt of a run, at its end. -/
def Receipt.finished (r : Receipt) (n : ℕ) (now : Time) : Receipt :=
  { r with edgeCount := n, finishedAt := now }

/-- A run that returns `n`: the rows that do not depend on the store, `n` edges, and the receipt. -/
structure Ran (w : SemanticRows) (receipt : Receipt) (t x : Uuid) (n : ℕ) (s s' : Db) : Prop where
  frame : ∃ e g m o now, s' = { s with
    sim := { w.store t x s.sim with
      receipts := s.sim.receipts.upsert (receipt.finished n now)
      edges := e, groups := g, members := m }
    outbox := o }
  added : Added n s s'

/-- With this order of the keys of the function index. -/
def Config.walking (cfg : Config) (order : List (ℕ × String) → List (ℕ × String)) : Config :=
  { cfg with analyzer := { cfg.analyzer with keyOrder := order } }

/-- The extraction does not walk through the index. -/
theorem extractAndStore_walking (cfg : Config) (t x : Uuid) (cls : ArtifactClass) (bytes : Bytes)
    (order : List (ℕ × String) → List (ℕ × String)) :
    extractAndStore (cfg.walking order).indexed.analyzer t x cls bytes =
      extractAndStore cfg.indexed.analyzer t x cls bytes := by
  have hsignificant : ∀ rs acc, significantFunctions (cfg.walking order).indexed.analyzer rs acc =
      significantFunctions cfg.indexed.analyzer rs acc := by
    intro rs
    induction rs with
    | nil => exact fun acc => rfl
    | cons r rs ih =>
      intro acc
      rw [significantFunctions, significantFunctions, ih]
      rfl
  unfold extractAndStore
  rw [hsignificant]
  rfl

theorem wp_storeFeature (t x : Uuid) (name : String) (value : FeatureValue) (s : Db) :
    (storeFeature t x .semantic name semanticExtractorVersion value).wp (fun _ _ => True)
      (fun r s' => r = .ok () ∧ s' = { s with sim := { s.sim with
        features := s.sim.features.insertNew (SemanticRows.feature t x (name, value)) } }) s :=
  ⟨trivial, fun _ => ⟨rfl, rfl⟩⟩

theorem wp_persistReceipt (t x : Uuid) (r : Time → Receipt) (s : Db) :
    (persistReceipt t x r).wp (fun _ _ => True) (fun o s' => o = .ok () ∧ ∃ now,
      s' = { s with sim := { s.sim with receipts := s.sim.receipts.upsert (r now) } }) s :=
  ⟨trivial, fun env => ⟨rfl, env.now, rfl⟩⟩

/-- The store before the candidates are compared. -/
def Db.prepared (s : Db) (w : SemanticRows) (receipt : Receipt) (t x : Uuid) (now : Time) : Db :=
  { s with sim := { w.store t x s.sim with
    receipts := s.sim.receipts.upsert (receipt.finished 0 now) } }

theorem ran_prepared (w : SemanticRows) (receipt : Receipt) (t x : Uuid) (now : Time) (s : Db) :
    Ran w receipt t x 0 s (s.prepared w receipt t x now) where
  frame := ⟨s.sim.edges, s.sim.groups, s.sim.members, s.outbox, now, rfl⟩
  added := ⟨⟨[], rfl, (List.append_nil _).symm⟩, fun _ => ⟨rfl, rfl⟩⟩

/-- The last receipt overwrites the first. -/
theorem ran_finished {w : SemanticRows} {receipt : Receipt} {t x : Uuid} {n : ℕ} {now now' : Time}
    {s s' : Db} (hframe : EdgeFrame (s.prepared w receipt t x now) s')
    (hadded : Added n (s.prepared w receipt t x now) s') :
    Ran w receipt t x n s { s' with sim := { s'.sim with
      receipts := s'.sim.receipts.upsert (receipt.finished n now') } } := by
  obtain ⟨e, g, m, o, rfl⟩ := hframe
  refine ⟨⟨e, g, m, o, now', ?_⟩, hadded.edges, hadded.groups⟩
  have hkey : (receipt.finished 0 now).key = (receipt.finished n now').key := rfl
  have hreceipts : ((s.sim.receipts.upsert (receipt.finished 0 now)).upsert
      (receipt.finished n now')) = s.sim.receipts.upsert (receipt.finished n now') :=
    Table.upsert_upsert hkey _
  rw [← hreceipts]
  rfl

/-- The feature of the suppression. -/
def suppressionFeature (scoring : List FunctionRow) : String × FeatureValue :=
  ("suppression", .report (.obj [("kept", .num scoring.length)]))

/-- What a run writes and returns, in whatever order it walks through the index. -/
theorem exists_wp_analyzeAndLink (cfg : Config) (t x : Uuid) {cls : ArtifactClass} (bytes : Bytes)
    (hcls : cls.analysed) : ∃ w receipt, ∀ order s,
      (analyzeAndLink (cfg.walking order).indexed t x cls bytes).wp (fun _ _ => True)
        (fun r s' => ∀ n, r = .ok n → Ran w receipt t x n s s') s := by
  obtain ⟨w, ⟨functions, limitation⟩, -, hextract⟩ :=
    exists_wp_extractAndStore cfg.indexed.analyzer t x cls bytes
  have horder := extractAndStore_walking cfg t x cls bytes
  have hzero {w : SemanticRows} {receipt : Receipt} {now : Time} {s : Db} :
      ∀ n, (.ok 0 : Except Error ℕ) = .ok n →
        Ran w receipt t x n s (s.prepared w receipt t x now) := by
    intro n hn
    obtain rfl := Except.ok.inj hn
    exact ran_prepared w receipt t x now s
  set receipt : Receipt := ⟨t, x, cfg.sha256 bytes, receiptStatus functions limitation,
    functions.length, limitation, 0, 0⟩ with hreceipt
  set scoring := functions.filter fun f => !cfg.indexed.analyzer.suppressed f with hscoring
  -- A run ends after the extraction, after the suppression, or with the comparisons.
  by_cases hstop : limitation.isSome ∨ functions = []
  · refine ⟨w, receipt, fun order s => ?_⟩
    unfold analyzeAndLink
    rw [if_neg (analysed_iff.mp hcls), horder]
    refine Prog.wp_bind (Prog.wp_mono (fun _ _ h => h) ?_ (hextract s))
    rintro r s₁ ⟨rfl, rfl⟩
    refine Prog.wp_bind (Prog.wp_mono (fun _ _ h => h) ?_ (wp_persistReceipt t x _ _))
    rintro r s₂ ⟨rfl, now, rfl⟩
    dsimp only
    rw [if_pos hstop]
    exact hzero
  · refine ⟨{ w with features := w.features ++ [suppressionFeature scoring] }, receipt,
      fun order s => ?_⟩
    unfold analyzeAndLink
    rw [if_neg (analysed_iff.mp hcls), horder]
    refine Prog.wp_bind (Prog.wp_mono (fun _ _ h => h) ?_ (hextract s))
    rintro r s₁ ⟨rfl, rfl⟩
    refine Prog.wp_bind (Prog.wp_mono (fun _ _ h => h) ?_ (wp_persistReceipt t x _ _))
    rintro r s₂ ⟨rfl, now, rfl⟩
    dsimp only
    rw [if_neg hstop]
    refine Prog.wp_bind (Prog.wp_mono (fun _ _ h => h) ?_
      (wp_storeFeature t x "suppression" (suppressionFeature scoring).2 _))
    rintro r s₃ ⟨rfl, hs₃⟩
    obtain rfl : s₃ = s.prepared { w with features := w.features ++ [suppressionFeature scoring] }
        receipt t x now := by
      rw [hs₃, Db.prepared, SemanticRows.store_append]
      rfl
    show Prog.wp _ _ (if scoring = [] then _ else _) _
    split
    · exact hzero
    refine Prog.wp_bind (Prog.wp_mono (fun _ _ h => h) ?_ (wp_semanticCandidates _))
    rintro r s₄ ⟨rfl, rfl⟩
    refine Prog.wp_bind (Prog.wp_mono (fun _ _ h => h) (fun r s₅ hr => ?_)
      (wp_linkAll_added _ cls scoring _ _))
    cases r with
    | error e => exact fun _ => nofun
    | ok n =>
      -- The second receipt has the number of the edges.
      obtain ⟨hframe, hadded⟩ := hr n rfl
      refine Prog.wp_bind (Prog.wp_mono (fun _ _ h => h) ?_ (wp_persistReceipt t x _ _))
      rintro r s₆ ⟨rfl, now', rfl⟩ m hm
      obtain rfl := Except.ok.inj hm
      exact ran_finished hframe hadded

/-! ### Two runs -/

/-- The rows are as before, without the times of the receipts. -/
structure SameRows (s s' : Db) : Prop where
  features : s'.sim.features = s.sim.features
  functions : s'.sim.functions = s.sim.functions
  functionBands : s'.sim.functionBands = s.sim.functionBands
  edges : s'.sim.edges = s.sim.edges
  groups : s'.sim.groups = s.sim.groups
  members : s'.sim.members = s.sim.members
  receipts : s'.sim.receipts.rows.map Receipt.untimed = s.sim.receipts.rows.map Receipt.untimed

/-- Among the candidates is an artifact that would be newly linked. -/
def FindsNew (an : Analyzer) (s : Db) (t x : Uuid) (cls : ArtifactClass) (bytes : Bytes) : Prop :=
  ∃ o ∈ s.indexCandidates an t x (scoringOf an cls bytes), NewLink an s t x cls bytes o

section Twice

variable {w : SemanticRows} {receipt : Receipt} {cfg : Config} {t x : Uuid} {cls : ArtifactClass}
  {bytes : Bytes} {an : Analyzer} {n n₁ n₂ : ℕ} {s s' s₁ s₂ : Db}

theorem not_findsNew_iff : ¬ FindsNew an s t x cls bytes ↔ ∀ key score,
    LinkedBy an s t x cls bytes (s.indexCandidates an t x (scoringOf an cls bytes)) key score →
      s.sim.edges.get key ≠ none := by
  constructor
  · rintro hnot key score ⟨hcls, o, ho, ty, hlink, rfl⟩ hnone
    exact hnot ⟨o, ho, ne_of_mem_indexCandidates ho, hcls, ty, score, hlink, hnone⟩
  · rintro hall ⟨o, ho, -, hcls, ty, score, hlink, hnone⟩
    exact hall _ score ⟨hcls, o, ho, ty, hlink, rfl⟩ hnone

/-- What is found depends on the other artifacts and on the edges. -/
theorem SameOthers.findsNew (h : SameOthers t x s s') :
    FindsNew an s' t x cls bytes ↔ FindsNew an s t x cls bytes := by
  unfold FindsNew NewLink
  rw [h.indexCandidates, h.edges]
  refine exists_congr fun o => and_congr_right fun ho => and_congr_right fun hne => ?_
  rw [h.linkOf hne]

/-- A run returns zero exactly when it finds nothing new. -/
theorem Ran.eq_zero_iff (hran : Ran w receipt t x n s s') {ls : List Pt}
    (h : Prog.Returns (analyzeAndLink cfg.indexed t x cls bytes) s ls n s') :
    n = 0 ↔ ¬ FindsNew cfg.indexed.analyzer s t x cls bytes := by
  rw [← linkWith_semanticCandidates] at h
  have hgrow := Prog.wp_returns h (wp_linkWith (fun _ s => wp_semanticCandidates s)
    (fun _ _ h => h.indexCandidates) (fun _ _ ho => ne_of_mem_indexCandidates ho) rfl) n rfl
  rw [not_findsNew_iff]
  exact hran.added.eq_zero_iff hgrow

/-- The rows that do not depend on the store are there. -/
theorem Ran.store_eq (h : Ran w receipt t x n s s') : w.store t x s'.sim = s'.sim := by
  obtain ⟨e, g, m, o, now, rfl⟩ := h.frame
  calc w.store t x { w.store t x s.sim with
          receipts := s.sim.receipts.upsert (receipt.finished n now)
          edges := e, groups := g, members := m }
      = { w.store t x (w.store t x s.sim) with
          receipts := s.sim.receipts.upsert (receipt.finished n now)
          edges := e, groups := g, members := m } := rfl
    _ = _ := by rw [SemanticRows.store_store]

theorem Ran.sameOthers (h : Ran w receipt t x 0 s s') : SameOthers t x s s' := by
  have hedges := h.added.edges_eq
  obtain ⟨e, g, m, o, now, rfl⟩ := h.frame
  have hstore : SameOthers t x s { s with sim := w.store t x s.sim } :=
    SemanticRows.store_others s
  exact ⟨hstore.artifacts, hstore.functions, hstore.bands, hedges⟩

theorem Ran.receipts (h : Ran w receipt t x n s s') :
    ∃ now, s'.sim.receipts = s.sim.receipts.upsert (receipt.finished n now) := by
  obtain ⟨e, g, m, o, now, rfl⟩ := h.frame
  exact ⟨now, rfl⟩

/-- Two runs without new edges. -/
theorem Ran.sameRows (h₁ : Ran w receipt t x 0 s s₁) (h₂ : Ran w receipt t x 0 s₁ s₂) :
    SameRows s₁ s₂ := by
  have hedges := h₂.added.edges_eq
  obtain ⟨hgroups, hmembers⟩ := h₂.added.groups rfl
  have hfeatures : (w.store t x s₁.sim).features = s₁.sim.features := by rw [h₁.store_eq]
  have hfunctions : (w.store t x s₁.sim).functions = s₁.sim.functions := by rw [h₁.store_eq]
  have hbands : (w.store t x s₁.sim).functionBands = s₁.sim.functionBands := by rw [h₁.store_eq]
  obtain ⟨now, hnow⟩ := h₁.receipts
  obtain ⟨now', hnow'⟩ := h₂.receipts
  have hkey : (receipt.finished 0 now).key = (receipt.finished 0 now').key := rfl
  have hreceipts : s₂.sim.receipts.rows.map Receipt.untimed =
      s₁.sim.receipts.rows.map Receipt.untimed := by
    rw [hnow', hnow, Table.upsert_upsert hkey]
    exact Table.map_upsert_congr hkey.symm rfl _
  obtain ⟨e, g, m, o, now₂, rfl⟩ := h₂.frame
  exact ⟨hfeatures, hfunctions, hbands, hedges, hgroups, hmembers, hreceipts⟩

/-- The receipt says how many edges the second run has inserted. -/
theorem Ran.count_eq (h₁ : Ran w receipt t x n₁ s s₁) (h₂ : Ran w receipt t x n₂ s₁ s₂)
    (hsame : SameRows s₁ s₂) : n₁ = n₂ := by
  obtain ⟨now, hnow⟩ := h₁.receipts
  obtain ⟨now', hnow'⟩ := h₂.receipts
  have hmem : receipt.finished n₁ now ∈ s₁.sim.receipts.rows := hnow ▸ Table.mem_upsert_self _ _
  have hmem' : receipt.finished n₂ now' ∈ s₂.sim.receipts.rows := hnow' ▸ Table.mem_upsert_self _ _
  -- The receipt of the first run is a row of the second store, but for its time.
  have hrow : (receipt.finished n₁ now).untimed ∈ s₂.sim.receipts.rows.map Receipt.untimed := by
    rw [hsame.receipts]
    exact List.mem_map_of_mem hmem
  obtain ⟨r, hr, huntimed⟩ := List.mem_map.mp hrow
  have hkey : r.key = (receipt.finished n₂ now').key := by
    simp only [Receipt.untimed, Prod.mk.injEq] at huntimed
    obtain ⟨h1, h2, h3, h4, h5, -⟩ := huntimed
    simp only [Receipt.key, h1, h2, h3, h4, h5]
    rfl
  obtain rfl := Table.eq_of_mem hr hmem' hkey
  simp only [Receipt.untimed, Prod.mk.injEq] at huntimed
  exact huntimed.2.2.2.2.2.2.symm

/-- The rows of the store without the column `evidence`. -/
theorem sameRows_iff (cfg : Config) (σ τ : List (ℕ × String) → List (ℕ × String)) {ls₁ ls₂ : List Pt}
    (h₁ : Prog.Returns (analyzeAndLink (cfg.walking σ).indexed t x cls bytes) s ls₁ n₁ s₁)
    (h₂ : Prog.Returns (analyzeAndLink (cfg.walking τ).indexed t x cls bytes) s₁ ls₂ n₂ s₂) :
    SameRows s₁ s₂ ↔ ¬ FindsNew (cfg.walking σ).indexed.analyzer s t x cls bytes ∧
      ¬ FindsNew (cfg.walking τ).indexed.analyzer s t x cls bytes := by
  by_cases hcls : cls.analysed
  · obtain ⟨w, receipt, hrun⟩ := exists_wp_analyzeAndLink cfg t x bytes hcls
    have hran₁ := Prog.wp_returns h₁ (hrun σ s) n₁ rfl
    have hran₂ := Prog.wp_returns h₂ (hrun τ s₁) n₂ rfl
    constructor
    · intro hsame
      -- A second run that inserts an edge changes the edges, and one that inserts none
      -- overwrites the number of the first.
      obtain rfl : n₂ = 0 := hran₂.added.eq_zero hsame.edges
      obtain rfl : n₁ = 0 := hran₁.count_eq hran₂ hsame
      exact ⟨(hran₁.eq_zero_iff h₁).mp rfl,
        fun hfinds => (hran₂.eq_zero_iff h₂).mp rfl (hran₁.sameOthers.findsNew.mpr hfinds)⟩
    · rintro ⟨hσ, hτ⟩
      obtain rfl : n₁ = 0 := (hran₁.eq_zero_iff h₁).mpr hσ
      obtain rfl : n₂ = 0 := (hran₂.eq_zero_iff h₂).mpr fun hfinds =>
        hτ (hran₁.sameOthers.findsNew.mp hfinds)
      exact hran₁.sameRows hran₂
  · -- Nothing runs, and nothing is found.
    have hnone (order) : ¬ FindsNew (cfg.walking order).indexed.analyzer s t x cls bytes := by
      rintro ⟨o, -, -, hanalysed, -⟩
      exact hcls hanalysed
    have hreturn (order) (s : Db) : (analyzeAndLink (cfg.walking order).indexed t x cls bytes).wp
        (fun _ _ => True) (fun _ s' => s' = s) s := by
      unfold analyzeAndLink
      rw [if_pos (not_not.mp fun h => hcls (analysed_iff.mpr h))]
      rfl
    obtain rfl := Prog.wp_returns h₁ (hreturn σ s)
    obtain rfl := Prog.wp_returns h₂ (hreturn τ s₁)
    exact iff_of_true ⟨rfl, rfl, rfl, rfl, rfl, rfl, rfl⟩ ⟨hnone σ, hnone τ⟩

end Twice

/-! ### With the evidence -/

namespace EvidenceDb

variable {t x : Uuid} {s s' s'' : EvidenceDb}

/-- Edges stay, and the column changes only with them. -/
structure ColumnFrame (s s' : EvidenceDb) : Prop where
  edges : s.db.sim.edges.rows <+: s'.db.sim.edges.rows
  evidence : s'.db.sim.edges = s.db.sim.edges → s'.evidence = s.evidence

theorem ColumnFrame.refl (s : EvidenceDb) : ColumnFrame s s := ⟨List.prefix_rfl, fun _ => rfl⟩

theorem ColumnFrame.trans (h : ColumnFrame s s') (h' : ColumnFrame s' s'') : ColumnFrame s s'' where
  edges := h.edges.trans h'.edges
  evidence := by
    intro heq
    have hback : s'.db.sim.edges.rows <+: s.db.sim.edges.rows := heq ▸ h'.edges
    have hsame : s'.db.sim.edges = s.db.sim.edges :=
      Table.ext_rows (hback.eq_of_length_le h.edges.length_le)
    exact (h'.evidence (heq.trans hsame.symm)).trans (h.evidence hsame)

/-- A program that leaves the edges and the column alone. -/
theorem lift_columnFrame {α : Type} {p : Srv α}
    (hp : p.Within (fun _ => True) (fun _ => SameEdges) True) :
    (lift p).Within (fun _ => True) (fun _ => ColumnFrame) True :=
  Prog.Within.zoom (fun _ s d (hd : d.sim.edges = s.db.sim.edges) =>
    ⟨(congrArg Table.rows hd).symm ▸ List.prefix_rfl, fun _ => rfl⟩) hp

theorem insertEdge_columnFrame (a b : Uuid) (ty : EdgeType) (score : ℚ) (ev : EdgeEvidence)
    (rows : List FunctionRow) :
    (insertEdge t a b ty score ev rows).Within (fun _ => True) (fun _ => ColumnFrame) True := by
  unfold insertEdge
  dsimp only
  generalize (if a < b then a else b) = src
  generalize (if a < b then b else a) = dst
  refine Prog.within_bind (Prog.within_exec trivial fun s env => ?_) fun new => ?_
  · by_cases hlt : src < dst
    · rw [if_pos hlt]
      set row : Edge := ⟨t, src, dst, ty, modelVersion, score, env.now⟩ with hrow
      cases hget : s.db.sim.edges.get row.key with
      | some e =>
        have hsame : s.db.sim.edges.insertNew row = s.db.sim.edges :=
          Table.rows_insertNew_of_get hget
        refine ⟨?_, fun _ => ?_⟩
        · show s.db.sim.edges.rows <+: (s.db.sim.edges.insertNew row).rows
          rw [hsame]
        · show (if (s.db.sim.edges.get row.key).isNone then _ else s.evidence) = s.evidence
          rw [hget]
          rfl
      | none =>
        have hrows : (s.db.sim.edges.insertNew row).rows = s.db.sim.edges.rows ++ [row] :=
          Table.rows_insertNew_of_none hget
        refine ⟨hrows ▸ List.prefix_append _ _, fun heq => ?_⟩
        -- There is one more row.
        have hmore := congrArg (fun table : Table Edge.key => table.rows.length) heq
        dsimp only [addEdge, SimDb.addEdge] at hmore
        rw [hrows, List.length_append, List.length_singleton] at hmore
        exact absurd hmore (Nat.succ_ne_self _)
    · rw [if_neg hlt]
      exact ⟨.refl s, trivial⟩
  · split
    · refine Prog.within_bind (lift_columnFrame ((unionGroups_inGroups _ _).mono
        (fun _ _ => trivial) ?_)) fun _ => trivial
      rintro _ d d' ⟨g, m, o, rfl⟩
      rfl
    · trivial

theorem analyzeAndLink_columnFrame (cfg : Config) (fmt : EvidenceFormat) (t x : Uuid)
    (cls : ArtifactClass) (bytes : Bytes) :
    (analyzeAndLink cfg fmt t x cls bytes).Within (fun _ => True) (fun _ => ColumnFrame) True := by
  have hquery {α : Type} {l : Pt} {q : EvidenceDb → α} : (Prog.query l q :
      Prog Pt EvidenceDb Env Error α).Within (fun _ => True) (fun _ => ColumnFrame) True :=
    Prog.within_query trivial .refl
  have hlinks {p : Srv Unit} (hp : p.Within (fun _ => True) (fun _ => SameLinks) True) :
      (lift p).Within (fun _ => True) (fun _ => ColumnFrame) True :=
    lift_columnFrame (hp.mono (fun _ h => h) fun _ _ _ hF => hF.2)
  unfold analyzeAndLink
  split
  · trivial
  refine Prog.within_bind (lift_columnFrame (extractAndStore_sameEdges _ _ _)) fun r => ?_
  refine Prog.within_bind (hlinks (persistReceipt_sameLinks _)) fun _ => ?_
  split
  · trivial
  refine Prog.within_bind (hlinks (storeFeature_sameLinks _ _)) fun _ => ?_
  split
  · trivial
  refine Prog.within_bind ?_ fun found => Prog.within_bind (Prog.within_loop (fun n o => ?_) _ 0)
    fun edges => Prog.within_bind (hlinks (persistReceipt_sameLinks _)) fun _ => trivial
  · -- The candidates are read.
    refine Prog.within_bind hquery fun live => Prog.within_bind (lift_columnFrame ?_) fun ids => ?_
    · split
      · exact (functionCandidates_sameLinks _).mono (fun _ h => h) fun _ _ _ hF => hF.2
      · trivial
    · split
      · exact Prog.within_bind hquery fun _ => trivial
      · trivial
  · refine Prog.within_bind hquery fun c => ?_
    split
    · trivial
    refine Prog.within_bind hquery fun functions => ?_
    dsimp only
    split
    · trivial
    · exact Prog.within_bind (insertEdge_columnFrame _ _ _ _ _ _) fun _ => trivial

/-- The tables that an analysis writes are as before, without the times of the receipts. -/
structure SameTables (s s' : EvidenceDb) : Prop where
  rows : SameRows s.db s'.db
  evidence : s'.evidence = s.evidence

/-- **A second analysis changes nothing** but times exactly when no artifact is found that would be
newly linked, whichever of the two walks through the function index is taken. -/
theorem analyze_twice_iff (cfg : Config) (σ τ : List (ℕ × String) → List (ℕ × String))
    (fmt : EvidenceFormat) (t x : Uuid) (cls : ArtifactClass) (bytes : Bytes) {s s₁ s₂ : EvidenceDb}
    {ls₁ ls₂ : List Pt} {n₁ n₂ : ℕ}
    (h₁ : Prog.Returns (analyzeAndLink (cfg.walking σ).indexed fmt t x cls bytes) s ls₁ n₁ s₁)
    (h₂ : Prog.Returns (analyzeAndLink (cfg.walking τ).indexed fmt t x cls bytes) s₁ ls₂ n₂ s₂) :
    SameTables s₁ s₂ ↔ ¬ FindsNew (cfg.walking σ).indexed.analyzer s.db t x cls bytes ∧
      ¬ FindsNew (cfg.walking τ).indexed.analyzer s.db t x cls bytes := by
  have herased (order) := analyzeAndLink_erases (cfg.walking order).indexed fmt t x cls bytes
  obtain ⟨_, rfl, hrun₁⟩ := (herased σ).returns h₁
  obtain ⟨_, rfl, hrun₂⟩ := (herased τ).returns h₂
  rw [← sameRows_iff cfg σ τ hrun₁ hrun₂]
  refine ⟨SameTables.rows, fun hrows => ⟨hrows, ?_⟩⟩
  -- The column `evidence` is written only with an edge.
  have hframe : ColumnFrame s₁ s₂ := Prog.wp_returns h₂
    (Prog.Within.wp (Q := fun _ => ColumnFrame s₁) (fun _ _ _ _ => trivial)
      (fun _ _ _ hF hI => hI.trans hF) (fun _ _ h => h)
      (analyzeAndLink_columnFrame _ fmt t x cls bytes) (.refl s₁))
  exact hframe.evidence hrows.edges

/-- What an analysis of a file leaves, with this order of the keys. -/
def afterWalk (order : List (ℕ × String) → List (ℕ × String)) (x : Uuid) (s : EvidenceDb) :
    Except Error ℕ × EvidenceDb :=
  (analyzeAndLink (Config.tokens.walking order).indexed .small 0 x .pe [x.toUInt8]).eval
    (.drawing 9) s

/-- A file without any other to compare it with. -/
theorem analyze_twice_iff_alone : ∃ ls₁ n₁ s₁ ls₂ n₂ s₂,
    Prog.Returns (analyzeAndLink (Config.tokens.walking id).indexed .small 0 2 .pe [2])
      (.start threeFiles) ls₁ n₁ s₁ ∧
    Prog.Returns (analyzeAndLink (Config.tokens.walking List.reverse).indexed .small 0 2 .pe [2])
      s₁ ls₂ n₂ s₂ ∧ SameTables s₁ s₂ := by
  obtain ⟨ls₁, h₁⟩ := Prog.returns_of_eval
    (show (afterWalk id 2 (.start threeFiles)).1 = .ok 0 by decide +kernel)
  obtain ⟨ls₂, h₂⟩ := Prog.returns_of_eval
    (show (afterWalk List.reverse 2 (afterWalk id 2 (.start threeFiles)).2).1 = .ok 0 by
      decide +kernel)
  refine ⟨ls₁, _, _, ls₂, _, _, h₁, h₂,
    (analyze_twice_iff Config.tokens id List.reverse .small 0 2 .pe [2] h₁ h₂).mpr ⟨?_, ?_⟩⟩
  · have hnone : (EvidenceDb.start threeFiles).db.indexCandidates
        (Config.tokens.walking id).indexed.analyzer 0 2
        (scoringOf (Config.tokens.walking id).indexed.analyzer .pe [2]) = [] := by decide +kernel
    rintro ⟨o, ho, -⟩
    rw [hnone] at ho
    cases ho
  · have hnone : (EvidenceDb.start threeFiles).db.indexCandidates
        (Config.tokens.walking List.reverse).indexed.analyzer 0 2
        (scoringOf (Config.tokens.walking List.reverse).indexed.analyzer .pe [2]) = [] := by
      decide +kernel
    rintro ⟨o, ho, -⟩
    rw [hnone] at ho
    cases ho

/-- A file that is linked with another: the second run says in the receipt that there is no edge. -/
theorem second_run_resets_count : ∃ ls n s ls₁ n₁ s₁ ls₂ n₂ s₂,
    Prog.Returns (analyzeAndLink (Config.tokens.walking id).indexed .small 0 2 .pe [2])
      (.start threeFiles) ls n s ∧
    Prog.Returns (analyzeAndLink (Config.tokens.walking id).indexed .small 0 3 .pe [3])
      s ls₁ n₁ s₁ ∧
    Prog.Returns (analyzeAndLink (Config.tokens.walking id).indexed .small 0 3 .pe [3])
      s₁ ls₂ n₂ s₂ ∧ n₁ = 1 ∧ n₂ = 0 ∧ ¬ SameTables s₁ s₂ := by
  obtain ⟨ls, h⟩ := Prog.returns_of_eval
    (show (afterWalk id 2 (.start threeFiles)).1 = .ok 0 by decide +kernel)
  obtain ⟨ls₁, h₁⟩ := Prog.returns_of_eval
    (show (afterWalk id 3 (afterWalk id 2 (.start threeFiles)).2).1 = .ok 1 by decide +kernel)
  obtain ⟨ls₂, h₂⟩ := Prog.returns_of_eval
    (show (afterWalk id 3 (afterWalk id 3 (afterWalk id 2 (.start threeFiles)).2).2).1 = .ok 0 by
      decide +kernel)
  refine ⟨ls, _, _, ls₁, _, _, ls₂, _, _, h, h₁, h₂, rfl, rfl, fun hsame => ?_⟩
  have hcounts := congrArg (List.map fun u => u.2.2.2.2.2.2) hsame.rows.receipts
  rw [List.map_map, List.map_map] at hcounts
  exact absurd hcounts (by decide +kernel)

end EvidenceDb

end Corpus
