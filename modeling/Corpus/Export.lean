/-
Exports of similarity graphs (`similarity/export.rs`).

The JSON body of a group shows its artifacts and the edges between them, that of a neighborhood
the answer to the query.  Edges are sorted by the digests of their ends and the type, and edges
that agree in these stay in the order of the database.

* `exportGroup`, `exportNeighborhood` — the two bodies, for each order in which the database may
  return its rows;
* `export_canonical_iff` — a body does not depend on that order, exactly when no two edges of the
  group differ in their model version only.
-/
import Corpus.JsonText
import Corpus.NeighborhoodGraph
import Corpus.SortOrders

namespace Corpus

open JsonText

/-! ### The document -/

/-- How the parts of a document are printed whose text is of no interest: identifiers, numbers,
and the evidence at an indentation.  A group shows three members of the evidence, a neighborhood
six. -/
structure ExportText where
  uuid : Uuid → String
  number : ℚ → List Char
  groupEvidence : ℕ → EvidenceRef → List Char
  neighborhoodEvidence : ℕ → EvidenceRef → List Char

/-- The sort key of the nodes. -/
def canonicalNodeKey (n : NeighborhoodNode) : Lex (String × Uuid) := toLex (n.sha256, n.artifactId)

/-- The sort key of the edges. -/
def canonicalEdgeKey (e : NeighborhoodEdge) : Lex (String × Lex (String × String)) :=
  toLex (e.srcSha256, toLex (e.dstSha256, e.edgeType))

namespace ExportText

variable (text : ExportText)

/-- `CanonicalNode`. -/
def node (n : NeighborhoodNode) : List Char :=
  object 4 [("artifact_id", quote (text.uuid n.artifactId)), ("sha256", quote n.sha256),
    ("artifact_class", quote n.artifactClass), ("depth", (toString n.depth).toList)]

/-- `CanonicalEdge`. -/
def edge (evidence : ℕ → EvidenceRef → List Char) (e : NeighborhoodEdge) : List Char :=
  object 4 [("src_artifact", quote (text.uuid e.srcArtifact)),
    ("dst_artifact", quote (text.uuid e.dstArtifact)), ("src_sha256", quote e.srcSha256),
    ("dst_sha256", quote e.dstSha256), ("edge_type", quote e.edgeType),
    ("model_version", quote e.modelVersion), ("score", text.number e.score),
    ("evidence", evidence 6 e.evidenceRef)]

/-- `render_json`. -/
def renderJson (evidence : ℕ → EvidenceRef → List Char) (graph : NeighborhoodResponse) : String :=
  let nodes := graph.nodes.insertionSort fun a b => canonicalNodeKey a ≤ canonicalNodeKey b
  let edges := graph.edges.insertionSort fun a b => canonicalEdgeKey a ≤ canonicalEdgeKey b
  String.ofList <| object 0 [("schema_version", quote "similarity-export:v1"),
    ("tenant_id", quote (text.uuid graph.tenantId)),
    ("seed_artifact", quote (text.uuid graph.seedArtifact)), ("seed_sha256", quote graph.seedSha256),
    ("model_version", quote graph.modelVersion), ("truncated", (toString graph.truncated).toList),
    ("nodes", array 2 (nodes.map text.node)), ("edges", array 2 (edges.map (text.edge evidence)))]

end ExportText

/-! ### Groups -/

/-- `ORDER BY a.sha256`, by bytes. -/
def Artifact.shaKey (a : Artifact) : List ℕ := a.sha256.map UInt8.toNat

/-- `ORDER BY edge_type, score DESC, src_artifact, dst_artifact`; the names of the types have one
order in every collation. -/
def Edge.exportKey (e : Edge) : Lex (String × Lex (ℚᵒᵈ × Lex (Uuid × Uuid))) :=
  toLex (e.edgeType.asStr, toLex (OrderDual.toDual e.score, toLex (e.src, e.dst)))

/-- The orders in which the database returns the rows of the two queries. -/
structure GroupOrders where
  members : SortOrder Artifact.shaKey
  edges : SortOrder Edge.exportKey

/-- The artifacts of the members. -/
def Db.groupArtifacts (s : Db) (t g : Uuid) : List Artifact :=
  (s.sim.members.rows.filter fun m => m.tenant = t && m.groupId = g).filterMap fun m =>
    s.artifactById t m.artifactId

/-- The edges with both ends among the members. -/
def Db.edgesAmong (s : Db) (t : Uuid) (ids : List Uuid) : List Edge :=
  s.sim.edges.rows.filter fun e => e.tenant = t && e.src ∈ ids && e.dst ∈ ids

/-- `sha_map`. -/
def shaOf (members : List Artifact) (x : Uuid) : String :=
  ((members.find? fun a => a.id = x).map fun a => hexEncode a.sha256).getD ""

/-- An edge of a group, as it is exported. -/
def groupEdge (ev : Edge → Json) (members : List Artifact) (e : Edge) : NeighborhoodEdge where
  srcArtifact := e.src
  dstArtifact := e.dst
  srcSha256 := shaOf members e.src
  dstSha256 := shaOf members e.dst
  edgeType := e.edgeType.asStr
  modelVersion := e.modelVersion
  score := e.score
  evidenceRef :=
    { edgeType := e.edgeType.asStr
      modelVersion := e.modelVersion
      score := e.score
      matchedPairs := ((ev e).get? "matched_pairs").getD .null
      receiptId := ((ev e).get? "receipt_id").getD .null
      tau := ((ev e).get? "tau").getD .null }

/-- The graph of a group, of the rows of the two queries. -/
def groupGraph (ev : Edge → Json) (t : Uuid) (seed : Artifact) (members : List Artifact)
    (erows : List Edge) : NeighborhoodResponse where
  tenantId := t
  seedArtifact := seed.id
  seedSha256 := shaOf members seed.id
  modelVersion := Corpus.modelVersion
  nodes := members.map fun a => ⟨a.id, hexEncode a.sha256, a.artifactClass.asStr, 0⟩
  edges := erows.map (groupEdge ev members)
  truncated := false
  limits := ⟨0, maxNodes, maxEdges, maxNeighborhoodBytes, 0, members.length, 0⟩

/-- `export_group`, up to the JSON body. -/
def exportGroup (ev : Edge → Json) (text : ExportText) (o : GroupOrders) (s : Db) (t g : Uuid) :
    Except Error String :=
  let members := o.members.sort (s.groupArtifacts t g)
  match members with
  -- The first member is the seed.
  | [] => .error (.notFound s!"variant group {printUuid g}")
  | seed :: _ =>
    let erows := o.edges.sort (s.edgesAmong t (members.map Artifact.id))
    .ok (text.renderJson text.groupEvidence (groupGraph ev t seed members erows))

/-! ### Neighborhoods -/

/-- The orders in which the database returns the rows of `load_neighbors`. -/
abbrev NeighborOrder := SortOrder NeighborRow.sortKey

/-- `load_neighbors`, in some order of the database. -/
def Db.loadNeighborsIn (o : NeighborOrder) (ev : Edge → Json) (s : Db) (t u : Uuid)
    (q : NeighborhoodQuery) : List NeighborRow :=
  (o.sort ((s.sim.edges.rows.filter (q.selects t u)).filterMap (s.joinNeighbor ev t u))).filter
    fun r => q.follows r.edge.edgeType

namespace Neighborhood

variable (o : NeighborOrder) (fmt : NeighborhoodFormat) (t : Uuid) (q : NeighborhoodQuery)

/-- The loop over the frontier, as `expand`. -/
def expandIn : ℕ → Traversal → Reader Traversal
  | 0, st => return st
  | fuel + 1, st => match st.frontier with
    | [] => return st
    | (current, d) :: rest =>
      let st := { st with frontier := rest }
      if d ≥ q.depth then expandIn fuel st
      else do
        let neighbors ← Prog.query (.neighbors t current) fun s =>
          s.loadNeighborsIn o fmt.evidence t current q
        let st := neighbors.foldl (Traversal.meet q d) st
        if st.full q then return st else expandIn fuel st

/-- `query`, in some order of the database. -/
def queryIn : Reader NeighborhoodResponse := do
  let seed ← resolveSeed fmt t q.seed
  let st ← expandIn o fmt t q q.nodeCap (.start seed)
  answer (respond fmt t q seed st)

/-- `export_neighborhood`, up to the JSON body. -/
def exportNeighborhood (text : ExportText) : Reader String := do
  let graph ← queryIn o fmt t q
  return text.renderJson text.neighborhoodEvidence graph

end Neighborhood

/-! ### A neighborhood has one body -/

section Neighbors

variable {ev : Edge → Json} {s : Db} {t u : Uuid} {q : NeighborhoodQuery} {o : NeighborOrder}

/-- The rows of one model version are told apart by the columns they are sorted by. -/
theorem eq_of_sortKey {r r' : NeighborRow}
    (hr : r ∈ (s.sim.edges.rows.filter (q.selects t u)).filterMap (s.joinNeighbor ev t u))
    (hr' : r' ∈ (s.sim.edges.rows.filter (q.selects t u)).filterMap (s.joinNeighbor ev t u))
    (hkey : r.sortKey = r'.sortKey) : r = r' := by
  obtain ⟨e, he, hjoin⟩ := List.mem_filterMap.mp hr
  obtain ⟨e', he', hjoin'⟩ := List.mem_filterMap.mp hr'
  obtain ⟨hmem, hsel⟩ := List.mem_filter.mp he
  obtain ⟨hmem', hsel'⟩ := List.mem_filter.mp he'
  simp only [NeighborhoodQuery.selects, Bool.and_eq_true, decide_eq_true_iff] at hsel hsel'
  have hcols : r.edge.srcArtifact = e.src ∧ r.edge.dstArtifact = e.dst ∧
      r.edge.edgeType = e.edgeType.asStr := by
    obtain ⟨_, _, _, -, -, -, rfl⟩ := Db.joinNeighbor_eq_some.mp hjoin
    exact ⟨rfl, rfl, rfl⟩
  have hcols' : r'.edge.srcArtifact = e'.src ∧ r'.edge.dstArtifact = e'.dst ∧
      r'.edge.edgeType = e'.edgeType.asStr := by
    obtain ⟨_, _, _, -, -, -, rfl⟩ := Db.joinNeighbor_eq_some.mp hjoin'
    exact ⟨rfl, rfl, rfl⟩
  simp only [NeighborRow.sortKey, hcols, hcols', toLex_inj, Prod.mk.injEq] at hkey
  obtain ⟨-, htype, hsrc, hdst⟩ := hkey
  -- The query selects one model version, so tenant, ends and type are the key.
  obtain rfl : e = e' := by
    refine s.sim.edges.eq_of_mem hmem hmem' ?_
    rw [Edge.key, Edge.key, hsel.1.1.1, hsel'.1.1.1, hsel.1.2, hsel'.1.2, hsrc, hdst,
      EdgeType.asStr_injective htype]
  exact Option.some.inj (hjoin.symm.trans hjoin')

theorem loadNeighborsIn_eq : s.loadNeighborsIn o ev t u q = s.loadNeighbors ev t u q := by
  rw [Db.loadNeighborsIn, Db.loadNeighbors]
  congr 1
  exact SortOrder.sort_eq_sort (.refl _) (fun r hr r' hr' => eq_of_sortKey hr hr') o
    (.stable NeighborRow.sortKey)

variable (o) (fmt : NeighborhoodFormat) (t) (q)

theorem expandIn_eq : ∀ (fuel : ℕ) (st : Traversal),
    Neighborhood.expandIn o fmt t q fuel st = Neighborhood.expand fmt t q fuel st := by
  intro fuel
  induction fuel with
  | zero => exact fun st => rfl
  | succ fuel ih =>
    intro st
    unfold Neighborhood.expandIn Neighborhood.expand
    cases st.frontier with
    | nil => rfl
    | cons p rest =>
      obtain ⟨current, d⟩ := p
      simp only [loadNeighborsIn_eq, ih]

/-- The database has one answer to each statement of the query. -/
theorem queryIn_eq : Neighborhood.queryIn o fmt t q = Neighborhood.query fmt t q := by
  unfold Neighborhood.queryIn Neighborhood.query Neighborhood.traverse
  simp only [expandIn_eq]

theorem exportNeighborhood_eq (o' : NeighborOrder) (text : ExportText) :
    Neighborhood.exportNeighborhood o fmt t q text =
      Neighborhood.exportNeighborhood o' fmt t q text := by
  unfold Neighborhood.exportNeighborhood
  rw [queryIn_eq, queryIn_eq]

end Neighbors

/-! ### When a group has one body -/

/-- The artifact is in the group. -/
def Db.InGroup (s : Db) (t g x : Uuid) : Prop :=
  s.sim.groupOf t x = some g ∧ ∃ a, s.artifactById t x = some a

/-- Two edges of the group differ in their model version, and in nothing they are sorted by. -/
def Db.TiedEdges (s : Db) (t g : Uuid) : Prop :=
  ∃ e ∈ s.sim.edges.rows, ∃ e' ∈ s.sim.edges.rows, e.tenant = t ∧ e'.tenant = t ∧
    s.InGroup t g e.src ∧ s.InGroup t g e.dst ∧ e.src = e'.src ∧ e.dst = e'.dst ∧
      e.edgeType = e'.edgeType ∧ e.score = e'.score ∧ e.modelVersion ≠ e'.modelVersion

section Group

variable {ev : Edge → Json} {text : ExportText} {s : Db} {t g x : Uuid}

theorem artifactById_mem {a : Artifact} (h : s.artifactById t x = some a) :
    a ∈ s.ingest.artifacts.rows ∧ a.tenant = t ∧ a.id = x := by
  have hfound := List.find?_some h
  rw [Bool.and_eq_true, decide_eq_true_iff, decide_eq_true_iff] at hfound
  exact ⟨List.mem_of_find?_eq_some h, hfound⟩

theorem mem_groupArtifacts {a : Artifact} : a ∈ s.groupArtifacts t g ↔
    ∃ x, s.sim.groupOf t x = some g ∧ s.artifactById t x = some a := by
  simp only [Db.groupArtifacts, List.mem_filterMap, List.mem_filter, Bool.and_eq_true,
    decide_eq_true_iff]
  constructor
  · rintro ⟨m, ⟨hm, rfl, rfl⟩, ha⟩
    exact ⟨m.artifactId, SimDb.mem_members.mp hm, ha⟩
  · rintro ⟨x, hx, ha⟩
    exact ⟨⟨t, g, x⟩, ⟨SimDb.mem_members.mpr hx, rfl, rfl⟩, ha⟩

theorem mem_groupIds : x ∈ (s.groupArtifacts t g).map Artifact.id ↔ s.InGroup t g x := by
  rw [List.mem_map]
  constructor
  · rintro ⟨a, ha, rfl⟩
    obtain ⟨y, hy, hya⟩ := mem_groupArtifacts.mp ha
    obtain ⟨-, -, rfl⟩ := artifactById_mem hya
    exact ⟨hy, a, hya⟩
  · rintro ⟨hx, a, ha⟩
    exact ⟨a, mem_groupArtifacts.mpr ⟨x, hx, ha⟩, (artifactById_mem ha).2.2⟩

/-- The artifacts of a tenant are told apart by their digests. -/
theorem eq_of_shaKey {a b : Artifact} (ha : a ∈ s.groupArtifacts t g)
    (hb : b ∈ s.groupArtifacts t g) (hkey : a.shaKey = b.shaKey) : a = b := by
  obtain ⟨x, -, hx⟩ := mem_groupArtifacts.mp ha
  obtain ⟨y, -, hy⟩ := mem_groupArtifacts.mp hb
  obtain ⟨hmem, htenant, -⟩ := artifactById_mem hx
  obtain ⟨hmem', htenant', -⟩ := artifactById_mem hy
  have hsha : a.sha256 = b.sha256 :=
    List.map_injective_iff.mpr (fun _ _ h => UInt8.toNat_inj.mp h) hkey
  refine s.ingest.artifacts.eq_of_mem hmem hmem' ?_
  rw [Artifact.key, Artifact.key, htenant, htenant', hsha]

/-- The database has one answer to the query of the members. -/
theorem sort_groupArtifacts (o o' : SortOrder Artifact.shaKey) :
    o.sort (s.groupArtifacts t g) = o'.sort (s.groupArtifacts t g) :=
  SortOrder.sort_eq_sort (.refl _) (fun _ ha _ hb => eq_of_shaKey ha hb) o o'

/-- The edges of the group. -/
def Db.groupEdges (s : Db) (t g : Uuid) : List Edge :=
  s.edgesAmong t ((s.groupArtifacts t g).map Artifact.id)

theorem mem_groupEdges {e : Edge} : e ∈ s.groupEdges t g ↔ e ∈ s.sim.edges.rows ∧ e.tenant = t ∧
    s.InGroup t g e.src ∧ s.InGroup t g e.dst := by
  simp only [Db.groupEdges, Db.edgesAmong, List.mem_filter, Bool.and_eq_true, decide_eq_true_iff,
    mem_groupIds, and_assoc]

theorem edgesAmong_congr {ids ids' : List Uuid} (h : ids.Perm ids') :
    s.edgesAmong t ids = s.edgesAmong t ids' := by
  unfold Db.edgesAmong
  simp only [h.mem_iff]

theorem edgesAmong_sort (o : SortOrder Artifact.shaKey) :
    s.edgesAmong t ((o.sort (s.groupArtifacts t g)).map Artifact.id) = s.groupEdges t g :=
  edgesAmong_congr ((o.perm _).map _)

/-- Edges that are not tied are told apart by the columns they are sorted by. -/
theorem eq_of_exportKey (h : ¬ s.TiedEdges t g) {e e' : Edge} (he : e ∈ s.groupEdges t g)
    (he' : e' ∈ s.groupEdges t g) (hkey : e.exportKey = e'.exportKey) : e = e' := by
  obtain ⟨hmem, htenant, hsrc, hdst⟩ := mem_groupEdges.mp he
  obtain ⟨hmem', htenant', -, -⟩ := mem_groupEdges.mp he'
  simp only [Edge.exportKey, toLex_inj, Prod.mk.injEq, OrderDual.toDual_inj] at hkey
  obtain ⟨htype, hscore, heqsrc, heqdst⟩ := hkey
  have heqtype := EdgeType.asStr_injective htype
  -- The key of an edge has one column more than those it is sorted by, the model version.
  by_cases hmodel : e.modelVersion = e'.modelVersion
  · refine s.sim.edges.eq_of_mem hmem hmem' ?_
    rw [Edge.key, Edge.key, htenant, htenant', heqsrc, heqdst, heqtype, hmodel]
  · exact absurd ⟨e, hmem, e', hmem', htenant, htenant', hsrc, hdst, heqsrc, heqdst, heqtype,
      hscore, hmodel⟩ h

theorem exportGroup_eq (h : ¬ s.TiedEdges t g) (o o' : GroupOrders) :
    exportGroup ev text o s t g = exportGroup ev text o' s t g := by
  unfold exportGroup
  simp only [edgesAmong_sort]
  rw [sort_groupArtifacts o.members o'.members, SortOrder.sort_eq_sort (.refl _)
    (fun _ he _ he' => eq_of_exportKey h he he') o.edges o'.edges]

/-- Tied edges can come in both orders, beside each other. -/
theorem exists_orders {l : List Edge} {e e' : Edge} (he : e ∈ l) (he' : e' ∈ l) (hne : e ≠ e')
    (hkey : e.exportKey = e'.exportKey) : ∃ (o o' : SortOrder Edge.exportKey) (C D : List Edge),
      o.sort l = C ++ e :: e' :: D ∧ o'.sort l = C ++ e' :: e :: D := by
  classical
  -- The two in front of all others, and then sorted.
  obtain ⟨C, D, hsort, hsort'⟩ := insertionSort_swap hkey [] ((l.erase e).erase e')
  have hperm : (e :: e' :: (l.erase e).erase e').Perm l :=
    ((List.perm_cons_erase ((List.mem_erase_of_ne hne.symm).mpr he')).symm.cons e).trans
      (List.perm_cons_erase he).symm
  have hperm' : (e' :: e :: (l.erase e).erase e').Perm l := (List.Perm.swap e e' _).trans hperm
  obtain ⟨o, ho⟩ := SortOrder.exists_sort_eq
    (((SortOrder.stable Edge.exportKey).perm _).trans hperm)
    ((SortOrder.stable Edge.exportKey).sorted _)
  obtain ⟨o', ho'⟩ := SortOrder.exists_sort_eq
    (((SortOrder.stable Edge.exportKey).perm _).trans hperm')
    ((SortOrder.stable Edge.exportKey).sorted _)
  exact ⟨o, o', C, D, ho.trans hsort, ho'.trans hsort'⟩

/-- The body shows the model versions of edges that are beside each other. -/
theorem modelVersion_of_renderJson {evidence : ℕ → EvidenceRef → List Char}
    {graph graph' : NeighborhoodResponse} {A B : List NeighborhoodEdge} {x y : NeighborhoodEdge}
    (hgraph : graph' = { graph with edges := A ++ y :: x :: B })
    (hedges : graph.edges = A ++ x :: y :: B) (hsrc : x.srcArtifact = y.srcArtifact)
    (hdst : x.dstArtifact = y.dstArtifact) (hsha : x.srcSha256 = y.srcSha256)
    (hsha' : x.dstSha256 = y.dstSha256) (htype : x.edgeType = y.edgeType)
    (h : text.renderJson evidence graph = text.renderJson evidence graph') :
    x.modelVersion = y.modelVersion := by
  have hkey : canonicalEdgeKey x = canonicalEdgeKey y := by
    rw [canonicalEdgeKey, canonicalEdgeKey, hsha, hsha', htype]
  obtain ⟨C, D, hsort, hsort'⟩ := insertionSort_swap hkey A B
  subst hgraph
  unfold ExportText.renderJson at h
  simp only [hedges, hsort, hsort', List.map_append, List.map_cons, String.ofList_inj] at h
  -- The texts agree up to the lists of edges, these up to the first of the two, and it up to its
  -- model version.
  obtain ⟨_, _, hlists⟩ := object_append_inj [_, _, _, _, _, _, _]
    ((List.append_nil _).trans (h.trans (List.append_nil _).symm))
  obtain ⟨_, _, hfirst⟩ := block_append_inj _ hlists
  rw [ExportText.edge, ExportText.edge, hsrc, hdst, hsha, hsha', htype] at hfirst
  obtain ⟨_, _, hversion⟩ := object_append_inj [_, _, _, _, _] hfirst
  exact quote_append_inj hversion

/-- Tied edges have bodies in both orders. -/
theorem exportGroup_ne (ev : Edge → Json) (text : ExportText) (h : s.TiedEdges t g) :
    ∃ o o' : GroupOrders,
    exportGroup ev text o s t g ≠ exportGroup ev text o' s t g := by
  obtain ⟨e, hmem, e', hmem', htenant, htenant', hsrc, hdst, heqsrc, heqdst, htype, hscore,
    hmodel⟩ := h
  have he : e ∈ s.groupEdges t g := mem_groupEdges.mpr ⟨hmem, htenant, hsrc, hdst⟩
  have he' : e' ∈ s.groupEdges t g :=
    mem_groupEdges.mpr ⟨hmem', htenant', heqsrc ▸ hsrc, heqdst ▸ hdst⟩
  have hkey : e.exportKey = e'.exportKey := by
    rw [Edge.exportKey, Edge.exportKey, htype, hscore, heqsrc, heqdst]
  have hne : e ≠ e' := fun heq => hmodel (congrArg Edge.modelVersion heq)
  obtain ⟨o, o', C, D, ho, ho'⟩ := exists_orders he he' hne hkey
  refine ⟨⟨.stable _, o⟩, ⟨.stable _, o'⟩, fun hsame => hmodel ?_⟩
  unfold exportGroup at hsame
  simp only [edgesAmong_sort, ho, ho'] at hsame
  -- The group has members, as the edges have ends.
  cases hmembers : (SortOrder.stable Artifact.shaKey).sort (s.groupArtifacts t g) with
  | nil =>
    have hids := mem_groupIds.mpr hsrc
    have hnil := ((SortOrder.stable Artifact.shaKey).perm (s.groupArtifacts t g)).symm
    rw [hmembers] at hnil
    rw [hnil.eq_nil] at hids
    exact absurd hids List.not_mem_nil
  | cons seed members =>
    rw [hmembers] at hsame
    have hbody := Except.ok.inj hsame
    refine modelVersion_of_renderJson (x := groupEdge ev (seed :: members) e)
      (y := groupEdge ev (seed :: members) e') (A := C.map (groupEdge ev (seed :: members)))
      (B := D.map (groupEdge ev (seed :: members))) ?_ ?_ heqsrc heqdst ?_ ?_ ?_ hbody
    · simp [groupGraph]
    · simp [groupGraph]
    · simp [groupEdge, heqsrc]
    · simp [groupEdge, heqdst]
    · simp [groupEdge, htype]

end Group

/-- A group and a neighborhood have one body each, whatever the order in which the database returns
the rows of the queries, exactly when no two edges of the group are tied. -/
theorem export_canonical_iff (fmt : NeighborhoodFormat) (text : ExportText) (s : Db) (t g : Uuid) :
    ((∀ o o' : GroupOrders,
        exportGroup fmt.evidence text o s t g = exportGroup fmt.evidence text o' s t g) ∧
      ∀ (q : NeighborhoodQuery) (o o' : NeighborOrder),
        Neighborhood.exportNeighborhood o fmt t q text =
          Neighborhood.exportNeighborhood o' fmt t q text) ↔
      ¬ s.TiedEdges t g := by
  constructor
  · rintro ⟨hgroup, -⟩ htied
    obtain ⟨o, o', hne⟩ := exportGroup_ne fmt.evidence text htied
    exact hne (hgroup o o')
  · exact fun h => ⟨exportGroup_eq h, fun q o o' => exportNeighborhood_eq t q o fmt o' text⟩

/-! ### Two model versions -/

/-- The text of a document of small identifiers, whole numbers and no evidence. -/
def plainText : ExportText where
  uuid x := s!"00000000-0000-0000-0000-00000000000{x}"
  number x := (toString x.num).toList ++ ".0".toList
  groupEvidence indent _ :=
    object indent (["matched_pairs", "receipt_id", "tau"].map fun name => (name, "null".toList))
  neighborhoodEvidence indent r :=
    object indent ([("edge_type", quote r.edgeType), ("model_version", quote r.modelVersion),
      ("score", (toString r.score.num).toList ++ ".0".toList)] ++
        ["matched_pairs", "receipt_id", "tau"].map fun name => (name, "null".toList))

def copyOf (x : ℕ) (digest : UInt8) : Artifact :=
  ⟨x, 0, x, [digest], 1, .pe, .committed, ⟨0, hexEncode [digest]⟩, 0, .endpoint, .null⟩

/-- A group of two artifacts, with an edge of each of two model versions. -/
def twoVersions : Db :=
  { Db.empty with
    ingest := { Db.empty.ingest with artifacts := ⟨[copyOf 1 1, copyOf 2 2], by decide⟩ }
    sim := { SimDb.empty with
      members := ⟨[⟨0, 9, 1⟩, ⟨0, 9, 2⟩], by decide⟩
      edges := ⟨[⟨0, 1, 2, .exactCopy, "v1", 1, 0⟩, ⟨0, 1, 2, .exactCopy, "v2", 1, 0⟩],
        by decide⟩ } }

/-- Its body depends on the order of the database. -/
theorem two_versions_two_bodies : ¬ ∀ o o' : GroupOrders,
    exportGroup (fun _ => .null) plainText o twoVersions 0 9 =
      exportGroup (fun _ => .null) plainText o' twoVersions 0 9 := by
  intro h
  have hone : twoVersions.InGroup 0 9 1 := ⟨rfl, copyOf 1 1, rfl⟩
  have htwo : twoVersions.InGroup 0 9 2 := ⟨rfl, copyOf 2 2, rfl⟩
  have htied : twoVersions.TiedEdges 0 9 := ⟨⟨0, 1, 2, .exactCopy, "v1", 1, 0⟩, .head _,
    ⟨0, 1, 2, .exactCopy, "v2", 1, 0⟩, .tail _ (.head _), rfl, rfl, hone, htwo, rfl, rfl, rfl, rfl,
    by decide⟩
  obtain ⟨o, o', hne⟩ := exportGroup_ne (fun _ => .null) plainText htied
  exact hne (h o o')

end Corpus
