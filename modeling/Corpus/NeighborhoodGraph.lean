/-
Neighborhoods are balls of the stored graph.

The edges that pass the filters of a query, and whose ends are both artifacts, make a
graph.  A query searches it breadth first, within its caps:

* `lists` — `load_neighbors` lists the edges of the graph;
* `expand_search` — the loop over the frontier is the capped search;
* `neighborhood_exact` — so `truncated` says whether the ball exceeds a cap, and when it
  does not the query collects the ball, with distances, and the edges around it.
-/
import Corpus.Neighborhood

namespace Corpus

/-! ### The graph -/

theorem EdgeType.asStr_injective {a b : EdgeType} (h : a.asStr = b.asStr) : a = b := by
  cases a <;> cases b <;> first | rfl | exact absurd h (by decide)

/-- The edge passes the filters of the query, and both its ends are artifacts. -/
structure Db.Follows (s : Db) (t : Uuid) (q : NeighborhoodQuery) (e : Edge) : Prop where
  mem : e ∈ s.sim.edges.rows
  tenant : e.tenant = t
  model : e.modelVersion = q.model
  score : q.minScore ≤ ((e.score : WithTop ℚ) : WithBot (WithTop ℚ))
  edgeType : q.follows e.edgeType.asStr = true
  src : (s.artifactById t e.src).isSome
  dst : (s.artifactById t e.dst).isSome

/-- The graph of a query. -/
def Db.graph (s : Db) (t : Uuid) (q : NeighborhoodQuery) : SimpleGraph Uuid :=
  SimpleGraph.fromRel fun u v => ∃ e, s.Follows t q e ∧ e.src = u ∧ e.dst = v

/-- The edges with an end less than the applied depth away from the seed. -/
def Db.edgesAround (s : Db) (t : Uuid) (q : NeighborhoodQuery) (seed : Uuid) : Set Edge :=
  {e | s.Follows t q e ∧
    ((s.graph t q).edist seed e.src < q.depth ∨ (s.graph t q).edist seed e.dst < q.depth)}

/-- The edge as a query shows it. -/
def Db.edgeView (ev : Edge → Json) (s : Db) (t : Uuid) (e : Edge) : Option NeighborhoodEdge := do
  let src ← s.artifactById t e.src
  let dst ← s.artifactById t e.dst
  some (e.view ev src dst)

section Graph

variable {ev : Edge → Json} {s : Db} {t u v : Uuid} {q : NeighborhoodQuery} {e e' : Edge}
  {r : NeighborRow} {x : NeighborhoodEdge}

theorem Db.edgeView_eq_some : s.edgeView ev t e = some x ↔ ∃ src dst,
    s.artifactById t e.src = some src ∧ s.artifactById t e.dst = some dst ∧
      e.view ev src dst = x := by
  simp only [edgeView, Option.bind_eq_bind, Option.bind_eq_some_iff, Option.some.injEq, exists_and_left]

theorem Db.Follows.exists_view (h : s.Follows t q e) (ev : Edge → Json) :
    ∃ x, s.edgeView ev t e = some x := by
  obtain ⟨src, hsrc⟩ := Option.isSome_iff_exists.mp h.src
  obtain ⟨dst, hdst⟩ := Option.isSome_iff_exists.mp h.dst
  exact ⟨_, edgeView_eq_some.mpr ⟨src, dst, hsrc, hdst, rfl⟩⟩

theorem Db.edgeView_key (h : s.edgeView ev t e = some x) :
    x.key = (e.src, e.dst, e.edgeType.asStr) := by
  obtain ⟨src, dst, -, -, rfl⟩ := edgeView_eq_some.mp h
  rfl

/-- An edge of the graph is known by the key under which a query sees it. -/
theorem Db.Follows.eq_of_key (h : s.Follows t q e) (h' : s.Follows t q e')
    (hkey : (e.src, e.dst, e.edgeType.asStr) = (e'.src, e'.dst, e'.edgeType.asStr)) : e = e' := by
  simp only [Prod.mk.injEq] at hkey
  obtain ⟨hsrc, hdst, htype⟩ := hkey
  refine s.sim.edges.eq_of_mem h.mem h'.mem ?_
  rw [Edge.key, Edge.key, h.tenant, h'.tenant, h.model, h'.model, hsrc, hdst,
    EdgeType.asStr_injective htype]

theorem Edge.other_mem (e : Edge) (u : Uuid) : e.other u = e.src ∨ e.other u = e.dst := by
  unfold other
  split
  · exact .inr rfl
  · exact .inl rfl

theorem Db.joinNeighbor_eq_some : s.joinNeighbor ev t u e = some r ↔ ∃ src dst other,
    s.artifactById t e.src = some src ∧ s.artifactById t e.dst = some dst ∧
      s.artifactById t (e.other u) = some other ∧
      (⟨e.view ev src dst, e.other u, hexEncode other.sha256, other.artifactClass.asStr⟩ :
        NeighborRow) = r := by
  simp only [joinNeighbor, Option.bind_eq_bind, Option.bind_eq_some_iff, Option.some.injEq,
    exists_and_left]

/-- What `load_neighbors` returns: the edges of the graph at an artifact, with the other end. -/
theorem Db.mem_loadNeighbors : (∃ r ∈ s.loadNeighbors ev t u q, (r.edge, r.otherId) = (x, v)) ↔
    ∃ e, s.Follows t q e ∧ (e.src = u ∨ e.dst = u) ∧ v = e.other u ∧ s.edgeView ev t e = some x := by
  simp only [loadNeighbors, List.mem_filter, List.mem_insertionSort, List.mem_filterMap,
    NeighborhoodQuery.selects, Bool.and_eq_true, Bool.or_eq_true, decide_eq_true_eq, Prod.mk.injEq]
  constructor
  · rintro ⟨r, ⟨⟨e, ⟨hmem, ⟨⟨htenant, hend⟩, hmodel⟩, hscore⟩, hjoin⟩, hfollow⟩, rfl, rfl⟩
    obtain ⟨src, dst, other, hsrc, hdst, -, rfl⟩ := joinNeighbor_eq_some.mp hjoin
    refine ⟨e, ⟨hmem, htenant, hmodel, hscore, hfollow, ?_, ?_⟩, hend, rfl,
      edgeView_eq_some.mpr ⟨src, dst, hsrc, hdst, rfl⟩⟩
    · rw [hsrc]
      rfl
    · rw [hdst]
      rfl
  · rintro ⟨e, h, hend, rfl, hview⟩
    obtain ⟨src, dst, hsrc, hdst, rfl⟩ := edgeView_eq_some.mp hview
    obtain ⟨other, hother⟩ : ∃ other, s.artifactById t (e.other u) = some other := by
      rcases e.other_mem u with heq | heq
      · exact ⟨src, heq ▸ hsrc⟩
      · exact ⟨dst, heq ▸ hdst⟩
    exact ⟨_, ⟨⟨e, ⟨h.mem, ⟨⟨h.tenant, hend⟩, h.model⟩, h.score⟩,
      joinNeighbor_eq_some.mpr ⟨src, dst, other, hsrc, hdst, hother, rfl⟩⟩, h.edgeType⟩, rfl, rfl⟩

end Graph

/-- The neighbors of an artifact, by edge and other end. -/
def Db.next (ev : Edge → Json) (s : Db) (t : Uuid) (q : NeighborhoodQuery) (u : Uuid) :
    List (NeighborhoodEdge × Uuid) :=
  (s.loadNeighbors ev t u q).map fun r => (r.edge, r.otherId)

section Enumerates

variable {ev : Edge → Json} {s : Db} {t u v : Uuid} {q : NeighborhoodQuery} {x : NeighborhoodEdge}

theorem Db.mem_next : (x, v) ∈ s.next ev t q u ↔
    ∃ e, s.Follows t q e ∧ (e.src = u ∨ e.dst = u) ∧ v = e.other u ∧ s.edgeView ev t e = some x := by
  rw [next, List.mem_map]
  exact mem_loadNeighbors

/-- **`load_neighbors` lists the graph.** -/
theorem Db.lists (ev : Edge → Json) (s : Db) (t : Uuid) (q : NeighborhoodQuery) :
    Enumerates (s.next ev t q) NeighborhoodEdge.key (s.graph t q) where
  adj u x v h := by
    obtain ⟨e, he, hend, rfl, -⟩ := mem_next.mp h
    by_cases hne : u = e.other u
    · exact .inl hne
    · refine .inr ((SimpleGraph.fromRel_adj _ _ _).mpr ⟨hne, ?_⟩)
      unfold Edge.other
      split
      · next hsrc => exact .inl ⟨e, he, hsrc, rfl⟩
      · next hsrc => exact .inr ⟨e, he, rfl, hend.resolve_left hsrc⟩
  all u v h := by
    obtain ⟨hne, ⟨e, he, rfl, rfl⟩ | ⟨e, he, rfl, rfl⟩⟩ := (SimpleGraph.fromRel_adj _ _ _).mp h
    · obtain ⟨x, hx⟩ := he.exists_view ev
      exact ⟨x, mem_next.mpr ⟨e, he, .inl rfl, (if_pos rfl).symm, hx⟩⟩
    · obtain ⟨x, hx⟩ := he.exists_view ev
      exact ⟨x, mem_next.mpr ⟨e, he, .inr rfl, (if_neg (Ne.symm hne)).symm, hx⟩⟩
  unique u v x u' v' x' h h' hkey := by
    obtain ⟨e, he, -, -, hx⟩ := mem_next.mp h
    obtain ⟨e', he', -, -, hx'⟩ := mem_next.mp h'
    rw [edgeView_key hx, edgeView_key hx'] at hkey
    rw [he.eq_of_key he' hkey, hx'] at hx
    exact (Option.some.inj hx).symm

/-- The edges incident to the search are those around the seed. -/
theorem Db.mem_incident {seed : Uuid} :
    x ∈ incident (s.next ev t q) (s.graph t q) seed q.depth ↔
      ∃ e ∈ s.edgesAround t q seed, s.edgeView ev t e = some x := by
  constructor
  · rintro ⟨u, hu, v, h⟩
    obtain ⟨e, he, hend, -, hx⟩ := mem_next.mp h
    refine ⟨e, ⟨he, ?_⟩, hx⟩
    rcases hend with rfl | rfl
    · exact .inl hu
    · exact .inr hu
  · rintro ⟨e, ⟨he, hdist⟩, hx⟩
    rcases hdist with hdist | hdist
    · exact ⟨e.src, hdist, _, mem_next.mpr ⟨e, he, .inl rfl, rfl, hx⟩⟩
    · exact ⟨e.dst, hdist, _, mem_next.mpr ⟨e, he, .inr rfl, rfl, hx⟩⟩

theorem Db.encard_incident (ev : Edge → Json) (s : Db) (t : Uuid) (q : NeighborhoodQuery)
    (seed : Uuid) : (incident (s.next ev t q) (s.graph t q) seed q.depth).encard =
      (s.edgesAround t q seed).encard := by
  have hinj : Set.InjOn (s.edgeView ev t) (s.edgesAround t q seed) := by
    intro e he e' he' heq
    obtain ⟨x, hx⟩ := he.1.exists_view ev
    exact he.1.eq_of_key he'.1 ((edgeView_key hx).symm.trans (edgeView_key (heq ▸ hx)))
  have himage : some '' incident (s.next ev t q) (s.graph t q) seed q.depth =
      s.edgeView ev t '' s.edgesAround t q seed := by
    ext o
    constructor
    · rintro ⟨x, hx, rfl⟩
      obtain ⟨e, he, hview⟩ := mem_incident.mp hx
      exact ⟨e, he, hview⟩
    · rintro ⟨e, he, rfl⟩
      obtain ⟨x, hx⟩ := he.1.exists_view ev
      exact ⟨x, mem_incident.mpr ⟨e, he, hx⟩, hx.symm⟩
  rw [← (Option.some_injective _).encard_image, himage, hinj.encard_image]

end Enumerates

/-! ### The search -/

section Search

variable (fmt : NeighborhoodFormat) (t : Uuid) (q : NeighborhoodQuery)

/-- A traversal, by what decides its course. -/
def Traversal.search (st : Traversal) : Search Uuid NeighborhoodEdge (Uuid × Uuid × String) where
  nodes := st.nodes.map fun n => (n.artifactId, n.depth)
  visited := st.visited
  edges := st.allEdges
  seen := st.seenEdgeKeys
  truncated := st.truncated
  frontier := st.frontier

theorem Traversal.search_record (n : ℕ) (st : Traversal) (e : NeighborhoodEdge) :
    (st.record n e).search = st.search.record n NeighborhoodEdge.key e := by
  rw [record, apply_ite search, apply_ite search]
  rfl

theorem Traversal.search_visit (n d : ℕ) (st : Traversal) (r : NeighborRow) :
    (st.visit n d r).search = st.search.visit n (r.otherId, d + 1) := by
  have hlen : st.search.nodes.length = st.nodes.length := List.length_map _
  rw [visit, Search.visit, hlen, apply_ite search, apply_ite search]
  simp only [search, List.map_append, List.map_singleton]
  rfl

/-- The body of the inner loop is a step of the search. -/
theorem Traversal.search_meet (d : ℕ) (st : Traversal) (r : NeighborRow) :
    (st.meet q d r).search =
      st.search.meet q.nodeCap q.edgeCap NeighborhoodEdge.key (d + 1) (r.edge, r.otherId) := by
  rw [meet, search_visit, search_record]
  rfl

theorem Traversal.search_expand (d : ℕ) : ∀ (rs : List NeighborRow) (st : Traversal),
    (rs.foldl (meet q d) st).search = (rs.map fun r => (r.edge, r.otherId)).foldl
      (Search.meet q.nodeCap q.edgeCap NeighborhoodEdge.key (d + 1)) st.search := by
  intro rs
  induction rs with
  | nil => exact fun _ => rfl
  | cons r rs ih =>
    intro st
    rw [List.foldl_cons, ih, search_meet]
    rfl

theorem Traversal.search_full (st : Traversal) : st.search.full q.nodeCap q.edgeCap = st.full q := by
  have hlen : st.search.nodes.length = st.nodes.length := List.length_map _
  rw [Search.full, hlen]
  rfl

/-- **The loop over the frontier is the capped search**, on a store that stays the same. -/
theorem wp_expand (s : Db) : ∀ (fuel : ℕ) (st : Traversal),
    Prog.wp (fun _ _ => True) (fun res s' => s' = s ∧ ∃ st', res = .ok st' ∧ st'.search =
        Search.run q.nodeCap q.edgeCap (s.next fmt.evidence t q) NeighborhoodEdge.key q.depth fuel
          st.search)
      (Neighborhood.expand fmt t q fuel st) s := by
  intro fuel
  induction fuel with
  | zero => exact fun st => ⟨rfl, st, rfl, rfl⟩
  | succ fuel ih =>
    intro st
    cases h : st.frontier with
    | nil =>
      have hs : st.search.frontier = [] := h
      simp only [Neighborhood.expand, Search.run, h, hs]
      exact ⟨rfl, st, rfl, rfl⟩
    | cons p rest =>
      have hs : st.search.frontier = p :: rest := h
      simp only [Neighborhood.expand, Search.run, h, hs]
      by_cases hd : q.depth ≤ p.2
      · rw [if_pos hd, if_pos hd]
        exact ih { st with frontier := rest }
      · rw [if_neg hd, if_neg hd, Prog.query_bind, Prog.wp_stmt]
        refine ⟨trivial, fun _ => ?_⟩
        have hsearch : ((s.loadNeighbors fmt.evidence t p.1 q).foldl (Traversal.meet q p.2)
            { st with frontier := rest }).search = Search.expand q.nodeCap q.edgeCap
              (s.next fmt.evidence t q) NeighborhoodEdge.key { st.search with frontier := rest } p :=
          Traversal.search_expand q p.2 _ _
        rw [← hsearch, Traversal.search_full]
        split
        · exact ⟨rfl, _, rfl, rfl⟩
        · exact ih _

theorem NeighborhoodQuery.nodeCap_pos : 0 < q.nodeCap :=
  Nat.lt_of_lt_of_le Nat.zero_lt_one (le_max_left 1 _)

end Search

/-! ### Exactness -/

/-- What a traversal collects is the neighborhood of the seed, as far as the caps allow. -/
structure Traversal.Exact (ev : Edge → Json) (s : Db) (t : Uuid) (q : NeighborhoodQuery)
    (seed : Uuid) (st : Traversal) : Prop where
  /-- the flag tells whether the ball or the edges around it exceed a cap -/
  truncated : st.truncated = true ↔
    q.nodeCap < (closedBall (s.graph t q) seed q.depth).encard ∨
      q.edgeCap < (s.edgesAround t q seed).encard
  /-- without it, the nodes are the ball, with their distances -/
  ball : st.truncated = false → ∀ v d,
    (∃ n ∈ st.nodes, n.artifactId = v ∧ n.depth = d) ↔
      (s.graph t q).edist seed v = d ∧ d ≤ q.depth
  /-- without it, the edges are those around the seed -/
  edges : st.truncated = false → ∀ x,
    x ∈ st.allEdges ↔ ∃ e ∈ s.edgesAround t q seed, s.edgeView ev t e = some x
  /-- always, each artifact and each edge is collected once -/
  once : (st.nodes.map NeighborhoodNode.artifactId).Nodup ∧
    (st.allEdges.map NeighborhoodEdge.key).Nodup
  /-- always, the caps are respected -/
  caps : st.nodes.length ≤ q.nodeCap ∧ st.allEdges.length ≤ q.edgeCap
  /-- always, a depth is the length of a walk from the seed -/
  walk : ∀ n ∈ st.nodes, n.depth ≤ q.depth ∧
    ∃ w : (s.graph t q).Walk seed n.artifactId, w.length = n.depth
  /-- always, an edge is one of those around the seed -/
  stored : ∀ x ∈ st.allEdges, ∃ e ∈ s.edgesAround t q seed, s.edgeView ev t e = some x

theorem Traversal.exact_of_run {ev : Edge → Json} {s : Db} {t : Uuid} {q : NeighborhoodQuery}
    {seed : Uuid} {st : Traversal} (h : st.search = Search.run q.nodeCap q.edgeCap (s.next ev t q)
      NeighborhoodEdge.key q.depth q.nodeCap (.start seed)) : st.Exact ev s t q seed := by
  obtain ⟨htrunc, hexact, hcaps, honce, hwalk, hstored⟩ :=
    Search.run_exact (N := q.edgeCap) (r := q.depth) (s := seed) (s.lists ev t q) q.nodeCap_pos
  rw [← h] at htrunc hexact hcaps honce hwalk hstored
  have hnodes : ∀ v d, (v, d) ∈ st.search.nodes ↔
      ∃ n ∈ st.nodes, n.artifactId = v ∧ n.depth = d := by
    intro v d
    simp only [search, List.mem_map, Prod.mk.injEq]
  refine ⟨?_, fun hf v d => ?_, fun hf x => ?_, ⟨?_, honce.2⟩, ⟨?_, hcaps.2⟩, fun n hn => ?_,
    fun x hx => ?_⟩
  · rw [← Db.encard_incident ev]
    exact htrunc
  · exact (hnodes v d).symm.trans ((hexact hf).1 v d)
  · exact ((hexact hf).2 x).trans Db.mem_incident
  · have hmap : st.search.nodes.map Prod.fst = st.nodes.map NeighborhoodNode.artifactId :=
      List.map_map
    exact hmap ▸ honce.1
  · have hlen : st.search.nodes.length = st.nodes.length := List.length_map _
    exact hlen ▸ hcaps.1
  · exact hwalk (n.artifactId, n.depth) ((hnodes _ _).mpr ⟨n, hn, rfl, rfl⟩)
  · exact Db.mem_incident.mp (hstored x hx)

/-! ### Whole queries -/

/-- The seed that a text names: an identifier, or else a digest. -/
def Db.NamesSeed (fmt : NeighborhoodFormat) (s : Db) (t : Uuid) (text : String) (seed : Seed) :
    Prop :=
  ∃ a : Artifact, seed = ⟨a.id, hexEncode a.sha256, a.artifactClass.asStr⟩ ∧
    ((∃ id, fmt.parseUuid text = some id ∧ s.artifactById t id = some a) ∨
      fmt.parseUuid text = none ∧
        ∃ raw, hexToRaw text = some raw ∧ s.ingest.artifacts.get (t, raw) = some a)

/-- What a response shows of a traversal. -/
structure NeighborhoodResponse.Shows (m : Arith) (q : NeighborhoodQuery) (seed : Seed)
    (st : Traversal) (r : NeighborhoodResponse) : Prop where
  seedArtifact : r.seedArtifact = seed.id
  nodes : r.nodes.Perm st.nodes
  edges : Neighborhood.page m st.allEdges q.offset q.limit = .ok r.edges
  truncated : r.truncated = st.truncated
  appliedDepth : r.limits.appliedDepth = q.depth
  appliedNodes : r.limits.appliedNodes = q.nodeCap
  appliedEdges : r.limits.appliedEdges = q.edgeCap

section Query

variable (fmt : NeighborhoodFormat) (t : Uuid) (q : NeighborhoodQuery)

open Neighborhood

theorem wp_resolveSeed (text : String) (s : Db) :
    Prog.wp (fun _ _ => True) (fun res s' => s' = s ∧
        ((∃ seed, res = .ok seed ∧ s.NamesSeed fmt t text seed) ∨
          ∃ e, res = .error (.error e) ∧ ∀ seed, ¬ s.NamesSeed fmt t text seed))
      (resolveSeed fmt t text) s := by
  unfold resolveSeed
  cases hid : fmt.parseUuid text with
  | some id =>
    refine ⟨trivial, fun _ => ?_⟩
    show Prog.wp _ _ (resolveSeed.found text (s.artifactById t id)) s
    cases ha : s.artifactById t id with
    | some a => exact ⟨rfl, .inl ⟨_, rfl, a, rfl, .inl ⟨id, hid, ha⟩⟩⟩
    | none =>
      refine ⟨rfl, .inr ⟨_, rfl, ?_⟩⟩
      rintro seed ⟨a, -, ⟨id', hid', ha'⟩ | ⟨hnone, -⟩⟩
      · rw [hid] at hid'
        obtain rfl := Option.some.inj hid'
        rw [ha] at ha'
        cases ha'
      · rw [hid] at hnone
        cases hnone
  | none =>
    cases hraw : hexToRaw text with
    | none =>
      refine ⟨rfl, .inr ⟨_, rfl, ?_⟩⟩
      rintro seed ⟨a, -, ⟨id', hid', -⟩ | ⟨-, raw, hraw', -⟩⟩
      · rw [hid] at hid'
        cases hid'
      · rw [hraw] at hraw'
        cases hraw'
    | some raw =>
      refine ⟨trivial, fun _ => ?_⟩
      show Prog.wp _ _ (resolveSeed.found text (s.ingest.artifacts.get (t, raw))) s
      cases ha : s.ingest.artifacts.get (t, raw) with
      | some a => exact ⟨rfl, .inl ⟨_, rfl, a, rfl, .inr ⟨hid, raw, hraw, ha⟩⟩⟩
      | none =>
        refine ⟨rfl, .inr ⟨_, rfl, ?_⟩⟩
        rintro seed ⟨a, -, ⟨id', hid', -⟩ | ⟨-, raw', hraw', ha'⟩⟩
        · rw [hid] at hid'
          cases hid'
        · rw [hraw] at hraw'
          obtain rfl := Option.some.inj hraw'
          rw [ha] at ha'
          cases ha'

theorem respond_shows {seed : Seed} {st : Traversal} {r : NeighborhoodResponse}
    (h : respond fmt t q seed st = .ok r) : r.Shows fmt.arith q seed st := by
  unfold respond at h
  split at h
  · cases h
  · next edges hpage =>
    split at h
    · cases h
    · obtain rfl := Except.ok.inj h
      exact ⟨rfl, List.perm_insertionSort _ _, hpage, rfl, rfl, rfl, rfl⟩

/-- A query that runs alone either names no seed, or answers from the capped search. -/
theorem wp_query (s : Db) : Prog.wp (fun _ _ => True) (fun res s' => s' = s ∧
      ((∃ e, res = .error (.error e) ∧ ∀ seed, ¬ s.NamesSeed fmt t q.seed seed) ∨
        ∃ seed st, s.NamesSeed fmt t q.seed seed ∧
          st.search = Search.run q.nodeCap q.edgeCap (s.next fmt.evidence t q)
            NeighborhoodEdge.key q.depth q.nodeCap (.start seed.id) ∧
          res = respond fmt t q seed st))
    (query fmt t q) s := by
  refine Prog.wp_bind (Prog.wp_mono (fun _ _ h => h) (fun res s' h => ?_)
    (wp_resolveSeed fmt t q.seed s))
  obtain ⟨rfl, ⟨seed, rfl, hseed⟩ | ⟨e, rfl, hnone⟩⟩ := h
  · refine Prog.wp_bind (Prog.wp_mono (fun _ _ h => h) (fun res s' h => ?_)
      (wp_expand fmt t q s' q.nodeCap (.start seed)))
    obtain ⟨rfl, st, rfl, hsearch⟩ := h
    show Prog.wp _ _ (answer (respond fmt t q seed st)) s'
    cases hres : respond fmt t q seed st with
    | ok r => exact ⟨rfl, .inr ⟨seed, st, hseed, hsearch, hres.symm⟩⟩
    | error e => exact ⟨rfl, .inr ⟨seed, st, hseed, hsearch, hres.symm⟩⟩
  · exact ⟨rfl, .inl ⟨e, rfl, hnone⟩⟩

end Query

/-- **Neighborhood expansion is exact breadth-first search**: a query that runs alone either
names no seed, or answers from a traversal that is exact for its seed. -/
theorem neighborhood_exact (fmt : NeighborhoodFormat) (t : Uuid) (q : NeighborhoodQuery) (s : Db) :
    Prog.wp (fun _ _ => True) (fun res s' => s' = s ∧
        ((∃ e, res = .error (.error e) ∧ ∀ seed, ¬ s.NamesSeed fmt t q.seed seed) ∨
          ∃ seed st, s.NamesSeed fmt t q.seed seed ∧ st.Exact fmt.evidence s t q seed.id ∧
            res = Neighborhood.respond fmt t q seed st ∧
            ∀ r, res = .ok r → r.Shows fmt.arith q seed st))
      (Neighborhood.query fmt t q) s := by
  refine Prog.wp_mono (fun _ _ h => h) (fun res s' h => ?_) (wp_query fmt t q s)
  obtain ⟨hs, hnone | ⟨seed, st, hseed, hsearch, rfl⟩⟩ := h
  · exact ⟨hs, .inl hnone⟩
  · exact ⟨hs, .inr ⟨seed, st, hseed, Traversal.exact_of_run hsearch, rfl,
      fun r hr => respond_shows fmt t q hr⟩⟩

end Corpus
