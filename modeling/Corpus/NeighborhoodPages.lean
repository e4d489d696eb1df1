/-
Pages of a neighborhood.

A page is cut out of the sorted edges by `offset..(offset + limit).min(len)`, in machine
words.  `offset` and `limit` come from the client.

* `paging_exact_iff` — a page is exactly the slice it names unless the sum leaves the word;
  with overflow checks off it must also start before the last edge to go wrong.  Pages of
  one size always cut the list into its parts, and no page depends on the order in which
  the edges were collected.
* `neighborhood_closed_iff` — the edges of a page join listed artifacts exactly when none of
  them leads from the first artifacts in breadth-first order to a later one.
-/
import Corpus.NeighborhoodGraph

namespace Corpus

namespace Neighborhood

/-! ### Sorted edges -/

/-- A list of collected edges: no key twice, digests that tell artifacts apart, and no more
edges than any query may collect. -/
structure Collected (edges : List NeighborhoodEdge) : Prop where
  keys : (edges.map NeighborhoodEdge.key).Nodup
  src : ∀ x ∈ edges, ∀ y ∈ edges, x.srcSha256 = y.srcSha256 → x.srcArtifact = y.srcArtifact
  dst : ∀ x ∈ edges, ∀ y ∈ edges, x.dstSha256 = y.dstSha256 → x.dstArtifact = y.dstArtifact
  cap : edges.length ≤ maxEdges

section Sorted

variable {edges edges' : List NeighborhoodEdge}

@[simp] theorem length_sortEdges (edges : List NeighborhoodEdge) :
    (sortEdges edges).length = edges.length := List.length_insertionSort _ _

theorem perm_sortEdges (edges : List NeighborhoodEdge) : (sortEdges edges).Perm edges :=
  List.perm_insertionSort _ _

theorem sortEdges_pairwise (edges : List NeighborhoodEdge) :
    (sortEdges edges).Pairwise fun x y => edgeKey x ≤ edgeKey y := by
  have : Std.Total fun x y : NeighborhoodEdge => edgeKey x ≤ edgeKey y :=
    ⟨fun x y => le_total (edgeKey x) (edgeKey y)⟩
  have : IsTrans NeighborhoodEdge fun x y => edgeKey x ≤ edgeKey y :=
    ⟨fun _ _ _ => le_trans⟩
  exact List.pairwise_insertionSort _ _

/-- The sort key tells collected edges apart. -/
theorem Collected.eq_of_edgeKey (h : Collected edges) {x y : NeighborhoodEdge} (hx : x ∈ edges)
    (hy : y ∈ edges) (heq : edgeKey x = edgeKey y) : x = y := by
  simp only [edgeKey, EmbeddingLike.apply_eq_iff_eq, Prod.mk.injEq] at heq
  obtain ⟨-, htype, hsrc, hdst⟩ := heq
  refine List.inj_on_of_nodup_map h.keys hx hy ?_
  rw [NeighborhoodEdge.key, NeighborhoodEdge.key, h.src x hx y hy hsrc, h.dst x hx y hy hdst, htype]

/-- **Any order of collection** gives the same sorted list. -/
theorem Collected.sortEdges_eq (h : Collected edges) (hperm : edges'.Perm edges) :
    sortEdges edges' = sortEdges edges := by
  refine List.Perm.eq_of_pairwise (fun x y hx hy hle hle' => ?_) (sortEdges_pairwise edges')
    (sortEdges_pairwise edges) (((perm_sortEdges edges').trans hperm).trans (perm_sortEdges edges).symm)
  have hx' : x ∈ edges := hperm.mem_iff.mp ((perm_sortEdges edges').mem_iff.mp hx)
  exact h.eq_of_edgeKey hx' ((perm_sortEdges edges).mem_iff.mp hy) (le_antisymm hle hle')

end Sorted

/-! ### One page -/

section Page

variable {m : Arith} {edges p : List NeighborhoodEdge} {offset limit : UInt64}

/-- The elements `offset .. offset + limit` of the sorted edges. -/
def slice (edges : List NeighborhoodEdge) (offset limit : ℕ) : List NeighborhoodEdge :=
  ((sortEdges edges).drop offset).take limit

theorem page_of_lt (h : offset.toNat + limit.toNat < 2 ^ 64) :
    page m edges offset limit = .ok (slice edges offset.toNat limit.toNat) := by
  rw [page, Arith.add_of_lt h]
  show (if offset.toNat < (sortEdges edges).length then _ else _) = _
  split
  · next hlt =>
    refine checkedRange_eq_ok.mpr ⟨⟨by omega, min_le_right _ _⟩, take_drop_min.symm⟩
  · next hge =>
    rw [slice, List.drop_eq_nil_of_le (not_lt.mp hge), List.take_nil]
    rfl

/-- A sum outside the word: with overflow checks the addition panics, without them the
slice does, unless the offset is beyond the last edge. -/
theorem page_of_le (h : 2 ^ 64 ≤ offset.toNat + limit.toNat) :
    page m edges offset limit = match m with
      | .checked => .error .overflow
      | .wrapping => if offset.toNat < edges.length then .error .range else .ok [] := by
  cases m with
  | checked =>
    have hadd : Arith.add .checked 64 offset.toNat limit.toNat = .error .overflow :=
      if_neg (not_lt.mpr h)
    rw [page, hadd]
    rfl
  | wrapping =>
    obtain ⟨c, hc, hadd⟩ := Arith.add_wrapping_lt offset.toNat_lt limit.toNat_lt h
    rw [page, hadd]
    show (if offset.toNat < (sortEdges edges).length then
      checkedRange (sortEdges edges) offset.toNat (min c (sortEdges edges).length) else pure []) = _
    rw [length_sortEdges]
    split
    · have hout : ¬ offset.toNat ≤ min c edges.length := by omega
      exact if_neg fun hr => hout hr.1
    · rfl

theorem slice_of_ge {n : ℕ} (h : edges.length ≤ n) (k : ℕ) : slice edges n k = [] := by
  rw [slice, List.drop_eq_nil_of_le (by rwa [length_sortEdges]), List.take_nil]

/-- When a page is delivered, and which. -/
theorem page_eq_ok_iff : page m edges offset limit = .ok p ↔
    p = slice edges offset.toNat limit.toNat ∧ (offset.toNat + limit.toNat < 2 ^ 64 ∨
      m = .wrapping ∧ edges.length ≤ offset.toNat) := by
  by_cases hsum : offset.toNat + limit.toNat < 2 ^ 64
  · rw [page_of_lt hsum, Except.ok.injEq, and_iff_left (.inl hsum), eq_comm]
  · rw [page_of_le (not_lt.mp hsum), or_iff_right hsum]
    cases m with
    | checked => exact iff_of_false (by intro h; cases h) fun h => by cases h.2.1
    | wrapping =>
      dsimp only
      split
      · next hlt =>
        exact iff_of_false (by intro h; cases h) fun h => absurd h.2.2 (not_le.mpr hlt)
      · next hge =>
        rw [slice_of_ge (not_lt.mp hge), Except.ok.injEq, and_iff_left ⟨rfl, not_lt.mp hge⟩, eq_comm]

/-- A page that is delivered is the slice it names. -/
theorem slice_of_page (h : page m edges offset limit = .ok p) :
    p = slice edges offset.toNat limit.toNat :=
  (page_eq_ok_iff.mp h).1

/-- When a page is exact. -/
theorem page_eq_slice_iff : page m edges offset limit = .ok (slice edges offset.toNat limit.toNat) ↔
    offset.toNat + limit.toNat < 2 ^ 64 ∨ m = .wrapping ∧ edges.length ≤ offset.toNat := by
  rw [page_eq_ok_iff, and_iff_right rfl]

end Page

/-! ### All pages -/

/-- Slices of one size, one after the other, make up a list. -/
theorem flatten_slices {α : Type} (l : List α) (size : ℕ) : ∀ n : ℕ,
    ((List.range n).map fun k => (l.drop (k * size)).take size).flatten = l.take (n * size) := by
  intro n
  induction n with
  | zero => simp
  | succ n ih =>
    rw [List.range_succ, List.map_append, List.flatten_append, ih, Nat.succ_mul, List.take_add]
    simp

/-- How many pages of a size it takes to list so many edges. -/
def pageCount (len size : ℕ) : ℕ := (len + size - 1) / size

/-- The pages up to the last edge never leave the word: the first ends at `size`, and the
others start before the cap. -/
theorem page_sum_lt {len size k : ℕ} (hcap : len ≤ maxEdges) (hsize : size < 2 ^ 64)
    (hk : k * size < len) : k * size + size < 2 ^ 64 := by
  rcases Nat.eq_zero_or_pos k with rfl | hpos
  · rwa [Nat.zero_mul, Nat.zero_add]
  · have hle : size ≤ k * size := Nat.le_mul_of_pos_left size hpos
    unfold maxEdges at hcap
    omega

/-- **Consecutive pages partition the list.** -/
theorem pages_partition {m : Arith} {edges : List NeighborhoodEdge} (hcap : edges.length ≤ maxEdges)
    {size : UInt64} (hsize : 0 < size.toNat) :
    ∃ pages, (List.range (pageCount edges.length size.toNat)).mapM (fun k =>
        page m edges (UInt64.ofNat (k * size.toNat)) size) = .ok pages ∧
      pages.flatten = sortEdges edges := by
  refine ⟨_, Checked.mapM_eq_ok (g := fun k => slice edges (k * size.toNat) size.toNat)
    fun k hk => ?_, ?_⟩
  · have hlt : k * size.toNat < edges.length := by
      have hcount : k < (edges.length + size.toNat - 1) / size.toNat := List.mem_range.mp hk
      have hmul := (Nat.le_div_iff_mul_le hsize).mp (Nat.succ_le_of_lt hcount)
      rw [Nat.succ_mul] at hmul
      omega
    have hsum := page_sum_lt hcap size.toNat_lt hlt
    have hoff : (UInt64.ofNat (k * size.toNat)).toNat = k * size.toNat :=
      UInt64.toNat_ofNat_of_lt (Nat.lt_of_le_of_lt (Nat.le_add_right _ _) hsum)
    rw [page_of_lt (by rwa [hoff]), hoff]
  · show ((List.range _).map fun k => ((sortEdges edges).drop (k * size.toNat)).take size.toNat).flatten
      = sortEdges edges
    rw [flatten_slices]
    refine List.take_of_length_le ?_
    rw [length_sortEdges, pageCount]
    have hdiv := Nat.lt_div_mul_add (a := edges.length + size.toNat - 1) hsize
    omega

/-! ### Answers -/

/-- After this traversal the query does not panic, and what it answers holds exactly the
elements `offset .. offset + limit` of the sorted edges. -/
def AnswersExactly (fmt : NeighborhoodFormat) (t : Uuid) (q : NeighborhoodQuery) (seed : Seed)
    (st : Traversal) : Prop :=
  (∀ p, respond fmt t q seed st ≠ .error (.panic p)) ∧
    ∀ r, respond fmt t q seed st = .ok r → r.edges = slice st.allEdges q.offset.toNat q.limit.toNat

theorem respond_of_panic {fmt : NeighborhoodFormat} {t : Uuid} {q : NeighborhoodQuery}
    {seed : Seed} {st : Traversal} {p : Panic}
    (h : page fmt.arith st.allEdges q.offset q.limit = .error p) :
    respond fmt t q seed st = .error (.panic p) := by
  rw [respond, h]

theorem answersExactly_iff {fmt : NeighborhoodFormat} {t : Uuid} {q : NeighborhoodQuery}
    {seed : Seed} {st : Traversal} : AnswersExactly fmt t q seed st ↔
      page fmt.arith st.allEdges q.offset q.limit =
        .ok (slice st.allEdges q.offset.toNat q.limit.toNat) := by
  constructor
  · rintro ⟨hpanic, -⟩
    cases hpage : page fmt.arith st.allEdges q.offset q.limit with
    | ok p => rw [slice_of_page hpage]
    | error e => exact absurd (respond_of_panic hpage) (hpanic e)
  · intro hpage
    refine ⟨fun p hp => ?_, fun r hr => slice_of_page (respond_shows fmt t q hr).edges⟩
    rw [respond, hpage] at hp
    dsimp only at hp
    split at hp
    · cases hp
    · cases hp

/-- What a query collects from a store meets the assumptions on collected edges. -/
theorem collected_of_exact {ev : Edge → Json} {s : Db} {t seed : Uuid} {q : NeighborhoodQuery}
    {st : Traversal} (h : st.Exact ev s t q seed) : Collected st.allEdges := by
  have hdigest : ∀ {u v : Uuid} {a b : Artifact}, s.artifactById t u = some a →
      s.artifactById t v = some b → hexEncode a.sha256 = hexEncode b.sha256 → u = v := by
    intro u v a b ha hb heq
    have hrow := fun {w c} (hc : s.artifactById t w = some c) => List.find?_some hc
    have hau := hrow ha
    have hbv := hrow hb
    simp only [Bool.and_eq_true, decide_eq_true_eq] at hau hbv
    have hkey : a.key = b.key := by
      rw [Artifact.key, Artifact.key, hexEncode_injective heq, hau.1, hbv.1]
    have hab := s.ingest.artifacts.eq_of_mem (List.mem_of_find?_eq_some ha)
      (List.mem_of_find?_eq_some hb) hkey
    rw [← hau.2, ← hbv.2, hab]
  refine ⟨h.once.2, fun x hx y hy heq => ?_, fun x hx y hy heq => ?_, h.caps.2.trans ?_⟩
  · obtain ⟨e, -, he⟩ := h.stored x hx
    obtain ⟨e', -, he'⟩ := h.stored y hy
    obtain ⟨a, a', ha, -, rfl⟩ := Db.edgeView_eq_some.mp he
    obtain ⟨b, b', hb, -, rfl⟩ := Db.edgeView_eq_some.mp he'
    exact hdigest ha hb heq
  · obtain ⟨e, -, he⟩ := h.stored x hx
    obtain ⟨e', -, he'⟩ := h.stored y hy
    obtain ⟨a', a, -, ha, rfl⟩ := Db.edgeView_eq_some.mp he
    obtain ⟨b', b, -, hb, rfl⟩ := Db.edgeView_eq_some.mp he'
    exact hdigest ha hb heq
  · exact max_le (by decide) (min_le_right _ _)

/-- **When paging is exact**: after any traversal, the query answers with exactly the page
it is asked for unless `offset + limit` leaves the word (where additions wrap around, only
pages that start before the last edge are lost).  Consecutive pages partition the list, and
no page depends on the order in which the edges were collected. -/
theorem paging_exact_iff (fmt : NeighborhoodFormat) (t : Uuid) (seed : Seed) {st : Traversal}
    (h : Collected st.allEdges) :
    (∀ q : NeighborhoodQuery, AnswersExactly fmt t q seed st ↔
      q.offset.toNat + q.limit.toNat < 2 ^ 64 ∨
        fmt.arith = .wrapping ∧ st.allEdges.length ≤ q.offset.toNat) ∧
    (∀ size : UInt64, 0 < size.toNat →
      ∃ pages, (List.range (pageCount st.allEdges.length size.toNat)).mapM (fun k =>
          page fmt.arith st.allEdges (UInt64.ofNat (k * size.toNat)) size) = .ok pages ∧
        pages.flatten = sortEdges st.allEdges) ∧
    ∀ edges : List NeighborhoodEdge, edges.Perm st.allEdges → ∀ offset limit : UInt64,
      page fmt.arith edges offset limit = page fmt.arith st.allEdges offset limit := by
  refine ⟨fun q => answersExactly_iff.trans page_eq_slice_iff,
    fun size hsize => pages_partition h.cap hsize, fun edges hperm offset limit => ?_⟩
  rw [page, page, h.sortEdges_eq hperm]

/-- An edge between two artifacts. -/
def edgeOf (src dst : Uuid) (score : ℚ) : NeighborhoodEdge where
  srcArtifact := src
  dstArtifact := dst
  srcSha256 := hexEncode [UInt8.ofNat src]
  dstSha256 := hexEncode [UInt8.ofNat dst]
  edgeType := "byte_similar"
  modelVersion := modelVersion
  score := score
  evidenceRef := ⟨"byte_similar", modelVersion, score, .null, .null, .null⟩

/-- A traversal that collected two edges of one artifact. -/
def twoEdges : Traversal where
  nodes := [⟨1, "01", "elf", 0⟩, ⟨2, "02", "elf", 1⟩, ⟨3, "03", "elf", 1⟩]
  allEdges := [edgeOf 1 2 80, edgeOf 1 3 90]
  seenEdgeKeys := {(1, 2, "byte_similar"), (1, 3, "byte_similar")}
  truncated := false
  frontier := []
  visited := {1, 2, 3}

/-- Everything about an artifact, from one edge on, for one page. -/
def pageQuery (offset limit : UInt64) : NeighborhoodQuery :=
  ⟨"1", [], none, ⊥, 1, 64, 128, offset, limit, true⟩

/-- Identifiers in decimal, no evidence, answers of any length. -/
def plainFormat (m : Arith) : NeighborhoodFormat := ⟨String.toNat?, fun _ => .null, fun _ => 0, m⟩

theorem paging_exact_iff_two :
    Collected twoEdges.allEdges ∧ ∀ m : Arith,
      AnswersExactly (plainFormat m) 0 (pageQuery 1 1) ⟨1, "01", "elf"⟩ twoEdges := by
  have h : Collected twoEdges.allEdges := ⟨by decide, by decide, by decide, by decide⟩
  exact ⟨h, fun m => ((paging_exact_iff (plainFormat m) 0 _ h).1 _).mpr (.inl (by decide))⟩

/-- **A page that panics**: from the second of two edges on, as many as a client can ask
for.  With overflow checks the addition stops the request; without them the sum wraps to
zero and the slice does. -/
theorem last_page_panics :
    respond (plainFormat .checked) 0 (pageQuery 1 18446744073709551615) ⟨1, "01", "elf"⟩ twoEdges =
      .error (.panic .overflow) ∧
    respond (plainFormat .wrapping) 0 (pageQuery 1 18446744073709551615) ⟨1, "01", "elf"⟩ twoEdges =
      .error (.panic .range) ∧
    (slice twoEdges.allEdges 1 18446744073709551615).length = 1 := by
  refine ⟨respond_of_panic (page_of_le (by decide)), respond_of_panic (page_of_le (by decide)), ?_⟩
  · rw [slice, List.length_take, List.length_drop, length_sortEdges]
    rfl

/-! ### The same arithmetic -/

/-- `read_range` of `cas.rs`, once the object is read. -/
def readRange (m : Arith) (all : Bytes) (offset len : UInt64) : Checked Bytes :=
  if all.length ≤ offset.toNat then .ok [] else clampedSlice m all offset.toNat len.toNat

/-- A range read returns the range unless its end leaves the word; here the sum is only
computed for an offset inside the object. -/
theorem readRange_eq_ok_iff {m : Arith} {all : Bytes} {offset len : UInt64} :
    readRange m all offset len = .ok ((all.drop offset.toNat).take len.toNat) ↔
      offset.toNat + len.toNat < 2 ^ 64 ∨ all.length ≤ offset.toNat := by
  unfold readRange
  split
  · next hle =>
    rw [List.drop_eq_nil_of_le hle, List.take_nil]
    exact iff_of_true rfl (.inr hle)
  · next hlt =>
    rw [clampedSlice_eq_ok offset.toNat_lt len.toNat_lt]
    constructor
    · exact fun h => .inl h.1
    · exact fun h => ⟨h.resolve_right hlt, (not_le.mp hlt).le, rfl⟩

end Neighborhood

/-! ### Closed answers -/

section Closed

variable (ev : Edge → Json) (s : Db) (t : Uuid) (q : NeighborhoodQuery) (seed : Uuid)

/-- The first artifacts in breadth-first order, as many as a query may list. -/
def Db.firstNodes : List Uuid :=
  ((found (s.next ev t q) q.depth seed q.nodeCap).take q.nodeCap).map Prod.fst

/-- The first edges met when these are expanded, as many as a query may collect. -/
def Db.firstEdges : List NeighborhoodEdge :=
  (met (s.next ev t q) NeighborhoodEdge.key q.depth seed q.nodeCap).take q.edgeCap

end Closed

/-- The edge joins two of the artifacts. -/
def NeighborhoodEdge.Joins (nodes : List Uuid) (x : NeighborhoodEdge) : Prop :=
  x.srcArtifact ∈ nodes ∧ x.dstArtifact ∈ nodes

instance (nodes : List Uuid) : DecidablePred (NeighborhoodEdge.Joins nodes) := fun x =>
  inferInstanceAs (Decidable (x.srcArtifact ∈ nodes ∧ x.dstArtifact ∈ nodes))

/-- Every edge of the answer joins two of its nodes. -/
def NeighborhoodResponse.Closed (r : NeighborhoodResponse) : Prop :=
  ∀ x ∈ r.edges, x.Joins (r.nodes.map NeighborhoodNode.artifactId)

section Closed

variable {ev : Edge → Json} {s : Db} {t seed : Uuid} {q : NeighborhoodQuery} {st : Traversal}

/-- A traversal keeps the first artifacts and edges. -/
theorem Traversal.first_of_run (h : st.search = Search.run q.nodeCap q.edgeCap (s.next ev t q)
    NeighborhoodEdge.key q.depth q.nodeCap (.start seed)) :
    st.nodes.map NeighborhoodNode.artifactId = s.firstNodes ev t q seed ∧
      st.allEdges = s.firstEdges ev t q seed := by
  have hkept : Search.Kept q.nodeCap q.edgeCap
      (found (s.next ev t q) q.depth seed q.nodeCap)
      (met (s.next ev t q) NeighborhoodEdge.key q.depth seed q.nodeCap) st.search := by
    rw [h]
    exact Search.run_kept q.nodeCap (.start q.nodeCap_pos) .start (Nat.le_refl _)
  refine ⟨?_, hkept.edges⟩
  rw [Db.firstNodes, ← hkept.nodes]
  show _ = (st.nodes.map fun n => (n.artifactId, n.depth)).map Prod.fst
  rw [List.map_map]
  rfl

theorem NeighborhoodResponse.Shows.closed_iff {m : Arith} {sd : Seed} {r : NeighborhoodResponse}
    (h : r.Shows m q sd st) : r.Closed ↔
      ∀ x ∈ Neighborhood.slice st.allEdges q.offset.toNat q.limit.toNat,
        x.Joins (st.nodes.map NeighborhoodNode.artifactId) := by
  rw [Closed, ← Neighborhood.slice_of_page h.edges]
  simp only [NeighborhoodEdge.Joins, (h.nodes.map NeighborhoodNode.artifactId).mem_iff]

end Closed

/-- **When an answer is closed**: its edges join its nodes exactly when every edge of its page
joins two of the first artifacts in breadth-first order. -/
theorem neighborhood_closed_iff (fmt : NeighborhoodFormat) (t : Uuid) (q : NeighborhoodQuery)
    (s : Db) :
    Prog.wp (fun _ _ => True) (fun res s' => s' = s ∧ ∀ r, res = .ok r →
        (r.Closed ↔ ∀ x ∈ Neighborhood.slice (s.firstEdges fmt.evidence t q r.seedArtifact)
          q.offset.toNat q.limit.toNat, x.Joins (s.firstNodes fmt.evidence t q r.seedArtifact)))
      (Neighborhood.query fmt t q) s := by
  refine Prog.wp_mono (fun _ _ h => h) (fun res s' h => ?_) (wp_query fmt t q s)
  obtain ⟨hs, ⟨e, rfl, -⟩ | ⟨seed, st, -, hsearch, rfl⟩⟩ := h
  · refine ⟨hs, fun r hr => ?_⟩
    cases hr
  · refine ⟨hs, fun r hr => ?_⟩
    have hshows := respond_shows fmt t q hr
    obtain ⟨hnodes, hedges⟩ := Traversal.first_of_run hsearch
    rw [hshows.closed_iff, hnodes, hedges, hshows.seedArtifact]

/-- An artifact known by its first byte. -/
def artifactOf (x : Uuid) : Artifact where
  id := x
  tenant := 0
  seq := x
  sha256 := [UInt8.ofNat x]
  sizeBytes := 1
  artifactClass := .elf
  storageState := .committed
  objectKey := ⟨0, hexEncode [UInt8.ofNat x]⟩
  firstCommittedAt := 0
  scope := .intel
  provenance := .null

/-- Two artifacts and an edge between them. -/
def oneEdge : Db where
  ingest := { Db.empty.ingest with
    artifacts := (Table.empty.insertNew (artifactOf 1)).insertNew (artifactOf 2) }
  hunt := Db.empty.hunt
  sim := { SimDb.empty with
    edges := Table.empty.insertNew ⟨0, 1, 2, .byteSimilar, modelVersion, 80, 0⟩ }
  triggers := []
  outbox := []

/-- The neighborhood of one artifact, with room for that artifact only. -/
def oneNodeQuery : NeighborhoodQuery := ⟨"1", [], none, ⊥, 1, 1, 128, 0, 50, true⟩

/-- **An edge to an artifact that is not listed**: the edge is recorded before the node cap
is tested for its far end. -/
theorem capped_answer_not_closed : ∃ ls r,
    Prog.Returns (Neighborhood.query ⟨fun _ => some 1, fun _ => .null, fun _ => 0, .checked⟩ 0
      oneNodeQuery) oneEdge ls r oneEdge ∧
    r.nodes.map NeighborhoodNode.artifactId = [1] ∧
    r.edges.map (fun x => (x.srcArtifact, x.dstArtifact)) = [(1, 2)] ∧ ¬ r.Closed := by
  obtain ⟨ls, r, hret, hnodes, hedges⟩ : ∃ ls r,
      Prog.Returns (Neighborhood.query ⟨fun _ => some 1, fun _ => .null, fun _ => 0, .checked⟩ 0
        oneNodeQuery) oneEdge ls r oneEdge ∧
      r.nodes.map NeighborhoodNode.artifactId = [1] ∧
      r.edges.map (fun x => (x.srcArtifact, x.dstArtifact)) = [(1, 2)] :=
    ⟨_, _, Prog.returns_of_run (List.replicate 2 (.drawing 0)) rfl, rfl, rfl⟩
  refine ⟨ls, r, hret, hnodes, hedges, fun hclosed => ?_⟩
  have hmem : ((1, 2) : Uuid × Uuid) ∈ r.edges.map fun x => (x.srcArtifact, x.dstArtifact) := by
    rw [hedges]
    exact List.mem_singleton_self _
  obtain ⟨x, hx, heq⟩ := List.mem_map.mp hmem
  have hdst := (hclosed x hx).2
  rw [hnodes, (Prod.mk.inj heq).2] at hdst
  exact absurd hdst (by decide)

end Corpus
