/-
Bounded neighborhood queries (`similarity/neighborhood.rs`).

`query` resolves a seed, expands it breadth first along the stored edges that pass its
filters, sorts what it collected, cuts out one page of edges and refuses a response that is
too large.
-/
import Corpus.Analysis
import Corpus.BreadthFirst
import Corpus.Machine
import Mathlib.Data.Prod.Lex
import Mathlib.Data.String.Basic
import Mathlib.Order.WithBot

namespace Corpus

/-- The names of `model::edge_type`. -/
def EdgeType.asStr : EdgeType → String
  | exactCopy => "exact_copy"
  | normalizedEquivalent => "normalized_equivalent"
  | byteSimilar => "byte_similar"
  | sharedProvenance => "shared_provenance"
  | semanticStrong => "semantic_variant_strong"
  | semanticWeak => "semantic_variant_weak"

/-! ### Queries and answers -/

/-- `MAX_DEPTH`. -/
def maxDepth : ℕ := 4

/-- `MAX_NODES`. -/
def maxNodes : ℕ := 256

/-- `MAX_EDGES`. -/
def maxEdges : ℕ := 1024

/-- `MAX_RESPONSE_BYTES` of `neighborhood.rs`. -/
def maxNeighborhoodBytes : ℕ := 512 * 1024

/-- `NeighborhoodQuery`.  A minimal score may be infinite; `NaN`, which the database puts
above every number, acts as infinity. -/
structure NeighborhoodQuery where
  seed : String
  edgeTypes : List String
  modelVersion : Option String
  minScore : WithBot (WithTop ℚ)
  maxDepth : UInt32
  maxNodes : UInt64
  maxEdges : UInt64
  offset : UInt64
  limit : UInt64
  includeWeak : Bool

structure NeighborhoodNode where
  artifactId : Uuid
  sha256 : String
  artifactClass : String
  depth : ℕ

/-- `evidence_ref`: the edge, and three members of its evidence. -/
structure EvidenceRef where
  edgeType : String
  modelVersion : String
  score : ℚ
  matchedPairs : Json
  receiptId : Json
  tau : Json

structure NeighborhoodEdge where
  srcArtifact : Uuid
  dstArtifact : Uuid
  srcSha256 : String
  dstSha256 : String
  edgeType : String
  modelVersion : String
  score : ℚ
  evidenceRef : EvidenceRef

/-- The key of `seen_edge_keys`. -/
def NeighborhoodEdge.key (e : NeighborhoodEdge) : Uuid × Uuid × String :=
  (e.srcArtifact, e.dstArtifact, e.edgeType)

structure NeighborhoodLimits where
  maxDepth : ℕ
  maxNodes : ℕ
  maxEdges : ℕ
  maxResponseBytes : ℕ
  appliedDepth : ℕ
  appliedNodes : ℕ
  appliedEdges : ℕ

structure NeighborhoodResponse where
  tenantId : Uuid
  seedArtifact : Uuid
  seedSha256 : String
  modelVersion : String
  nodes : List NeighborhoodNode
  edges : List NeighborhoodEdge
  truncated : Bool
  limits : NeighborhoodLimits

/-- What a query takes from elsewhere: the parser of identifiers, the evidence column of an
edge, the length of the serialized answer, and the arithmetic of the build. -/
structure NeighborhoodFormat where
  parseUuid : String → Option Uuid
  evidence : Edge → Json
  jsonLength : NeighborhoodResponse → ℕ
  arith : Arith

/-- How a query can fail. -/
inductive Failure where
  | error (e : Error)
  | panic (p : Panic)

/-- The statements of a query. -/
inductive NeighborhoodPt where
  | seed (t : Uuid)
  | neighbors (t current : Uuid)

namespace NeighborhoodQuery

variable (q : NeighborhoodQuery)

/-- `applied_depth`. -/
def depth : ℕ := min q.maxDepth.toNat Corpus.maxDepth

/-- `applied_nodes`. -/
def nodeCap : ℕ := clamp q.maxNodes.toNat 1 Corpus.maxNodes

/-- `applied_edges`. -/
def edgeCap : ℕ := clamp q.maxEdges.toNat 1 Corpus.maxEdges

def model : String := q.modelVersion.getD Corpus.modelVersion

/-- The filters on the type of an edge. -/
def follows (edgeType : String) : Bool :=
  (q.edgeTypes.isEmpty || q.edgeTypes.contains edgeType) &&
    (q.includeWeak ||
      !(["byte_similar", "shared_provenance", "semantic_variant_weak"].contains edgeType))

end NeighborhoodQuery

/-! ### Neighbors -/

/-- One row of `load_neighbors`. -/
structure NeighborRow where
  edge : NeighborhoodEdge
  otherId : Uuid
  otherSha : String
  otherClass : String

/-- The columns of an edge, with the digests of its ends. -/
def Edge.view (ev : Edge → Json) (e : Edge) (src dst : Artifact) : NeighborhoodEdge where
  srcArtifact := e.src
  dstArtifact := e.dst
  srcSha256 := hexEncode src.sha256
  dstSha256 := hexEncode dst.sha256
  edgeType := e.edgeType.asStr
  modelVersion := e.modelVersion
  score := e.score
  evidenceRef :=
    { edgeType := e.edgeType.asStr
      modelVersion := e.modelVersion
      score := e.score
      matchedPairs := ((ev e).get? "matched_pairs").getD .null
      receiptId := ((ev e).get? "receipt_id").getD .null
      tau := ((ev e).get? "tau").getD .null }

/-- `other_id`. -/
def Edge.other (e : Edge) (u : Uuid) : Uuid := if e.src = u then e.dst else e.src

/-- The joins of `load_neighbors`. -/
def Db.joinNeighbor (ev : Edge → Json) (s : Db) (t u : Uuid) (e : Edge) : Option NeighborRow := do
  let src ← s.artifactById t e.src
  let dst ← s.artifactById t e.dst
  let other ← s.artifactById t (e.other u)
  some ⟨e.view ev src dst, e.other u, hexEncode other.sha256, other.artifactClass.asStr⟩

/-- The sort key of the rows; the names of the types have one order in every collation. -/
def NeighborRow.sortKey (r : NeighborRow) : Lex (ℚᵒᵈ × Lex (String × Lex (Uuid × Uuid))) :=
  toLex (OrderDual.toDual r.edge.score, toLex (r.edge.edgeType,
    toLex (r.edge.srcArtifact, r.edge.dstArtifact)))

/-- The `WHERE` of `load_neighbors`. -/
def NeighborhoodQuery.selects (q : NeighborhoodQuery) (t u : Uuid) (e : Edge) : Bool :=
  e.tenant = t && (e.src = u || e.dst = u) && e.modelVersion = q.model &&
    decide (q.minScore ≤ ((e.score : WithTop ℚ) : WithBot (WithTop ℚ)))

/-- `load_neighbors`. -/
def Db.loadNeighbors (ev : Edge → Json) (s : Db) (t u : Uuid) (q : NeighborhoodQuery) :
    List NeighborRow :=
  (((s.sim.edges.rows.filter (q.selects t u)).filterMap (s.joinNeighbor ev t u)).insertionSort
    fun x y => x.sortKey ≤ y.sortKey).filter fun r => q.follows r.edge.edgeType

/-! ### The traversal -/

/-- The seed, as `resolve_seed` returns it. -/
structure Seed where
  id : Uuid
  sha256 : String
  artifactClass : String

/-- The variables of the loop.  `nodes` is a map by artifact; its entries are kept in the
order in which they are inserted. -/
structure Traversal where
  nodes : List NeighborhoodNode
  allEdges : List NeighborhoodEdge
  seenEdgeKeys : Finset (Uuid × Uuid × String)
  truncated : Bool
  frontier : List (Uuid × ℕ)
  visited : Finset Uuid

namespace Traversal

def start (seed : Seed) : Traversal where
  nodes := [⟨seed.id, seed.sha256, seed.artifactClass, 0⟩]
  allEdges := []
  seenEdgeKeys := ∅
  truncated := false
  frontier := [(seed.id, 0)]
  visited := {seed.id}

/-- The first half of the body: the edge. -/
def record (edgeCap : ℕ) (st : Traversal) (e : NeighborhoodEdge) : Traversal :=
  if e.key ∈ st.seenEdgeKeys then st
  else if st.allEdges.length < edgeCap then
    { st with
      seenEdgeKeys := insert e.key st.seenEdgeKeys
      allEdges := st.allEdges ++ [e] }
  else { st with seenEdgeKeys := insert e.key st.seenEdgeKeys, truncated := true }

/-- The second half of the body: the other end. -/
def visit (nodeCap d : ℕ) (st : Traversal) (r : NeighborRow) : Traversal :=
  if r.otherId ∈ st.visited then st
  else if st.nodes.length < nodeCap then
    { st with
      visited := insert r.otherId st.visited
      nodes := st.nodes ++ [⟨r.otherId, r.otherSha, r.otherClass, d + 1⟩]
      frontier := st.frontier ++ [(r.otherId, d + 1)] }
  else { st with truncated := true }

/-- The body of the loop over the neighbors of an artifact at depth `d`. -/
def meet (q : NeighborhoodQuery) (d : ℕ) (st : Traversal) (r : NeighborRow) : Traversal :=
  (st.record q.edgeCap r.edge).visit q.nodeCap d r

/-- The condition of the `break`. -/
def full (q : NeighborhoodQuery) (st : Traversal) : Bool :=
  st.truncated && decide (st.nodes.length ≥ q.nodeCap) && decide (st.allEdges.length ≥ q.edgeCap)

end Traversal

namespace Neighborhood

/-- A program of the statements of a query. -/
abbrev Reader := Prog NeighborhoodPt Db Env Failure

variable (fmt : NeighborhoodFormat) (t : Uuid) (q : NeighborhoodQuery)

/-- `resolve_seed`. -/
def resolveSeed (seed : String) : Reader Seed :=
  match fmt.parseUuid seed with
  | some id => do
    let row ← Prog.query (.seed t) fun s => s.artifactById t id
    found row
  | none =>
    match hexToRaw seed with
    | none => Prog.err (.error (.badRequest "seed must be sha256 hex or artifact uuid"))
    | some raw => do
      let row ← Prog.query (.seed t) fun s => s.ingest.artifacts.get (t, raw)
      found row
where
  /-- The seed of a row, if there is one. -/
  found : Option Artifact → Reader Seed
    | some a => return ⟨a.id, hexEncode a.sha256, a.artifactClass.asStr⟩
    | none => Prog.err (.error (.notFound s!"artifact {seed}"))

/-- The loop over the frontier, for at most `fuel` rounds. -/
def expand : ℕ → Traversal → Reader Traversal
  | 0, st => return st
  | fuel + 1, st => match st.frontier with
    | [] => return st
    | (current, d) :: rest =>
      let st := { st with frontier := rest }
      if d ≥ q.depth then expand fuel st
      else do
        let neighbors ← Prog.query (.neighbors t current) fun s =>
          s.loadNeighbors fmt.evidence t current q
        let st := neighbors.foldl (Traversal.meet q d) st
        if st.full q then return st else expand fuel st

/-- The traversal.  An artifact enters the queue at most once, and at most `nodeCap` do. -/
def traverse (seed : Seed) : Reader Traversal := expand fmt t q q.nodeCap (.start seed)

/-- The sort key of the listed nodes. -/
def nodeKey (n : NeighborhoodNode) : Lex (ℕ × Lex (String × Uuid)) :=
  toLex (n.depth, toLex (n.sha256, n.artifactId))

/-- The sort key of the edges. -/
def edgeKey (e : NeighborhoodEdge) : Lex (ℚᵒᵈ × Lex (String × Lex (String × String))) :=
  toLex (OrderDual.toDual e.score, toLex (e.edgeType, toLex (e.srcSha256, e.dstSha256)))

/-- The edges in the order of the pages. -/
def sortEdges (edges : List NeighborhoodEdge) : List NeighborhoodEdge :=
  edges.insertionSort fun x y => edgeKey x ≤ edgeKey y

/-- One page of the edges. -/
def page (m : Arith) (edges : List NeighborhoodEdge) (offset limit : UInt64) :
    Checked (List NeighborhoodEdge) := do
  let allEdges := sortEdges edges
  let sum ← m.add 64 offset.toNat limit.toNat
  let pageEnd := min sum allEdges.length
  if offset.toNat < allEdges.length then checkedRange allEdges offset.toNat pageEnd else return []

/-- The answer made of a page. -/
def response (seed : Seed) (st : Traversal) (edges : List NeighborhoodEdge) :
    NeighborhoodResponse where
  tenantId := t
  seedArtifact := seed.id
  seedSha256 := seed.sha256
  modelVersion := q.model
  nodes := st.nodes.insertionSort fun x y => nodeKey x ≤ nodeKey y
  edges
  truncated := st.truncated
  limits := ⟨maxDepth, maxNodes, maxEdges, maxNeighborhoodBytes, q.depth, q.nodeCap, q.edgeCap⟩

/-- What follows the traversal. -/
def respond (seed : Seed) (st : Traversal) : Except Failure NeighborhoodResponse :=
  match page fmt.arith st.allEdges q.offset q.limit with
  | .error p => .error (.panic p)
  | .ok edges =>
    if maxNeighborhoodBytes < fmt.jsonLength (response t q seed st edges) then
      .error (.error (.badRequest
        s!"neighborhood response exceeds {maxNeighborhoodBytes} bytes; reduce depth/nodes"))
    else .ok (response t q seed st edges)

/-- The end of a query. -/
def answer : Except Failure NeighborhoodResponse → Reader NeighborhoodResponse
  | .ok r => return r
  | .error e => Prog.err e

/-- `query`. -/
def query : Reader NeighborhoodResponse := do
  let seed ← resolveSeed fmt t q.seed
  let st ← traverse fmt t q seed
  answer (respond fmt t q seed st)

end Neighborhood

end Corpus
