/-
The evidence view of a pair of artifacts (`function_pair_evidence` of `semantic/edges.rs`).

The view loads the stored functions of both artifacts, matches them as `coverage` does, and
then matches them once more to list the pairs: over offsets instead of indexes, and with
ordered sets instead of flags.

* `matchers_agree` — with distinct offsets both matchers assign the same pairs in the same
  order;
* `loadFunctions_distinct` — the rows of an artifact have distinct offsets, by their key;
* `functionPairEvidence_pairs` — so the view lists the first of the pairs it counts.
-/
import Corpus.Analysis
import Corpus.Machine
import Corpus.SemanticCoverage

namespace Corpus

/-! ### The second matcher -/

/-- `candidates`: the pairs that score at least `MATCH_TAU`, by their offsets. -/
def offsetCandidates (a b : List FunctionRow) : List PairScore :=
  a.flatMap fun fa => b.filterMap fun fb =>
    let score := jaccard fa.tokenHashes fb.tokenHashes
    if matchTau ≤ score then some ⟨fa.offset, fb.offset, score⟩ else none

/-- `used_a`, `used_b` and `assigned`, over offsets. -/
structure OffsetAssignment where
  usedA : Finset ℕ
  usedB : Finset ℕ
  assigned : List PairScore

/-- The loop over the candidates. -/
def OffsetAssignment.step (s : OffsetAssignment) (p : PairScore) : OffsetAssignment :=
  if p.aOffset ∈ s.usedA ∨ p.bOffset ∈ s.usedB then s
  else ⟨insert p.aOffset s.usedA, insert p.bOffset s.usedB, s.assigned ++ [p]⟩

/-- `all_pairs`, before it is truncated. -/
def allPairs (a b : List FunctionRow) : List PairScore :=
  (((offsetCandidates a b).insertionSort PairScore.le).foldl OffsetAssignment.step
    ⟨∅, ∅, []⟩).assigned

/-! ### The view -/

/-- `EVIDENCE_SCHEMA_VERSION`. -/
def evidenceSchemaVersion : String := "semantic-evidence:v1"

/-- `MAX_PAIRS`. -/
def maxPairs : ℕ := 64

/-- `MAX_TOKENS`. -/
def maxTokens : ℕ := 64

/-- `MAX_RESPONSE_BYTES`. -/
def maxResponseBytes : ℕ := 256 * 1024

/-- One function of a listed pair. -/
structure PairSide where
  offset : ℕ
  size : Option ℕ
  name : Option String
  insnCount : Option ℕ
  tokenHashesPrefix : List UInt64
  tokenCount : Option ℕ

/-- One listed pair; its components are the score itself and `MATCH_TAU`. -/
structure ListedPair where
  a : PairSide
  b : PairSide
  score : ℚ
  jaccard : ℚ
  tau : ℚ

/-- `limits`. -/
structure EvidenceLimits where
  maxPairs : ℕ
  maxTokensPerFn : ℕ
  maxResponseBytes : ℕ

/-- The body of the answer. -/
structure PairEvidence where
  schemaVersion : String
  tenantId : Uuid
  artifactA : Uuid
  artifactB : Uuid
  extractorVersion : String
  modelVersion : String
  modelConfigDigest : String
  tau : ℚ
  matching : String
  coverageAToB : ℚ
  coverageBToA : ℚ
  matchedPairs : ℕ
  contestedA : List ℕ
  contestedB : List ℕ
  unmatchedA : List ℕ
  unmatchedB : List ℕ
  pairs : List ListedPair
  limits : EvidenceLimits

/-- What the view takes from elsewhere: `model_config_digest(&MODEL_V1)` and the length of
the serialized body. -/
structure EvidenceFormat where
  modelConfigDigest : String
  jsonLength : PairEvidence → ℕ

/-- `by_off_a` and `by_off_b`: the last row of an offset. -/
def byOffset (rows : List FunctionRow) (offset : ℕ) : Option FunctionRow :=
  rows.reverse.find? fun f => f.offset = offset

/-- One function of a pair, with at most `n` of its tokens. -/
def pairSide (rows : List FunctionRow) (n offset : ℕ) : PairSide :=
  let f := byOffset rows offset
  { offset
    size := f.map FunctionRow.size
    name := f.bind FunctionRow.name
    insnCount := f.map FunctionRow.insnCount
    tokenHashesPrefix := (f.map fun r => r.tokenHashes.take n).getD []
    tokenCount := f.map fun r => r.tokenHashes.length }

/-- The body, from the rows of both artifacts. -/
def pairEvidence (fmt : EvidenceFormat) (t a b : Uuid) (maxPairs' maxTokensPerFn : ℕ)
    (funcsA funcsB : List FunctionRow) : PairEvidence :=
  let n := clamp maxPairs' 1 maxPairs
  let k := clamp maxTokensPerFn 1 maxTokens
  let cov := coverageWithTau funcsA funcsB matchTau
  { schemaVersion := evidenceSchemaVersion
    tenantId := t
    artifactA := a
    artifactB := b
    extractorVersion := semanticExtractorVersion
    modelVersion := modelVersion
    modelConfigDigest := fmt.modelConfigDigest
    tau := matchTau
    matching := "one_to_one_greedy"
    coverageAToB := cov.aToB
    coverageBToA := cov.bToA
    matchedPairs := cov.matchedPairs
    contestedA := cov.contestedA
    contestedB := cov.contestedB
    unmatchedA := cov.unmatchedA
    unmatchedB := cov.unmatchedB
    pairs := ((allPairs funcsA funcsB).take n).map fun p =>
      ⟨pairSide funcsA k p.aOffset, pairSide funcsB k p.bOffset, p.score, p.score, matchTau⟩
    limits := ⟨n, k, maxResponseBytes⟩ }

/-- The answer: the body, or an error when it is too large. -/
def boundedEvidence (fmt : EvidenceFormat) (body : PairEvidence) : Except Error PairEvidence :=
  if maxResponseBytes < fmt.jsonLength body then
    .error (.badRequest s!"evidence response exceeds {maxResponseBytes} bytes; reduce max_pairs")
  else .ok body

/-- `function_pair_evidence`. -/
def functionPairEvidence (fmt : EvidenceFormat) (t a b : Uuid) (maxPairs' maxTokensPerFn : ℕ) :
    Srv PairEvidence := do
  let funcsA ← Prog.query (.sim (.analyze t a)) fun s => s.loadFunctions t a
  let funcsB ← Prog.query (.sim (.analyze t b)) fun s => s.loadFunctions t b
  match boundedEvidence fmt (pairEvidence fmt t a b maxPairs' maxTokensPerFn funcsA funcsB) with
  | .ok body => return body
  | .error e => Prog.err e

/-! ### Both matchers -/

section Matchers

variable {a b : List FunctionRow}

theorem offsetAt_of_mem {rows : List FunctionRow} {e : FunctionRow × ℕ} (h : e ∈ rows.zipIdx) :
    offsetAt rows e.2 = e.1.offset := by
  rw [offsetAt, List.mem_zipIdx_iff_getElem?.mp h]
  rfl

/-- Both matchers start from the same pairs, in the same order. -/
theorem map_candidates (a b : List FunctionRow) :
    (candidates a b matchTau).map (Candidate.pair a b) = offsetCandidates a b := by
  have ha : a.zipIdx.map Prod.fst = a := List.zipIdx_map_fst 0 a
  have hb : b.zipIdx.map Prod.fst = b := List.zipIdx_map_fst 0 b
  conv_rhs => rw [offsetCandidates, ← ha, List.flatMap_map]
  rw [candidates, List.map_flatMap]
  refine List.flatMap_congr fun fa hfa => ?_
  conv_rhs => rw [← hb, List.filterMap_map]
  rw [List.map_filterMap]
  refine List.filterMap_congr fun fb hfb => ?_
  simp only [Function.comp_apply]
  split
  · rw [Option.map_some, Candidate.pair, offsetAt_of_mem hfa, offsetAt_of_mem hfb]
  · rfl

theorem map_sortedCandidates (a b : List FunctionRow) :
    (sortedCandidates a b matchTau).map (Candidate.pair a b) =
      (offsetCandidates a b).insertionSort PairScore.le := by
  rw [sortedCandidates, ← map_candidates]
  exact List.map_insertionSort _ _ _ _ fun _ _ _ _ => Iff.rfl

instance : DecidableRel PairScore.Clash := fun p q =>
  inferInstanceAs (Decidable (p.aOffset = q.aOffset ∨ p.bOffset = q.bOffset))

/-- The sets say which offsets are assigned. -/
structure OffsetAssignment.Tracks (s : OffsetAssignment) : Prop where
  a : ∀ o, o ∈ s.usedA ↔ ∃ p ∈ s.assigned, p.aOffset = o
  b : ∀ o, o ∈ s.usedB ↔ ∃ p ∈ s.assigned, p.bOffset = o

theorem OffsetAssignment.Tracks.clash_iff {s : OffsetAssignment} (h : s.Tracks) (p : PairScore) :
    (p.aOffset ∈ s.usedA ∨ p.bOffset ∈ s.usedB) ↔ ∃ q ∈ s.assigned, q.Clash p := by
  rw [h.a, h.b, ← exists_or]
  exact exists_congr fun q => by rw [← and_or_left]; rfl

theorem OffsetAssignment.Tracks.keep {s : OffsetAssignment} (h : s.Tracks) (p : PairScore) :
    Tracks ⟨insert p.aOffset s.usedA, insert p.bOffset s.usedB, s.assigned ++ [p]⟩ where
  a o := by simp [h.a, eq_comm, or_comm, or_and_right, exists_or]
  b o := by simp [h.b, eq_comm, or_comm, or_and_right, exists_or]

/-- The loop over offsets is the greedy choice, too. -/
theorem allPairs_eq (a b : List FunctionRow) :
    allPairs a b = greedy PairScore.Clash ((offsetCandidates a b).insertionSort PairScore.le) := by
  refine (foldl_greedy OffsetAssignment.assigned OffsetAssignment.Tracks
    (fun s p h hclash => ?_) (fun s p h hfree => ?_) _ ⟨by simp, by simp⟩).2
  · rw [OffsetAssignment.step, if_pos ((h.clash_iff p).mpr hclash)]
  · rw [OffsetAssignment.step, if_neg fun hu => hfree ((h.clash_iff p).mp hu)]
    exact ⟨h.keep p, rfl⟩

/-- With distinct offsets, both loops keep the same pairs in the same order. -/
theorem allPairs_eq_assignedPairs (ha : DistinctOffsets a) (hb : DistinctOffsets b) :
    allPairs a b = assignedPairs a b matchTau := by
  rw [allPairs_eq, ← map_sortedCandidates, assignedPairs, assigned_eq]
  refine greedy_map fun c hc d hd => ?_
  exact (mem_sortedCandidates.mp hc).1.clash_pair_iff ha hb (mem_sortedCandidates.mp hd).1

theorem length_assignedPairs (a b : List FunctionRow) (tau : ℚ) :
    (assignedPairs a b tau).length = (coverageWithTau a b tau).matchedPairs := List.length_map _

/-- The assigned pairs are in the order of the sort. -/
theorem assignedPairs_pairwise (a b : List FunctionRow) (tau : ℚ) :
    (assignedPairs a b tau).Pairwise PairScore.le := by
  rw [assignedPairs, assigned_eq]
  exact List.pairwise_map.mpr
    ((sortedCandidates_pairwise a b tau).sublist (greedy_sublist Candidate.Clash _))

end Matchers

/-- **The two matchers agree**: over offsets and sets, the view assigns the pairs that
`coverage` assigns over indexes, in the same order; it counts as many, and the first five
are the top pairs. -/
theorem matchers_agree {a b : List FunctionRow} (ha : DistinctOffsets a)
    (hb : DistinctOffsets b) :
    allPairs a b = (assignment a b matchTau).assigned.map (Candidate.pair a b) ∧
    (allPairs a b).length = (coverageWithTau a b matchTau).matchedPairs ∧
    (allPairs a b).take 5 = (coverageWithTau a b matchTau).topPairs := by
  have heq := allPairs_eq_assignedPairs ha hb
  refine ⟨heq, ?_, ?_⟩
  · rw [heq, length_assignedPairs]
  · show (allPairs a b).take 5 = ((assignedPairs a b matchTau).insertionSort PairScore.le).take 5
    rw [heq, (assignedPairs_pairwise a b matchTau).insertionSort_eq]

/-- Two functions that both resemble one function of the other side. -/
theorem matchers_agree_contested :
    let a := [rowAt 0 [1, 2], rowAt 64 [1, 2, 3]]
    let b := [rowAt 128 [1, 2, 3], rowAt 192 [9]]
    DistinctOffsets a ∧ DistinctOffsets b ∧
      (allPairs a b).length = (coverageWithTau a b matchTau).matchedPairs := by
  refine ⟨by decide, by decide, ?_⟩
  exact (matchers_agree (by decide) (by decide)).2.1

/-! ### What the view lists -/

/-- `load_functions` reads distinct offsets: the offset is the last part of the key. -/
theorem loadFunctions_distinct (s : Db) (t x : Uuid) : DistinctOffsets (s.loadFunctions t x) := by
  have hperm := List.perm_insertionSort (fun f g : FunctionRow => f.offset ≤ g.offset)
    ((s.sim.functions.rows.filter fun r => r.tenant = t && r.artifactId = x &&
      r.version = semanticExtractorVersion).map SimFunction.function)
  refine ((hperm.map FunctionRow.offset).nodup_iff).mpr ?_
  refine List.Nodup.of_map (fun o => (t, x, o, semanticExtractorVersion)) ?_
  rw [List.map_map, List.map_map]
  have hkeys : ∀ r ∈ s.sim.functions.rows.filter fun r => r.tenant = t && r.artifactId = x &&
      r.version = semanticExtractorVersion,
      (t, x, r.function.offset, semanticExtractorVersion) = r.key := by
    intro r hr
    have hsel := (List.mem_filter.mp hr).2
    simp only [Bool.and_eq_true, decide_eq_true_eq] at hsel
    obtain ⟨⟨rfl, rfl⟩, hversion⟩ := hsel
    rw [SimFunction.key, hversion]
  refine Eq.mpr (congrArg List.Nodup (List.map_congr_left hkeys)) ?_
  exact s.sim.functions.nodup.sublist (List.filter_sublist.map _)

/-- Run alone, the view reads the rows of both artifacts and answers with the body they
make, unless it is too large. -/
theorem wp_functionPairEvidence (fmt : EvidenceFormat) (t a b : Uuid) (n k : ℕ) (s : Db) :
    Prog.wp (fun _ _ => True) (fun r s' => s' = s ∧ r = boundedEvidence fmt
        (pairEvidence fmt t a b n k (s.loadFunctions t a) (s.loadFunctions t b)))
      (functionPairEvidence fmt t a b n k) s := by
  simp only [functionPairEvidence, Prog.query_bind, Prog.wp_stmt, true_and]
  intro _ _
  cases boundedEvidence fmt
    (pairEvidence fmt t a b n k (s.loadFunctions t a) (s.loadFunctions t b)) with
  | ok body => exact ⟨rfl, rfl⟩
  | error e => exact ⟨rfl, rfl⟩

/-- **The view lists what it counts**: its pairs are the first of the assignment behind its
own `matched_pairs`. -/
theorem functionPairEvidence_pairs {fmt : EvidenceFormat} {t a b : Uuid} {n k : ℕ} {s s' : Db}
    {ls : List Pt} {r : PairEvidence}
    (h : Prog.Returns (functionPairEvidence fmt t a b n k) s ls r s') :
    let pairs := assignedPairs (s.loadFunctions t a) (s.loadFunctions t b) matchTau
    r.matchedPairs = pairs.length ∧
    r.pairs.map (fun p => PairScore.mk p.a.offset p.b.offset p.score) =
      pairs.take (clamp n 1 maxPairs) := by
  intro pairs
  obtain ⟨-, hr⟩ := Prog.wp_returns h (wp_functionPairEvidence fmt t a b n k s)
  have hagree := allPairs_eq_assignedPairs (loadFunctions_distinct s t a) (loadFunctions_distinct s t b)
  unfold boundedEvidence at hr
  split at hr
  · cases hr
  · obtain rfl := Except.ok.inj hr
    refine ⟨(length_assignedPairs _ _ matchTau).symm, ?_⟩
    show List.map _ (((allPairs _ _).take _).map _) = _
    rw [List.map_map, hagree]
    exact List.map_id _

end Corpus
