/-
One-to-one coverage of two sets of functions (`coverage_with_tau` of `semantic/edges.rs`).

All pairs of functions that score at least `tau` are sorted by score, then by offsets, and
assigned greedily, each function at most once.  Scores are exact rationals.

* `coverageWithTau_stable` — the assignment is a stable matching, what is contested and
  unmatched makes up the rest of each side, and equal sides are matched in full;
* `coverageWithTau_symm` — with distinct offsets it depends neither on which side comes
  first nor on the order of the rows.

The second is the uniqueness of kernels: two pairs that compete for a function are put in
the same order by either side.
-/
import Corpus.Greedy
import Corpus.Store
import Mathlib.Algebra.Order.Field.Basic
import Mathlib.Algebra.Order.Ring.Rat
import Mathlib.Data.List.Sort
import Mathlib.Data.Rat.Cast.Order

namespace Corpus

/-! ### Scores -/

/-- One pass of the merge loop of `jaccard` over the second list. -/
def interFrom (x : UInt64) (rest : List UInt64 → ℕ) : List UInt64 → ℕ
  | [] => 0
  | y :: ys =>
    if x < y then rest (y :: ys) else if y < x then interFrom x rest ys else rest ys + 1

/-- The merge loop of `jaccard`: how many tokens two sorted lists share. -/
def inter : List UInt64 → List UInt64 → ℕ
  | [] => fun _ => 0
  | x :: xs => interFrom x (inter xs)

/-- `jaccard`. -/
def jaccard (a b : List UInt64) : ℚ :=
  if a = [] ∧ b = [] then 1
  else if a.length + b.length - inter a b = 0 then 1
  else inter a b / (a.length + b.length - inter a b : ℕ)

@[simp] theorem inter_nil_left (b : List UInt64) : inter [] b = 0 := rfl

@[simp] theorem inter_nil_right (a : List UInt64) : inter a [] = 0 := by
  cases a <;> rfl

theorem inter_cons (x y : UInt64) (xs ys : List UInt64) :
    inter (x :: xs) (y :: ys) = if x < y then inter xs (y :: ys)
      else if y < x then inter (x :: xs) ys else inter xs ys + 1 := rfl

theorem inter_comm : ∀ a b : List UInt64, inter a b = inter b a := by
  intro a
  induction a with
  | nil => simp
  | cons x xs ihx =>
    intro b
    induction b with
    | nil => simp
    | cons y ys ihy =>
      rw [inter_cons, inter_cons]
      by_cases hxy : x < y
      · rw [if_pos hxy, if_neg (UInt64.lt_asymm hxy), if_pos hxy, ihx]
      · rw [if_neg hxy, if_neg hxy, ihx ys, ihy]

theorem inter_le_left : ∀ a b : List UInt64, inter a b ≤ a.length := by
  intro a
  induction a with
  | nil => simp
  | cons x xs ihx =>
    intro b
    induction b with
    | nil => simp
    | cons y ys ihy =>
      rw [inter_cons, List.length_cons]
      split
      · exact (ihx _).trans (Nat.le_succ _)
      · split
        · exact ihy
        · exact Nat.succ_le_succ (ihx _)

theorem inter_le_right (a b : List UInt64) : inter a b ≤ b.length := by
  rw [inter_comm]
  exact inter_le_left b a

theorem inter_self : ∀ a : List UInt64, inter a a = a.length := by
  intro a
  induction a with
  | nil => rfl
  | cons x xs ih =>
    rw [inter_cons, if_neg (UInt64.lt_irrefl x), if_neg (UInt64.lt_irrefl x), ih, List.length_cons]

/-- Lists that share all their tokens are equal. -/
theorem eq_of_inter : ∀ a b : List UInt64, inter a b = a.length → inter a b = b.length → a = b := by
  intro a
  induction a with
  | nil =>
    intro b _ hb
    exact (List.length_eq_zero_iff.mp hb.symm).symm
  | cons x xs ih =>
    intro b ha hb
    cases b with
    | nil => simp at ha
    | cons y ys =>
      rw [inter_cons] at ha hb
      split at ha
      · have hle := inter_le_left xs (y :: ys)
        rw [ha, List.length_cons] at hle
        exact absurd hle (Nat.not_succ_le_self _)
      · next hxy =>
        split at ha
        · next hyx =>
          rw [if_neg hxy, if_pos hyx] at hb
          have hle := inter_le_right (x :: xs) ys
          rw [hb, List.length_cons] at hle
          exact absurd hle (Nat.not_succ_le_self _)
        · next hyx =>
          rw [if_neg hxy, if_neg hyx] at hb
          rw [UInt64.le_antisymm (UInt64.not_lt.mp hyx) (UInt64.not_lt.mp hxy),
            ih ys (Nat.succ.inj ha) (Nat.succ.inj hb)]

theorem jaccard_comm (a b : List UInt64) : jaccard a b = jaccard b a := by
  unfold jaccard
  simp only [inter_comm a b, Nat.add_comm a.length b.length, and_comm]

theorem jaccard_self (a : List UInt64) : jaccard a a = 1 := by
  unfold jaccard
  split
  · rfl
  · split
    · rfl
    · next hne =>
      rw [inter_self, Nat.add_sub_cancel] at hne ⊢
      exact div_self (Nat.cast_ne_zero.mpr hne)

/-- Only equal lists score 1 or more. -/
theorem eq_of_one_le_jaccard {a b : List UInt64} (h : 1 ≤ jaccard a b) : a = b := by
  have hl := inter_le_left a b
  have hr := inter_le_right a b
  unfold jaccard at h
  split at h
  · next hnil => rw [hnil.1, hnil.2]
  · split at h
    · next hzero => exact eq_of_inter a b (by omega) (by omega)
    · next hne =>
      have hpos : (0 : ℚ) < (a.length + b.length - inter a b : ℕ) :=
        Nat.cast_pos.mpr (Nat.pos_of_ne_zero hne)
      have hcast : a.length + b.length - inter a b ≤ inter a b :=
        Nat.cast_le.mp ((one_le_div hpos).mp h)
      exact eq_of_inter a b (by omega) (by omega)

/-! ### Pairs -/

/-- `PairScore`. -/
structure PairScore where
  aOffset : ℕ
  bOffset : ℕ
  score : ℚ
  deriving DecidableEq

/-- The order of both sorts: by score, highest first, then by the offsets. -/
def PairScore.before (x y : PairScore) : Prop :=
  y.score < x.score ∨ (x.score = y.score ∧
    (x.aOffset < y.aOffset ∨ (x.aOffset = y.aOffset ∧ x.bOffset < y.bOffset)))

instance : DecidableRel PairScore.before := fun x y =>
  inferInstanceAs (Decidable (y.score < x.score ∨ (x.score = y.score ∧
    (x.aOffset < y.aOffset ∨ (x.aOffset = y.aOffset ∧ x.bOffset < y.bOffset)))))

theorem PairScore.before_irrefl (x : PairScore) : ¬ x.before x := by
  simp [before]

theorem PairScore.before_trans {x y z : PairScore} (h : x.before y) (h' : y.before z) :
    x.before z := by
  rcases h with h | ⟨h, ho⟩
  · rcases h' with h' | ⟨h', _⟩
    · exact .inl (h'.trans h)
    · exact .inl (h' ▸ h)
  · rcases h' with h' | ⟨h', ho'⟩
    · exact .inl (h ▸ h')
    · refine .inr ⟨h.trans h', ?_⟩
      omega

instance : IsStrictOrder PairScore PairScore.before where
  irrefl := PairScore.before_irrefl
  trans _ _ _ := PairScore.before_trans

/-- Different pairs are in order, one way or the other. -/
theorem PairScore.before_total {x y : PairScore} (h : x ≠ y) : x.before y ∨ y.before x := by
  obtain ⟨xa, xb, xs⟩ := x
  obtain ⟨ya, yb, ys⟩ := y
  rcases lt_trichotomy xs ys with hs | rfl | hs
  · exact .inr (.inl hs)
  · have hne : xa ≠ ya ∨ xb ≠ yb := by
      by_contra hc
      obtain ⟨rfl, rfl⟩ := not_or.mp hc |>.imp not_not.mp not_not.mp
      exact h rfl
    simp only [before, lt_irrefl, true_and, false_or]
    omega
  · exact .inl (.inl hs)

/-- The comparison of the sorts does not put `y` first. -/
def PairScore.le (x y : PairScore) : Prop := ¬ y.before x

instance : DecidableRel PairScore.le := fun x y => inferInstanceAs (Decidable (¬ y.before x))

theorem PairScore.le_iff {x y : PairScore} : x.le y ↔ x.before y ∨ x = y := by
  constructor
  · intro h
    by_cases heq : x = y
    · exact .inr heq
    · exact .inl ((before_total heq).resolve_right h)
  · rintro (h | rfl)
    · exact fun h' => before_irrefl x (before_trans h h')
    · exact before_irrefl x

theorem PairScore.le_trans {x y z : PairScore} (h : x.le y) (h' : y.le z) : x.le z := by
  rw [le_iff] at h h' ⊢
  rcases h with h | rfl
  · rcases h' with h' | rfl
    · exact .inl (before_trans h h')
    · exact .inl h
  · exact h'

/-! ### The assignment -/

/-- A candidate: the indexes of the two functions and their score. -/
structure Candidate where
  i : ℕ
  j : ℕ
  score : ℚ
  deriving DecidableEq

/-- The offset of a row. -/
def offsetAt (rows : List FunctionRow) (i : ℕ) : ℕ := (rows[i]?.map FunctionRow.offset).getD 0

/-- A candidate, by the offsets of its functions. -/
def Candidate.pair (a b : List FunctionRow) (c : Candidate) : PairScore :=
  ⟨offsetAt a c.i, offsetAt b c.j, c.score⟩

/-- The pairs that score at least `tau`. -/
def candidates (a b : List FunctionRow) (tau : ℚ) : List Candidate :=
  a.zipIdx.flatMap fun fa => b.zipIdx.filterMap fun fb =>
    let score := jaccard fa.1.tokenHashes fb.1.tokenHashes
    if tau ≤ score then some ⟨fa.2, fb.2, score⟩ else none

/-- The candidates, sorted. -/
def sortedCandidates (a b : List FunctionRow) (tau : ℚ) : List Candidate :=
  (candidates a b tau).insertionSort fun x y => (x.pair a b).le (y.pair a b)

/-- `used_a`, `used_b` and `assigned`. -/
structure Assignment where
  usedA : ℕ → Bool
  usedB : ℕ → Bool
  assigned : List Candidate

/-- The loop over the candidates. -/
def Assignment.step (s : Assignment) (c : Candidate) : Assignment :=
  if s.usedA c.i || s.usedB c.j then s
  else ⟨Function.update s.usedA c.i true, Function.update s.usedB c.j true, s.assigned ++ [c]⟩

/-- The assignment of `coverage_with_tau`. -/
def assignment (a b : List FunctionRow) (tau : ℚ) : Assignment :=
  (sortedCandidates a b tau).foldl Assignment.step ⟨fun _ => false, fun _ => false, []⟩

/-- `Coverage`, with all its members. -/
structure MatchReport extends Coverage where
  topPairs : List PairScore
  contestedA : List ℕ
  contestedB : List ℕ
  unmatchedA : List ℕ
  unmatchedB : List ℕ

/-- The offsets of the rows whose index satisfies `q`. -/
def rowsWhere (rows : List FunctionRow) (q : ℕ → Bool) : List ℕ :=
  (rows.zipIdx.filter fun e => q e.2).map fun e => e.1.offset

/-- The assigned pairs, by offsets. -/
def assignedPairs (a b : List FunctionRow) (tau : ℚ) : List PairScore :=
  (assignment a b tau).assigned.map (Candidate.pair a b)

/-- `coverage_with_tau`. -/
def coverageWithTau (a b : List FunctionRow) (tau : ℚ) : MatchReport :=
  let s := assignment a b tau
  let hadA := fun i => (candidates a b tau).any fun c => c.i = i
  let hadB := fun j => (candidates a b tau).any fun c => c.j = j
  let matched := s.assigned.length
  { aToB := if a.isEmpty then 0 else matched / a.length
    bToA := if b.isEmpty then 0 else matched / b.length
    matchedPairs := matched
    topPairs := ((assignedPairs a b tau).insertionSort PairScore.le).take 5
    contestedA := rowsWhere a fun i => hadA i && !s.usedA i
    contestedB := rowsWhere b fun j => hadB j && !s.usedB j
    unmatchedA := rowsWhere a fun i => !hadA i
    unmatchedB := rowsWhere b fun j => !hadB j }

/-- `MATCH_TAU`. -/
def matchTau : ℚ := 35 / 100

/-- `coverage`. -/
def coverage (a b : List FunctionRow) : Coverage := (coverageWithTau a b matchTau).toCoverage

/-! ### Candidates -/

section Candidates

variable {a b : List FunctionRow} {tau : ℚ} {c : Candidate}

/-- The candidate is a pair of rows with their score. -/
def Candidate.Scored (a b : List FunctionRow) (c : Candidate) : Prop :=
  ∃ fa fb, a[c.i]? = some fa ∧ b[c.j]? = some fb ∧
    c.score = jaccard fa.tokenHashes fb.tokenHashes

theorem mem_candidates : c ∈ candidates a b tau ↔ c.Scored a b ∧ tau ≤ c.score := by
  simp only [candidates, List.mem_flatMap, List.mem_filterMap, Prod.exists, List.mem_zipIdx_iff_getElem?,
    Option.ite_none_right_eq_some, Option.some.injEq]
  constructor
  · rintro ⟨fa, i, hi, fb, j, hj, htau, rfl⟩
    exact ⟨⟨fa, fb, hi, hj, rfl⟩, htau⟩
  · rintro ⟨⟨fa, fb, hi, hj, hscore⟩, htau⟩
    refine ⟨fa, c.i, hi, fb, c.j, hj, hscore ▸ htau, ?_⟩
    rw [← hscore]

theorem mem_sortedCandidates : c ∈ sortedCandidates a b tau ↔ c.Scored a b ∧ tau ≤ c.score := by
  rw [sortedCandidates, List.mem_insertionSort, mem_candidates]

theorem sortedCandidates_pairwise (a b : List FunctionRow) (tau : ℚ) :
    (sortedCandidates a b tau).Pairwise fun x y => (x.pair a b).le (y.pair a b) := by
  have : Std.Total fun x y : Candidate => (x.pair a b).le (y.pair a b) := by
    refine ⟨fun x y => ?_⟩
    by_contra hc
    obtain ⟨h₁, h₂⟩ := not_or.mp hc
    exact PairScore.before_irrefl _ (PairScore.before_trans (not_not.mp h₁) (not_not.mp h₂))
  have : IsTrans Candidate fun x y => (x.pair a b).le (y.pair a b) :=
    ⟨fun _ _ _ => PairScore.le_trans⟩
  exact List.pairwise_insertionSort _ _

/-- Two candidates are one when their functions are. -/
theorem Candidate.Scored.ext {c' : Candidate} (h : c.Scored a b) (h' : c'.Scored a b)
    (hi : c.i = c'.i) (hj : c.j = c'.j) : c = c' := by
  obtain ⟨i, j, s⟩ := c
  obtain ⟨i', j', s'⟩ := c'
  obtain rfl : i = i' := hi
  obtain rfl : j = j' := hj
  obtain ⟨fa, fb, ha, hb, hs⟩ := h
  obtain ⟨fa', fb', ha', hb', hs'⟩ := h'
  cases ha.symm.trans ha'
  cases hb.symm.trans hb'
  rw [Candidate.mk.injEq]
  exact ⟨rfl, rfl, hs.trans hs'.symm⟩

end Candidates

/-! ### The greedy choice -/

/-- Two candidates compete for a function. -/
def Candidate.Clash (c d : Candidate) : Prop := c.i = d.i ∨ c.j = d.j

instance : DecidableRel Candidate.Clash := fun c d =>
  inferInstanceAs (Decidable (c.i = d.i ∨ c.j = d.j))

theorem Candidate.Clash.symm (c d : Candidate) (h : c.Clash d) : d.Clash c :=
  h.imp Eq.symm Eq.symm

/-- The marks say which functions are assigned. -/
structure Assignment.Tracks (s : Assignment) : Prop where
  a : ∀ i, s.usedA i = true ↔ ∃ c ∈ s.assigned, c.i = i
  b : ∀ j, s.usedB j = true ↔ ∃ c ∈ s.assigned, c.j = j

theorem Assignment.Tracks.clash_iff {s : Assignment} (h : s.Tracks) (c : Candidate) :
    (s.usedA c.i || s.usedB c.j) = true ↔ ∃ d ∈ s.assigned, d.Clash c := by
  rw [Bool.or_eq_true, h.a, h.b]
  constructor
  · rintro (⟨d, hd, heq⟩ | ⟨d, hd, heq⟩)
    · exact ⟨d, hd, .inl heq⟩
    · exact ⟨d, hd, .inr heq⟩
  · rintro ⟨d, hd, heq | heq⟩
    · exact .inl ⟨d, hd, heq⟩
    · exact .inr ⟨d, hd, heq⟩

private theorem update_iff {used : ℕ → Bool} {l : List Candidate} {f : Candidate → ℕ}
    (h : ∀ i, used i = true ↔ ∃ c ∈ l, f c = i) (c : Candidate) (i : ℕ) :
    Function.update used (f c) true i = true ↔ ∃ d ∈ l ++ [c], f d = i := by
  rcases eq_or_ne i (f c) with rfl | hne
  · rw [Function.update_self]
    exact iff_of_true rfl ⟨c, List.mem_append_right _ (List.mem_singleton_self c), rfl⟩
  · rw [Function.update_of_ne hne, h]
    constructor
    · rintro ⟨d, hd, heq⟩
      exact ⟨d, List.mem_append_left _ hd, heq⟩
    · rintro ⟨d, hd, heq⟩
      rcases List.mem_append.mp hd with hd | hd
      · exact ⟨d, hd, heq⟩
      · obtain rfl := List.mem_singleton.mp hd
        exact absurd heq.symm hne

/-- The loop is the greedy choice. -/
theorem foldl_step : ∀ (l : List Candidate) {s : Assignment}, s.Tracks →
    (l.foldl Assignment.step s).Tracks ∧
      (l.foldl Assignment.step s).assigned = greedyFrom Candidate.Clash s.assigned l := by
  refine foldl_greedy Assignment.assigned Assignment.Tracks (fun s c h hclash => ?_)
    fun s c h hfree => ?_
  · rw [Assignment.step, if_pos ((h.clash_iff c).mpr hclash)]
  · rw [Assignment.step, if_neg fun hu => hfree ((h.clash_iff c).mp hu)]
    exact ⟨⟨update_iff h.a c, update_iff h.b c⟩, rfl⟩

section Assignment

variable (a b : List FunctionRow) (tau : ℚ)

theorem assignment_tracks : (assignment a b tau).Tracks :=
  (foldl_step _ ⟨by simp, by simp⟩).1

theorem assigned_eq :
    (assignment a b tau).assigned = greedy Candidate.Clash (sortedCandidates a b tau) :=
  (foldl_step _ ⟨by simp, by simp⟩).2

/-- What is assigned is the kernel of the candidates. -/
theorem assigned_kernel : Kernel (fun x y => (x.pair a b).le (y.pair a b)) Candidate.Clash
    (sortedCandidates a b tau) (assignment a b tau).assigned := by
  rw [assigned_eq]
  exact greedy_kernel Candidate.Clash.symm (sortedCandidates_pairwise a b tau)

theorem assigned_pairwise :
    (assignment a b tau).assigned.Pairwise fun c d => ¬ c.Clash d := by
  rw [assigned_eq]
  exact greedyFrom_pairwise List.Pairwise.nil

end Assignment

/-! ### A stable matching -/

/-- `m` is a one-to-one matching of pairs that score at least `tau`, and a pair outside it
has a function assigned in a pair that does not come later. -/
structure StableMatching (a b : List FunctionRow) (tau : ℚ) (m : List Candidate) : Prop where
  onceA : (m.map Candidate.i).Nodup
  onceB : (m.map Candidate.j).Nodup
  scored : ∀ c ∈ m, c.Scored a b ∧ tau ≤ c.score
  stable : ∀ c : Candidate, c.Scored a b → tau ≤ c.score → c ∉ m →
    ∃ d ∈ m, (d.i = c.i ∨ d.j = c.j) ∧ ¬ (c.pair a b).before (d.pair a b)

/-- The rows of one side: assigned, contested or unmatched.  Contested and unmatched rows
are not assigned, and the first have a pair that scores at least `tau`. -/
structure SideSplit (rows : List FunctionRow) (assigned : List ℕ) (offered : ℕ → Prop)
    (contested unmatched : List ℕ) : Prop where
  split : ∃ cs us : List ℕ, contested = cs.map (offsetAt rows) ∧
    unmatched = us.map (offsetAt rows) ∧ (assigned ++ cs ++ us).Perm (List.range rows.length) ∧
    (∀ i ∈ cs, offered i) ∧ ∀ i ∈ us, ¬ offered i

theorem stableMatching (a b : List FunctionRow) (tau : ℚ) :
    StableMatching a b tau (assignment a b tau).assigned := by
  have hpair := assigned_pairwise a b tau
  have hkernel := assigned_kernel a b tau
  refine ⟨?_, ?_, fun c hc => mem_sortedCandidates.mp (hkernel.sub c hc), fun c hc htau hnot => ?_⟩
  · exact List.pairwise_map.mpr (hpair.imp fun h heq => h (.inl heq))
  · exact List.pairwise_map.mpr (hpair.imp fun h heq => h (.inr heq))
  · obtain ⟨d, hd, hle, hclash⟩ := hkernel.full c (mem_sortedCandidates.mpr ⟨hc, htau⟩) hnot
    exact ⟨d, hd, hclash, hle⟩

/-! ### What is left over -/

theorem rowsWhere_eq (rows : List FunctionRow) (q : ℕ → Bool) :
    rowsWhere rows q = ((List.range rows.length).filter q).map (offsetAt rows) := by
  have hoff : ∀ e ∈ rows.zipIdx.filter fun e => q e.2, e.1.offset = offsetAt rows e.2 := by
    intro e he
    have hget := List.mem_zipIdx_iff_getElem?.mp (List.mem_filter.mp he).1
    rw [offsetAt, hget]
    rfl
  have hidx : List.range rows.length = rows.zipIdx.map Prod.snd := by
    rw [List.zipIdx_map_snd, List.range_eq_range']
  rw [rowsWhere, List.map_congr_left hoff, hidx, List.filter_map, List.map_map]
  rfl

theorem sideSplit {rows : List FunctionRow} {used had : ℕ → Bool} {assigned : List ℕ}
    (hnodup : assigned.Nodup) (hused : ∀ i, used i = true ↔ i ∈ assigned)
    (hhad : ∀ i ∈ assigned, i < rows.length ∧ had i = true) :
    SideSplit rows assigned (fun i => had i = true) (rowsWhere rows fun i => had i && !used i)
      (rowsWhere rows fun i => !had i) := by
  have hrange : (List.range rows.length).Nodup := List.nodup_range
  refine ⟨_, _, rowsWhere_eq rows _, rowsWhere_eq rows _, ?_, fun i hi => ?_, fun i hi => ?_⟩
  · refine (List.perm_ext_iff_of_nodup ?_ hrange).mpr fun i => ?_
    · refine List.nodup_append.mpr ⟨List.nodup_append.mpr ⟨hnodup, hrange.filter _, ?_⟩,
        hrange.filter _, ?_⟩
      · -- a contested row is not assigned
        rintro i hi j hj rfl
        have hfree := (List.mem_filter.mp hj).2
        rw [(hused i).mpr hi, Bool.not_true, Bool.and_false] at hfree
        cases hfree
      · -- an unmatched row has no candidate
        rintro i hi j hj rfl
        have hnone := (List.mem_filter.mp hj).2
        rcases List.mem_append.mp hi with hi | hi
        · rw [(hhad i hi).2] at hnone
          cases hnone
        · rw [(Bool.and_eq_true_iff.mp (List.mem_filter.mp hi).2).1] at hnone
          cases hnone
    · rw [List.mem_append, List.mem_append, List.mem_filter, List.mem_filter, List.mem_range]
      constructor
      · rintro ((hi | hi) | hi)
        · exact (hhad i hi).1
        · exact hi.1
        · exact hi.1
      · intro hi
        by_cases hu : i ∈ assigned
        · exact .inl (.inl hu)
        · have hfree : used i = false := Bool.eq_false_iff.mpr fun h => hu ((hused i).mp h)
          cases hh : had i with
          | true => exact .inl (.inr ⟨hi, by rw [hfree]; rfl⟩)
          | false => exact .inr ⟨hi, rfl⟩
  · exact (Bool.and_eq_true_iff.mp (List.mem_filter.mp hi).2).1
  · have hnone := (List.mem_filter.mp hi).2
    intro h
    rw [h] at hnone
    cases hnone

/-- A row has a pair that scores at least `tau`. -/
theorem any_candidate_iff {a b : List FunctionRow} {tau : ℚ} (f : Candidate → ℕ) (i : ℕ) :
    ((candidates a b tau).any fun c => f c = i) = true ↔
      ∃ c : Candidate, c.Scored a b ∧ tau ≤ c.score ∧ f c = i := by
  simp only [List.any_eq_true, decide_eq_true_eq, mem_candidates, and_assoc]

/-- As `sideSplit`, for the marks of an assignment. -/
theorem assigned_sideSplit {a b rows : List FunctionRow} {tau : ℚ} {m : List Candidate}
    {used : ℕ → Bool} (f : Candidate → ℕ) (hm : StableMatching a b tau m) (hnodup : (m.map f).Nodup)
    (hused : ∀ i, used i = true ↔ ∃ c ∈ m, f c = i) (hbound : ∀ i ∈ m.map f, i < rows.length) :
    SideSplit rows (m.map f) (fun i => ∃ c : Candidate, c.Scored a b ∧ tau ≤ c.score ∧ f c = i)
      (rowsWhere rows fun i => ((candidates a b tau).any fun c => f c = i) && !used i)
      (rowsWhere rows fun i => !(candidates a b tau).any fun c => f c = i) := by
  simp only [← any_candidate_iff]
  refine sideSplit hnodup (fun i => (hused i).trans List.mem_map.symm) fun i hi => ?_
  obtain ⟨c, hc, rfl⟩ := List.mem_map.mp hi
  exact ⟨hbound _ hi, (any_candidate_iff f _).mpr ⟨c, (hm.scored c hc).1, (hm.scored c hc).2, rfl⟩⟩

/-! ### Equal sides -/

/-- The number of indexes at which a value stands. -/
theorem length_filter_getElem? {α : Type} [BEq α] [LawfulBEq α] [DecidableEq α] (l : List α)
    (x : α) :
    ((List.range l.length).filter fun i => l[i]? = some x).length = l.count x := by
  have hmap : (List.range l.length).map (fun i => l[i]?) = l.map some := by
    refine List.ext_getElem (by simp) fun i h₁ h₂ => ?_
    simp at h₁ ⊢
  calc ((List.range l.length).filter fun i => l[i]? = some x).length
      = ((List.range l.length).map fun i => l[i]?).countP fun o => o = some x := by
        rw [List.countP_map, List.countP_eq_length_filter]
        rfl
    _ = l.count x := by
        rw [hmap, List.countP_map, List.count]
        refine List.countP_congr fun y _ => ?_
        simp

section Equal

variable {a b : List FunctionRow} {tau : ℚ}

/-- The tokens of a row. -/
def tokensAt (rows : List FunctionRow) (i : ℕ) : Option (List UInt64) :=
  (rows.map FunctionRow.tokenHashes)[i]?

theorem Candidate.Scored.tokens {c : Candidate} (h : c.Scored a b) :
    ∃ x y, tokensAt a c.i = some x ∧ tokensAt b c.j = some y ∧ c.score = jaccard x y := by
  obtain ⟨fa, fb, ha, hb, hs⟩ := h
  refine ⟨_, _, ?_, ?_, hs⟩
  · rw [tokensAt, List.getElem?_map, ha]
    rfl
  · rw [tokensAt, List.getElem?_map, hb]
    rfl

/-- Rows with the same tokens, and a stable matching that has no place for the first:
every copy of it on the other side is taken by a copy of it. -/
theorem taken_by_copy {m : List Candidate} (h : StableMatching a b tau m) (htau : tau ≤ 1)
    {i j : ℕ} {x : List UInt64} (hi : tokensAt a i = some x) (hj : tokensAt b j = some x)
    (hfree : ∀ c ∈ m, c.i ≠ i) : ∃ c ∈ m, c.j = j ∧ tokensAt a c.i = some x := by
  rw [tokensAt, List.getElem?_map, Option.map_eq_some_iff] at hi hj
  obtain ⟨fa, ha, rfl⟩ := hi
  obtain ⟨fb, hb, hx⟩ := hj
  have hscored : Candidate.Scored a b ⟨i, j, 1⟩ := ⟨fa, fb, ha, hb, by rw [hx, jaccard_self]⟩
  obtain ⟨d, hd, hij, hle⟩ := h.stable ⟨i, j, 1⟩ hscored htau fun hm => hfree _ hm rfl
  have hdj : d.j = j := hij.resolve_left (hfree d hd)
  obtain ⟨fa', fb', ha', hb', hs⟩ := (h.scored d hd).1
  obtain rfl : fb' = fb := by
    rw [hdj] at hb'
    exact Option.some.inj (hb'.symm.trans hb)
  -- the pair that took the copy scores at least as much, so its tokens are the same
  have hone : 1 ≤ d.score := not_lt.mp fun hlt => hle (.inl hlt)
  have heq := eq_of_one_le_jaccard (hs ▸ hone)
  refine ⟨d, hd, hdj, ?_⟩
  rw [tokensAt, List.getElem?_map, ha', Option.map_some, heq, hx]

/-- When both sides carry the same token lists, every function is matched. -/
theorem all_matched {m : List Candidate} (h : StableMatching a b tau m) (htau : tau ≤ 1)
    (hperm : (b.map FunctionRow.tokenHashes).Perm (a.map FunctionRow.tokenHashes)) :
    ∀ i < a.length, i ∈ m.map Candidate.i := by
  intro i hi
  by_contra hnot
  have hfree : ∀ c ∈ m, c.i ≠ i := fun c hc heq => hnot (List.mem_map.mpr ⟨c, hc, heq⟩)
  obtain ⟨x, hx⟩ : ∃ x, tokensAt a i = some x :=
    ⟨_, List.getElem?_eq_getElem (by rwa [List.length_map])⟩
  -- the copies of the row on either side, and the pairs that take them
  let copiesA := (List.range (a.map FunctionRow.tokenHashes).length).filter
    fun i => tokensAt a i = some x
  let copiesB := (List.range (b.map FunctionRow.tokenHashes).length).filter
    fun j => tokensAt b j = some x
  let taken := m.filter fun c => tokensAt a c.i = some x
  have hB : copiesB ⊆ taken.map Candidate.j := by
    intro j hj
    obtain ⟨c, hc, hcj, hct⟩ := taken_by_copy h htau hx
      (of_decide_eq_true (List.mem_filter.mp hj).2) hfree
    exact List.mem_map.mpr ⟨c, List.mem_filter.mpr ⟨hc, decide_eq_true hct⟩, hcj⟩
  have hA : i :: taken.map Candidate.i ⊆ copiesA := by
    intro k hk
    have htokens : tokensAt a k = some x := by
      rcases List.mem_cons.mp hk with rfl | hk
      · exact hx
      · obtain ⟨c, hc, rfl⟩ := List.mem_map.mp hk
        exact of_decide_eq_true (List.mem_filter.mp hc).2
    refine List.mem_filter.mpr ⟨List.mem_range.mpr ?_, decide_eq_true htokens⟩
    exact (List.getElem?_eq_some_iff.mp htokens).1
  have hnodup : (i :: taken.map Candidate.i).Nodup := by
    refine List.nodup_cons.mpr ⟨fun hmem => ?_, h.onceA.sublist (List.filter_sublist.map _)⟩
    obtain ⟨c, hc, heq⟩ := List.mem_map.mp hmem
    exact hfree c (List.mem_filter.mp hc).1 heq
  have hlenB : copiesB.length ≤ taken.length :=
    (List.subperm_of_subset (List.nodup_range.filter _) hB).length_le.trans_eq (List.length_map _)
  have hlenA : taken.length + 1 ≤ copiesA.length := by
    have hle := (List.subperm_of_subset hnodup hA).length_le
    rwa [List.length_cons, List.length_map] at hle
  have hcountA : copiesA.length = (a.map FunctionRow.tokenHashes).count x :=
    length_filter_getElem? _ x
  have hcountB : copiesB.length = (b.map FunctionRow.tokenHashes).count x :=
    length_filter_getElem? _ x
  rw [hcountA, ← hperm.count_eq x, ← hcountB] at hlenA
  exact Nat.not_succ_le_self _ (hlenA.trans hlenB)

end Equal

/-- **A stable one-to-one matching**: `coverage_with_tau` assigns one, counts its pairs,
splits each side into assigned, contested and unmatched rows, and matches every row when
both sides carry the same token lists. -/
theorem coverageWithTau_stable (a b : List FunctionRow) (tau : ℚ) :
    let m := (assignment a b tau).assigned
    let r := coverageWithTau a b tau
    StableMatching a b tau m ∧
    r.matchedPairs = m.length ∧ m.length ≤ min a.length b.length ∧
    SideSplit a (m.map Candidate.i)
      (fun i => ∃ c : Candidate, c.Scored a b ∧ tau ≤ c.score ∧ c.i = i) r.contestedA r.unmatchedA ∧
    SideSplit b (m.map Candidate.j)
      (fun j => ∃ c : Candidate, c.Scored a b ∧ tau ≤ c.score ∧ c.j = j) r.contestedB r.unmatchedB ∧
    (tau ≤ 1 → (b.map FunctionRow.tokenHashes).Perm (a.map FunctionRow.tokenHashes) →
      (∀ i < a.length, i ∈ m.map Candidate.i) ∧ ∀ j < b.length, j ∈ m.map Candidate.j) := by
  intro m r
  have hm : StableMatching a b tau m := stableMatching a b tau
  have htracks := assignment_tracks a b tau
  have hboundA : ∀ i ∈ m.map Candidate.i, i < a.length := by
    intro i hi
    obtain ⟨c, hc, rfl⟩ := List.mem_map.mp hi
    obtain ⟨fa, -, ha, -, -⟩ := (hm.scored c hc).1
    exact (List.getElem?_eq_some_iff.mp ha).1
  have hboundB : ∀ j ∈ m.map Candidate.j, j < b.length := by
    intro j hj
    obtain ⟨c, hc, rfl⟩ := List.mem_map.mp hj
    obtain ⟨-, fb, -, hb, -⟩ := (hm.scored c hc).1
    exact (List.getElem?_eq_some_iff.mp hb).1
  have hsubA : m.map Candidate.i ⊆ List.range a.length :=
    fun i hi => List.mem_range.mpr (hboundA i hi)
  have hsubB : m.map Candidate.j ⊆ List.range b.length :=
    fun j hj => List.mem_range.mpr (hboundB j hj)
  have hlenA : m.length ≤ a.length := by
    simpa using (List.subperm_of_subset hm.onceA hsubA).length_le
  have hlenB : m.length ≤ b.length := by
    simpa using (List.subperm_of_subset hm.onceB hsubB).length_le
  refine ⟨hm, rfl, le_min hlenA hlenB, ?_, ?_, fun htau hperm => ?_⟩
  · exact assigned_sideSplit Candidate.i hm hm.onceA htracks.a hboundA
  · exact assigned_sideSplit Candidate.j hm hm.onceB htracks.b hboundB
  · have hall := all_matched hm htau hperm
    have hlen : a.length = b.length := by
      simpa using hperm.length_eq.symm
    refine ⟨hall, fun j hj => ?_⟩
    -- as many pairs as rows, and no row twice
    have hle : a.length ≤ m.length := by
      simpa using (List.subperm_of_subset (List.nodup_range (n := a.length)) fun i hi =>
        hall i (List.mem_range.mp hi)).length_le
    have hfull := (List.subperm_of_subset hm.onceB hsubB).perm_of_length_le (by
      rw [List.length_range, List.length_map]
      omega)
    exact hfull.mem_iff.mpr (List.mem_range.mpr hj)

/-! ### Either side first -/

/-- The offsets of the rows are pairwise distinct. -/
def DistinctOffsets (rows : List FunctionRow) : Prop := (rows.map FunctionRow.offset).Nodup

instance (rows : List FunctionRow) : Decidable (DistinctOffsets rows) :=
  inferInstanceAs (Decidable (rows.map FunctionRow.offset).Nodup)

/-- Two pairs compete for a function. -/
def PairScore.Clash (p q : PairScore) : Prop := p.aOffset = q.aOffset ∨ p.bOffset = q.bOffset

/-- The pair, seen from the other side. -/
def PairScore.swap (p : PairScore) : PairScore := ⟨p.bOffset, p.aOffset, p.score⟩

@[simp] theorem PairScore.swap_swap (p : PairScore) : p.swap.swap = p := rfl

/-- Two rows make a pair that scores at least `tau`. -/
def Offered (a b : List FunctionRow) (tau : ℚ) (p : PairScore) : Prop :=
  ∃ fa ∈ a, ∃ fb ∈ b, p = ⟨fa.offset, fb.offset, jaccard fa.tokenHashes fb.tokenHashes⟩ ∧
    tau ≤ p.score

section Sides

variable {a b : List FunctionRow} {tau : ℚ}

theorem DistinctOffsets.inj {rows : List FunctionRow} (h : DistinctOffsets rows) {i j : ℕ}
    (hi : i < rows.length) (hj : j < rows.length) (heq : offsetAt rows i = offsetAt rows j) :
    i = j := by
  have hget : ∀ {k}, k < rows.length →
      (rows.map FunctionRow.offset)[k]? = some (offsetAt rows k) := by
    intro k hk
    rw [offsetAt, List.getElem?_map, List.getElem?_eq_getElem hk]
    rfl
  refine (List.getElem?_inj (by rwa [List.length_map]) h).mp ?_
  rw [hget hi, hget hj, heq]

theorem Candidate.Scored.lt {c : Candidate} (h : c.Scored a b) : c.i < a.length ∧ c.j < b.length := by
  obtain ⟨fa, fb, ha, hb, -⟩ := h
  exact ⟨(List.getElem?_eq_some_iff.mp ha).1, (List.getElem?_eq_some_iff.mp hb).1⟩

theorem mem_pairs {p : PairScore} :
    p ∈ (sortedCandidates a b tau).map (Candidate.pair a b) ↔ Offered a b tau p := by
  rw [List.mem_map]
  constructor
  · rintro ⟨c, hc, rfl⟩
    obtain ⟨⟨fa, fb, ha, hb, hs⟩, htau⟩ := mem_sortedCandidates.mp hc
    refine ⟨fa, List.mem_of_getElem? ha, fb, List.mem_of_getElem? hb, ?_, htau⟩
    rw [Candidate.pair, offsetAt, offsetAt, ha, hb, hs]
    rfl
  · rintro ⟨fa, ha, fb, hb, rfl, htau⟩
    obtain ⟨i, hi⟩ := List.mem_iff_getElem?.mp ha
    obtain ⟨j, hj⟩ := List.mem_iff_getElem?.mp hb
    refine ⟨⟨i, j, jaccard fa.tokenHashes fb.tokenHashes⟩,
      mem_sortedCandidates.mpr ⟨⟨fa, fb, hi, hj, rfl⟩, htau⟩, ?_⟩
    rw [Candidate.pair, offsetAt, offsetAt, hi, hj]
    rfl

/-- With distinct offsets, candidates compete when their pairs do. -/
theorem Candidate.Scored.clash_pair_iff {c d : Candidate} (ha : DistinctOffsets a)
    (hb : DistinctOffsets b) (hc : c.Scored a b) (hd : d.Scored a b) :
    (c.pair a b).Clash (d.pair a b) ↔ c.Clash d := by
  refine or_congr ⟨ha.inj hc.lt.1 hd.lt.1, fun h => ?_⟩ ⟨hb.inj hc.lt.2 hd.lt.2, fun h => ?_⟩
  · exact congrArg (offsetAt a) h
  · exact congrArg (offsetAt b) h

/-- With distinct offsets, the assigned pairs are the kernel of what is offered. -/
theorem pairs_kernel (ha : DistinctOffsets a) (hb : DistinctOffsets b) :
    Kernel PairScore.before PairScore.Clash
      ((sortedCandidates a b tau).map (Candidate.pair a b)) (assignedPairs a b tau) := by
  refine (assigned_kernel a b tau).map (fun c hc d hd => ?_) fun c hc d hd hne hle => ?_
  · exact (mem_sortedCandidates.mp hc).1.clash_pair_iff ha hb (mem_sortedCandidates.mp hd).1
  · have hsc := (mem_sortedCandidates.mp hc).1
    have hsd := (mem_sortedCandidates.mp hd).1
    refine (PairScore.le_iff.mp hle).resolve_right fun heq => hne ?_
    exact hsc.ext hsd (ha.inj hsc.lt.1 hsd.lt.1 (congrArg PairScore.aOffset heq))
      (hb.inj hsc.lt.2 hsd.lt.2 (congrArg PairScore.bOffset heq))

theorem offered_swap {p : PairScore} (h : Offered a b tau p) : Offered b a tau p.swap := by
  obtain ⟨fa, ha, fb, hb, rfl, htau⟩ := h
  refine ⟨fb, hb, fa, ha, ?_, htau⟩
  rw [PairScore.swap, jaccard_comm]

/-- Competing pairs are in the same order on either side. -/
theorem PairScore.before_of_swap {p q : PairScore} (hc : p.Clash q)
    (h : p.swap.before q.swap) : p.before q := by
  rcases h with h | ⟨hs, h⟩
  · exact .inl h
  · refine .inr ⟨hs, ?_⟩
    simp only [swap, Clash] at h hc
    omega

/-- **The other side first**: the same pairs, mirrored. -/
theorem mem_assignedPairs_swap (ha : DistinctOffsets a) (hb : DistinctOffsets b) (p : PairScore) :
    p ∈ assignedPairs b a tau ↔ p.swap ∈ assignedPairs a b tau := by
  have hmirror : Kernel (fun x y : PairScore => x.swap.before y.swap) PairScore.Clash
      (((sortedCandidates b a tau).map (Candidate.pair b a)).map PairScore.swap)
      ((assignedPairs b a tau).map PairScore.swap) :=
    (pairs_kernel hb ha).map (fun _ _ _ _ => or_comm) fun _ _ _ _ _ h => h
  have hkernel : Kernel PairScore.before PairScore.Clash
      ((sortedCandidates a b tau).map (Candidate.pair a b))
      ((assignedPairs b a tau).map PairScore.swap) := by
    refine hmirror.reorder (fun q => ?_) fun q _ r _ hc _ h => PairScore.before_of_swap hc h
    rw [mem_pairs, List.mem_map]
    constructor
    · rintro ⟨r, hr, rfl⟩
      exact offered_swap (mem_pairs.mp hr)
    · exact fun hq => ⟨q.swap, mem_pairs.mpr (offered_swap hq), rfl⟩
  rw [← hkernel.unique (pairs_kernel ha hb) p.swap, List.mem_map]
  constructor
  · exact fun hp => ⟨p, hp, rfl⟩
  · rintro ⟨q, hq, heq⟩
    rwa [← PairScore.swap_swap p, ← heq, PairScore.swap_swap]

/-- The order of the rows does not matter. -/
theorem mem_assignedPairs_perm {a' b' : List FunctionRow} (ha : DistinctOffsets a)
    (hb : DistinctOffsets b) (hpa : a'.Perm a) (hpb : b'.Perm b) (p : PairScore) :
    p ∈ assignedPairs a' b' tau ↔ p ∈ assignedPairs a b tau := by
  have ha' : DistinctOffsets a' := ((hpa.map FunctionRow.offset).nodup_iff).mpr ha
  have hb' : DistinctOffsets b' := ((hpb.map FunctionRow.offset).nodup_iff).mpr hb
  have hkernel : Kernel PairScore.before PairScore.Clash
      ((sortedCandidates a b tau).map (Candidate.pair a b)) (assignedPairs a' b' tau) := by
    refine (pairs_kernel ha' hb').reorder (fun q => ?_) fun _ _ _ _ _ _ h => h
    rw [mem_pairs, mem_pairs]
    simp only [Offered, hpa.mem_iff, hpb.mem_iff]
  exact hkernel.unique (pairs_kernel ha hb) p

/-! ### The reports of both sides -/

theorem rowsWhere_congr {rows : List FunctionRow} {q q' : ℕ → Bool}
    (h : ∀ i < rows.length, q i = q' i) : rowsWhere rows q = rowsWhere rows q' := by
  rw [rowsWhere_eq, rowsWhere_eq]
  exact congrArg _ (List.filter_congr fun i hi => h i (List.mem_range.mp hi))

theorem Candidate.Scored.swap {i j : ℕ} {s : ℚ} (h : Candidate.Scored a b ⟨i, j, s⟩) :
    Candidate.Scored b a ⟨j, i, s⟩ := by
  obtain ⟨fa, fb, ha, hb, hs⟩ := h
  exact ⟨fb, fa, hb, ha, hs.trans (jaccard_comm _ _)⟩

/-- A row has a candidate as the first side exactly when it has one as the second. -/
theorem had_swap (a b : List FunctionRow) (tau : ℚ) (i : ℕ) :
    ((candidates b a tau).any fun c => c.i = i) = (candidates a b tau).any fun c => c.j = i := by
  rw [Bool.eq_iff_iff, any_candidate_iff, any_candidate_iff]
  constructor
  · rintro ⟨c, hc, htau, rfl⟩
    exact ⟨⟨c.j, c.i, c.score⟩, hc.swap, htau, rfl⟩
  · rintro ⟨c, hc, htau, rfl⟩
    exact ⟨⟨c.j, c.i, c.score⟩, hc.swap, htau, rfl⟩

/-- A row is assigned as the first side exactly when it is as the second. -/
theorem used_swap (ha : DistinctOffsets a) (hb : DistinctOffsets b) {i : ℕ} (hi : i < b.length) :
    (assignment b a tau).usedA i = (assignment a b tau).usedB i := by
  rw [Bool.eq_iff_iff, (assignment_tracks b a tau).a, (assignment_tracks a b tau).b]
  constructor
  · rintro ⟨c, hc, rfl⟩
    obtain ⟨d, hd, heq⟩ := List.mem_map.mp
      ((mem_assignedPairs_swap ha hb _).mp (List.mem_map_of_mem hc))
    have hlt := ((stableMatching a b tau).scored d hd).1.lt.2
    exact ⟨d, hd, hb.inj hlt hi (congrArg PairScore.bOffset heq)⟩
  · rintro ⟨d, hd, rfl⟩
    obtain ⟨c, hc, heq⟩ := List.mem_map.mp
      ((mem_assignedPairs_swap hb ha _).mp (List.mem_map_of_mem hd))
    have hlt := ((stableMatching b a tau).scored c hc).1.lt.1
    exact ⟨c, hc, hb.inj hlt hi (congrArg PairScore.aOffset heq)⟩

theorem assignedPairs_nodup (ha : DistinctOffsets a) : (assignedPairs a b tau).Nodup := by
  have hm := stableMatching a b tau
  refine (List.nodup_map_iff_inj_on ?_).mpr fun c hc d hd heq => ?_
  · exact hm.onceA.of_map _
  · have hi := ha.inj (hm.scored c hc).1.lt.1 (hm.scored d hd).1.lt.1
      (congrArg PairScore.aOffset heq)
    exact List.inj_on_of_nodup_map hm.onceA hc hd hi

theorem length_assigned_swap (ha : DistinctOffsets a) (hb : DistinctOffsets b) :
    (assignment b a tau).assigned.length = (assignment a b tau).assigned.length := by
  have hperm : ((assignedPairs b a tau).map PairScore.swap).Perm (assignedPairs a b tau) := by
    refine (List.perm_ext_iff_of_nodup ((assignedPairs_nodup hb).map ?_)
      (assignedPairs_nodup ha)).mpr fun p => ?_
    · exact Function.LeftInverse.injective PairScore.swap_swap
    · rw [mem_assignedPairs_swap hb ha, List.mem_map]
      constructor
      · rintro ⟨q, hq, rfl⟩
        exact hq
      · exact fun hp => ⟨p.swap, hp, rfl⟩
  simpa [assignedPairs] using hperm.length_eq

end Sides

/-- **Symmetric and independent of presentation**: swapping the sides mirrors the assigned
pairs and swaps the members of the report, and permuting rows changes no assigned pair. -/
theorem coverageWithTau_symm {a b : List FunctionRow} (tau : ℚ) (ha : DistinctOffsets a)
    (hb : DistinctOffsets b) :
    let r := coverageWithTau a b tau
    let r' := coverageWithTau b a tau
    (∀ p, p ∈ assignedPairs b a tau ↔ p.swap ∈ assignedPairs a b tau) ∧
    (r'.matchedPairs = r.matchedPairs ∧ r'.aToB = r.bToA ∧ r'.bToA = r.aToB) ∧
    (r'.contestedA = r.contestedB ∧ r'.contestedB = r.contestedA) ∧
    (r'.unmatchedA = r.unmatchedB ∧ r'.unmatchedB = r.unmatchedA) ∧
    ∀ a' b' : List FunctionRow, a'.Perm a → b'.Perm b →
      ∀ p, p ∈ assignedPairs a' b' tau ↔ p ∈ assignedPairs a b tau := by
  have hlen : (assignment b a tau).assigned.length = (assignment a b tau).assigned.length :=
    length_assigned_swap ha hb
  refine ⟨mem_assignedPairs_swap ha hb, ⟨hlen, ?_, ?_⟩, ⟨?_, ?_⟩, ⟨?_, ?_⟩,
    fun a' b' hpa hpb => mem_assignedPairs_perm ha hb hpa hpb⟩
  · simp only [coverageWithTau, hlen]
  · simp only [coverageWithTau, hlen]
  · simp only [coverageWithTau]
    refine rowsWhere_congr fun i hi => ?_
    rw [had_swap, used_swap ha hb hi]
  · simp only [coverageWithTau]
    refine rowsWhere_congr fun i hi => ?_
    rw [← had_swap, used_swap hb ha hi]
  · exact rowsWhere_congr fun i _ => congrArg Bool.not (had_swap a b tau i)
  · exact rowsWhere_congr fun i _ => congrArg Bool.not (had_swap b a tau i).symm

/-- A function with some tokens. -/
def rowAt (offset : ℕ) (tokens : List UInt64) : FunctionRow := ⟨offset, 1, none, 1, tokens⟩

/-- Three equal functions on one side and two on the other: all pairs tie. -/
theorem coverageWithTau_symm_ties :
    let a := [rowAt 0 [1, 2], rowAt 64 [1, 2], rowAt 128 [1, 2]]
    let b := [rowAt 256 [1, 2], rowAt 192 [1, 2]]
    DistinctOffsets a ∧ DistinctOffsets b ∧
      ∀ p, p ∈ assignedPairs b a 1 ↔ p.swap ∈ assignedPairs a b 1 := by
  refine ⟨by decide, by decide, ?_⟩
  exact (coverageWithTau_symm 1 (by decide) (by decide)).1

end Corpus
