/-
Token sets (`jaccard` and `features_for` of `semantic/features.rs`).

The loop of `jaccard` walks two strictly increasing lists at once and counts what it meets in
both.

* `Merge.loop_spec` — where the loop ends, and what it has counted;
* `inter_eq_card` — of strictly increasing lists that is the number of common elements;
* `tokenHashes_sorted` — `features_for` makes such lists;
* `jaccard_exact` — the result is the share of the common elements in all elements.
-/
import Corpus.SortOrders
import Corpus.StoredFunctions
import Mathlib.Data.Finset.Card

namespace Corpus

/-! ### The loop -/

/-- The variables of the loop of `jaccard`. -/
structure Merge where
  i : ℕ
  j : ℕ
  inter : ℕ

namespace Merge

/-- One turn of the loop, unless it is over. -/
def step (a b : List UInt64) (s : Merge) : Option Merge :=
  match a[s.i]?, b[s.j]? with
  | some x, some y =>
    if x < y then some { s with i := s.i + 1 }
    else if y < x then some { s with j := s.j + 1 }
    else some ⟨s.i + 1, s.j + 1, s.inter + 1⟩
  | _, _ => none

/-- So many turns of the loop. -/
def loop (a b : List UInt64) : ℕ → Merge → Merge
  | 0, s => s
  | n + 1, s =>
    match s.step a b with
    | none => s
    | some s' => loop a b n s'

/-- What has been counted, and what is still to be. -/
def total (a b : List UInt64) (s : Merge) : ℕ := s.inter + Corpus.inter (a.drop s.i) (b.drop s.j)

/-- How much is left of the lists. -/
def left (a b : List UInt64) (s : Merge) : ℕ := (a.length - s.i) + (b.length - s.j)

variable {a b : List UInt64} {s s' : Merge}

theorem step_none (h : s.step a b = none) : s.total a b = s.inter := by
  unfold step at h
  split at h
  · split_ifs at h
  · next hend =>
    -- One of the lists is used up.
    have hnil : a.drop s.i = [] ∨ b.drop s.j = [] := by
      rw [List.drop_eq_nil_iff, List.drop_eq_nil_iff]
      by_contra hboth
      rw [not_or, Nat.not_le, Nat.not_le] at hboth
      exact hend a[s.i] b[s.j] (List.getElem?_eq_getElem hboth.1) (List.getElem?_eq_getElem hboth.2)
    obtain hnil | hnil := hnil
    · simp [total, hnil]
    · simp [total, hnil]

/-- A turn keeps the sum and uses up an element at least. -/
theorem step_some (h : s.step a b = some s') :
    s'.total a b = s.total a b ∧ s'.left a b < s.left a b := by
  unfold step at h
  split at h
  · next x y hx hy =>
    obtain ⟨hi, rfl⟩ := List.getElem?_eq_some_iff.mp hx
    obtain ⟨hj, rfl⟩ := List.getElem?_eq_some_iff.mp hy
    have htotal : s.total a b =
        s.inter + Corpus.inter (a[s.i] :: a.drop (s.i + 1)) (b[s.j] :: b.drop (s.j + 1)) := by
      rw [total, List.drop_eq_getElem_cons hi, List.drop_eq_getElem_cons hj]
    rw [htotal, inter_cons]
    split_ifs at h with hlt hgt
    · obtain rfl := Option.some.inj h
      simp only [total, left, if_pos hlt, ← List.drop_eq_getElem_cons hj, true_and]
      omega
    · obtain rfl := Option.some.inj h
      simp only [total, left, if_neg hlt, if_pos hgt, ← List.drop_eq_getElem_cons hi, true_and]
      omega
    · obtain rfl := Option.some.inj h
      simp only [total, left, if_neg hlt, if_neg hgt]
      omega
  · exact absurd h (by simp)

/-- The loop ends, and has counted all. -/
theorem loop_spec (n : ℕ) : ∀ {s : Merge}, s.left a b ≤ n →
    (loop a b n s).step a b = none ∧ (loop a b n s).inter = s.total a b := by
  induction n with
  | zero =>
    intro s hleft
    have hstep : s.step a b = none := by
      cases hs : s.step a b with
      | none => rfl
      | some s' =>
        have hlt := (step_some hs).2
        omega
    exact ⟨hstep, (step_none hstep).symm⟩
  | succ n ih =>
    intro s hleft
    unfold loop
    split
    · next hs => exact ⟨hs, (step_none hs).symm⟩
    · next s' hs =>
      obtain ⟨htotal, hlt⟩ := step_some hs
      rw [← htotal]
      exact ih (by omega)

end Merge

/-- The variables of `jaccard` behind its loop. -/
def merged (a b : List UInt64) : Merge := Merge.loop a b (a.length + b.length) ⟨0, 0, 0⟩

/-- `jaccard`, with its loop as it is written. -/
def jaccardLoop (a b : List UInt64) : ℚ :=
  if a = [] ∧ b = [] then 1
  else
    let union := a.length + b.length - (merged a b).inter
    if union = 0 then 1 else (merged a b).inter / (union : ℚ)

theorem merged_spec (a b : List UInt64) :
    (merged a b).step a b = none ∧ (merged a b).inter = inter a b := by
  have hleft : Merge.left a b ⟨0, 0, 0⟩ ≤ a.length + b.length := by simp [Merge.left]
  have htotal : Merge.total a b ⟨0, 0, 0⟩ = inter a b := by simp [Merge.total]
  have h := Merge.loop_spec (a.length + b.length) hleft
  exact ⟨h.1, h.2.trans htotal⟩

theorem jaccardLoop_eq (a b : List UInt64) : jaccardLoop a b = jaccard a b := by
  simp only [jaccardLoop, jaccard, (merged_spec a b).2]

/-! ### Common elements -/

section Card

variable {a b : List UInt64}

/-- An element below all others is not among them. -/
theorem notMem_of_lt {x y : UInt64} {ys : List UInt64} (hxy : x < y)
    (hys : (y :: ys).Pairwise (· < ·)) : x ∉ (y :: ys).toFinset := by
  rw [List.mem_toFinset, List.mem_cons, not_or]
  refine ⟨UInt64.ne_of_lt hxy, fun hx => ?_⟩
  have hyx := (List.pairwise_cons.mp hys).1 x hx
  exact UInt64.lt_irrefl x (UInt64.lt_trans hxy hyx)

theorem inter_eq_card : ∀ {a b : List UInt64}, a.Pairwise (· < ·) → b.Pairwise (· < ·) →
    inter a b = (a.toFinset ∩ b.toFinset).card := by
  intro a
  induction a with
  | nil => simp
  | cons x xs ihx =>
    intro b ha hb
    induction b with
    | nil => simp
    | cons y ys ihy =>
      have hxs := (List.pairwise_cons.mp ha).2
      have hys := (List.pairwise_cons.mp hb).2
      rw [inter_cons]
      by_cases hxy : x < y
      · -- The smaller element is in one list only.
        rw [if_pos hxy, ihx hxs hb, List.toFinset_cons (a := x),
          Finset.insert_inter_of_notMem (notMem_of_lt hxy hb)]
      · by_cases hyx : y < x
        · rw [if_neg hxy, if_pos hyx, ihy hys, List.toFinset_cons (a := y),
            Finset.inter_insert_of_notMem (notMem_of_lt hyx ha)]
        · obtain rfl : x = y := UInt64.le_antisymm (UInt64.not_lt.mp hyx) (UInt64.not_lt.mp hxy)
          have hx : x ∉ xs.toFinset ∩ ys.toFinset := by
            intro hmem
            have hin := List.mem_toFinset.mp (Finset.mem_inter.mp hmem).1
            exact UInt64.lt_irrefl x ((List.pairwise_cons.mp ha).1 x hin)
          rw [if_neg hxy, if_neg hyx, ihx hxs hys, List.toFinset_cons, List.toFinset_cons,
            ← Finset.insert_inter_distrib, Finset.card_insert_of_notMem hx]

theorem card_toFinset (ha : a.Pairwise (· < ·)) : a.toFinset.card = a.length :=
  List.toFinset_card_of_nodup (ha.imp fun h => UInt64.ne_of_lt h)

/-- The value of `union`. -/
theorem card_union (ha : a.Pairwise (· < ·)) (hb : b.Pairwise (· < ·)) :
    (a.toFinset ∪ b.toFinset).card = a.length + b.length - inter a b := by
  have hsum := Finset.card_union_add_card_inter a.toFinset b.toFinset
  rw [card_toFinset ha, card_toFinset hb, ← inter_eq_card ha hb] at hsum
  omega

end Card

/-! ### Token hashes -/

/-- The token hashes of `features_for`: of each token, the first eight bytes of its digest. -/
def tokenHashes (sha256 : Bytes → Bytes) (tokens : List String) : List UInt64 :=
  ((tokens.map fun t => UInt64.ofNat (fromLe ((sha256 t.toUTF8.data.toList).take 8))).insertionSort
    (· ≤ ·)).destutter (· ≠ ·)

theorem tokenHashes_sorted (sha256 : Bytes → Bytes) (tokens : List String) :
    (tokenHashes sha256 tokens).Pairwise (· < ·) :=
  sort_destutter_sorted _

/-! ### The result -/

/-- The share of the common elements; of two empty sets it is one. -/
def share (A B : Finset UInt64) : ℚ :=
  if A ∪ B = ∅ then 1 else (A ∩ B).card / (A ∪ B).card

section Share

variable {a b : List UInt64}

theorem jaccard_eq_share (ha : a.Pairwise (· < ·)) (hb : b.Pairwise (· < ·)) :
    jaccard a b = share a.toFinset b.toFinset := by
  have hcard := card_union ha hb
  unfold jaccard share
  by_cases hempty : a = [] ∧ b = []
  · rw [if_pos hempty, hempty.1, hempty.2, if_pos (by simp)]
  · have hunion : a.toFinset ∪ b.toFinset ≠ ∅ := by
      rw [Ne, Finset.union_eq_empty, List.toFinset_eq_empty_iff, List.toFinset_eq_empty_iff]
      exact hempty
    have hpos : a.length + b.length - inter a b ≠ 0 := by
      rw [← hcard]
      exact fun h => hunion (Finset.card_eq_zero.mp h)
    rw [if_neg hempty, if_neg hpos, if_neg hunion, hcard, inter_eq_card ha hb]

theorem share_bounds (A B : Finset UInt64) : 0 ≤ share A B ∧ share A B ≤ 1 := by
  unfold share
  split
  · exact ⟨zero_le_one, le_refl 1⟩
  · refine ⟨div_nonneg (Nat.cast_nonneg _) (Nat.cast_nonneg _), ?_⟩
    have hsub : A ∩ B ⊆ A ∪ B := Finset.inter_subset_left.trans Finset.subset_union_left
    exact div_le_one_of_le₀ (Nat.cast_le.mpr (Finset.card_le_card hsub)) (Nat.cast_nonneg _)

end Share

/-- Of strictly increasing lists, the result is the share of the common elements; such are the
lists of `features_for`, and those that `load_functions` restores. -/
theorem jaccard_exact :
    (∀ a b : List UInt64, a.Pairwise (· < ·) → b.Pairwise (· < ·) →
      (merged a b).step a b = none ∧
      (merged a b).inter = (a.toFinset ∩ b.toFinset).card ∧
      (merged a b).inter ≤ a.length + b.length ∧
      jaccardLoop a b = share a.toFinset b.toFinset ∧
      jaccardLoop a b = jaccardLoop b a ∧ 0 ≤ jaccardLoop a b ∧ jaccardLoop a b ≤ 1 ∧
      (jaccardLoop a b = 1 ↔ a = b)) ∧
    ∀ sha256 tokens, (tokenHashes sha256 tokens).Pairwise (· < ·) ∧
      unpackHashes (packHashes (tokenHashes sha256 tokens)) = tokenHashes sha256 tokens := by
  refine ⟨fun a b ha hb => ?_, fun sha256 tokens =>
    ⟨tokenHashes_sorted sha256 tokens, unpackHashes_packHashes _⟩⟩
  obtain ⟨hover, hinter⟩ := merged_spec a b
  have hle := inter_le_left a b
  have hbounds := share_bounds a.toFinset b.toFinset
  rw [← jaccard_eq_share ha hb] at hbounds
  rw [hinter, jaccardLoop_eq, jaccardLoop_eq]
  refine ⟨hover, inter_eq_card ha hb, by omega, jaccard_eq_share ha hb, jaccard_comm a b,
    hbounds.1, hbounds.2, fun hone => eq_of_one_le_jaccard hone.ge, ?_⟩
  rintro rfl
  exact jaccard_self a

/-- Three tokens and two, one of them common. -/
theorem jaccard_exact_one_common : jaccardLoop [1, 4, 9] [4, 7] = 1 / 4 := by
  have h := (jaccard_exact.1 [1, 4, 9] [4, 7] (by decide) (by decide)).2.2.2.1
  rw [h]
  decide +kernel

end Corpus
