/-
The distance of two strings as `levenshtein` computes it (`similarity/fuzzy.rs`).

Two rows are written in place and swapped after each character, so the last row is the one that
is current after the last swap.  The score keeps the distance within bounds, and its cap is a
product of `i32`.

* `levenshteinLoop_eq` — the loops compute the edit distance;
* `returns_score_iff` — the score is from 0 to 100 unless the cap leaves its type;
* `levenshtein_is_distance` — the distance, and the scores of digests.
-/
import Corpus.FuzzyWords

namespace Corpus.Fuzzy

open EditDistance

/-! ### Two rows -/

/-- The inner loop at `j`: it writes `v1[j + 1]`. -/
def setCell (sc : UInt8) (t : Bytes) (v0 v1 : List ℕ) (j : ℕ) : List ℕ :=
  let cost := if sc = t.getD j 0 then 0 else 1
  v1.set (j + 1) (min (min (v1.getD j 0 + 1) (v0.getD (j + 1) 0 + 1)) (v0.getD j 0 + cost))

/-- The outer loop at a character and its index: `v0` and `v1` behind the swap. -/
def swapRows (t : Bytes) (v : List ℕ × List ℕ) (c : UInt8 × ℕ) : List ℕ × List ℕ :=
  ((List.range t.length).foldl (setCell c.1 t v.1) (v.2.set 0 (c.2 + 1)), v.1)

/-- `levenshtein`, with its loops as they are written. -/
def levenshteinLoop (s t : Bytes) : ℕ :=
  if s = t then 0
  else if s = [] then t.length
  else if t = [] then s.length
  else
    let v0 := List.range (t.length + 1)
    let v1 := List.replicate (t.length + 1) 0
    (s.zipIdx.foldl (swapRows t) (v0, v1)).1.getD t.length 0

/-- The row holds the distances of `pre` to the first `n` prefixes, and has room for all. -/
structure IsRow (pre t : Bytes) (n : ℕ) (v : List ℕ) : Prop where
  length : v.length = t.length + 1
  cell : ∀ k ≤ n, v.getD k 0 = ofPrefixes pre (t.take k)

section Rows

variable {pre t : Bytes} {c : UInt8} {v0 v1 : List ℕ}

theorem getD_set (v : List ℕ) (j k x : ℕ) (hj : j < v.length) :
    (v.set j x).getD k 0 = if k = j then x else v.getD k 0 := by
  simp only [List.getD_eq_getElem?_getD, List.getElem?_set]
  by_cases hk : k = j
  · simp [hk, hj]
  · rw [if_neg (fun h => hk h.symm), if_neg hk]

/-- The cell is the least of what the three cells beside it allow. -/
theorem IsRow.setCell {j : ℕ} (h0 : IsRow pre t t.length v0) (h1 : IsRow (pre ++ [c]) t j v1)
    (hj : j < t.length) : IsRow (pre ++ [c]) t (j + 1) (setCell c t v0 v1 j) := by
  have hlen := h1.length
  have hprefix : t.take (j + 1) = t.take j ++ [t.getD j 0] := by
    rw [List.take_succ_eq_append_getElem hj, List.getD_eq_getElem _ _ hj]
  refine ⟨by simp [Fuzzy.setCell, hlen], fun k hk => ?_⟩
  unfold Fuzzy.setCell
  rw [getD_set _ _ _ _ (by omega)]
  by_cases hlast : k = j + 1
  · rw [if_pos hlast, hlast, h1.cell j (Nat.le_refl j), h0.cell (j + 1) (by omega),
      h0.cell j (by omega), hprefix, ofPrefixes_snoc]
    omega
  · rw [if_neg hlast]
    exact h1.cell k (by omega)

/-- The inner loop fills the row from left to right. -/
theorem IsRow.inner (h0 : IsRow pre t t.length v0) (h1 : IsRow (pre ++ [c]) t 0 v1) (n : ℕ)
    (hn : n ≤ t.length) :
    IsRow (pre ++ [c]) t n ((List.range n).foldl (Fuzzy.setCell c t v0) v1) := by
  induction n with
  | zero => exact h1
  | succ n ih =>
    rw [List.range_succ, List.foldl_append]
    exact h0.setCell (ih (by omega)) (by omega)

/-- The outer loop: the current row is that of the characters so far, the other one has room. -/
theorem IsRow.outer (s : Bytes) : ∀ {pre : Bytes} {v0 v1 : List ℕ}, IsRow pre t t.length v0 →
    v1.length = t.length + 1 →
      IsRow (pre ++ s) t t.length ((s.zipIdx pre.length).foldl (swapRows t) (v0, v1)).1 := by
  induction s with
  | nil =>
    intro pre v0 v1 h0 _
    simpa using h0
  | cons c s ih =>
    intro pre v0 v1 h0 h1
    have hfirst : IsRow (pre ++ [c]) t 0 (v1.set 0 (pre.length + 1)) := by
      refine ⟨by simp [h1], fun k hk => ?_⟩
      obtain rfl : k = 0 := by omega
      rw [getD_set _ _ _ _ (by omega), if_pos rfl, List.take_zero, ofPrefixes_nil_right]
      simp
    have hrow := h0.inner hfirst t.length (Nat.le_refl _)
    have hrest := ih hrow h0.length
    rw [List.length_append, List.length_singleton, List.append_assoc] at hrest
    rw [List.zipIdx_cons, List.foldl_cons]
    exact hrest

end Rows

/-- The loops compute the edit distance. -/
theorem levenshteinLoop_eq (s t : Bytes) : levenshteinLoop s t = levenshtein s t := by
  have hstart : IsRow [] t t.length (List.range (t.length + 1)) := by
    refine ⟨List.length_range, fun k hk => ?_⟩
    have hk' : k < (List.range (t.length + 1)).length := by
      rw [List.length_range]
      omega
    rw [List.getD_eq_getElem _ _ hk', List.getElem_range, ofPrefixes_nil_left, List.length_take]
    omega
  have hroom : (List.replicate (t.length + 1) 0).length = t.length + 1 := List.length_replicate
  have hend := IsRow.outer s hstart hroom
  have hcell := hend.cell t.length (Nat.le_refl _)
  rw [List.take_length, List.nil_append, ← levenshtein_eq] at hcell
  unfold levenshteinLoop
  split_ifs with heq hs ht
  · rw [levenshtein_eq, heq, ofPrefixes_self]
  · rw [levenshtein_eq, hs, ofPrefixes_nil_left]
  · rw [levenshtein_eq, ht, ofPrefixes_nil_right]
  · exact hcell

/-! ### The score -/

open Words (asI32 bodyLimit)

/-- The product of a number of blocks and a length is an `i32` that is not negative. -/
def CapFits (m : Arith) (blocks length : ℕ) : Prop :=
  match m with
  | .checked => 0 ≤ blocks * asI32 length ∧ blocks * asI32 length < 2 ^ 31
  | .wrapping => blocks * length % 2 ^ 32 < 2 ^ 31

section Score

variable {m : Arith} {s t : Bytes}

theorem signed_wrapping (r : ℤ) : Arith.wrapping.signed 32 r = .ok (r.bmod (2 ^ 32)) := by
  unfold Arith.signed
  split
  · next h =>
    have hsmall : r.bmod (2 ^ 32) = r := Int.bmod_eq_of_le (by omega) (by omega)
    rw [hsmall]
  · rfl

theorem returns_signed_checked (r : ℤ) :
    (Arith.checked.signed 32 r).Returns (0 ≤ ·) ↔ 0 ≤ r ∧ r < 2 ^ 31 := by
  constructor
  · rintro ⟨cap, hcap, hpos⟩
    unfold Arith.signed at hcap
    split at hcap
    · next h =>
      obtain rfl := Except.ok.inj hcap
      exact ⟨hpos, h.2⟩
    · cases hcap
  · rintro ⟨hlo, hhi⟩
    rw [Arith.signed_of_mem (by omega) hhi]
    exact Checked.returns_ok hlo

theorem returns_signed_wrapping (r : ℤ) :
    (Arith.wrapping.signed 32 r).Returns (0 ≤ ·) ↔ 0 ≤ r.bmod (2 ^ 32) := by
  rw [signed_wrapping]
  refine ⟨?_, Checked.returns_ok⟩
  rintro ⟨cap, hcap, hpos⟩
  obtain rfl := Except.ok.inj hcap
  exact hpos

theorem bmod_nonneg_iff (n : ℕ) : 0 ≤ (n : ℤ).bmod (2 ^ 32) ↔ n % 2 ^ 32 < 2 ^ 31 := by
  rw [Int.bmod_def]
  split
  · omega
  · omega

/-- The cast and the product are taken modulo the same power. -/
theorem mul_bmod_cast (blocks length n : ℕ) :
    ((blocks : ℤ) * (length : ℤ).bmod n).bmod n = ((blocks * length : ℕ) : ℤ).bmod n := by
  rw [Int.mul_bmod_bmod, Int.natCast_mul]

/-- The cap is computed, and not negative. -/
theorem returns_cap_iff {blocks : ℕ} (hblocks : blocks < 2 ^ 31) (length : ℕ) :
    (m.signed 32 (asI32 blocks * asI32 length)).Returns (0 ≤ ·) ↔ CapFits m blocks length := by
  rw [Words.asI32_of_lt hblocks]
  cases m with
  | checked =>
    dsimp only [CapFits]
    exact returns_signed_checked (blocks * asI32 length)
  | wrapping =>
    rw [returns_signed_wrapping]
    unfold asI32
    rw [mul_bmod_cast]
    exact bmod_nonneg_iff _

/-- The score of two strings is computed up to its cap. -/
theorem scoreStrings_cap (h : s.length + t.length < 2 ^ 57) (hcommon : commonSubstring s t = true)
    (blockSize : ℕ) : ∃ score : ℤ, 0 ≤ score ∧ score ≤ 100 ∧
      Words.scoreStrings m s t blockSize = (do
        let cap ← m.signed 32 (asI32 (blockSize / blocksizeMin) * asI32 (min s.length t.length))
        return if score > cap then cap else score) := by
  have hlev := levenshtein_le s t
  have hscaled := scaled_le s t
  obtain ⟨hpos, -⟩ := length_pos_of_commonSubstring hcommon
  unfold spamsumLength at hscaled
  rw [Words.scoreStrings, Words.commonSubstring_returns (by omega) (by omega), Checked.ok_bind,
    if_pos hcommon, Words.levenshtein_returns (by omega), Checked.ok_bind,
    Arith.mul_of_lt (by unfold spamsumLength; omega), Checked.ok_bind,
    Arith.add_of_lt (by omega), Checked.ok_bind, Arith.div_of_pos (by omega), Checked.ok_bind]
  dsimp only [spamsumLength]
  generalize levenshtein s t * 64 / (s.length + t.length) = x at hscaled
  have hpercent : 100 * x / 64 ≤ 100 := by omega
  rw [Arith.mul_of_lt (by omega), Checked.ok_bind, Words.asI32_of_lt (by omega),
    Arith.signed_of_mem (by omega) (by omega), Checked.ok_bind]
  exact ⟨100 - (100 * x / 64 : ℕ), by omega, by omega, rfl⟩

/-- The score is from 0 to 100 when there is no common substring, or the cap fits its type. -/
theorem returns_score_iff (h : s.length + t.length < 2 ^ 57) {blockSize : ℕ}
    (hsize : blockSize < 2 ^ 32) :
    (Words.scoreStrings m s t blockSize).Returns (fun score => 0 ≤ score ∧ score ≤ 100) ↔
      (commonSubstring s t = true →
        CapFits m (blockSize / blocksizeMin) (min s.length t.length)) := by
  have hblocks : blockSize / blocksizeMin < 2 ^ 31 := by
    unfold blocksizeMin
    omega
  rw [← returns_cap_iff hblocks]
  by_cases hcommon : commonSubstring s t = true
  · obtain ⟨score, hlo, hhi, hrun⟩ := scoreStrings_cap (m := m) h hcommon blockSize
    rw [hrun, imp_iff_right hcommon]
    -- The score before the cap is in its bounds, so only the cap can leave them.
    generalize m.signed 32 _ = cap
    cases cap with
    | error e => exact iff_of_false (fun ⟨_, h, _⟩ => by cases h) fun ⟨_, h, _⟩ => by cases h
    | ok cap =>
      rw [Checked.ok_bind]
      constructor
      · rintro ⟨result, hresult, hpos, -⟩
        have heq := Except.ok.inj hresult
        refine Checked.returns_ok ?_
        split_ifs at heq <;> omega
      · rintro ⟨cap', hcap, hpos⟩
        obtain rfl := Except.ok.inj hcap
        refine Checked.returns_ok ?_
        split_ifs <;> omega
  · rw [Words.scoreStrings, Words.commonSubstring_returns (by omega) (by omega), Checked.ok_bind,
      if_neg hcommon]
    exact iff_of_true (Checked.returns_ok ⟨le_refl 0, by omega⟩) fun h => absurd h hcommon

/-- A cap of a block size and a length that digests have fits in either build. -/
theorem capFits_of_le {blocks length : ℕ} (hblocks : blocks ≤ 2 ^ 23) (hlength : length ≤ 64) :
    CapFits m blocks length := by
  have hproduct : blocks * length ≤ 2 ^ 23 * 64 := Nat.mul_le_mul hblocks hlength
  cases m with
  | checked =>
    dsimp only [CapFits]
    rw [Words.asI32_of_lt (by omega), ← Int.natCast_mul]
    omega
  | wrapping =>
    dsimp only [CapFits]
    omega

end Score

/-- A call of `score_strings` that `compare` makes for two digests. -/
inductive Scored (d1 d2 : ℕ × Bytes × Bytes) : Bytes → Bytes → ℕ → Prop
  | first : d1.1 = d2.1 → Scored d1 d2 (stripSequences d1.2.1) (stripSequences d2.2.1) d1.1
  | second : d1.1 = d2.1 → Scored d1 d2 (stripSequences d1.2.2) (stripSequences d2.2.2) (d2.1 * 2)
  | larger : d1.1 = d2.1 * 2 → Scored d1 d2 (stripSequences d1.2.1) (stripSequences d2.2.2) d1.1
  | smaller : d2.1 = d1.1 * 2 → Scored d1 d2 (stripSequences d1.2.2) (stripSequences d2.2.1) d2.1

/-- What is scored of digests within their bounds is short, and its block size is small. -/
theorem Scored.small {d1 d2 : ℕ × Bytes × Bytes} {s t : Bytes} {blockSize : ℕ}
    (h : Scored d1 d2 s t blockSize) (h1 : Words.Small d1) (h2 : Words.Small d2) :
    s.length ≤ 64 ∧ t.length ≤ 64 ∧ blockSize ≤ 3 * 2 ^ 23 := by
  obtain ⟨hsize1, ha1, hb1⟩ := h1
  obtain ⟨hsize2, ha2, hb2⟩ := h2
  have hstrip {b : Bytes} (hb : b.length ≤ spamsumLength) : (stripSequences b).length ≤ 64 :=
    (Words.length_stripSequences_le b).trans hb
  cases h with
  | first => exact ⟨hstrip ha1, hstrip ha2, by omega⟩
  | second => exact ⟨hstrip hb1, hstrip hb2, by omega⟩
  | larger => exact ⟨hstrip ha1, hstrip hb2, by omega⟩
  | smaller => exact ⟨hstrip hb1, hstrip ha2, by omega⟩

/-! ### The distance and the score -/

/-- **The loops compute the least number of insertions, deletions and substitutions**, a distance
of at most the longer length, with no overflow of a word; and what is scored of the digests of two
files has a score from 0 to 100. -/
theorem levenshtein_is_distance (m : Arith) :
    (∀ s t : Bytes, IsLeast {n | Edits n s t} (levenshteinLoop s t) ∧
      levenshteinLoop s t = levenshteinLoop t s ∧
      (∀ u, levenshteinLoop s u ≤ levenshteinLoop s t + levenshteinLoop t u) ∧
      levenshteinLoop s t ≤ max s.length t.length) ∧
    (∀ s t : Bytes, t.length + s.length + 2 < 2 ^ 64 →
      Words.levenshtein m s t = .ok (levenshteinLoop s t)) ∧
    ∀ x y : Bytes, x.length ≤ bodyLimit → y.length ≤ bodyLimit →
      ∃ d1 d2, parseDigest (fuzzyHash x) = some d1 ∧ parseDigest (fuzzyHash y) = some d2 ∧
        ∀ {s t blockSize}, Scored d1 d2 s t blockSize →
          (Words.scoreStrings m s t blockSize).Returns fun score => 0 ≤ score ∧ score ≤ 100 := by
  refine ⟨fun s t => ?_, fun s t h => ?_, fun x y hx hy => ?_⟩
  · simp only [levenshteinLoop_eq, levenshtein_eq]
    exact ⟨isLeast_ofPrefixes s t, ofPrefixes_comm s t, ofPrefixes_triangle s t, ofPrefixes_le s t⟩
  · rw [levenshteinLoop_eq, Words.levenshtein_returns h]
  · obtain ⟨-, d1, hd1, hsmall1⟩ := Words.fuzzyHash_spec hx
    obtain ⟨-, d2, hd2, hsmall2⟩ := Words.fuzzyHash_spec hy
    refine ⟨d1, d2, hd1, hd2, fun hscored => ?_⟩
    obtain ⟨hs, ht, hsize⟩ := hscored.small hsmall1 hsmall2
    refine (returns_score_iff (by omega) (by omega)).mpr fun _ => capFits_of_le ?_ (by omega)
    unfold blocksizeMin
    omega

/-- Two texts with a common run, one of them with another word in front. -/
theorem levenshtein_is_distance_texts :
    Words.levenshtein .checked (asBytes "kitten") (asBytes "sitting") =
        .ok (levenshteinLoop (asBytes "kitten") (asBytes "sitting")) ∧
      ∃ d1 d2, parseDigest (fuzzyHash (asBytes "hello world!")) = some d1 ∧
        parseDigest (fuzzyHash (asBytes "oh, hello world!")) = some d2 ∧
        ∀ {s t blockSize}, Scored d1 d2 s t blockSize →
          (Words.scoreStrings .checked s t blockSize).Returns fun score => 0 ≤ score ∧ score ≤ 100 :=
  have h := levenshtein_is_distance .checked
  ⟨h.2.1 _ _ (by decide +kernel), h.2.2 _ _ (by decide +kernel) (by decide +kernel)⟩

end Corpus.Fuzzy
