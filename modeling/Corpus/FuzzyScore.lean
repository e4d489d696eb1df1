/-
Scores of fuzzy digests (`similarity/fuzzy.rs`).

* `levenshtein_eq` — the two-row loop computes the edit distance;
* `compareParsed_comm`, `compareParsed_bounds` — the score is symmetric and from 0 to 100;
* `parseDigest_render` — a digest is parsed to the block size and the halves it was made of.
-/
import Corpus.EditDistance
import Corpus.Fuzzy
import Mathlib.Data.List.GetD
import Mathlib.Data.List.Induction

namespace Corpus.Fuzzy

open EditDistance

/-! ### The distance -/

/-- The inner loop computes the rest of the next row. -/
theorem levRow_eq (s : Bytes) (c : UInt8) (rest : Bytes) : ∀ done,
    levRow c (ofPrefixes (s ++ [c]) done) rest (rowFrom s done rest) =
      (rowFrom (s ++ [c]) done rest).tail := by
  induction rest with
  | nil => exact fun _ => rfl
  | cons b rest ih =>
    intro done
    have hrow : rowFrom s done (b :: rest) =
        ofPrefixes s done :: ofPrefixes s (done ++ [b]) :: (rowFrom s (done ++ [b]) rest).tail := by
      rw [rowFrom, ← rowFrom_eq_cons]
    have hvalue : min (min (ofPrefixes (s ++ [c]) done + 1) (ofPrefixes s (done ++ [b]) + 1))
        (ofPrefixes s done + if c = b then 0 else 1) = ofPrefixes (s ++ [c]) (done ++ [b]) := by
      rw [ofPrefixes_snoc]
      omega
    rw [hrow, levRow, hvalue, ← rowFrom_eq_cons, ih, rowFrom, List.tail_cons, ← rowFrom_eq_cons]

/-- The outer loop, from the row of the first characters. -/
theorem levRows_eq (t s : Bytes) : ∀ pre : Bytes,
    levRows t s pre.length (rowFrom pre [] t) = rowFrom (pre ++ s) [] t := by
  induction s with
  | nil =>
    intro pre
    rw [List.append_nil]
    rfl
  | cons c s ih =>
    intro pre
    have hfirst : pre.length + 1 = ofPrefixes (pre ++ [c]) [] := by
      rw [ofPrefixes_nil_right, List.length_append]
      rfl
    have hlen : pre.length + 1 = (pre ++ [c]).length := by
      rw [List.length_append]
      rfl
    rw [levRows, hfirst, levRow_eq, ← rowFrom_eq_cons, ← hfirst, hlen, ih, List.append_assoc]
    rfl

theorem levenshtein_eq (s t : Bytes) : levenshtein s t = ofPrefixes s t := by
  have hzero : List.range (t.length + 1) = rowFrom [] [] t := by
    rw [rowFrom_nil, List.range_eq_range']
    rfl
  unfold levenshtein
  split
  · next h => rw [h, ofPrefixes_self]
  · split
    · next h => rw [h, ofPrefixes_nil_left]
    · split
      · next h => rw [h, ofPrefixes_nil_right]
      · rw [hzero]
        exact (congrArg (fun row => row.getD t.length 0) (levRows_eq t s [])).trans (getD_rowFrom _ _ [])

theorem levenshtein_comm (s t : Bytes) : levenshtein s t = levenshtein t s := by
  rw [levenshtein_eq, levenshtein_eq, ofPrefixes_comm]

theorem levenshtein_le (s t : Bytes) : levenshtein s t ≤ s.length + t.length := by
  have h := ofPrefixes_le s t
  rw [levenshtein_eq]
  omega

/-! ### The score of two strings -/

theorem commonRun_comm (s : Bytes) : ∀ t, commonRun s t = commonRun t s := by
  induction s with
  | nil =>
    intro t
    cases t with
    | nil => rfl
    | cons b t => rfl
  | cons a s ih =>
    intro t
    cases t with
    | nil => rfl
    | cons b t =>
      simp only [commonRun, eq_comm (a := b), ih t]

theorem commonSubstring_iff {s t : Bytes} : commonSubstring s t = true ↔
    ∃ i < s.length, ∃ j < t.length, rollWindow ≤ commonRun (s.drop i) (t.drop j) := by
  simp [commonSubstring]

theorem commonSubstring_comm (s t : Bytes) : commonSubstring s t = commonSubstring t s := by
  rw [Bool.eq_iff_iff, commonSubstring_iff, commonSubstring_iff]
  constructor
  · rintro ⟨i, hi, j, hj, hrun⟩
    exact ⟨j, hj, i, hi, commonRun_comm (s.drop i) (t.drop j) ▸ hrun⟩
  · rintro ⟨i, hi, j, hj, hrun⟩
    exact ⟨j, hj, i, hi, commonRun_comm (t.drop i) (s.drop j) ▸ hrun⟩

/-- Strings with a common substring are not empty. -/
theorem length_pos_of_commonSubstring {s t : Bytes} (h : commonSubstring s t = true) :
    0 < s.length ∧ 0 < t.length := by
  obtain ⟨i, hi, j, hj, _⟩ := commonSubstring_iff.mp h
  omega

theorem scoreStrings_comm (s t : Bytes) (blockSize : ℕ) :
    scoreStrings s t blockSize = scoreStrings t s blockSize := by
  unfold scoreStrings
  rw [commonSubstring_comm, levenshtein_comm, Nat.add_comm s.length, Nat.min_comm s.length]

/-- The distance, in parts of `SPAMSUM_LENGTH`, is at most all of them. -/
theorem scaled_le (s t : Bytes) :
    levenshtein s t * spamsumLength / (s.length + t.length) ≤ spamsumLength := by
  rcases Nat.eq_zero_or_pos (s.length + t.length) with h | h
  · rw [h, Nat.div_zero]
    exact Nat.zero_le _
  · refine Nat.div_le_of_le_mul ?_
    exact Nat.mul_le_mul_right _ (levenshtein_le s t)

theorem scoreStrings_bounds (s t : Bytes) (blockSize : ℕ) :
    0 ≤ scoreStrings s t blockSize ∧ scoreStrings s t blockSize ≤ 100 := by
  unfold scoreStrings
  split
  · have h := scaled_le s t
    unfold spamsumLength at h
    dsimp only [spamsumLength]
    generalize levenshtein s t * 64 / (s.length + t.length) = x at h
    generalize blockSize / blocksizeMin * min s.length t.length = cap
    have hx : 100 * x / 64 ≤ 100 := by omega
    split
    · omega
    · omega
  · omega

/-! ### The score of two digests -/

theorem compareParsed_comm (d d' : ℕ × Bytes × Bytes) : compareParsed d d' = compareParsed d' d := by
  obtain ⟨bs, a, b⟩ := d
  obtain ⟨bs', a', b'⟩ := d'
  unfold compareParsed
  dsimp only
  by_cases heq : bs = bs'
  · subst heq
    simp only [ne_eq, not_true_eq_false, false_and, if_false, true_and, if_true,
      eq_comm (a := stripSequences a'), scoreStrings_comm (stripSequences a'),
      scoreStrings_comm (stripSequences b')]
  · have heq' : ¬ bs' = bs := fun h => heq h.symm
    simp only [heq, heq', ne_eq, not_false_eq_true, true_and, false_and, if_false]
    by_cases hdouble : bs = bs' * 2
    · have hother : ¬ bs' = bs * 2 := by omega
      rw [if_neg fun h => h.1 hdouble, if_pos hdouble, if_neg fun h => h.2 hdouble, if_neg hother,
        scoreStrings_comm]
    · by_cases hother : bs' = bs * 2
      · rw [if_neg fun h => h.2 hother, if_neg hdouble, if_neg fun h => h.1 hother, if_pos hother,
          scoreStrings_comm]
      · rw [if_pos ⟨hdouble, hother⟩, if_pos ⟨hother, hdouble⟩]

theorem compareParsed_bounds (d d' : ℕ × Bytes × Bytes) :
    0 ≤ compareParsed d d' ∧ compareParsed d d' ≤ 100 := by
  unfold compareParsed
  dsimp only
  split
  · omega
  · split
    · omega
    · split
      · have h₁ := scoreStrings_bounds (stripSequences d.2.1) (stripSequences d'.2.1) d.1
        have h₂ := scoreStrings_bounds (stripSequences d.2.2) (stripSequences d'.2.2) (d'.1 * 2)
        omega
      · split
        · exact scoreStrings_bounds _ _ _
        · exact scoreStrings_bounds _ _ _

theorem compareParsed_self (d : ℕ × Bytes × Bytes) : compareParsed d d = 100 := by
  simp [compareParsed]

/-! ### Text -/

/-- The byte of an ASCII character. -/
def charByte (c : Char) : UInt8 := c.val.toUInt8

theorem asBytes_append (s t : String) : asBytes (s ++ t) = asBytes s ++ asBytes t := by
  show (s ++ t).toByteArray.data.toList = _
  rw [String.toByteArray_append, ByteArray.data_append, Array.toList_append]
  rfl

theorem asBytes_ofList {l : List Char} (h : ∀ c ∈ l, c.utf8Size = 1) :
    asBytes (String.ofList l) = l.map charByte := by
  show (String.ofList l).toByteArray.data.toList = _
  rw [String.toByteArray_ofList]
  induction l with
  | nil => rfl
  | cons c l ih =>
    rw [List.utf8Encode_cons, ByteArray.data_append, Array.toList_append,
      ih fun c hc => h c (List.mem_cons_of_mem _ hc), List.utf8Encode_singleton,
      String.utf8EncodeChar_eq_singleton (h c List.mem_cons_self), List.data_toByteArray]
    rfl

/-- The digits of a number. -/
theorem digit_bytes {c : Char} (h : c.isDigit = true) :
    c.utf8Size = 1 ∧ 48 ≤ charByte c ∧ charByte c ≤ 57 ∧
      (charByte c).toNat - 48 = c.toNat - '0'.toNat := by
  have hlo : 48 ≤ c.toNat ∧ c.toNat ≤ 57 := by
    simp only [Char.isDigit, Bool.and_eq_true, decide_eq_true_eq] at h
    exact ⟨h.1, h.2⟩
  have hbyte : (charByte c).toNat = c.toNat := by
    show c.val.toNat % 256 = c.val.toNat
    have : c.val.toNat ≤ 57 := hlo.2
    omega
  refine ⟨?_, ?_, ?_, ?_⟩
  · rw [Char.utf8Size_eq_one_iff]
    exact UInt32.le_iff_toNat_le.mpr (by show c.toNat ≤ 127; omega)
  · exact UInt8.le_iff_toNat_le.mpr (by rw [hbyte]; exact hlo.1)
  · exact UInt8.le_iff_toNat_le.mpr (by rw [hbyte]; exact hlo.2)
  · rw [hbyte]
    rfl

theorem decimal_digits {l : List Char} (h : ∀ c ∈ l, c.isDigit = true) : ∀ n : ℕ,
    (l.map charByte).foldlM (fun n b =>
      if 48 ≤ b ∧ b ≤ 57 then some (n * 10 + (b.toNat - 48)) else none) n =
        some (Nat.ofDigitChars 10 l n) := by
  induction l with
  | nil => exact fun n => rfl
  | cons c l ih =>
    intro n
    obtain ⟨_, hlo, hhi, hval⟩ := digit_bytes (h c List.mem_cons_self)
    rw [List.map_cons, List.foldlM_cons, if_pos ⟨hlo, hhi⟩, Nat.ofDigitChars_cons, Nat.mul_comm 10 n,
      hval]
    exact ih (fun c hc => h c (List.mem_cons_of_mem _ hc)) _

theorem isDigit_of_mem {n : ℕ} {c : Char} (h : c ∈ Nat.toDigits 10 n) : c.isDigit = true :=
  Nat.isDigit_of_mem_toDigits (by decide) (by decide) h

theorem asBytes_toString (n : ℕ) : asBytes (toString n) = (Nat.toDigits 10 n).map charByte := by
  rw [Nat.toString_eq_ofList_toDigits]
  exact asBytes_ofList fun c hc => (digit_bytes (isDigit_of_mem hc)).1

/-- The block size is read back. -/
theorem parseU32_toString {n : ℕ} (h : n < 2 ^ 32) : parseU32 (asBytes (toString n)) = some n := by
  have hdigit := decimal_digits (l := Nat.toDigits 10 n) (fun c hc => isDigit_of_mem hc) 0
  rw [Nat.ofDigitChars_ten_toDigits] at hdigit
  have hhead : ((Nat.toDigits 10 n).map charByte).head? ≠ some 43 := by
    intro hplus
    obtain ⟨c, hc, hbyte⟩ := List.mem_map.mp (List.mem_of_mem_head? hplus)
    have hlo := (digit_bytes (isDigit_of_mem hc)).2.1
    rw [hbyte] at hlo
    exact absurd hlo (by decide)
  have hne : (Nat.toDigits 10 n).map charByte ≠ [] := by simp [Nat.toDigits_ne_nil]
  rw [asBytes_toString, parseU32, if_neg hhead, if_neg hne, decimal, hdigit, Option.filter_some,
    if_pos (by simpa using h)]

/-- The parts before a colon. -/
theorem splitColon_colon (n : ℕ) {a : Bytes} (b : Bytes) (h : 58 ∉ a) :
    splitColon (n + 2) (a ++ 58 :: b) = a :: splitColon (n + 1) b := by
  have htake : (a ++ 58 :: b).takeWhile (· ≠ 58) = a := by
    have hpos : ∀ x ∈ a, decide (x ≠ 58) = true := by
      intro x hx
      refine decide_eq_true fun heq => h ?_
      rwa [heq] at hx
    rw [List.takeWhile_append_of_pos hpos, List.takeWhile_cons_of_neg (by simp), List.append_nil]
  rw [splitColon, htake, if_neg (by simp), List.append_cons, List.drop_left' (by simp)]

/-! ### Digests -/

theorem mem_b64_text : ∀ c ∈ b64, c.utf8Size = 1 ∧ charByte c ≠ 58 := by
  have hall : (b64.all fun c => decide (c.utf8Size = 1 ∧ charByte c ≠ 58)) = true := by decide
  intro c hc
  simpa using List.all_eq_true.mp hall c hc

theorem asBytes_half {l : List Char} (h : ∀ c ∈ l, c ∈ b64) :
    asBytes (String.ofList l) = l.map charByte :=
  asBytes_ofList fun c hc => (mem_b64_text c (h c hc)).1

/-- A digest is read back as it was written. -/
theorem parseDigest_render {bs : ℕ} {h1 h2 : List Char} (hbs : bs < 2 ^ 32)
    (h1b : ∀ c ∈ h1, c ∈ b64) (h2b : ∀ c ∈ h2, c ∈ b64) :
    parseDigest (render bs h1 h2) = some (bs, h1.map charByte, h2.map charByte) := by
  have hcolon : asBytes ":" = [58] := by decide +kernel
  have hbytes : asBytes (render bs h1 h2) =
      asBytes (toString bs) ++ 58 :: (h1.map charByte ++ 58 :: h2.map charByte) := by
    rw [render]
    simp only [asBytes_append, hcolon, asBytes_half h1b, asBytes_half h2b, List.append_assoc,
      List.cons_append, List.nil_append]
  have hdigits : (58 : UInt8) ∉ asBytes (toString bs) := by
    rw [asBytes_toString]
    intro hmem
    obtain ⟨c, hc, hbyte⟩ := List.mem_map.mp hmem
    have hhi := (digit_bytes (isDigit_of_mem hc)).2.2.1
    rw [hbyte] at hhi
    exact absurd hhi (by decide)
  have hhalf : (58 : UInt8) ∉ h1.map charByte := by
    intro hmem
    obtain ⟨c, hc, hbyte⟩ := List.mem_map.mp hmem
    exact (mem_b64_text c (h1b c hc)).2 hbyte
  have hparts : splitColon 3 (asBytes (render bs h1 h2)) =
      [asBytes (toString bs), h1.map charByte, h2.map charByte] := by
    rw [hbytes, splitColon_colon 1 _ hdigits, splitColon_colon 0 _ hhalf]
    rfl
  have hnumber : (some (asBytes (toString bs))).bind parseU32 = some bs := parseU32_toString hbs
  unfold parseDigest
  rw [hparts]
  show ((some (asBytes (toString bs))).bind parseU32).bind _ = _
  rw [hnumber]
  rfl

/-- What the loop of `hash_with_block` has written. -/
structure HashState.Wellformed (s : HashState) : Prop where
  len1 : s.hs1.length ≤ spamsumLength - 1
  len2 : s.hs2.length ≤ spamsumLength / 2 - 1
  chars1 : ∀ c ∈ s.hs1, c ∈ b64
  chars2 : ∀ c ∈ s.hs2, c ∈ b64

theorem mask_lt (h : UInt32) : (h &&& 0x3f).toNat < 64 := by
  have hle : (h &&& 0x3f).toNat ≤ 0x3f := by
    rw [UInt32.toNat_and]
    exact Nat.and_le_right
  omega

theorem getD_mem_b64 {i : ℕ} (h : i < 64) : b64.getD i 'A' ∈ b64 := by
  have hlen : b64.length = 64 := rfl
  rw [List.getD_eq_getElem _ _ (by omega)]
  exact List.getElem_mem _

theorem forall_mem_snoc {l : List Char} {c : Char} (h : ∀ c ∈ l, c ∈ b64) (hc : c ∈ b64) :
    ∀ d ∈ l ++ [c], d ∈ b64 := by
  intro d hd
  rcases List.mem_append.mp hd with hd | hd
  · exact h d hd
  · rwa [List.mem_singleton.mp hd]

theorem HashState.Wellformed.cut1 {s : HashState} (h : s.Wellformed) : s.cut1.Wellformed := by
  unfold HashState.cut1
  split
  · next hlt =>
    refine ⟨?_, h.len2, forall_mem_snoc h.chars1 (getD_mem_b64 (mask_lt _)), h.chars2⟩
    rw [List.length_append, List.length_singleton]
    omega
  · exact ⟨h.len1, h.len2, h.chars1, h.chars2⟩

theorem HashState.Wellformed.cut2 {s : HashState} (h : s.Wellformed) : s.cut2.Wellformed := by
  unfold HashState.cut2
  split
  · next hlt =>
    refine ⟨h.len1, ?_, h.chars1, forall_mem_snoc h.chars2 (getD_mem_b64 (mask_lt _))⟩
    rw [List.length_append, List.length_singleton]
    omega
  · exact ⟨h.len1, h.len2, h.chars1, h.chars2⟩

theorem HashState.Wellformed.step {s : HashState} (h : s.Wellformed) (blockSize : ℕ) (b : UInt8) :
    (s.step blockSize b).Wellformed := by
  unfold HashState.step
  dsimp only
  have hs : HashState.Wellformed { s with
      roll := (s.roll.update b).1
      rh := (s.roll.update b).2
      bh1 := byteHash s.bh1 b
      bh2 := byteHash s.bh2 b } := ⟨h.len1, h.len2, h.chars1, h.chars2⟩
  split
  · split
    · exact hs.cut1.cut2
    · exact hs.cut1
  · exact hs

theorem wellformed_foldl (blockSize : ℕ) (data : Bytes) :
    (data.foldl (HashState.step blockSize) .new).Wellformed := by
  induction data using List.reverseRecOn with
  | nil => exact ⟨Nat.zero_le _, Nat.zero_le _, nofun, nofun⟩
  | append_singleton data b ih =>
    rw [List.foldl_append]
    exact ih.step blockSize b

/-- The halves of a digest: their lengths and their characters. -/
def GoodHalves (halves : List Char × List Char) : Prop :=
  halves.1.length ≤ spamsumLength ∧ halves.2.length ≤ spamsumLength / 2 ∧
    (∀ c ∈ halves.1, c ∈ b64) ∧ ∀ c ∈ halves.2, c ∈ b64

theorem goodHalves_hashWithBlock (data : Bytes) (blockSize : ℕ) :
    GoodHalves (hashWithBlock data blockSize).halves := by
  have h := wellformed_foldl blockSize data
  unfold hashWithBlock
  generalize data.foldl (HashState.step blockSize) .new = s at h
  have h1 := h.len1
  have h2 := h.len2
  unfold spamsumLength at h1 h2
  dsimp only
  by_cases hrh : s.rh ≠ 0
  · have hhalves : (BlockHash.mk s.hs1 s.hs2 (s.bh1 &&& 0x3f) (s.bh2 &&& 0x3f) s.rh).halves =
        (s.hs1 ++ [b64Char s.bh1], s.hs2 ++ [b64Char s.bh2]) := if_pos hrh
    rw [if_pos hrh, hhalves]
    refine ⟨?_, ?_, forall_mem_snoc h.chars1 (getD_mem_b64 (mask_lt _)),
      forall_mem_snoc h.chars2 (getD_mem_b64 (mask_lt _))⟩
    · rw [List.length_append, List.length_singleton]
      unfold spamsumLength
      omega
    · rw [List.length_append, List.length_singleton]
      unfold spamsumLength
      omega
  · have hhalves : (BlockHash.mk s.hs1 s.hs2 s.last1 s.last2 s.rh).halves = (s.hs1, s.hs2) :=
      if_neg hrh
    rw [if_neg hrh, hhalves]
    unfold GoodHalves spamsumLength
    dsimp only
    exact ⟨by omega, by omega, h.chars1, h.chars2⟩

/-- The block size of a digest is at most the one that is tried first. -/
theorem digestFrom_spec (data : Bytes) (k : ℕ) :
    (digestFrom data k).1 ≤ k ∧ GoodHalves (digestFrom data k).2 := by
  induction k with
  | zero => exact ⟨Nat.le_refl 0, goodHalves_hashWithBlock _ _⟩
  | succ k ih =>
    rw [digestFrom]
    split
    · exact ⟨Nat.le_succ_of_le ih.1, ih.2⟩
    · exact ⟨Nat.le_refl _, goodHalves_hashWithBlock _ _⟩

end Corpus.Fuzzy
