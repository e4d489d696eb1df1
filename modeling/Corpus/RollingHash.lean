/-
The window of the rolling hash (`similarity/fuzzy.rs`).

`Roll` keeps a plain sum, a weighted sum and an exclusive or of shifted bytes, each brought up
to date from the one before; the circular buffer says which byte leaves the sums.

* `Holds` — what the three are: functions of the last seven bytes;
* `Holds.update` — one byte more;
* `rolling_hash_sees_window` — the value that is returned, and where blocks end.
-/
import Corpus.Fuzzy
import Mathlib.Algebra.BigOperators.Group.Finset.Basic
import Mathlib.Algebra.BigOperators.Fin
import Mathlib.Data.List.GetD

namespace Corpus.Fuzzy

/-! ### One byte of the loop -/

/-- Cutting a block leaves the rolling hash. -/
theorem step_roll (blockSize : ℕ) (s : HashState) (b : UInt8) :
    (s.step blockSize b).roll = (s.roll.update b).1 := by
  unfold HashState.step HashState.cut1 HashState.cut2
  grind

theorem step_rh (blockSize : ℕ) (s : HashState) (b : UInt8) :
    (s.step blockSize b).rh = (s.roll.update b).2 := by
  unfold HashState.step HashState.cut1 HashState.cut2
  grind

/-! ### The hash of a window -/

/-- The byte `i` places before the last one, zero before the start. -/
def recent (data : Bytes) (i : ℕ) : ℕ := (data.reverse.getD i 0).toNat

/-- The hash of seven bytes, the latest first: their sum, their sum with weights from 7 down
to 1, and the exclusive or of each shifted by five times its place, in words of 32 bits. -/
def windowHash (w : ℕ → ℕ) : ℕ :=
  (∑ i ∈ Finset.range rollWindow, w i + ∑ i ∈ Finset.range rollWindow, (rollWindow - i) * w i +
    (List.range rollWindow).foldr (fun i x => (w i <<< (5 * i)) % 2 ^ 32 ^^^ x) 0) % 2 ^ 32

/-- The state after some bytes. -/
def Roll.after (data : Bytes) : Roll := data.foldl (fun r b => (r.update b).1) .new

/-- The byte `i` places before the last one, as a word. -/
def word (data : Bytes) (i : ℕ) : UInt32 := (data.reverse.getD i 0).toUInt32

theorem word_snoc_zero (data : Bytes) (b : UInt8) : word (data ++ [b]) 0 = b.toUInt32 := by
  simp [word]

theorem word_snoc_succ (data : Bytes) (b : UInt8) (i : ℕ) :
    word (data ++ [b]) (i + 1) = word data i := by
  simp [word]

/-- What the state is, after these bytes. -/
structure Holds (data : Bytes) (r : Roll) : Prop where
  size : r.window.length = rollWindow
  place : r.n < rollWindow
  window : ∀ i < rollWindow, r.window.getD ((r.n + (rollWindow - 1 - i)) % rollWindow) 0 = word data i
  sum : r.h1 = word data 0 + word data 1 + word data 2 + word data 3 + word data 4 + word data 5 +
    word data 6
  weighted : r.h2 = 7 * word data 0 + 6 * word data 1 + 5 * word data 2 + 4 * word data 3 +
    3 * word data 4 + 2 * word data 5 + word data 6
  shifted : r.h3.toBitVec = (word data 0).toBitVec ^^^ ((word data 1).toBitVec <<< 5 ^^^
    ((word data 2).toBitVec <<< 10 ^^^ ((word data 3).toBitVec <<< 15 ^^^
      ((word data 4).toBitVec <<< 20 ^^^ ((word data 5).toBitVec <<< 25 ^^^
        (word data 6).toBitVec <<< 30)))))

theorem holds_new : Holds [] .new := by
  have hword : ∀ i, word [] i = 0 := fun i => rfl
  refine ⟨rfl, by decide, fun i hi => ?_, ?_, ?_, ?_⟩
  · rw [hword]
    exact List.getD_replicate 0 (Nat.mod_lt _ (by decide))
  · simp only [hword]
    rfl
  · simp only [hword]
    rfl
  · simp only [hword]
    rfl

/-- One byte more: the oldest leaves the sums. -/
theorem Holds.update {data : Bytes} {r : Roll} (h : Holds data r) (b : UInt8) :
    Holds (data ++ [b]) (r.update b).1 := by
  have hplace := h.place
  unfold rollWindow at hplace
  have hold : r.window.getD r.n 0 = word data 6 := by
    rw [← h.window 6 (by decide)]
    congr 1
    unfold rollWindow
    omega
  have hzero := word_snoc_zero data b
  refine ⟨?_, Nat.mod_lt _ (by decide), fun i hi => ?_, ?_, ?_, ?_⟩
  · exact (List.length_set ..).trans h.size
  · show (r.window.set r.n b.toUInt32).getD (((r.n + 1) % rollWindow + (rollWindow - 1 - i)) %
      rollWindow) 0 = _
    have hsize := h.size
    unfold rollWindow at hi hsize ⊢
    cases i with
    | zero =>
      have hidx : ((r.n + 1) % 7 + (7 - 1 - 0)) % 7 = r.n := by omega
      rw [hidx, hzero, List.getD_eq_getElem?_getD, List.getElem?_set_self (by omega)]
      rfl
    | succ i =>
      have hidx : ((r.n + 1) % 7 + (7 - 1 - (i + 1))) % 7 = (r.n + (7 - 1 - i)) % 7 := by omega
      have hne : r.n ≠ (r.n + (7 - 1 - i)) % 7 := by omega
      rw [hidx, word_snoc_succ, ← h.window i (by unfold rollWindow; omega),
        List.getD_eq_getElem?_getD, List.getElem?_set_ne hne, ← List.getD_eq_getElem?_getD]
      rfl
  · show r.h1 + b.toUInt32 - r.window.getD r.n 0 = _
    rw [hold, h.sum, hzero]
    simp only [word_snoc_succ]
    grind
  · show r.h2 - r.h1 + UInt32.ofNat rollWindow * b.toUInt32 = _
    rw [h.weighted, h.sum, hzero]
    simp only [word_snoc_succ]
    have hseven : UInt32.ofNat rollWindow = 7 := rfl
    rw [hseven]
    grind
  · show ((r.h3 <<< 5) ^^^ b.toUInt32).toBitVec = _
    have hfive : (r.h3 <<< 5).toBitVec = r.h3.toBitVec <<< 5 := rfl
    rw [UInt32.toBitVec_xor, hfive, h.shifted, hzero]
    simp only [word_snoc_succ, BitVec.shiftLeft_xor_distrib, ← BitVec.shiftLeft_add]
    have hgone : (word data 6).toBitVec <<< (30 + 5) = 0#32 := by
      apply BitVec.eq_of_toNat_eq
      simp
    rw [hgone, BitVec.xor_zero, BitVec.xor_comm]

theorem holds_after (data : Bytes) : Holds data (.after data) := by
  induction data using List.reverseRecOn with
  | nil => exact holds_new
  | append_singleton data b ih =>
    have hsnoc : Roll.after (data ++ [b]) = ((Roll.after data).update b).1 := by
      rw [Roll.after, List.foldl_append]
      rfl
    rw [hsnoc]
    exact ih.update b

/-- What the three sums add up to, in numbers. -/
theorem Holds.value {data : Bytes} {r : Roll} (h : Holds data r) :
    (r.h1 + r.h2 + r.h3).toNat = windowHash (recent data) := by
  have hword : ∀ i, (word data i).toNat = recent data i := fun i => UInt8.toNat_toUInt32 _
  have hbits : ∀ i, (word data i).toBitVec.toNat = recent data i := hword
  have hshift : r.h3.toNat = (List.range rollWindow).foldr
      (fun i x => (recent data i <<< (5 * i)) % 2 ^ 32 ^^^ x) 0 := by
    show r.h3.toBitVec.toNat = _
    have hlt : recent data 0 % 2 ^ 32 = recent data 0 := by
      have := (word data 0).toNat_lt
      rw [hword] at this
      exact Nat.mod_eq_of_lt this
    rw [h.shifted]
    simp only [BitVec.toNat_xor, BitVec.toNat_shiftLeft, hbits]
    rw [← hlt]
    simp [rollWindow, List.range_succ]
  rw [UInt32.toNat_add, UInt32.toNat_add, hshift, h.sum, h.weighted]
  unfold windowHash
  generalize (List.range rollWindow).foldr _ 0 = shifted
  simp only [UInt32.toNat_add, UInt32.toNat_mul, hword, UInt32.reduceToNat, rollWindow,
    Finset.sum_range_succ, Finset.sum_range_zero]
  omega

/-- The rolling hash at a place of a file, as `hash_with_block` has it there. -/
def rollAt (blockSize : ℕ) (data : Bytes) (i : ℕ) : UInt32 :=
  ((data.take (i + 1)).foldl (HashState.step blockSize) .new).rh

/-- The loop of `hash_with_block` has the state of the rolling hash. -/
theorem roll_foldl (blockSize : ℕ) (data : Bytes) :
    (data.foldl (HashState.step blockSize) .new).roll = .after data := by
  induction data using List.reverseRecOn with
  | nil => rfl
  | append_singleton data b ih =>
    rw [List.foldl_append, Roll.after, List.foldl_append, ← Roll.after, ← ih]
    exact step_roll _ _ _

/-- The value that one update returns. -/
theorem update_value (data : Bytes) (b : UInt8) :
    ((Roll.after data).update b).2.toNat = windowHash (recent (data ++ [b])) :=
  ((holds_after data).update b).value

/-- The value at a place is the hash of the window there. -/
theorem rollAt_eq (blockSize : ℕ) {data : Bytes} {i : ℕ} (hi : i < data.length) :
    (rollAt blockSize data i).toNat = windowHash (recent (data.take (i + 1))) := by
  rw [rollAt, List.take_add_one, List.getElem?_eq_getElem hi, Option.toList_some, List.foldl_append,
    List.foldl_cons, List.foldl_nil, step_rh, roll_foldl]
  exact update_value _ _

theorem windowHash_congr {w w' : ℕ → ℕ} (h : ∀ i < rollWindow, w i = w' i) :
    windowHash w = windowHash w' := by
  have hsum : ∑ i ∈ Finset.range rollWindow, w i = ∑ i ∈ Finset.range rollWindow, w' i :=
    Finset.sum_congr rfl fun i hi => h i (Finset.mem_range.mp hi)
  have hweighted : ∑ i ∈ Finset.range rollWindow, (rollWindow - i) * w i =
      ∑ i ∈ Finset.range rollWindow, (rollWindow - i) * w' i :=
    Finset.sum_congr rfl fun i hi => by rw [h i (Finset.mem_range.mp hi)]
  have hshifted : (List.range rollWindow).foldr (fun i x => (w i <<< (5 * i)) % 2 ^ 32 ^^^ x) 0 =
      (List.range rollWindow).foldr (fun i x => (w' i <<< (5 * i)) % 2 ^ 32 ^^^ x) 0 :=
    List.foldr_ext _ _ 0 fun i hi x => by rw [h i (List.mem_range.mp hi)]
  rw [windowHash, windowHash, hsum, hweighted, hshifted]

/-- Seven bytes in the middle of a file are the window at the last of them. -/
theorem recent_take {data : Bytes} {i k : ℕ} (hi : i + rollWindow ≤ data.length) (hk : k < rollWindow) :
    recent (data.take (i + (rollWindow - 1) + 1)) k =
      (((data.drop i).take rollWindow).reverse.getD k 0).toNat := by
  have hsplit : data.take (i + (rollWindow - 1) + 1) = data.take i ++ (data.drop i).take rollWindow := by
    rw [← List.take_add]
    rfl
  have hlen : k < ((data.drop i).take rollWindow).reverse.length := by
    rw [List.length_reverse, List.length_take, List.length_drop]
    omega
  rw [recent, hsplit, List.reverse_append, List.getD_append _ _ _ _ hlen]

/-- **The rolling hash sees only its window.**  Whatever came before, an update returns the hash
of the last seven bytes; so where two files have the same seven bytes, blocks of every size end
at the last of them in both or in neither. -/
theorem rolling_hash_sees_window :
    (∀ (data : Bytes) (b : UInt8),
      ((Roll.after data).update b).2.toNat = windowHash (recent (data ++ [b]))) ∧
    ∀ (bs : ℕ) (data data' : Bytes) (i j : ℕ), i + rollWindow ≤ data.length →
      j + rollWindow ≤ data'.length →
      (data.drop i).take rollWindow = (data'.drop j).take rollWindow →
      rollAt bs data (i + (rollWindow - 1)) = rollAt bs data' (j + (rollWindow - 1)) ∧
      ∀ size, endsBlock (rollAt bs data (i + (rollWindow - 1))) size =
        endsBlock (rollAt bs data' (j + (rollWindow - 1))) size := by
  refine ⟨update_value, fun bs data data' i j hi hj hsame => ?_⟩
  have heq : rollAt bs data (i + (rollWindow - 1)) = rollAt bs data' (j + (rollWindow - 1)) := by
    apply UInt32.toNat_inj.mp
    unfold rollWindow at hi hj
    rw [rollAt_eq bs (by unfold rollWindow; omega), rollAt_eq bs (by unfold rollWindow; omega)]
    refine windowHash_congr fun k hk => ?_
    rw [recent_take hi hk, recent_take hj hk, hsame]
  exact ⟨heq, fun size => by rw [heq]⟩

/-- The same seven bytes after one byte and after two. -/
theorem rolling_hash_sees_window_shifted :
    rollAt 3 ([9] ++ [1, 2, 3, 4, 5, 6, 7]) 7 = rollAt 3 ([200, 100] ++ [1, 2, 3, 4, 5, 6, 7]) 8 :=
  (rolling_hash_sees_window.2 3 ([9] ++ [1, 2, 3, 4, 5, 6, 7]) ([200, 100] ++ [1, 2, 3, 4, 5, 6, 7])
    1 2 (by decide) (by decide) (by decide)).1

end Corpus.Fuzzy
