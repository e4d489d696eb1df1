/-
Lists by the positions of their items.

* `keepAt` — the items at the positions that pass a test, in order;
* `overwrite` — a list with a field of it replaced.
-/
import Mathlib.Data.List.Basic
import Mathlib.Tactic.Common

variable {α : Type} {p q : ℕ → Prop} [DecidablePred p] [DecidablePred q]

/-- The items at the positions that pass, where the first item is at the position `k`. -/
def keepAt (p : ℕ → Prop) [DecidablePred p] : ℕ → List α → List α
  | _, [] => []
  | k, a :: l => if p k then a :: keepAt p (k + 1) l else keepAt p (k + 1) l

theorem keepAt_append (l l' : List α) : ∀ k,
    keepAt p k (l ++ l') = keepAt p k l ++ keepAt p (k + l.length) l' := by
  induction l with
  | nil => exact fun k => rfl
  | cons a l ih =>
    intro k
    have hlen : k + (a :: l).length = k + 1 + l.length := by
      rw [List.length_cons]
      omega
    rw [List.cons_append, keepAt, keepAt, ih, hlen]
    split
    · rfl
    · rfl

theorem keepAt_congr {l : List α} : ∀ {k}, (∀ i, k ≤ i → i < k + l.length → (p i ↔ q i)) →
    keepAt p k l = keepAt q k l := by
  induction l with
  | nil => exact fun _ => rfl
  | cons a l ih =>
    intro k h
    have hrest : keepAt p (k + 1) l = keepAt q (k + 1) l := by
      refine ih fun i hlo hhi => h i (by omega) ?_
      rw [List.length_cons]
      omega
    have hfirst : p k ↔ q k := h k (Nat.le_refl k) (by rw [List.length_cons]; omega)
    rw [keepAt, keepAt, hrest]
    by_cases hp : p k
    · rw [if_pos hp, if_pos (hfirst.mp hp)]
    · rw [if_neg hp, if_neg fun hq => hp (hfirst.mpr hq)]

theorem keepAt_of_all {l : List α} {k : ℕ} (h : ∀ i, k ≤ i → i < k + l.length → p i) :
    keepAt p k l = l := by
  have htrue : ∀ j, keepAt (fun _ => True) j l = l := by
    induction l with
    | nil => exact fun _ => rfl
    | cons a l ih =>
      intro j
      have hl := ih (fun i hlo hhi => h i hlo (by rw [List.length_cons]; omega)) (j + 1)
      rw [keepAt, if_pos trivial, hl]
  exact (keepAt_congr fun i hlo hhi => iff_true_intro (h i hlo hhi)).trans (htrue k)

theorem keepAt_of_none {l : List α} {k : ℕ} (h : ∀ i, k ≤ i → i < k + l.length → ¬ p i) :
    keepAt p k l = [] := by
  have hfalse : ∀ j, keepAt (fun _ => False) j l = [] := by
    intro j
    induction l generalizing j with
    | nil => rfl
    | cons a l ih => exact ih (fun i hlo hhi => h i hlo (by rw [List.length_cons]; omega)) (j + 1)
  exact (keepAt_congr fun i hlo hhi => iff_false_intro (h i hlo hhi)).trans (hfalse k)

/-- The items from one position on, cut at another. -/
theorem keepAt_drop {l : List α} {a b : ℕ} (hab : a ≤ b) (hb : b ≤ l.length) :
    keepAt p a (l.drop a) = keepAt p a ((l.take b).drop a) ++ keepAt p b (l.drop b) := by
  have hlen : a + ((l.take b).drop a).length = b := by
    rw [List.length_drop, List.length_take]
    omega
  have hcut : (l.take b).drop a ++ l.drop b = l.drop a := by
    have happend : (l.take b ++ l.drop b).drop a = (l.take b).drop a ++ l.drop b :=
      List.drop_append_of_le_length (by rw [List.length_take]; omega)
    rw [← happend, List.take_append_drop]
  rw [← hcut, keepAt_append, hlen]

/-! ### Fields -/

/-- A field of the first of two lists. -/
theorem field_append {l l' : List α} {start size : ℕ} (h : start + size ≤ l.length) :
    ((l ++ l').drop start).take size = (l.drop start).take size := by
  rw [List.drop_append_of_le_length (by omega),
    List.take_append_of_le_length (by rw [List.length_drop]; omega)]

/-- A part of a field. -/
theorem field_field (l : List α) (start : ℕ) {size pos n : ℕ} (h : pos + n ≤ size) :
    (((l.drop start).take size).drop pos).take n = (l.drop (start + pos)).take n := by
  rw [List.drop_take, List.take_take, List.drop_drop, Nat.min_eq_left (by omega)]

/-- The field `v`, written at a position. -/
def overwrite (l : List α) (pos : ℕ) (v : List α) : List α :=
  l.take pos ++ (v ++ l.drop (pos + v.length))

section Overwrite

variable {l v : List α} {pos start size : ℕ}

theorem length_overwrite (h : pos + v.length ≤ l.length) : (overwrite l pos v).length = l.length := by
  rw [overwrite, List.length_append, List.length_append, List.length_take, List.length_drop]
  omega

/-- A field before the one that is written. -/
theorem field_overwrite_before (h : start + size ≤ pos) (hpos : pos ≤ l.length) :
    ((overwrite l pos v).drop start).take size = (l.drop start).take size := by
  have hlen : (l.take pos).length = pos := List.length_take_of_le hpos
  rw [overwrite, List.drop_append_of_le_length (by omega),
    List.take_append_of_le_length (by rw [List.length_drop]; omega), List.drop_take,
    List.take_take, Nat.min_eq_left (by omega)]

/-- The field itself. -/
theorem field_overwrite (hpos : pos ≤ l.length) :
    ((overwrite l pos v).drop pos).take v.length = v := by
  have hlen : (l.take pos).length = pos := List.length_take_of_le hpos
  rw [overwrite, List.drop_left' hlen, List.take_left' rfl]

/-- A field that is not kept may be written. -/
theorem keepAt_overwrite (hpos : pos + v.length ≤ l.length)
    (h : ∀ i, pos ≤ i → i < pos + v.length → ¬ p i) :
    keepAt p 0 (overwrite l pos v) = keepAt p 0 l := by
  have hsplit (w : List α) (hw : w.length = v.length) :
      keepAt p 0 (l.take pos ++ (w ++ l.drop (pos + v.length))) =
        keepAt p 0 (l.take pos) ++ keepAt p (pos + v.length) (l.drop (pos + v.length)) := by
    have hnone : keepAt p pos w = [] := keepAt_of_none (by rw [hw]; exact h)
    rw [keepAt_append, keepAt_append, List.length_take_of_le (by omega), Nat.zero_add, hnone, hw,
      List.nil_append]
  have hself : l.take pos ++ ((l.drop pos).take v.length ++ l.drop (pos + v.length)) = l := by
    rw [← List.drop_drop, List.take_append_drop, List.take_append_drop]
  have hmid : ((l.drop pos).take v.length).length = v.length :=
    List.length_take_of_le (by rw [List.length_drop]; omega)
  have hold := hsplit _ hmid
  rw [hself] at hold
  rw [overwrite, hsplit v rfl, hold]

end Overwrite
