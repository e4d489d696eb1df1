/-
The orders in which sorted rows may come.

A query that sorts its rows by a key may return rows of equal key in any order: a `SortOrder` is
one choice.

* `exists_sort_eq` — every sorted arrangement of the rows is such a choice;
* `sort_eq_sort` — there is one only if no two rows have equal keys;
* `insertionSort_swap` — a stable sort keeps elements of equal key that are beside each other as
  they are;
* `sort_destutter_sorted` — sorted and without repetitions, a list is strictly increasing.
-/
import Mathlib.Data.List.Destutter
import Mathlib.Data.List.Sort

variable {α β : Type*} [LinearOrder β]

/-- An order of rows by a key. -/
structure SortOrder (key : α → β) where
  sort : List α → List α
  perm : ∀ l, (sort l).Perm l
  sorted : ∀ l, (sort l).Pairwise fun a b => key a ≤ key b

namespace SortOrder

variable {key : α → β}

/-- The stable one. -/
def stable (key : α → β) : SortOrder key where
  sort l := l.insertionSort fun a b => key a ≤ key b
  perm l := List.perm_insertionSort _ l
  sorted l := by
    have htotal : Std.Total fun a b : α => key a ≤ key b := ⟨fun _ _ => le_total _ _⟩
    have htrans : IsTrans α fun a b => key a ≤ key b := ⟨fun _ _ _ => le_trans⟩
    exact List.pairwise_insertionSort _ l

/-- The rows may come in any order that is sorted. -/
theorem exists_sort_eq {l l' : List α} (hperm : l'.Perm l)
    (hsorted : l'.Pairwise fun a b => key a ≤ key b) : ∃ o : SortOrder key, o.sort l = l' := by
  classical
  -- That order here, and any other elsewhere.
  refine ⟨⟨fun m => if m = l then l' else (stable key).sort m, fun m => ?_, fun m => ?_⟩,
    if_pos rfl⟩
  · by_cases h : m = l
    · rw [if_pos h, h]
      exact hperm
    · rw [if_neg h]
      exact (stable key).perm m
  · by_cases h : m = l
    · rw [if_pos h]
      exact hsorted
    · rw [if_neg h]
      exact (stable key).sorted m

theorem forall_iff {l : List α} {P : List α → Prop} : (∀ o : SortOrder key, P (o.sort l)) ↔
    ∀ l' : List α, l'.Perm l → (l'.Pairwise fun a b => key a ≤ key b) → P l' := by
  refine ⟨fun h l' hperm hsorted => ?_, fun h o => h _ (o.perm l) (o.sorted l)⟩
  obtain ⟨o, ho⟩ := exists_sort_eq hperm hsorted
  exact ho ▸ h o

/-- Rows that the key tells apart have one order. -/
theorem sort_eq_sort {l l' : List α} (hl : l.Perm l')
    (h : ∀ a ∈ l, ∀ b ∈ l, key a = key b → a = b) (o o' : SortOrder key) :
    o.sort l = o'.sort l' := by
  have hperm : (o.sort l).Perm (o'.sort l') := (o.perm l).trans (hl.trans (o'.perm l').symm)
  refine hperm.eq_of_pairwise (fun a b ha hb hab hba => ?_) (o.sorted l) (o'.sorted l')
  exact h a ((o.perm l).mem_iff.mp ha) b (hl.mem_iff.mpr ((o'.perm l').mem_iff.mp hb))
    (le_antisymm hab hba)

end SortOrder

/-! ### Equal elements beside each other -/

section Swap

variable {key : α → β} {x y : α}

theorem orderedInsert_swap (hxy : key x = key y) (a : α) (C D : List α) : ∃ C' D',
    (C ++ x :: y :: D).orderedInsert (fun a b => key a ≤ key b) a = C' ++ x :: y :: D' ∧
      (C ++ y :: x :: D).orderedInsert (fun a b => key a ≤ key b) a = C' ++ y :: x :: D' := by
  induction C with
  | nil =>
    by_cases h : key a ≤ key x
    · refine ⟨[a], D, ?_, ?_⟩
      · simp [h]
      · simp [← hxy, h]
    · refine ⟨[], D.orderedInsert (fun a b => key a ≤ key b) a, ?_, ?_⟩
      · simp [h, ← hxy]
      · simp [h, ← hxy]
  | cons c C ih =>
    by_cases h : key a ≤ key c
    · exact ⟨a :: c :: C, D, by simp [h], by simp [h]⟩
    · obtain ⟨C', D', hx, hy⟩ := ih
      exact ⟨c :: C', D', by simp [h, hx], by simp [h, hy]⟩

theorem orderedInsert_orderedInsert (hxy : key x = key y) (l : List α) : ∃ C D,
    (l.orderedInsert (fun a b => key a ≤ key b) y).orderedInsert (fun a b => key a ≤ key b) x =
        C ++ x :: y :: D ∧
      (l.orderedInsert (fun a b => key a ≤ key b) x).orderedInsert (fun a b => key a ≤ key b) y =
        C ++ y :: x :: D := by
  induction l with
  | nil => exact ⟨[], [], by simp [hxy], by simp [hxy]⟩
  | cons b l ih =>
    by_cases h : key x ≤ key b
    · exact ⟨[], b :: l, by simp [← hxy, h], by simp [← hxy, h]⟩
    · obtain ⟨C, D, hx, hy⟩ := ih
      refine ⟨b :: C, D, ?_, ?_⟩
      · simp [← hxy, h, hx]
      · simp [← hxy, h, hy]

/-- Two elements of equal key that are beside each other are so when the list is sorted, in the
same order. -/
theorem insertionSort_swap (hxy : key x = key y) (A B : List α) : ∃ C D,
    (A ++ x :: y :: B).insertionSort (fun a b => key a ≤ key b) = C ++ x :: y :: D ∧
      (A ++ y :: x :: B).insertionSort (fun a b => key a ≤ key b) = C ++ y :: x :: D := by
  -- What stands in front is inserted later, before the two or behind them.
  induction A with
  | nil => exact orderedInsert_orderedInsert hxy _
  | cons a A ih =>
    obtain ⟨C, D, hx, hy⟩ := ih
    rw [List.cons_append, List.cons_append, List.insertionSort_cons, List.insertionSort_cons, hx, hy]
    exact orderedInsert_swap hxy a C D

end Swap

/-- Sorted and without repetitions, a list is strictly increasing. -/
theorem sort_destutter_sorted {γ : Type*} [LE γ] [LT γ] [DecidableEq γ] [DecidableLE γ]
    [Std.IsLinearOrder γ] [Std.LawfulOrderLT γ] (l : List γ) :
    ((l.insertionSort (· ≤ ·)).destutter (· ≠ ·)).Pairwise (· < ·) := by
  have hle := List.pairwise_insertionSort (· ≤ ·) l
  have hsub := List.destutter_sublist (· ≠ ·) (l.insertionSort (· ≤ ·))
  have hnodup : ((l.insertionSort (· ≤ ·)).destutter (· ≠ ·)).Nodup := by
    rw [hle.destutter_eq_dedup]
    exact List.nodup_dedup _
  exact ((hle.sublist hsub).and hnodup).imp fun hab => Std.lt_of_le_of_ne hab.1 hab.2
