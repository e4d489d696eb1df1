/-
The first `k` of a sorted list, filtered.

A query that sorts, cuts and only then filters gives the first `k` elements that pass, unless
elements that do not pass have taken their places.

* `length_filter_take_iff` — as many as there can be are left exactly when the first `k` all pass
  or the others all fail;
* `le_of_take_of_drop` — what is cut off is no smaller than what is kept;
* `forall_sorted_iff` — when this is so for every way of sorting: no element that fails
  `Displaces` one that passes.
-/
import Mathlib.Data.List.Sort
import Mathlib.Data.Prod.Lex

namespace Limits

variable {α β : Type*}

section Filter

variable (ok : α → Bool) (k : ℕ)

theorem filter_take_append (l : List α) :
    (l.take k).filter ok ++ (l.drop k).filter ok = l.filter ok := by
  rw [← List.filter_append, List.take_append_drop]

/-- As many are left as there can be. -/
theorem length_filter_take_iff (l : List α) :
    ((l.take k).filter ok).length = min k (l.filter ok).length ↔
      (∀ a ∈ l.take k, ok a = true) ∨ ∀ a ∈ l.drop k, ok a = false := by
  have hsum := congrArg List.length (filter_take_append ok k l)
  rw [List.length_append] at hsum
  have hle := List.length_filter_le ok (l.take k)
  have htake : (l.take k).length = min k l.length := List.length_take
  have hdrop : ((l.drop k).filter ok).length ≤ l.length - k :=
    (List.length_filter_le ok _).trans (List.length_drop).le
  have hall : (∀ a ∈ l.take k, ok a = true) ↔
      ((l.take k).filter ok).length = (l.take k).length :=
    List.length_filter_eq_length_iff.symm
  have hnone : (∀ a ∈ l.drop k, ok a = false) ↔ ((l.drop k).filter ok).length = 0 := by
    rw [List.length_eq_zero_iff, List.filter_eq_nil_iff]
    simp only [Bool.not_eq_true]
  rw [hall, hnone]
  omega

/-- An element is kept or cut off, and not both. -/
theorem mem_take_or_drop {l : List α} (hl : l.Nodup) {a : α} (ha : a ∈ l) :
    (a ∈ l.take k ∧ a ∉ l.drop k) ∨ (a ∉ l.take k ∧ a ∈ l.drop k) := by
  rw [← List.take_append_drop k l] at hl ha
  have hdisjoint := List.disjoint_of_nodup_append hl
  obtain h | h := List.mem_append.mp ha
  · exact .inl ⟨h, fun h' => hdisjoint h h'⟩
  · exact .inr ⟨fun h' => hdisjoint h' h, h⟩

end Filter

section Sorted

variable [LinearOrder β] (δ : α → β)

/-- What is cut off a sorted list is no smaller than what is kept. -/
theorem le_of_take_of_drop {l : List α} (hl : l.Pairwise fun a b => δ a ≤ δ b) {k : ℕ} {a b : α}
    (ha : a ∈ l.take k) (hb : b ∈ l.drop k) : δ a ≤ δ b := by
  rw [← List.take_append_drop k l, List.pairwise_append] at hl
  exact hl.2.2 a ha b hb

/-- An element that fails can be among the first `k`, and one that passes not. -/
structure Displaces (ok : α → Bool) (k : ℕ) (l : List α) (b q : α) : Prop where
  fails : ok b = false
  passes : ok q = true
  le : δ b ≤ δ q
  first : l.countP (fun a => δ a < δ b) < k
  last : k < l.countP fun a => δ a ≤ δ q

variable {δ} {ok : α → Bool} {k : ℕ} {l : List α} {b q : α}

/-- An element that is in the place of another could be so. -/
theorem displaces_of_sorted (hl : l.Pairwise fun a b => δ a ≤ δ b) (hb : b ∈ l.take k)
    (hq : q ∈ l.drop k) (hfails : ok b = false) (hpasses : ok q = true) :
    Displaces δ ok k l b q := by
  have hlength : (l.take k).length = k := by
    have hdrop := List.length_pos_of_mem hq
    rw [List.length_drop] at hdrop
    rw [List.length_take]
    omega
  have hsplit (p : α → Bool) : l.countP p = (l.take k).countP p + (l.drop k).countP p := by
    rw [← List.countP_append, List.take_append_drop]
  refine ⟨hfails, hpasses, le_of_take_of_drop δ hl hb hq, ?_, ?_⟩
  · -- Nothing that was cut off is smaller, and the element itself is not.
    have hcut : (l.drop k).countP (fun a => decide (δ a < δ b)) = 0 := by
      rw [List.countP_eq_zero]
      intro a ha
      simpa using le_of_take_of_drop δ hl hb ha
    have hself : (l.take k).countP (fun a => decide (δ a < δ b)) ≠ (l.take k).length := by
      rw [Ne, List.countP_eq_length]
      intro hall
      simpa using hall b hb
    have hle := List.countP_le_length (p := fun a => decide (δ a < δ b)) (l := l.take k)
    rw [hsplit]
    omega
  · have hkept : (l.take k).countP (fun a => decide (δ a ≤ δ q)) = (l.take k).length := by
      rw [List.countP_eq_length]
      intro a ha
      simpa using le_of_take_of_drop δ hl ha hq
    have hself : 0 < (l.drop k).countP fun a => decide (δ a ≤ δ q) := by
      rw [List.countP_pos_iff]
      exact ⟨q, hq, by simp⟩
    rw [hsplit]
    omega

end Sorted

section Arrange

variable [LinearOrder β] [DecidableEq α] (δ : α → β) (b q : α)

/-- First among equals, or last. -/
def rank (a : α) : ℕ := if a = b then 0 else if a = q then 2 else 1

/-- Sorted, with `b` as far to the front as it can be and `q` as far to the back. -/
def arranged (l : List α) : List α :=
  l.insertionSort fun a a' => toLex (δ a, rank b q a) ≤ toLex (δ a', rank b q a')

variable {δ b q} {k : ℕ} {l : List α}

theorem perm_arranged (l : List α) : (arranged δ b q l).Perm l := List.perm_insertionSort _ l

theorem pairwise_arranged (l : List α) : (arranged δ b q l).Pairwise fun a a' =>
    toLex (δ a, rank b q a) ≤ toLex (δ a', rank b q a') := by
  have htotal : Std.Total fun a a' : α => toLex (δ a, rank b q a) ≤ toLex (δ a', rank b q a') :=
    ⟨fun _ _ => le_total _ _⟩
  have htrans : IsTrans α fun a a' => toLex (δ a, rank b q a) ≤ toLex (δ a', rank b q a') :=
    ⟨fun _ _ _ => le_trans⟩
  exact List.pairwise_insertionSort _ l

theorem sorted_arranged (l : List α) : (arranged δ b q l).Pairwise fun a a' => δ a ≤ δ a' := by
  refine (pairwise_arranged l).imp fun h => ?_
  obtain h | ⟨h, -⟩ := Prod.Lex.toLex_le_toLex.mp h
  · exact h.le
  · exact h.le

theorem lex_of_take_of_drop {a a' : α} (ha : a ∈ (arranged δ b q l).take k)
    (ha' : a' ∈ (arranged δ b q l).drop k) :
    δ a < δ a' ∨ δ a = δ a' ∧ rank b q a ≤ rank b q a' := by
  have hpair : (arranged δ b q l).Pairwise _ := pairwise_arranged l
  rw [← List.take_append_drop k (arranged δ b q l), List.pairwise_append] at hpair
  exact Prod.Lex.toLex_le_toLex.mp (hpair.2.2 a ha a' ha')

/-- The element in front is kept, unless `k` are smaller. -/
theorem mem_take_arranged (hl : l.Nodup) (hb : b ∈ l) (h : l.countP (fun a => δ a < δ b) < k) :
    b ∈ (arranged δ b q l).take k := by
  have hperm : (arranged δ b q l).Perm l := perm_arranged l
  obtain h' | ⟨hnot, hdrop⟩ := mem_take_or_drop k (hperm.nodup_iff.mpr hl)
    (hperm.mem_iff.mpr hb)
  · exact h'.1
  · have hall : ∀ a ∈ (arranged δ b q l).take k, δ a < δ b := by
      intro a ha
      have hne : a ≠ b := fun heq => hnot (heq ▸ ha)
      obtain hlt | ⟨-, hrank⟩ := lex_of_take_of_drop ha hdrop
      · exact hlt
      · -- Nothing else has the rank of `b`.
        simp only [rank, hne, if_false, if_true] at hrank
        split at hrank <;> omega
    -- So `k` elements are smaller.
    have hlength := List.length_pos_of_mem hdrop
    have hcount : ((arranged δ b q l).take k).countP (fun a => decide (δ a < δ b)) =
        ((arranged δ b q l).take k).length :=
      List.countP_eq_length.mpr fun a ha => decide_eq_true (hall a ha)
    have hle := (List.take_sublist k (arranged δ b q l)).countP_le (p := fun a => decide (δ a < δ b))
    rw [hperm.countP_eq] at hle
    rw [List.length_drop] at hlength
    rw [List.length_take] at hcount
    omega

/-- The element at the back is cut off, unless there is room for it and its equals. -/
theorem mem_drop_arranged (hl : l.Nodup) (hq : q ∈ l) (hne : b ≠ q)
    (h : k < l.countP fun a => δ a ≤ δ q) : q ∈ (arranged δ b q l).drop k := by
  have hperm : (arranged δ b q l).Perm l := perm_arranged l
  obtain ⟨htake, hnot⟩ | h' := mem_take_or_drop k (hperm.nodup_iff.mpr hl)
    (hperm.mem_iff.mpr hq)
  · have hall : ∀ a ∈ (arranged δ b q l).drop k, ¬ δ a ≤ δ q := by
      intro a ha
      have haq : a ≠ q := fun heq => hnot (heq ▸ ha)
      obtain hlt | ⟨-, hrank⟩ := lex_of_take_of_drop htake ha
      · exact not_le.mpr hlt
      · -- Nothing else has the rank of `q`.
        simp only [rank, haq, Ne.symm hne, if_false, if_true] at hrank
        split at hrank <;> omega
    -- So all that are no larger, and it, are among the first `k`.
    have hnone : ((arranged δ b q l).drop k).countP (fun a => decide (δ a ≤ δ q)) = 0 :=
      List.countP_eq_zero.mpr fun a ha => by simpa using hall a ha
    have hle := List.countP_le_length (p := fun a => decide (δ a ≤ δ q))
      (l := (arranged δ b q l).take k)
    have hsplit : (arranged δ b q l).countP (fun a => decide (δ a ≤ δ q)) =
        ((arranged δ b q l).take k).countP (fun a => decide (δ a ≤ δ q)) +
          ((arranged δ b q l).drop k).countP (fun a => decide (δ a ≤ δ q)) := by
      rw [← List.countP_append, List.take_append_drop]
    rw [hperm.countP_eq] at hsplit
    rw [List.length_take] at hle
    omega
  · exact h'.2

end Arrange

/-- However the list is sorted, the filter leaves as many as there can be: exactly when no element
that fails displaces one that passes. -/
theorem forall_sorted_iff [LinearOrder β] [DecidableEq α] {δ : α → β} {ok : α → Bool} {k : ℕ}
    {l : List α} (hl : l.Nodup) :
    (∀ l' : List α, l'.Perm l → (l'.Pairwise fun a b => δ a ≤ δ b) →
      (∀ a ∈ l'.take k, ok a = true) ∨ ∀ a ∈ l'.drop k, ok a = false) ↔
    ∀ b ∈ l, ∀ q ∈ l, ¬ Displaces δ ok k l b q := by
  constructor
  · intro hsorts b hb q hq hdisplaces
    -- An order that has `b` in front of its equals and `q` behind them.
    have hne : b ≠ q := by
      rintro rfl
      exact absurd (hdisplaces.fails.symm.trans hdisplaces.passes) (by simp)
    have htake := mem_take_arranged (q := q) hl hb hdisplaces.first
    have hdrop := mem_drop_arranged hl hq hne hdisplaces.last
    obtain hall | hnone := hsorts (arranged δ b q l) (perm_arranged l) (sorted_arranged l)
    · exact absurd (hdisplaces.fails.symm.trans (hall b htake)) (by simp)
    · exact absurd ((hnone q hdrop).symm.trans hdisplaces.passes) (by simp)
  · intro hnot l' hperm hsorted
    -- One of each kind on the wrong side of the cut.
    by_contra hboth
    push Not at hboth
    obtain ⟨⟨b, hb, hfails⟩, q, hq, hpasses⟩ := hboth
    rw [Bool.ne_false_iff] at hpasses
    rw [ne_eq, Bool.not_eq_true] at hfails
    obtain ⟨hfails, hpasses, hle, hfirst, hlast⟩ :=
      displaces_of_sorted hsorted hb hq hfails hpasses
    refine hnot b (hperm.mem_iff.mp (List.mem_of_mem_take hb)) q
      (hperm.mem_iff.mp (List.mem_of_mem_drop hq)) ⟨hfails, hpasses, hle, ?_, ?_⟩
    · rwa [hperm.countP_eq] at hfirst
    · rwa [hperm.countP_eq] at hlast

end Limits
