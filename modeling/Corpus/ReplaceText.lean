/-
Replacing a part of a text (`str::replace`).

The occurrences of the part are found from left to right and do not overlap.

* `replaceAll_of_absent`, `replaceAll_self` — when nothing changes;
* `replaceAll_of_present` — the first occurrence;
* `replaceAll_append_cons` — a character that the part has not, no occurrence goes beyond.
-/
import Mathlib.Data.List.Infix

namespace ReplaceText

variable {α : Type*} {part put x : List α} {c : α}

theorem not_prefix_of_notMem (hc : c ∉ part) {a x : List α} (h : ¬ part <+: a) :
    ¬ part <+: a ++ c :: x := by
  rintro ⟨w, hw⟩
  -- The part ends before that character, or has it.
  obtain ⟨b, hb, hw⟩ | ⟨b, hb, hw⟩ := List.append_eq_append_iff.mp hw
  · exact h ⟨b, hb.symm⟩
  · cases b with
    | nil => exact h ⟨[], by rw [hb, List.append_nil, List.append_nil]⟩
    | cons d b =>
      obtain ⟨rfl, -⟩ := List.cons.inj hw
      exact hc (hb ▸ List.mem_append_right _ List.mem_cons_self)

/-- An occurrence is on one side of a character that the part has not. -/
theorem infix_append_cons (hpart : part ≠ []) (hc : c ∉ part) {a : List α}
    (h : part <:+: a ++ c :: x) : part <:+: a ∨ part <:+: x := by
  induction a with
  | nil =>
    obtain hp | hi := List.infix_cons_iff.mp h
    · exact absurd hp (not_prefix_of_notMem hc (a := []) fun h => hpart (List.prefix_nil.mp h))
    · exact .inr hi
  | cons b a ih =>
    obtain hp | hi := List.infix_cons_iff.mp h
    · by_cases hp' : part <+: b :: a
      · exact .inl hp'.isInfix
      · exact absurd hp (not_prefix_of_notMem hc hp')
    · exact (ih hi).imp_left fun hi => hi.trans (List.suffix_cons b a).isInfix

variable [DecidableEq α]

/-- Behind `skip` elements that belong to an occurrence. -/
def replaceFrom (part put : List α) : ℕ → List α → List α
  | _, [] => []
  | skip + 1, _ :: x => replaceFrom part put skip x
  | 0, a :: x =>
    if part.isPrefixOf (a :: x) then put ++ replaceFrom part put (part.length - 1) x
    else a :: replaceFrom part put 0 x

/-- The text, with all occurrences of a part that is not empty replaced. -/
def replaceAll (part put x : List α) : List α := replaceFrom part put 0 x

theorem replaceFrom_append (a x : List α) :
    replaceFrom part put a.length (a ++ x) = replaceAll part put x := by
  induction a with
  | nil => rfl
  | cons b a ih => exact ih

theorem replaceAll_append (hpart : part ≠ []) (x : List α) :
    replaceAll part put (part ++ x) = put ++ replaceAll part put x := by
  cases part with
  | nil => exact absurd rfl hpart
  | cons b part =>
    have hprefix : (b :: part).isPrefixOf (b :: (part ++ x)) = true :=
      List.isPrefixOf_iff_prefix.mpr (List.prefix_append (b :: part) x)
    rw [replaceAll, List.cons_append, replaceFrom, if_pos hprefix]
    exact congrArg (put ++ ·) (replaceFrom_append part x)

theorem replaceAll_cons_of_not (h : ¬ part <+: c :: x) :
    replaceAll part put (c :: x) = c :: replaceAll part put x := by
  rw [replaceAll, replaceFrom, if_neg]
  · rfl
  · rwa [List.isPrefixOf_iff_prefix]

theorem replaceAll_of_absent (h : ¬ part <:+: x) : replaceAll part put x = x := by
  induction x with
  | nil => rfl
  | cons c x ih =>
    rw [replaceAll_cons_of_not fun hp => h hp.isInfix,
      ih fun hi => h (hi.trans (List.suffix_cons c x).isInfix)]

/-- The first occurrence is replaced, and what follows it on its own. -/
theorem replaceAll_of_present (put : List α) (hpart : part ≠ []) (h : part <:+: x) : ∃ u w,
    x = u ++ (part ++ w) ∧ replaceAll part put x = u ++ (put ++ replaceAll part put w) := by
  induction x with
  | nil => exact absurd (List.infix_nil.mp h) hpart
  | cons c x ih =>
    by_cases hp : part <+: c :: x
    · obtain ⟨w, hw⟩ := hp
      exact ⟨[], w, hw.symm, by rw [← hw, replaceAll_append hpart]; rfl⟩
    · obtain ⟨u, w, hx, hrest⟩ := ih ((List.infix_cons_iff.mp h).resolve_left hp)
      refine ⟨c :: u, w, congrArg (c :: ·) hx, ?_⟩
      rw [replaceAll_cons_of_not hp, hrest]
      rfl

theorem replaceAll_self (hpart : part ≠ []) (x : List α) : replaceAll part part x = x := by
  -- By the length: the text behind the first occurrence is shorter.
  induction hlength : x.length using Nat.strong_induction_on generalizing x with
  | h n ih =>
    by_cases h : part <:+: x
    · obtain ⟨u, w, hx, hrest⟩ := replaceAll_of_present part hpart h
      have hpos := List.length_pos_of_ne_nil hpart
      have hw : w.length < n := by
        rw [← hlength, hx]
        simp only [List.length_append]
        omega
      rw [hrest, ih _ hw w rfl, ← hx]
    · exact replaceAll_of_absent h

/-- A text that gets shorter by each replacement is no longer than it was. -/
theorem length_replaceAll_le (hle : put.length ≤ part.length) (hpart : part ≠ []) (x : List α) :
    (replaceAll part put x).length ≤ x.length := by
  induction hlength : x.length using Nat.strong_induction_on generalizing x with
  | h n ih =>
    by_cases h : part <:+: x
    · obtain ⟨u, w, hx, hrest⟩ := replaceAll_of_present put hpart h
      have hpos := List.length_pos_of_ne_nil hpart
      have hlen := congrArg List.length hx
      simp only [List.length_append] at hlen
      have hw := ih w.length (by omega) w rfl
      rw [hrest]
      simp only [List.length_append]
      omega
    · rw [replaceAll_of_absent h, hlength]

/-- No occurrence goes beyond a character that the part has not. -/
theorem replaceAll_append_cons (hpart : part ≠ []) (hc : c ∉ part) (a x : List α) :
    replaceAll part put (a ++ c :: x) =
      replaceAll part put a ++ c :: replaceAll part put x := by
  -- By the length of what stands before the character: an occurrence there is within it.
  induction hlength : a.length using Nat.strong_induction_on generalizing a with
  | h n ih =>
    cases a with
    | nil =>
      refine replaceAll_cons_of_not fun h => ?_
      exact not_prefix_of_notMem hc (a := []) (fun h => hpart (List.prefix_nil.mp h)) h
    | cons b a =>
      by_cases hp : part <+: b :: a
      · obtain ⟨w, hw⟩ := hp
        have hpos := List.length_pos_of_ne_nil hpart
        have hlen := congrArg List.length hw
        rw [List.length_append] at hlen
        rw [← hw, List.append_assoc, replaceAll_append hpart, replaceAll_append hpart,
          ih w.length (by omega) w rfl, List.append_assoc]
      · have hnot : ¬ part <+: b :: (a ++ c :: x) := not_prefix_of_notMem hc hp
        rw [List.cons_append, replaceAll_cons_of_not hnot, replaceAll_cons_of_not hp,
          ih a.length (by rw [← hlength]; exact Nat.lt_succ_self _) a rfl]
        rfl

theorem eq_nil_of_replaceAll (hput : put ≠ []) (h : replaceAll part put x = []) : x = [] := by
  cases x with
  | nil => rfl
  | cons c x =>
    rw [replaceAll, replaceFrom] at h
    split at h
    · exact absurd (List.append_eq_nil_iff.mp h).1 hput
    · exact absurd h (List.cons_ne_nil _ _)

end ReplaceText
