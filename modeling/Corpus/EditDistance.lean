/-
The edit distance of two lists, and its computation row by row.

Insertions, deletions and replacements cost one each.  The distances of a list to all prefixes
of another are a row; the row of a list with one more item is computed from left to right from
the row before (`ofPrefixes_snoc`).

* `editDistance_comm`, `editDistance_le`, `editDistance_self` — what the distance satisfies;
* `editDistance_triangle` — a way through a third list is no shorter;
* `isLeast_edits` — no sequence of changes is shorter than the distance, and one is that long;
* `rowFrom` — a row, from some prefix on.
-/
import Mathlib.Data.List.Basic
import Mathlib.Order.Bounds.Defs
import Mathlib.Tactic.Common

namespace EditDistance

/-! ### Sequences of changes -/

section Edits

variable {α : Type}

/-- One change of a list. -/
inductive Edit : List α → List α → Prop where
  | insert (pre : List α) (a : α) (post : List α) : Edit (pre ++ post) (pre ++ a :: post)
  | delete (pre : List α) (a : α) (post : List α) : Edit (pre ++ a :: post) (pre ++ post)
  | replace (pre : List α) (a b : α) (post : List α) :
      Edit (pre ++ a :: post) (pre ++ b :: post)

/-- So many changes, one after the other. -/
inductive Edits : ℕ → List α → List α → Prop where
  | refl (s : List α) : Edits 0 s s
  | step {n : ℕ} {s t u : List α} : Edit s t → Edits n t u → Edits (n + 1) s u

theorem Edit.cons {s t : List α} (h : Edit s t) (a : α) : Edit (a :: s) (a :: t) := by
  cases h with
  | insert pre b post => exact .insert (a :: pre) b post
  | delete pre b post => exact .delete (a :: pre) b post
  | replace pre b c post => exact .replace (a :: pre) b c post

theorem Edits.cons {n : ℕ} {s t : List α} (h : Edits n s t) (a : α) :
    Edits n (a :: s) (a :: t) := by
  induction h with
  | refl s => exact .refl _
  | step he _ ih => exact .step (he.cons a) ih

theorem Edit.reverse {s t : List α} (h : Edit s t) : Edit s.reverse t.reverse := by
  cases h with
  | insert pre a post => simpa using Edit.insert post.reverse a pre.reverse
  | delete pre a post => simpa using Edit.delete post.reverse a pre.reverse
  | replace pre a b post => simpa using Edit.replace post.reverse a b pre.reverse

theorem Edits.reverse {n : ℕ} {s t : List α} (h : Edits n s t) : Edits n s.reverse t.reverse := by
  induction h with
  | refl s => exact .refl _
  | step he _ ih => exact .step he.reverse ih

theorem edits_reverse_iff {n : ℕ} {s t : List α} : Edits n s.reverse t.reverse ↔ Edits n s t :=
  ⟨fun h => by simpa using h.reverse, Edits.reverse⟩

theorem edits_insertAll (t : List α) : Edits t.length [] t := by
  induction t with
  | nil => exact .refl []
  | cons b t ih => exact .step (.insert [] b []) (ih.cons b)

theorem edits_deleteAll (s : List α) : Edits s.length s [] := by
  induction s with
  | nil => exact .refl []
  | cons a s ih => exact .step (.delete [] a s) ih

end Edits

end EditDistance

/-! ### The distance -/

variable {α : Type} [DecidableEq α]

/-- The least number of changes from one list to the other. -/
def editDistance : List α → List α → ℕ
  | [], t => t.length
  | a :: s, [] => (a :: s).length
  | a :: s, b :: t =>
    min (min (editDistance s (b :: t) + 1) (editDistance (a :: s) t + 1))
      (editDistance s t + if a = b then 0 else 1)
  termination_by s t => s.length + t.length

namespace EditDistance

theorem nil_left (t : List α) : editDistance [] t = t.length := by rw [editDistance]

theorem nil_right (s : List α) : editDistance s [] = s.length := by
  cases s with
  | nil => exact nil_left []
  | cons a s => rw [editDistance]

theorem cons_cons (a b : α) (s t : List α) : editDistance (a :: s) (b :: t) =
    min (min (editDistance s (b :: t) + 1) (editDistance (a :: s) t + 1))
      (editDistance s t + if a = b then 0 else 1) := by
  rw [editDistance]

theorem editDistance_comm (s t : List α) : editDistance s t = editDistance t s := by
  induction s generalizing t with
  | nil => rw [nil_left, nil_right]
  | cons a s ihs =>
    induction t with
    | nil => rw [nil_left, nil_right]
    | cons b t iht =>
      have hcost : (if a = b then 0 else 1) = if b = a then 0 else 1 := by simp only [eq_comm]
      rw [cons_cons, cons_cons, ihs, ihs, iht, hcost]
      omega

theorem editDistance_self (s : List α) : editDistance s s = 0 := by
  induction s with
  | nil => exact nil_left []
  | cons a s ih =>
    rw [cons_cons, ih, if_pos rfl]
    omega

/-- Replacing and then inserting or deleting is a way. -/
theorem editDistance_le (s t : List α) : editDistance s t ≤ max s.length t.length := by
  induction s generalizing t with
  | nil =>
    rw [nil_left]
    exact Nat.le_max_right _ _
  | cons a s ih =>
    cases t with
    | nil =>
      rw [nil_right]
      exact Nat.le_max_left _ _
    | cons b t =>
      have hcost : (if a = b then 0 else 1) ≤ 1 := by split <;> omega
      have hrest := ih t
      rw [cons_cons]
      simp only [List.length_cons]
      omega

/-! ### Ways through a third list -/

theorem le_delete (a : α) (s t : List α) : editDistance (a :: s) t ≤ editDistance s t + 1 := by
  cases t with
  | nil => simp [nil_right]
  | cons b t =>
    rw [cons_cons]
    omega

theorem le_insert (s : List α) (b : α) (t : List α) :
    editDistance s (b :: t) ≤ editDistance s t + 1 := by
  rw [editDistance_comm s, editDistance_comm s]
  exact le_delete b t s

theorem le_replace (a b : α) (s t : List α) :
    editDistance (a :: s) (b :: t) ≤ editDistance s t + if a = b then 0 else 1 := by
  rw [cons_cons]
  exact Nat.min_le_right _ _

/-- The changes between two lists that are not empty begin in one of three ways. -/
theorem cons_cons_cases (a b : α) (s t : List α) :
    editDistance (a :: s) (b :: t) = editDistance s (b :: t) + 1 ∨
      editDistance (a :: s) (b :: t) = editDistance (a :: s) t + 1 ∨
      editDistance (a :: s) (b :: t) = editDistance s t + if a = b then 0 else 1 := by
  rw [cons_cons]
  omega

/-- The lengths differ by the distance at most. -/
theorem length_le (s t : List α) : t.length ≤ s.length + editDistance s t := by
  induction s generalizing t with
  | nil => simp [nil_left]
  | cons a s ihs =>
    induction t with
    | nil => simp
    | cons b t iht =>
      have hdelete := ihs (b :: t)
      have hreplace := ihs t
      simp only [List.length_cons] at *
      obtain h | h | h := cons_cons_cases a b s t <;> rw [h] <;> omega

theorem editDistance_triangle (s t u : List α) :
    editDistance s u ≤ editDistance s t + editDistance t u := by
  match s, t, u with
  | [], t, u =>
    have hlen := length_le t u
    simp only [nil_left]
    omega
  | s, t, [] =>
    have hlen := length_le t s
    rw [editDistance_comm t s] at hlen
    simp only [nil_right]
    omega
  | s, [], u =>
    have hle := editDistance_le s u
    simp only [nil_left, nil_right]
    omega
  | a :: s, b :: t, c :: u =>
    have hdelete := le_delete a s (c :: u)
    have hinsert := le_insert (a :: s) c u
    have hreplace := le_replace a c s u
    have hcost : (if a = c then 0 else 1) ≤ (if a = b then 0 else 1) + if b = c then 0 else 1 := by
      by_cases hab : a = b
      · simp [hab]
      · rw [if_neg hab]
        split <;> omega
    have hcosts : (if a = b then 0 else 1) ≤ 1 ∧ (if b = c then 0 else 1) ≤ 1 := by
      constructor <;> split <;> omega
    -- The way from the first list begins with a deletion, an insertion or a replacement.
    obtain h | h | h := cons_cons_cases a b s t
    · have ih := editDistance_triangle s (b :: t) (c :: u)
      omega
    · -- What was inserted is deleted or replaced on the way to the last one.
      obtain h' | h' | h' := cons_cons_cases b c t u
      · have ih := editDistance_triangle (a :: s) t (c :: u)
        omega
      · have ih := editDistance_triangle (a :: s) (b :: t) u
        omega
      · have ih := editDistance_triangle (a :: s) t u
        omega
    · obtain h' | h' | h' := cons_cons_cases b c t u
      · have ih := editDistance_triangle s t (c :: u)
        omega
      · have ih := editDistance_triangle (a :: s) (b :: t) u
        omega
      · have ih := editDistance_triangle s t u
        omega
  termination_by s.length + t.length + u.length

/-! ### The least number of changes -/

/-- The distance is the number of changes of one way. -/
theorem edits_editDistance (s t : List α) : Edits (editDistance s t) s t := by
  match s, t with
  | [], t =>
    rw [nil_left]
    exact edits_insertAll t
  | s, [] =>
    rw [nil_right]
    exact edits_deleteAll s
  | a :: s, b :: t =>
    obtain h | h | h := cons_cons_cases a b s t
    · rw [h]
      exact .step (.delete [] a s) (edits_editDistance s (b :: t))
    · rw [h]
      exact .step (.insert [] b (a :: s)) ((edits_editDistance (a :: s) t).cons b)
    · rw [h]
      by_cases hab : a = b
      · rw [if_pos hab, hab]
        exact (edits_editDistance s t).cons b
      · rw [if_neg hab]
        exact .step (.replace [] a b s) ((edits_editDistance s t).cons b)
  termination_by s.length + t.length

theorem append_le (pre s t : List α) : editDistance (pre ++ s) (pre ++ t) ≤ editDistance s t := by
  induction pre with
  | nil => exact Nat.le_refl _
  | cons a pre ih =>
    have h := le_replace a a (pre ++ s) (pre ++ t)
    simp only [List.cons_append]
    rw [if_pos rfl] at h
    omega

/-- One change is a distance of one at most. -/
theorem Edit.le {s t : List α} (h : Edit s t) : editDistance s t ≤ 1 := by
  cases h with
  | insert pre a post =>
    have hpre := append_le pre post (a :: post)
    have hins := le_insert post a post
    rw [editDistance_self] at hins
    omega
  | delete pre a post =>
    have hpre := append_le pre (a :: post) post
    have hdel := le_delete a post post
    rw [editDistance_self] at hdel
    omega
  | replace pre a b post =>
    have hpre := append_le pre (a :: post) (b :: post)
    have hrep := le_replace a b post post
    have hcost : (if a = b then 0 else 1) ≤ 1 := by split <;> omega
    rw [editDistance_self] at hrep
    omega

/-- No way is shorter. -/
theorem Edits.le {n : ℕ} {s t : List α} (h : Edits n s t) : editDistance s t ≤ n := by
  induction h with
  | refl s => exact Nat.le_of_eq (editDistance_self s)
  | @step n s t u he _ ih =>
    have hone := he.le
    have htriangle := editDistance_triangle s t u
    omega

/-- The distance is the least number of changes. -/
theorem isLeast_edits (s t : List α) : IsLeast {n | Edits n s t} (editDistance s t) :=
  ⟨edits_editDistance s t, fun _ h => h.le⟩

/-! ### Rows -/

/-- The distance of two prefixes, by their last items. -/
def ofPrefixes (s t : List α) : ℕ := editDistance s.reverse t.reverse

theorem ofPrefixes_snoc (s t : List α) (a b : α) : ofPrefixes (s ++ [a]) (t ++ [b]) =
    min (min (ofPrefixes s (t ++ [b]) + 1) (ofPrefixes (s ++ [a]) t + 1))
      (ofPrefixes s t + if a = b then 0 else 1) := by
  simp only [ofPrefixes, List.reverse_append, List.reverse_singleton, List.singleton_append]
  exact cons_cons a b _ _

theorem ofPrefixes_nil_left (t : List α) : ofPrefixes [] t = t.length :=
  (nil_left _).trans List.length_reverse

theorem ofPrefixes_nil_right (s : List α) : ofPrefixes s [] = s.length :=
  (nil_right _).trans List.length_reverse

theorem ofPrefixes_comm (s t : List α) : ofPrefixes s t = ofPrefixes t s := editDistance_comm _ _

theorem ofPrefixes_self (s : List α) : ofPrefixes s s = 0 := editDistance_self _

theorem ofPrefixes_triangle (s t u : List α) :
    ofPrefixes s u ≤ ofPrefixes s t + ofPrefixes t u := editDistance_triangle _ _ _

theorem isLeast_ofPrefixes (s t : List α) : IsLeast {n | Edits n s t} (ofPrefixes s t) := by
  have h := isLeast_edits s.reverse t.reverse
  rw [ofPrefixes]
  simpa only [edits_reverse_iff] using h

theorem ofPrefixes_le (s t : List α) : ofPrefixes s t ≤ max s.length t.length := by
  have h := editDistance_le s.reverse t.reverse
  rwa [List.length_reverse, List.length_reverse] at h

/-- The distances of `s` to `done` and to each longer prefix of `done ++ rest`. -/
def rowFrom (s done : List α) : List α → List ℕ
  | [] => [ofPrefixes s done]
  | b :: rest => ofPrefixes s done :: rowFrom s (done ++ [b]) rest

theorem rowFrom_eq_cons (s done rest : List α) :
    rowFrom s done rest = ofPrefixes s done :: (rowFrom s done rest).tail := by
  cases rest with
  | nil => rfl
  | cons b rest => rfl

theorem length_rowFrom (s rest : List α) : ∀ done, (rowFrom s done rest).length = rest.length + 1 := by
  induction rest with
  | nil => exact fun _ => rfl
  | cons b rest ih => exact fun done => congrArg (· + 1) (ih (done ++ [b]))

/-- The first row counts insertions. -/
theorem rowFrom_nil (rest : List α) : ∀ done,
    rowFrom [] done rest = List.range' done.length (rest.length + 1) := by
  induction rest with
  | nil =>
    intro done
    rw [rowFrom, ofPrefixes_nil_left]
    rfl
  | cons b rest ih =>
    intro done
    rw [rowFrom, ih, ofPrefixes_nil_left, List.length_append]
    rfl

/-- The last distance of a row. -/
theorem getD_rowFrom (s rest : List α) : ∀ done,
    (rowFrom s done rest).getD rest.length 0 = ofPrefixes s (done ++ rest) := by
  induction rest with
  | nil =>
    intro done
    rw [List.append_nil]
    rfl
  | cons b rest ih =>
    intro done
    rw [← List.singleton_append, ← List.append_assoc, ← ih]
    rfl

end EditDistance
