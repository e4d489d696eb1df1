/-
Tables with a unique key.

A `Table key` is a list of rows in insertion order in which no two rows share a
key; the uniqueness is a field, so a table that breaks it cannot be built.  The
operations are the forms of SQL statements met in the store:

* `insertNew` — `INSERT … ON CONFLICT (key) DO NOTHING`;
* `upsert` — `INSERT … ON CONFLICT (key) DO UPDATE`, of every other column;
* `updateWhere` — `UPDATE … SET … WHERE …`, on columns outside the key;
* `deleteWhere` — `DELETE … WHERE …`.

Each operation has one equation for `get`, which looks a row up by its key; with
`mem_rows_iff` they decide what any later statement can see.
-/
import Mathlib.Data.List.Nodup

variable {ρ κ : Type}

/-- Rows in insertion order, with pairwise distinct keys. -/
structure Table (key : ρ → κ) where
  rows : List ρ
  nodup : (rows.map key).Nodup

namespace Table

variable {key : ρ → κ}

/-- The table without rows. -/
def empty : Table key := ⟨[], List.nodup_nil⟩

@[simp] theorem empty_rows : (empty : Table key).rows = [] := rfl

/-- Keep the rows that do not satisfy `q`. -/
def deleteWhere (t : Table key) (q : ρ → Bool) : Table key :=
  ⟨t.rows.filter fun r => !q r, t.nodup.sublist ((List.filter_sublist).map key)⟩

/-- Rewrite the rows that satisfy `q`; the key of a row never changes. -/
def updateWhere (t : Table key) (q : ρ → Bool) (f : ρ → ρ) (hf : ∀ r, key (f r) = key r) :
    Table key :=
  ⟨t.rows.map fun r => if q r then f r else r, by
    have h : (key ∘ fun r => if q r then f r else r) = key := by
      funext r
      by_cases hq : q r = true
      · simp [hq, hf r]
      · simp [hq]
    rw [List.map_map, h]
    exact t.nodup⟩

@[simp] theorem rows_deleteWhere (t : Table key) (q : ρ → Bool) :
    (t.deleteWhere q).rows = t.rows.filter fun r => !q r := rfl

@[simp] theorem rows_updateWhere (t : Table key) (q : ρ → Bool) (f : ρ → ρ)
    (hf : ∀ r, key (f r) = key r) :
    (t.updateWhere q f hf).rows = t.rows.map fun r => if q r then f r else r := rfl

/-- Tables with the same rows are equal. -/
theorem ext_rows {t t' : Table key} (h : t.rows = t'.rows) : t = t' := by
  cases t
  cases t'
  cases h
  rfl

/-- A `DELETE` that matches no row. -/
theorem deleteWhere_eq_self {t : Table key} {q : ρ → Bool} :
    t.deleteWhere q = t ↔ ∀ r ∈ t.rows, q r = false := by
  constructor
  · intro h r hr
    rw [← h, rows_deleteWhere, List.mem_filter] at hr
    simpa using hr.2
  · intro h
    refine ext_rows (List.filter_eq_self.mpr fun r hr => ?_)
    rw [h r hr]
    rfl

theorem mem_deleteWhere {t : Table key} {q : ρ → Bool} {r : ρ} :
    r ∈ (t.deleteWhere q).rows ↔ r ∈ t.rows ∧ q r = false := by
  rw [rows_deleteWhere, List.mem_filter, Bool.not_eq_true']

@[simp] theorem deleteWhere_deleteWhere_self (t : Table key) (q : ρ → Bool) :
    (t.deleteWhere q).deleteWhere q = t.deleteWhere q :=
  deleteWhere_eq_self.mpr fun _ hr => (mem_deleteWhere.mp hr).2

theorem eq_of_mem {t : Table key} {r r' : ρ} (h : r ∈ t.rows) (h' : r' ∈ t.rows)
    (hk : key r = key r') : r = r' :=
  List.inj_on_of_nodup_map t.nodup h h' hk

variable [DecidableEq κ]

/-- The row with key `k`. -/
def get (t : Table key) (k : κ) : Option ρ := t.rows.find? fun r => key r = k

/-- Append a row unless its key is taken. -/
def insertNew (t : Table key) (r : ρ) : Table key :=
  if h : key r ∈ t.rows.map key then t
  else ⟨t.rows ++ [r], by
    rw [List.map_append, List.map_singleton]
    exact List.nodup_append.mpr ⟨t.nodup, List.nodup_singleton _, fun a ha b hb => by
      rw [List.mem_singleton] at hb
      rintro rfl
      exact h (hb ▸ ha)⟩⟩

/-- Replace the row with the same key, or append. -/
def upsert (t : Table key) (r : ρ) : Table key :=
  if (t.get (key r)).isSome then
    t.updateWhere (fun _ => true) (fun x => if key x = key r then r else x) fun x => by
      split
      · next h => exact h.symm
      · rfl
  else t.insertNew r

theorem mem_of_get {t : Table key} {k : κ} {r : ρ} (h : t.get k = some r) :
    r ∈ t.rows ∧ key r = k :=
  ⟨List.mem_of_find?_eq_some h, by simpa using List.find?_some h⟩

theorem get_eq_none {t : Table key} {k : κ} : t.get k = none ↔ k ∉ t.rows.map key := by
  simp only [get, List.find?_eq_none, decide_eq_true_eq, List.mem_map, not_exists, not_and]

/-- A row of the table is what a look-up of its key finds. -/
theorem mem_rows_iff {t : Table key} {r : ρ} : r ∈ t.rows ↔ t.get (key r) = some r := by
  constructor
  · intro h
    cases hg : t.get (key r) with
    | none => exact absurd (List.mem_map_of_mem h) (get_eq_none.mp hg)
    | some r' =>
      obtain ⟨hr', hk⟩ := mem_of_get hg
      rw [eq_of_mem hr' h hk]
  · exact fun h => (mem_of_get h).1

@[simp] theorem get_empty (k : κ) : (empty : Table key).get k = none := rfl

theorem get_insertNew (t : Table key) (r : ρ) (k : κ) :
    (t.insertNew r).get k = (t.get k).or (if key r = k then some r else none) := by
  unfold insertNew
  by_cases h : key r ∈ t.rows.map key
  · rw [dif_pos h]
    by_cases hk : key r = k
    · subst hk
      cases hg : t.get (key r) with
      | none => exact absurd h (get_eq_none.mp hg)
      | some x => rfl
    · rw [if_neg hk, Option.or_none]
  · rw [dif_neg h]
    simp only [get, List.find?_append, List.find?_singleton]
    by_cases hk : key r = k <;> simp [hk]

theorem get_insertNew_of_ne {t : Table key} {r : ρ} {k : κ} (h : key r ≠ k) :
    (t.insertNew r).get k = t.get k := by
  rw [get_insertNew, if_neg h, Option.or_none]

theorem rows_insertNew_of_get {t : Table key} {r x : ρ} (h : t.get (key r) = some x) :
    t.insertNew r = t := by
  have : key r ∈ t.rows.map key := by
    by_contra hc
    rw [get_eq_none.mpr hc] at h
    cases h
  exact dif_pos this

theorem mem_insertNew_of_none {t : Table key} {r x : ρ} (h : t.get (key r) = none) :
    x ∈ (t.insertNew r).rows ↔ x ∈ t.rows ∨ x = r := by
  have : key r ∉ t.rows.map key := get_eq_none.mp h
  rw [insertNew, dif_neg this]
  simp

theorem rows_insertNew_of_none {t : Table key} {r : ρ} (h : t.get (key r) = none) :
    (t.insertNew r).rows = t.rows ++ [r] := by
  have : key r ∉ t.rows.map key := get_eq_none.mp h
  rw [insertNew, dif_neg this]

theorem rows_sublist_insertNew (t : Table key) (r : ρ) {x : ρ} (hx : x ∈ t.rows) :
    x ∈ (t.insertNew r).rows := by
  rw [mem_rows_iff] at hx ⊢
  rw [get_insertNew, hx]
  rfl

theorem mem_insertNew {t : Table key} {r x : ρ} (hx : x ∈ (t.insertNew r).rows) :
    x ∈ t.rows ∨ x = r := by
  cases hg : t.get (key r) with
  | none => exact (mem_insertNew_of_none hg).mp hx
  | some y =>
    rw [rows_insertNew_of_get hg] at hx
    exact .inl hx

/-- After the insertion there is a row with the key, old or new. -/
theorem exists_key_insertNew (t : Table key) (r : ρ) :
    ∃ x ∈ (t.insertNew r).rows, key x = key r := by
  cases hg : t.get (key r) with
  | none => exact ⟨r, (mem_insertNew_of_none hg).mpr (.inr rfl), rfl⟩
  | some x => exact ⟨x, rows_sublist_insertNew t r (mem_of_get hg).1, (mem_of_get hg).2⟩

/-- Rows inserted one after another: the first of a key stays. -/
theorem get_foldl_insertNew (rs : List ρ) (k : κ) : ∀ t : Table key,
    (rs.foldl Table.insertNew t).get k = (t.get k).or (rs.find? fun r => key r = k) := by
  induction rs with
  | nil =>
    intro t
    rw [List.foldl_nil, List.find?_nil, Option.or_none]
  | cons r rs ih =>
    intro t
    rw [List.foldl_cons, ih, get_insertNew, Option.or_assoc]
    congr 1
    by_cases hk : key r = k
    · rw [if_pos hk, List.find?_cons_of_pos (by simpa using hk)]
      rfl
    · rw [if_neg hk, List.find?_cons_of_neg (by simpa using hk)]
      rfl

/-- Rows that are there already. -/
theorem foldl_insertNew_self {t : Table key} {rs : List ρ} (h : ∀ r ∈ rs, t.get (key r) ≠ none) :
    rs.foldl Table.insertNew t = t := by
  induction rs with
  | nil => rfl
  | cons r rs ih =>
    obtain ⟨x, hx⟩ := Option.ne_none_iff_exists'.mp (h r List.mem_cons_self)
    rw [List.foldl_cons, rows_insertNew_of_get hx]
    exact ih fun r' hr' => h r' (List.mem_cons_of_mem r hr')

/-- The second time, they are. -/
theorem foldl_insertNew_foldl (rs : List ρ) (t : Table key) :
    rs.foldl Table.insertNew (rs.foldl Table.insertNew t) = rs.foldl Table.insertNew t := by
  refine foldl_insertNew_self fun r hr hnone => ?_
  rw [get_foldl_insertNew] at hnone
  have hfind := List.find?_eq_none.mp (Option.or_eq_none_iff.mp hnone).2 r hr
  exact hfind (by simp)

theorem get_updateWhere (t : Table key) (q : ρ → Bool) (f : ρ → ρ)
    (hf : ∀ r, key (f r) = key r) (k : κ) :
    (t.updateWhere q f hf).get k = (t.get k).map fun r => if q r then f r else r := by
  have hkey : ∀ r, key (if q r then f r else r) = key r := by
    intro r
    by_cases hq : q r = true
    · rw [if_pos hq, hf r]
    · rw [if_neg hq]
  simp only [get, rows_updateWhere, List.find?_map]
  congr 1
  congr 1
  funext r
  simp only [Function.comp_apply, hkey]

theorem get_updateWhere_of_some {t : Table key} {q : ρ → Bool} {f : ρ → ρ}
    (hf : ∀ r, key (f r) = key r) {k : κ} {r : ρ} (h : t.get k = some r) :
    (t.updateWhere q f hf).get k = some (if q r then f r else r) := by
  rw [get_updateWhere, h, Option.map_some]

theorem get_deleteWhere (t : Table key) (q : ρ → Bool) (k : κ) :
    (t.deleteWhere q).get k = (t.get k).filter fun r => !q r := by
  cases hg : t.get k with
  | none =>
    rw [get_eq_none] at hg
    rw [Option.filter_none, get_eq_none]
    intro hk
    exact hg (List.map_subset key (List.filter_subset_self _) hk)
  | some r =>
    obtain ⟨hr, rfl⟩ := mem_of_get hg
    by_cases hq : q r = true
    · rw [Option.filter_some, if_neg (by simp [hq]), get_eq_none]
      intro hk
      obtain ⟨x, hx, hxk⟩ := List.mem_map.mp hk
      rw [rows_deleteWhere, List.mem_filter] at hx
      obtain rfl := eq_of_mem hx.1 hr hxk
      simp [hq] at hx
    · have hmem : r ∈ (t.deleteWhere q).rows := by
        rw [rows_deleteWhere, List.mem_filter]
        exact ⟨hr, by simpa using hq⟩
      rw [mem_rows_iff.mp hmem, Option.filter_some, if_pos (by simpa using hq)]

/-! ### What operations leave alone -/

omit [DecidableEq κ] in
/-- An `UPDATE` of rows outside `p`. -/
theorem filter_updateWhere {t : Table key} {p q : ρ → Bool} {f : ρ → ρ}
    (hf : ∀ r, key (f r) = key r)
    (h : ∀ r ∈ t.rows, q r = true → p r = false ∧ p (f r) = false) :
    (t.updateWhere q f hf).rows.filter p = t.rows.filter p := by
  rw [rows_updateWhere, List.filter_map]
  have hp : ∀ r ∈ t.rows, (p ∘ fun r => if q r then f r else r) r = p r := by
    intro r hr
    by_cases hq : q r = true
    · obtain ⟨h₁, h₂⟩ := h r hr hq
      simp only [Function.comp_apply, hq, if_true, h₁, h₂]
    · simp only [Function.comp_apply, hq, Bool.false_eq_true, if_false]
  rw [List.filter_congr hp]
  refine (List.map_congr_left fun r hr => ?_).trans (List.map_id _)
  obtain ⟨hmem, hpr⟩ := List.mem_filter.mp hr
  refine if_neg fun hq => ?_
  rw [(h r hmem hq).1] at hpr
  cases hpr

/-- An `INSERT` of a row outside `p`. -/
theorem filter_insertNew {t : Table key} {p : ρ → Bool} {r : ρ} (h : p r = false) :
    (t.insertNew r).rows.filter p = t.rows.filter p := by
  cases hg : t.get (key r) with
  | some x => rw [rows_insertNew_of_get hg]
  | none =>
    rw [rows_insertNew_of_none hg, List.filter_append, List.filter_singleton, h]
    exact List.append_nil _

omit [DecidableEq κ] in
/-- A `DELETE` of rows outside `p`. -/
theorem filter_deleteWhere {t : Table key} {p q : ρ → Bool} (h : ∀ r, q r = true → p r = false) :
    (t.deleteWhere q).rows.filter p = t.rows.filter p := by
  rw [rows_deleteWhere, List.filter_filter]
  refine List.filter_congr fun r _ => ?_
  cases hq : q r with
  | true => simp [h r hq]
  | false => simp

/-- An upsert of a row whose key is outside `p`. -/
theorem filter_upsert {t : Table key} {p : ρ → Bool} {r : ρ} (h : ∀ x, key x = key r → p x = false) :
    (t.upsert r).rows.filter p = t.rows.filter p := by
  unfold upsert
  split
  · rw [rows_updateWhere, List.filter_map]
    have hp : ∀ x ∈ t.rows,
        (p ∘ fun x => if true then if key x = key r then r else x else x) x = p x := by
      intro x _
      by_cases hx : key x = key r
      · simp only [Function.comp_apply, if_true, if_pos hx, h x hx, h r rfl]
      · simp only [Function.comp_apply, if_true, if_neg hx]
    rw [List.filter_congr hp]
    refine (List.map_congr_left fun x hx => ?_).trans (List.map_id _)
    have hpx : p x = true := (List.mem_filter.mp hx).2
    refine (if_pos rfl).trans (if_neg fun hkey => ?_)
    rw [h x hkey] at hpx
    cases hpx
  · exact filter_insertNew (h r rfl)

/-! ### Rows that are written again -/

/-- A deletion that takes the row of an upsert with it. -/
theorem deleteWhere_upsert {t : Table key} {q : ρ → Bool} {r : ρ}
    (h : ∀ x, key x = key r → q x = true) : (t.upsert r).deleteWhere q = t.deleteWhere q :=
  ext_rows (filter_upsert fun x hx => by rw [h x hx]; rfl)

theorem deleteWhere_foldl_upsert {q : ρ → Bool} (rs : List ρ)
    (h : ∀ r ∈ rs, ∀ x, key x = key r → q x = true) : ∀ t : Table key,
    (rs.foldl Table.upsert t).deleteWhere q = t.deleteWhere q := by
  induction rs with
  | nil => exact fun t => rfl
  | cons r rs ih =>
    intro t
    rw [List.foldl_cons, ih fun r' hr' => h r' (List.mem_cons_of_mem r hr'),
      deleteWhere_upsert (h r List.mem_cons_self)]

theorem rows_upsert_of_get {t : Table key} {r x : ρ} (h : t.get (key r) = some x) :
    (t.upsert r).rows = t.rows.map fun y => if key y = key r then r else y := by
  rw [upsert, if_pos (by rw [h]; rfl), rows_updateWhere]
  exact List.map_congr_left fun y _ => if_pos rfl

theorem upsert_of_none {t : Table key} {r : ρ} (h : t.get (key r) = none) :
    t.upsert r = t.insertNew r := by
  rw [upsert, if_neg (by rw [h]; exact Bool.false_ne_true)]

theorem mem_upsert_self (t : Table key) (r : ρ) : r ∈ (t.upsert r).rows := by
  cases hget : t.get (key r) with
  | none =>
    rw [upsert_of_none hget, mem_insertNew_of_none hget]
    exact .inr rfl
  | some x =>
    rw [rows_upsert_of_get hget]
    exact List.mem_map.mpr ⟨x, (mem_of_get hget).1, if_pos (mem_of_get hget).2⟩

/-- The last upsert of a key is the one that counts. -/
theorem upsert_upsert {r r' : ρ} (h : key r = key r') (t : Table key) :
    (t.upsert r).upsert r' = t.upsert r' := by
  have hget : (t.upsert r).get (key r') = some r :=
    h ▸ mem_rows_iff.mp (mem_upsert_self t r)
  refine ext_rows ?_
  rw [rows_upsert_of_get hget]
  cases hold : t.get (key r) with
  | none =>
    rw [upsert_of_none hold, rows_insertNew_of_none hold, upsert_of_none (h ▸ hold),
      rows_insertNew_of_none (h ▸ hold), List.map_append, List.map_singleton, if_pos h]
    refine congrArg (· ++ [r']) ((List.map_congr_left fun y hy => if_neg fun hkey => ?_).trans
      (List.map_id _))
    exact get_eq_none.mp hold (List.mem_map.mpr ⟨y, hy, hkey.trans h.symm⟩)
  | some x =>
    rw [rows_upsert_of_get hold, rows_upsert_of_get (h ▸ hold), List.map_map]
    refine List.map_congr_left fun y _ => ?_
    by_cases hkey : key y = key r
    · simp only [Function.comp_apply, if_pos hkey, if_pos h, if_pos (hkey.trans h)]
    · simp only [Function.comp_apply, if_neg hkey]

/-- Upserts of rows that agree on `f`. -/
theorem map_upsert_congr {τ : Type} {r r' : ρ} {f : ρ → τ} (h : key r = key r') (hf : f r = f r')
    (t : Table key) :
    (t.upsert r).rows.map f = (t.upsert r').rows.map f := by
  cases hold : t.get (key r) with
  | none =>
    rw [upsert_of_none hold, rows_insertNew_of_none hold, upsert_of_none (h ▸ hold),
      rows_insertNew_of_none (h ▸ hold), List.map_append, List.map_append, List.map_singleton,
      List.map_singleton, hf]
  | some x =>
    rw [rows_upsert_of_get hold, rows_upsert_of_get (h ▸ hold), List.map_map, List.map_map]
    refine List.map_congr_left fun y _ => ?_
    by_cases hkey : key y = key r
    · simp only [Function.comp_apply, if_pos hkey, if_pos (hkey.trans h), hf]
    · have hkey' : ¬ key y = key r' := fun hk => hkey (hk.trans h.symm)
      simp only [Function.comp_apply, if_neg hkey, if_neg hkey']

/-- Every row stays, with the same value of `g`. -/
def Persists {τ : Type} (t : Table key) (g : ρ → τ) (t' : Table key) : Prop :=
  ∀ k r, t.get k = some r → ∃ r', t'.get k = some r' ∧ g r' = g r

namespace Persists

variable {τ : Type} {t t' t'' : Table key} {g : ρ → τ}

theorem refl (t : Table key) (g : ρ → τ) : t.Persists g t := fun _ r h => ⟨r, h, rfl⟩

theorem trans (h : t.Persists g t') (h' : t'.Persists g t'') : t.Persists g t'' := by
  intro k r hr
  obtain ⟨r₁, h₁, hg₁⟩ := h k r hr
  obtain ⟨r₂, h₂, hg₂⟩ := h' k r₁ h₁
  exact ⟨r₂, h₂, hg₂.trans hg₁⟩

theorem insertNew (t : Table key) (g : ρ → τ) (r : ρ) : t.Persists g (t.insertNew r) := by
  intro k x hx
  refine ⟨x, ?_, rfl⟩
  rw [get_insertNew, hx]
  rfl

theorem updateWhere {q : ρ → Bool} {f : ρ → ρ} (hf : ∀ r, key (f r) = key r)
    (hg : ∀ r, g (f r) = g r) : t.Persists g (t.updateWhere q f hf) := by
  intro k r hr
  refine ⟨_, get_updateWhere_of_some hf hr, ?_⟩
  split
  · exact hg r
  · rfl

end Persists

end Table
