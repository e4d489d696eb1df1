/-
Breadth-first search with caps.

A graph is given by `next`: the labelled edges that leave a vertex, with their far ends.
The search keeps its vertices in a list, in the order in which they are found; the `n`-th
is expanded after the first `n` are.

* `found`, `met` — the vertices and edges after `n` expansions, without any cap;
* `mem_found_iff` — when no vertex is left to expand, `found` is a ball, with distances;
* `Search.run` — the same with a queue, a visited set, a cap on either list and an early exit;
* `Search.run_kept` — it keeps the first vertices and edges of `found` and `met`, and its
  flag says whether these are all;
* `Search.run_exact` — so the flag tells whether the ball exceeds a cap.
-/
import Mathlib.Combinatorics.SimpleGraph.Metric
import Mathlib.Data.List.Dedup
import Mathlib.Data.Set.Card

variable {V E K α κ : Type}

/-! ### Growing lists -/

section PushNew

variable [DecidableEq κ] (key : α → κ)

/-- Append unless the key is there. -/
def pushNew (l : List α) (x : α) : List α := if key x ∈ l.map key then l else l ++ [x]

/-- Append those whose keys are not there. -/
def pushAll (l xs : List α) : List α := xs.foldl (pushNew key) l

variable {key} {l xs : List α} {x : α}

/-- A part of the new elements is appended, in their order. -/
theorem pushAll_append (key : α → κ) : ∀ (xs l : List α),
    ∃ t, t.Sublist xs ∧ pushAll key l xs = l ++ t := by
  intro xs
  induction xs with
  | nil => exact fun l => ⟨[], .slnil, (List.append_nil l).symm⟩
  | cons x xs ih =>
    intro l
    obtain ⟨t, ht, heq⟩ := ih (pushNew key l x)
    show ∃ t, t.Sublist (x :: xs) ∧ pushAll key (pushNew key l x) xs = l ++ t
    rw [heq, pushNew]
    split
    · exact ⟨t, ht.cons x, rfl⟩
    · exact ⟨x :: t, ht.cons_cons x, by rw [List.append_assoc, List.singleton_append]⟩

theorem prefix_pushAll : l <+: pushAll key l xs := by
  obtain ⟨t, -, heq⟩ := pushAll_append key xs l
  exact ⟨t, heq.symm⟩

theorem mem_pushAll {y : α} (h : y ∈ pushAll key l xs) : y ∈ l ∨ y ∈ xs := by
  obtain ⟨t, ht, heq⟩ := pushAll_append key xs l
  rw [heq, List.mem_append] at h
  exact h.imp id fun hy => ht.subset hy

theorem mem_keys_pushNew {k : κ} :
    k ∈ (pushNew key l x).map key ↔ k ∈ l.map key ∨ k = key x := by
  unfold pushNew
  split
  · next h => exact ⟨.inl, fun h' => h'.elim id fun heq => heq ▸ h⟩
  · rw [List.map_append, List.mem_append, List.map_singleton, List.mem_singleton]

theorem mem_keys_pushAll {k : κ} : ∀ {xs l : List α},
    k ∈ (pushAll key l xs).map key ↔ k ∈ l.map key ∨ k ∈ xs.map key := by
  intro xs
  induction xs with
  | nil => simp [pushAll]
  | cons x xs ih =>
    intro l
    show k ∈ (pushAll key (pushNew key l x) xs).map key ↔ _
    rw [ih, mem_keys_pushNew, List.map_cons, List.mem_cons, or_assoc]

theorem nodup_pushNew (h : (l.map key).Nodup) : ((pushNew key l x).map key).Nodup := by
  unfold pushNew
  split
  · exact h
  · next hx =>
    rw [List.map_append, List.map_singleton, ← List.concat_eq_append]
    exact h.concat hx

theorem nodup_pushAll : ∀ {xs l : List α}, (l.map key).Nodup → ((pushAll key l xs).map key).Nodup := by
  intro xs
  induction xs with
  | nil => exact fun h => h
  | cons x xs ih => exact fun h => ih (nodup_pushNew h)

end PushNew

/-! ### Breadth-first order -/

section Found

variable [DecidableEq V] [DecidableEq K] (next : V → List (E × V)) (key : E → K) (r : ℕ) (s : V)

/-- The edges that leave a vertex found at some depth; none at the radius. -/
def leaving (p : V × ℕ) : List (E × V) := if p.2 < r then next p.1 else []

/-- The far ends of these edges, one level further. -/
def ends (p : V × ℕ) : List (V × ℕ) := (leaving next r p).map fun e => (e.2, p.2 + 1)

/-- The vertices in the order in which they are found, with the depth at which each is
found, after `n` of them are expanded. -/
def found : ℕ → List (V × ℕ)
  | 0 => [(s, 0)]
  | n + 1 => match (found n)[n]? with
    | none => found n
    | some p => pushAll Prod.fst (found n) (ends next r p)

/-- The edges in the order in which they are met, after `n` vertices are expanded. -/
def met : ℕ → List E
  | 0 => []
  | n + 1 => match (found next r s n)[n]? with
    | none => met n
    | some p => pushAll key (met n) ((leaving next r p).map Prod.fst)

variable {next key r s} {n m : ℕ} {p q : V × ℕ}

theorem found_succ_none (h : (found next r s n)[n]? = none) :
    found next r s (n + 1) = found next r s n := by
  rw [found, h]

theorem found_succ (h : (found next r s n)[n]? = some p) :
    found next r s (n + 1) = pushAll Prod.fst (found next r s n) (ends next r p) := by
  rw [found, h]

theorem met_succ_none (h : (found next r s n)[n]? = none) :
    met next key r s (n + 1) = met next key r s n := by
  rw [met, h]

theorem met_succ (h : (found next r s n)[n]? = some p) :
    met next key r s (n + 1) =
      pushAll key (met next key r s n) ((leaving next r p).map Prod.fst) := by
  rw [met, h]

theorem found_mono_succ (n : ℕ) : found next r s n <+: found next r s (n + 1) := by
  cases h : (found next r s n)[n]? with
  | none => rw [found_succ_none h]
  | some p =>
    rw [found_succ h]
    exact prefix_pushAll

theorem met_mono_succ (n : ℕ) : met next key r s n <+: met next key r s (n + 1) := by
  cases h : (found next r s n)[n]? with
  | none => rw [met_succ_none h]
  | some p =>
    rw [met_succ h]
    exact prefix_pushAll

theorem found_mono (h : n ≤ m) : found next r s n <+: found next r s m :=
  Nat.le_induction (List.prefix_refl _) (fun k _ ih => ih.trans (found_mono_succ k)) m h

theorem met_mono (h : n ≤ m) : met next key r s n <+: met next key r s m :=
  Nat.le_induction (List.prefix_refl _) (fun k _ ih => ih.trans (met_mono_succ k)) m h

/-- Nothing changes once every vertex is expanded. -/
theorem found_stable (h : (found next r s n).length ≤ n) (hm : n ≤ m) :
    found next r s m = found next r s n :=
  Nat.le_induction rfl (fun k hk ih => by
    refine (found_succ_none ?_).trans ih
    rw [ih]
    exact List.getElem?_eq_none (h.trans hk)) m hm

theorem met_stable (h : (found next r s n).length ≤ n) (hm : n ≤ m) :
    met next key r s m = met next key r s n :=
  Nat.le_induction rfl (fun k hk ih => by
    refine (met_succ_none ?_).trans ih
    rw [found_stable h hk]
    exact List.getElem?_eq_none (h.trans hk)) m hm

theorem found_nodup (n : ℕ) : ((found next r s n).map Prod.fst).Nodup := by
  induction n with
  | zero => exact List.nodup_singleton s
  | succ n ih =>
    cases h : (found next r s n)[n]? with
    | none =>
      rw [found_succ_none h]
      exact ih
    | some p =>
      rw [found_succ h]
      exact nodup_pushAll ih

theorem met_nodup (n : ℕ) : ((met next key r s n).map key).Nodup := by
  induction n with
  | zero => exact List.nodup_nil
  | succ n ih =>
    cases h : (found next r s n)[n]? with
    | none =>
      rw [met_succ_none h]
      exact ih
    | some p =>
      rw [met_succ h]
      exact nodup_pushAll ih

end Found

/-! ### Distances -/

/-- `next` lists the edges of the graph, and besides them only loops; an edge has one key,
from whichever end it is listed. -/
structure Enumerates (next : V → List (E × V)) (key : E → K) (G : SimpleGraph V) : Prop where
  adj : ∀ u e v, (e, v) ∈ next u → u = v ∨ G.Adj u v
  all : ∀ u v, G.Adj u v → ∃ e, (e, v) ∈ next u
  unique : ∀ u v e u' v' e', (e, v) ∈ next u → (e', v') ∈ next u' → key e = key e' → e = e'

section Distances

variable {next : V → List (E × V)} {key : E → K} {r : ℕ} {s : V} {G : SimpleGraph V} {n : ℕ}
  {p q : V × ℕ}

theorem mem_leaving {e : E} {v : V} : (e, v) ∈ leaving next r p ↔ p.2 < r ∧ (e, v) ∈ next p.1 := by
  unfold leaving
  split
  · next h => exact (and_iff_right h).symm
  · next h => exact iff_of_false List.not_mem_nil fun h' => h h'.1

theorem mem_ends : q ∈ ends next r p ↔ ∃ e, (e, q.1) ∈ leaving next r p ∧ q.2 = p.2 + 1 := by
  rw [ends, List.mem_map]
  constructor
  · rintro ⟨⟨e, v⟩, he, rfl⟩
    exact ⟨e, he, rfl⟩
  · rintro ⟨e, he, hq⟩
    exact ⟨(e, q.1), he, Prod.ext rfl hq.symm⟩

variable [DecidableEq V] [DecidableEq K]

/-- What holds while vertices are expanded. -/
structure Breadth (next : V → List (E × V)) (key : E → K) (r : ℕ) (s : V) (G : SimpleGraph V)
    (n : ℕ) : Prop where
  /-- a depth is the length of a walk -/
  walk : ∀ p ∈ found next r s n, p.2 ≤ r ∧ ∃ w : G.Walk s p.1, w.length = p.2
  /-- depths only grow along the list -/
  sorted : (found next r s n).Pairwise fun p q => p.2 ≤ q.2
  /-- the queue covers two levels at most -/
  near : ∀ i p, n ≤ i → (found next r s n)[i]? = some p → ∀ q ∈ found next r s n, q.2 ≤ p.2 + 1
  /-- expanded vertices have their neighbors in the list, and their edges -/
  closed : ∀ i p, i < n → (found next r s n)[i]? = some p → ∀ e v, (e, v) ∈ leaving next r p →
    (∃ d ≤ p.2 + 1, (v, d) ∈ found next r s n) ∧ key e ∈ (met next key r s n).map key
  /-- the edges met leave vertices of the list -/
  source : ∀ e ∈ met next key r s n, ∃ p ∈ found next r s n, ∃ v, (e, v) ∈ leaving next r p

theorem getElem?_mono {α : Type} {l l' : List α} {i : ℕ} {x : α} (h : l <+: l')
    (hi : l[i]? = some x) : l'[i]? = some x := by
  obtain ⟨t, rfl⟩ := h
  rw [List.getElem?_append_left (List.getElem?_eq_some_iff.mp hi).1]
  exact hi

theorem breadth_zero : Breadth next key r s G 0 where
  walk p hp := by
    obtain rfl := List.mem_singleton.mp hp
    exact ⟨Nat.zero_le r, SimpleGraph.Walk.nil, rfl⟩
  sorted := List.pairwise_singleton _ _
  near i p _ _ q hq := by
    obtain rfl := List.mem_singleton.mp hq
    exact Nat.zero_le _
  closed _ _ hi := absurd hi (Nat.not_lt_zero _)
  source _ he := absurd he List.not_mem_nil

/-- Expanding one vertex. -/
theorem Breadth.expand (hG : Enumerates next key G) (h : Breadth next key r s G n)
    (hp : (found next r s n)[n]? = some p) : Breadth next key r s G (n + 1) := by
  have hmem : p ∈ found next r s n := List.mem_of_getElem? hp
  have hm : met next key r s (n + 1) = _ := met_succ hp
  -- the list grows by some of the ends, all of them one level below the vertex
  obtain ⟨t, ht, happ⟩ := pushAll_append Prod.fst (ends next r p) (found next r s n)
  have hf : found next r s (n + 1) = found next r s n ++ t := (found_succ hp).trans happ
  have hnew : ∀ q ∈ t, ∃ e, (e, q.1) ∈ leaving next r p ∧ q.2 = p.2 + 1 :=
    fun q hq => mem_ends.mp (ht.subset hq)
  have hold : ∀ q ∈ found next r s n, q.2 ≤ p.2 + 1 := h.near n p le_rfl hp
  have hsorted : (found next r s (n + 1)).Pairwise fun p q => p.2 ≤ q.2 := by
    rw [hf]
    refine List.pairwise_append.mpr ⟨h.sorted, ?_, fun q hq q' hq' => ?_⟩
    · refine List.pairwise_of_forall_mem_list fun q hq q' hq' => ?_
      obtain ⟨-, -, hd⟩ := hnew q hq
      obtain ⟨-, -, hd'⟩ := hnew q' hq'
      omega
    · obtain ⟨-, -, hd'⟩ := hnew q' hq'
      exact (hold q hq).trans hd'.ge
  have hdepth : ∀ q ∈ found next r s (n + 1), q.2 ≤ p.2 + 1 := by
    intro q hq
    rw [hf, List.mem_append] at hq
    rcases hq with hq | hq
    · exact hold q hq
    · obtain ⟨-, -, hd⟩ := hnew q hq
      exact hd.le
  refine ⟨fun q hq => ?_, hsorted, fun i p' hi hget q hq => ?_, fun i p' hi hget e v he => ?_,
    fun e he => ?_⟩
  · rw [hf, List.mem_append] at hq
    rcases hq with hq | hq
    · exact h.walk q hq
    · obtain ⟨e, he, hd⟩ := hnew q hq
      obtain ⟨hr, he⟩ := mem_leaving.mp he
      obtain ⟨-, w, hw⟩ := h.walk p hmem
      have hadj : G.Adj p.1 q.1 := by
        refine (hG.adj _ e _ he).resolve_left fun heq => ?_
        -- a loop leads to a vertex that is in the list already
        have hnodup : ((found next r s (n + 1)).map Prod.fst).Nodup := found_nodup (n + 1)
        rw [hf, List.map_append] at hnodup
        exact List.disjoint_of_nodup_append hnodup (List.mem_map_of_mem hmem)
          (heq ▸ List.mem_map_of_mem hq)
      exact ⟨by omega, w.concat hadj, by rw [SimpleGraph.Walk.length_concat, hw, hd]⟩
  · -- the vertex itself stands before the next one to be expanded
    have hle : p.2 ≤ p'.2 := by
      obtain ⟨hi', rfl⟩ := List.getElem?_eq_some_iff.mp hget
      obtain ⟨hn', hpn⟩ := List.getElem?_eq_some_iff.mp (getElem?_mono (found_mono_succ n) hp)
      have hord := List.pairwise_iff_getElem.mp hsorted n i hn' hi' hi
      rwa [hpn] at hord
    exact (hdepth q hq).trans (Nat.add_le_add_right hle 1)
  · rcases Nat.lt_succ_iff_lt_or_eq.mp hi with hi | rfl
    · have hin : i < (found next r s n).length :=
        hi.trans (List.getElem?_eq_some_iff.mp hp).1
      rw [hf, List.getElem?_append_left hin] at hget
      obtain ⟨⟨d, hd, hv⟩, hk⟩ := h.closed i p' hi hget e v he
      exact ⟨⟨d, hd, (found_mono_succ n).subset hv⟩,
        ((met_mono_succ n).map key).subset hk⟩
    · obtain rfl : p = p' := by
        rw [getElem?_mono (found_mono_succ i) hp] at hget
        exact Option.some.inj hget
      have hv : v ∈ (found next r s (i + 1)).map Prod.fst := by
        rw [found_succ hp]
        exact mem_keys_pushAll.mpr
          (.inr (List.mem_map.mpr ⟨(v, p.2 + 1), mem_ends.mpr ⟨e, he, rfl⟩, rfl⟩))
      obtain ⟨q, hq, rfl⟩ := List.mem_map.mp hv
      refine ⟨⟨q.2, hdepth q hq, hq⟩, ?_⟩
      rw [hm]
      exact mem_keys_pushAll.mpr (.inr (List.mem_map_of_mem (List.mem_map_of_mem (f := Prod.fst) he)))
  · rw [hm] at he
    rcases mem_pushAll he with he | he
    · obtain ⟨q, hq, v, hv⟩ := h.source e he
      exact ⟨q, (found_mono_succ n).subset hq, v, hv⟩
    · obtain ⟨⟨e, v⟩, hv, rfl⟩ := List.mem_map.mp he
      exact ⟨p, (found_mono_succ n).subset hmem, v, hv⟩

theorem Breadth.succ (hG : Enumerates next key G) (h : Breadth next key r s G n) :
    Breadth next key r s G (n + 1) := by
  cases hp : (found next r s n)[n]? with
  | none =>
    have hlen : (found next r s n).length ≤ n := List.getElem?_eq_none_iff.mp hp
    have hf := found_succ_none hp
    have hm : met next key r s (n + 1) = met next key r s n := met_succ_none hp
    refine ⟨hf ▸ h.walk, hf ▸ h.sorted, fun i p hi hget => ?_, fun i p hi hget => ?_,
      hf ▸ hm ▸ h.source⟩
    · rw [hf] at hget
      have hlt := (List.getElem?_eq_some_iff.mp hget).1
      omega
    · rw [hf] at hget ⊢
      rw [hm]
      have hlt := (List.getElem?_eq_some_iff.mp hget).1
      exact h.closed i p (by omega) hget
  | some p =>
    exact h.expand hG hp

theorem breadth (hG : Enumerates next key G) (n : ℕ) : Breadth next key r s G n := by
  induction n with
  | zero => exact breadth_zero
  | succ n ih => exact ih.succ hG

/-- The vertices at most `r` steps away. -/
def closedBall (G : SimpleGraph V) (s : V) (r : ℕ) : Set V := {v | G.edist s v ≤ r}

/-- The edges that leave a vertex less than `r` steps away. -/
def incident (next : V → List (E × V)) (G : SimpleGraph V) (s : V) (r : ℕ) : Set E :=
  {e | ∃ u, G.edist s u < r ∧ ∃ v, (e, v) ∈ next u}

variable (h : Breadth next key r s G n)
include h

theorem Breadth.edist_le (hp : p ∈ found next r s n) : G.edist s p.1 ≤ p.2 := by
  obtain ⟨-, w, hw⟩ := h.walk p hp
  exact hw ▸ SimpleGraph.edist_le w

theorem Breadth.mem_ball (hp : p ∈ found next r s n) : p.1 ∈ closedBall G s r :=
  (h.edist_le hp).trans (Nat.cast_le.mpr (h.walk p hp).1)

theorem Breadth.mem_incident {e : E} (he : e ∈ met next key r s n) : e ∈ incident next G s r := by
  obtain ⟨p, hp, v, hv⟩ := h.source e he
  obtain ⟨hr, hv⟩ := mem_leaving.mp hv
  exact ⟨p.1, (h.edist_le hp).trans_lt (Nat.cast_lt.mpr hr), v, hv⟩

section Complete

variable (hlen : (found next r s n).length ≤ n)
include hlen

/-- When no vertex is left to expand, a walk leads from the list into the list. -/
theorem Breadth.mem_of_walk (hG : Enumerates next key G) {u v : V} (w : G.Walk u v) :
    ∀ {d : ℕ}, (u, d) ∈ found next r s n → d + w.length ≤ r →
      ∃ d' ≤ d + w.length, (v, d') ∈ found next r s n := by
  induction w with
  | nil => exact fun hu _ => ⟨_, le_rfl, hu⟩
  | cons hadj w ih =>
    intro d hu hr
    rw [SimpleGraph.Walk.length_cons] at hr ⊢
    obtain ⟨i, hi⟩ := List.mem_iff_getElem?.mp hu
    have hin : i < n := (List.getElem?_eq_some_iff.mp hi).1.trans_le hlen
    obtain ⟨e, he⟩ := hG.all _ _ hadj
    obtain ⟨⟨d', hd', hv⟩, -⟩ := h.closed i _ hin hi e _ (mem_leaving.mpr ⟨by omega, he⟩)
    obtain ⟨d'', hd'', hv'⟩ := ih hv (by omega)
    exact ⟨d'', by omega, hv'⟩

theorem Breadth.exists_of_edist (hG : Enumerates next key G) {v : V} {d : ℕ} (hd : G.edist s v = d)
    (hr : d ≤ r) : ∃ d' ≤ d, (v, d') ∈ found next r s n := by
  obtain ⟨w, hw⟩ := SimpleGraph.exists_walk_of_edist_eq_coe hd
  have hs : (s, 0) ∈ found next r s n :=
    (found_mono (Nat.zero_le n)).subset (List.mem_singleton_self _)
  obtain ⟨d', hd', hv⟩ := h.mem_of_walk hlen hG w hs (by omega)
  exact ⟨d', by omega, hv⟩

/-- **Breadth-first search is exact**: when no vertex is left to expand, the list is the
ball, each vertex with its distance. -/
theorem Breadth.mem_found_iff (hG : Enumerates next key G) {v : V} {d : ℕ} :
    (v, d) ∈ found next r s n ↔ G.edist s v = d ∧ d ≤ r := by
  constructor
  · intro hv
    have hr := (h.walk _ hv).1
    obtain ⟨k, hk, hkd⟩ := ENat.le_natCast_iff.mp (h.edist_le hv)
    -- the same vertex is found at its distance
    obtain ⟨d', hd', hv'⟩ := h.exists_of_edist hlen hG hk (hkd.trans hr)
    have heq := List.inj_on_of_nodup_map (found_nodup n) hv hv' rfl
    obtain rfl : d = d' := congrArg Prod.snd heq
    rw [hk, le_antisymm hkd hd']
    exact ⟨rfl, hr⟩
  · rintro ⟨hd, hr⟩
    obtain ⟨d', hd', hv⟩ := h.exists_of_edist hlen hG hd hr
    have hle : d ≤ d' := Nat.cast_le.mp (hd ▸ h.edist_le hv)
    rwa [le_antisymm hle hd']

theorem Breadth.mem_ball_iff (hG : Enumerates next key G) {v : V} :
    v ∈ (found next r s n).map Prod.fst ↔ v ∈ closedBall G s r := by
  constructor
  · intro hv
    obtain ⟨p, hp, rfl⟩ := List.mem_map.mp hv
    exact h.mem_ball hp
  · intro hv
    obtain ⟨d, hd, hr⟩ := ENat.le_natCast_iff.mp hv
    exact List.mem_map.mpr ⟨(v, d), (h.mem_found_iff hlen hG).mpr ⟨hd, hr⟩, rfl⟩

theorem Breadth.mem_incident_iff (hG : Enumerates next key G) {e : E} :
    e ∈ met next key r s n ↔ e ∈ incident next G s r := by
  refine ⟨h.mem_incident, ?_⟩
  rintro ⟨u, hu, v, he⟩
  obtain ⟨d, hd, -⟩ := ENat.le_natCast_iff.mp hu.le
  have hr : d < r := Nat.cast_lt.mp (hd ▸ hu)
  obtain ⟨i, hi⟩ := List.mem_iff_getElem?.mp ((h.mem_found_iff hlen hG).mpr ⟨hd, hr.le⟩)
  have hin : i < n := (List.getElem?_eq_some_iff.mp hi).1.trans_le hlen
  have hk := (h.closed i _ hin hi e v (mem_leaving.mpr ⟨hr, he⟩)).2
  obtain ⟨e', he', heq⟩ := List.mem_map.mp hk
  obtain ⟨p, -, v', hv'⟩ := h.source e' he'
  rwa [← hG.unique _ _ _ _ _ _ (mem_leaving.mp hv').2 he heq]

end Complete

end Distances

/-! ### Sizes -/

section Sizes

variable [DecidableEq V] [DecidableEq K] {next : V → List (E × V)} {key : E → K} {r : ℕ} {s : V}
  {G : SimpleGraph V}

theorem encard_of_nodup {α : Type} {l : List α} {A : Set α} (hl : l.Nodup)
    (h : ∀ x, x ∈ l ↔ x ∈ A) : A.encard = l.length := by
  classical
  have hA : A = (l.toFinset : Set α) := by
    ext x
    rw [Finset.mem_coe, List.mem_toFinset, h]
  rw [hA, Set.encard_coe_eq_coe_finsetCard, List.toFinset_card_of_nodup hl]

theorem length_le_encard {α : Type} {l : List α} {A : Set α} (hl : l.Nodup)
    (h : ∀ x ∈ l, x ∈ A) : (l.length : ℕ∞) ≤ A.encard := by
  rw [← encard_of_nodup hl (A := {x | x ∈ l}) fun _ => Iff.rfl]
  exact Set.encard_le_encard h

theorem nodup_met (n : ℕ) : (met next key r s n).Nodup := (met_nodup n).of_map key

/-- The list outgrows a number exactly when the ball does. -/
theorem lt_found_iff (hG : Enumerates next key G) (M : ℕ) :
    M < (found next r s M).length ↔ M < (closedBall G s r).encard := by
  have h : Breadth next key r s G M := breadth hG M
  have hlen : ((found next r s M).map Prod.fst).length = (found next r s M).length := List.length_map _
  constructor
  · intro hM
    have hnodup : ((found next r s M).map Prod.fst).Nodup := found_nodup M
    have hle := length_le_encard hnodup fun v hv => by
      obtain ⟨p, hp, rfl⟩ := List.mem_map.mp hv
      exact h.mem_ball hp
    rw [hlen] at hle
    exact (Nat.cast_lt.mpr hM).trans_le hle
  · intro hM
    by_contra hle
    have hcard := encard_of_nodup (found_nodup M) fun v => h.mem_ball_iff (not_lt.mp hle) hG
    rw [hcard, hlen] at hM
    exact hle (Nat.cast_lt.mp hM)

/-- The lists outgrow their caps exactly when the ball does or the edges around it do. -/
theorem lt_found_or_met_iff (hG : Enumerates next key G) (M N : ℕ) :
    (M < (found next r s M).length ∨ N < (met next key r s M).length) ↔
      M < (closedBall G s r).encard ∨ N < (incident next G s r).encard := by
  have h : Breadth next key r s G M := breadth hG M
  rw [lt_found_iff hG]
  refine or_congr_right' fun hball => ?_
  rw [← lt_found_iff hG] at hball
  rw [encard_of_nodup (nodup_met M) fun e => h.mem_incident_iff (not_lt.mp hball) hG, Nat.cast_lt]

end Sizes

/-! ### The capped search -/

/-- A search at work: the vertices with their depths, the edges kept, the flag for what was
left out, and the queue. -/
structure Search (V E K : Type) where
  nodes : List (V × ℕ)
  visited : Finset V
  edges : List E
  seen : Finset K
  truncated : Bool
  frontier : List (V × ℕ)

namespace Search

variable [DecidableEq V] [DecidableEq K] (M N : ℕ) (next : V → List (E × V)) (key : E → K) (r : ℕ)

def start (s : V) : Search V E K := ⟨[(s, 0)], {s}, [], ∅, false, [(s, 0)]⟩

/-- Keep an edge that is seen for the first time, if there is room. -/
def record (st : Search V E K) (e : E) : Search V E K :=
  if key e ∈ st.seen then st
  else if st.edges.length < N then
    { st with seen := insert (key e) st.seen, edges := st.edges ++ [e] }
  else { st with seen := insert (key e) st.seen, truncated := true }

/-- Queue a vertex that is met for the first time, if there is room. -/
def visit (st : Search V E K) (q : V × ℕ) : Search V E K :=
  if q.1 ∈ st.visited then st
  else if st.nodes.length < M then
    { st with
      visited := insert q.1 st.visited
      nodes := st.nodes ++ [q]
      frontier := st.frontier ++ [q] }
  else { st with truncated := true }

/-- One edge with its far end, `d` steps away. -/
def meet (d : ℕ) (st : Search V E K) (e : E × V) : Search V E K :=
  (st.record N key e.1).visit M (e.2, d)

/-- Both caps are reached and something was left out. -/
def full (st : Search V E K) : Bool :=
  st.truncated && decide (M ≤ st.nodes.length) && decide (N ≤ st.edges.length)

/-- All edges of the vertex `p`, which has left the queue. -/
def expand (st : Search V E K) (p : V × ℕ) : Search V E K :=
  (next p.1).foldl (meet M N key (p.2 + 1)) st

/-- The loop over the queue. -/
def run : ℕ → Search V E K → Search V E K
  | 0, st => st
  | fuel + 1, st => match st.frontier with
    | [] => st
    | p :: rest =>
      let st := { st with frontier := rest }
      if r ≤ p.2 then run fuel st
      else if (st.expand M N next key p).full M N then st.expand M N next key p
      else run fuel (st.expand M N next key p)

/-- The state holds the first vertices and edges of two lists, and says whether they have more. -/
structure Kept (vs : List (V × ℕ)) (es : List E) (st : Search V E K) : Prop where
  nodes : st.nodes = vs.take M
  edges : st.edges = es.take N
  truncated : st.truncated = true ↔ M < vs.length ∨ N < es.length

/-- And the sets say what was met so far. -/
structure Capped (vs : List (V × ℕ)) (es : List E) (st : Search V E K) : Prop
    extends Kept M N vs es st where
  visited : st.visited = (st.nodes.map Prod.fst).toFinset
  seen : st.seen = (es.map key).toFinset

/-- The queue is what follows the first `n` vertices. -/
structure Queued (n : ℕ) (st : Search V E K) : Prop where
  le : n ≤ st.nodes.length
  frontier : st.frontier = st.nodes.drop n

variable {M N next key r} {vs : List (V × ℕ)} {es : List E} {st : Search V E K} {n : ℕ}

theorem take_append_of_lt {α : Type} {l : List α} {x : α} (h : l.length < n) :
    (l ++ [x]).take n = l.take n ++ [x] := by
  rw [List.take_of_length_le h.le, List.take_of_length_le]
  rw [List.length_append, List.length_singleton]
  exact h

theorem Capped.room_edges (h : Capped M N key vs es st) : st.edges.length < N ↔ es.length < N := by
  rw [h.edges, List.length_take]
  omega

theorem Capped.room_nodes (h : Capped M N key vs es st) : st.nodes.length < M ↔ vs.length < M := by
  rw [h.nodes, List.length_take]
  omega

/-- Meeting an edge. -/
theorem Capped.record (h : Capped M N key vs es st) (e : E) :
    Capped M N key vs (pushNew key es e) (st.record N key e) := by
  have hiff : key e ∈ st.seen ↔ key e ∈ es.map key := by rw [h.seen, List.mem_toFinset]
  by_cases hk : key e ∈ es.map key
  · rw [Search.record, if_pos (hiff.mpr hk), pushNew, if_pos hk]
    exact h
  · rw [Search.record, if_neg (hk ∘ hiff.mp), pushNew, if_neg hk]
    have hseen : insert (key e) st.seen = ((es ++ [e]).map key).toFinset := by
      rw [h.seen, List.map_append, List.toFinset_append, Finset.union_comm]
      rfl
    have hlen : (es ++ [e]).length = es.length + 1 := List.length_append
    by_cases hroom : es.length < N
    · rw [if_pos (h.room_edges.mpr hroom)]
      refine ⟨⟨h.nodes, ?_, h.truncated.trans ?_⟩, h.visited, hseen⟩
      · rw [take_append_of_lt hroom, ← h.edges]
      · omega
    · rw [if_neg (hroom ∘ h.room_edges.mp)]
      refine ⟨⟨h.nodes, ?_, iff_of_true rfl ?_⟩, h.visited, hseen⟩
      · rw [List.take_append_of_le_length (not_lt.mp hroom)]
        exact h.edges
      · omega

/-- Meeting a vertex. -/
theorem Capped.visit (h : Capped M N key vs es st) (q : V × ℕ) :
    Capped M N key (pushNew Prod.fst vs q) es (st.visit M q) := by
  have hiff : q.1 ∈ st.visited ↔ q.1 ∈ (vs.take M).map Prod.fst := by
    rw [h.visited, List.mem_toFinset, h.nodes]
  have hlen : (vs ++ [q]).length = vs.length + 1 := List.length_append
  by_cases hk : q.1 ∈ (vs.take M).map Prod.fst
  · have hk' : q.1 ∈ vs.map Prod.fst := ((List.take_sublist M vs).map Prod.fst).subset hk
    rw [Search.visit, if_pos (hiff.mpr hk), pushNew, if_pos hk']
    exact h
  · rw [Search.visit, if_neg (hk ∘ hiff.mp), pushNew]
    by_cases hroom : vs.length < M
    · rw [List.take_of_length_le hroom.le] at hk
      rw [if_pos (h.room_nodes.mpr hroom), if_neg hk]
      refine ⟨⟨?_, h.edges, h.truncated.trans ?_⟩, ?_, h.seen⟩
      · rw [take_append_of_lt hroom, ← h.nodes]
      · omega
      · rw [h.visited, List.map_append, List.toFinset_append, Finset.union_comm]
        rfl
    · -- a vertex that the list holds stands behind the cap, so the list is longer
      rw [if_neg (hroom ∘ h.room_nodes.mp)]
      have hlong : vs.length = M → q.1 ∉ vs.map Prod.fst := fun heq => by
        rwa [List.take_of_length_le heq.le] at hk
      split
      · next hv =>
        have hne : vs.length ≠ M := fun heq => hlong heq hv
        exact ⟨⟨h.nodes, h.edges, iff_of_true rfl (by omega)⟩, h.visited, h.seen⟩
      · refine ⟨⟨?_, h.edges, iff_of_true rfl (by omega)⟩, h.visited, h.seen⟩
        rw [List.take_append_of_le_length (not_lt.mp hroom)]
        exact h.nodes

omit [DecidableEq V] in
theorem Queued.record (h : Queued n st) (e : E) : Queued n (st.record N key e) := by
  unfold Search.record
  split
  · exact h
  · split
    · exact ⟨h.le, h.frontier⟩
    · exact ⟨h.le, h.frontier⟩

omit [DecidableEq K] in
theorem Queued.visit (h : Queued n st) (q : V × ℕ) : Queued n (st.visit M q) := by
  unfold Search.visit
  split
  · exact h
  · split
    · refine ⟨h.le.trans (List.prefix_append _ _).length_le, ?_⟩
      show st.frontier ++ [q] = (st.nodes ++ [q]).drop n
      rw [List.drop_append_of_le_length h.le, h.frontier]
    · exact ⟨h.le, h.frontier⟩

/-- Meeting all edges of a vertex. -/
theorem Capped.meetAll {d : ℕ} : ∀ {l : List (E × V)} {vs : List (V × ℕ)} {es : List E}
    {st : Search V E K}, Capped M N key vs es st → Queued n st →
      Capped M N key (pushAll Prod.fst vs (l.map fun e => (e.2, d)))
        (pushAll key es (l.map Prod.fst)) (l.foldl (meet M N key d) st) ∧
      Queued n (l.foldl (meet M N key d) st) := by
  intro l
  induction l with
  | nil => exact fun h hq => ⟨h, hq⟩
  | cons e l ih => exact fun h hq => ih ((h.record e.1).visit (e.2, d)) ((hq.record e.1).visit (e.2, d))

section Run

variable {s : V}

theorem Capped.start (hM : 0 < M) : Capped M N key (found next r s 0) (met next key r s 0) (start s) := by
  have htake : [(s, 0)].take M = [(s, 0)] := List.take_of_length_le hM
  refine ⟨⟨htake.symm, List.take_nil.symm, iff_of_false Bool.false_ne_true ?_⟩, rfl, rfl⟩
  rintro (h | h)
  · exact absurd h (not_lt.mpr hM)
  · exact absurd h (Nat.not_lt_zero N)

omit [DecidableEq V] [DecidableEq K] in
theorem Queued.start : Queued 0 (start s : Search V E K) := ⟨Nat.zero_le _, rfl⟩

/-- The queue is empty: the vertices that fit are all expanded. -/
theorem Kept.of_empty (h : Kept M N (found next r s n) (met next key r s n) st) (hq : Queued n st)
    (hnil : st.frontier = []) : Kept M N (found next r s M) (met next key r s M) st := by
  have hlen : st.nodes.length = n := by
    have hdrop := List.drop_eq_nil_iff.mp (hq.frontier.symm.trans hnil)
    exact le_antisymm hdrop hq.le
  rw [h.nodes, List.length_take] at hlen
  by_cases hall : (found next r s n).length ≤ n
  · have hM : n ≤ M := by omega
    rwa [found_stable hall hM, met_stable hall hM]
  · obtain rfl : n = M := by omega
    exact h

/-- The early exit: what is still to come would not fit. -/
theorem Kept.of_full (h : Kept M N (found next r s n) (met next key r s n) st) (hn : n ≤ M)
    (hfull : st.full M N = true) : Kept M N (found next r s M) (met next key r s M) st := by
  simp only [full, Bool.and_eq_true, decide_eq_true_eq, h.nodes, h.edges, List.length_take] at hfull
  obtain ⟨⟨htrunc, hnodes⟩, hedges⟩ := hfull
  have hvs : found next r s n <+: found next r s M := found_mono hn
  have hes : met next key r s n <+: met next key r s M := met_mono hn
  refine ⟨h.nodes.trans ?_, h.edges.trans ?_, iff_of_true htrunc ?_⟩
  · obtain ⟨t, ht⟩ := hvs
    rw [← ht, List.take_append_of_le_length (by omega)]
  · obtain ⟨t, ht⟩ := hes
    rw [← ht, List.take_append_of_le_length (by omega)]
  · exact (h.truncated.mp htrunc).imp (fun hlt => hlt.trans_le hvs.length_le)
      fun hlt => hlt.trans_le hes.length_le

omit [DecidableEq V] [DecidableEq K] in
theorem Kept.le_cap (h : Kept M N vs es st) (hq : Queued n st) : n ≤ M := by
  have hle := hq.le
  rw [h.nodes, List.length_take] at hle
  omega

omit [DecidableEq V] [DecidableEq K] in
/-- The head of the queue is the next vertex to expand. -/
theorem Queued.head (hq : Queued n st) {p : V × ℕ} {rest : List (V × ℕ)}
    (hcons : st.frontier = p :: rest) :
    st.nodes[n]? = some p ∧ Queued (n + 1) { st with frontier := rest } := by
  have hdrop : st.nodes.drop n = p :: rest := hq.frontier.symm.trans hcons
  have hlt : n < st.nodes.length := by
    by_contra hge
    rw [List.drop_eq_nil_of_le (not_lt.mp hge)] at hdrop
    cases hdrop
  refine ⟨?_, hlt, ?_⟩
  · rw [← Nat.add_zero n, ← List.getElem?_drop, hdrop]
    rfl
  · show rest = st.nodes.drop (n + 1)
    rw [← List.drop_drop, hdrop]
    rfl

/-- **The capped search** keeps the first vertices and edges of the search without caps,
whatever is left of the queue when it stops. -/
theorem run_kept : ∀ (fuel : ℕ) {n : ℕ} {st : Search V E K},
    Capped M N key (found next r s n) (met next key r s n) st → Queued n st → M ≤ fuel + n →
      Kept M N (found next r s M) (met next key r s M) (run M N next key r fuel st) := by
  intro fuel
  induction fuel with
  | zero =>
    intro n st h hq hM
    refine h.toKept.of_empty hq ?_
    rw [hq.frontier, List.drop_eq_nil_iff, h.nodes, List.length_take]
    omega
  | succ fuel ih =>
    intro n st h hq hM
    rw [run]
    split
    · next hnil => exact h.toKept.of_empty hq hnil
    · next p rest hcons =>
      obtain ⟨hget, hqpop⟩ := hq.head hcons
      rw [h.nodes] at hget
      have hp : (found next r s n)[n]? = some p := getElem?_mono (List.take_prefix M _) hget
      have hpop : Capped M N key (found next r s n) (met next key r s n)
          { st with frontier := rest } :=
        ⟨⟨h.nodes, h.edges, h.truncated⟩, h.visited, h.seen⟩
      have hmeet := Capped.meetAll (d := p.2 + 1) (l := leaving next r p) hpop hqpop
      rw [← ends, ← found_succ hp, ← met_succ hp] at hmeet
      dsimp only
      split
      · -- a vertex at the radius leaves the queue without being expanded
        next hr =>
        rw [leaving, if_neg (not_lt.mpr hr)] at hmeet
        exact ih hmeet.1 hmeet.2 (by omega)
      · next hr =>
        rw [leaving, if_pos (not_le.mp hr)] at hmeet
        split
        · next hfull => exact hmeet.1.toKept.of_full (hmeet.1.toKept.le_cap hmeet.2) hfull
        · exact ih hmeet.1 hmeet.2 (by omega)

/-- **Exactness**: the flag says whether the ball or the edges around it exceed a cap; when
they do not, the search returns them. -/
theorem run_exact {G : SimpleGraph V} (hG : Enumerates next key G) (hM : 0 < M) :
    let st := run M N next key r M (start s)
    (st.truncated = true ↔
      M < (closedBall G s r).encard ∨ N < (incident next G s r).encard) ∧
    (st.truncated = false →
      (∀ v d, (v, d) ∈ st.nodes ↔ G.edist s v = d ∧ d ≤ r) ∧
      ∀ e, e ∈ st.edges ↔ e ∈ incident next G s r) ∧
    (st.nodes.length ≤ M ∧ st.edges.length ≤ N) ∧
    ((st.nodes.map Prod.fst).Nodup ∧ (st.edges.map key).Nodup) ∧
    (∀ p ∈ st.nodes, p.2 ≤ r ∧ ∃ w : G.Walk s p.1, w.length = p.2) ∧
    ∀ e ∈ st.edges, e ∈ incident next G s r := by
  intro st
  have hkept : Kept M N (found next r s M) (met next key r s M) st :=
    run_kept M (.start hM) .start (Nat.le_refl M)
  have h : Breadth next key r s G M := breadth hG M
  have hnodes : st.nodes <+: found next r s M := hkept.nodes ▸ List.take_prefix M _
  have hedges : st.edges <+: met next key r s M := hkept.edges ▸ List.take_prefix N _
  refine ⟨hkept.truncated.trans (lt_found_or_met_iff hG M N), fun hfalse => ?_, ⟨?_, ?_⟩,
    ⟨?_, ?_⟩, fun p hp => h.walk p (hnodes.subset hp), fun e he => h.mem_incident (hedges.subset he)⟩
  · have hfit : ¬ (M < (found next r s M).length ∨ N < (met next key r s M).length) := by
      rw [← hkept.truncated, hfalse]
      exact Bool.false_ne_true
    obtain ⟨hlen, hmet⟩ := not_or.mp hfit
    rw [hkept.nodes, hkept.edges, List.take_of_length_le (not_lt.mp hlen),
      List.take_of_length_le (not_lt.mp hmet)]
    exact ⟨fun v d => h.mem_found_iff (not_lt.mp hlen) hG,
      fun e => h.mem_incident_iff (not_lt.mp hlen) hG⟩
  · rw [hkept.nodes]
    exact List.length_take_le M _
  · rw [hkept.edges]
    exact List.length_take_le N _
  · exact (found_nodup M).sublist (hnodes.sublist.map Prod.fst)
  · exact (met_nodup M).sublist (hedges.sublist.map key)

end Run

end Search
