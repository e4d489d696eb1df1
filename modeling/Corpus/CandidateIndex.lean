/-
Candidates from an index of bands (`similarity/lsh.rs`, `semantic/func_index.rs`).

Both indexes look up one key after another and keep the distinct artifacts they meet, up to
a cap.  An analysis then inserts an edge for each candidate that it links.

* `mem_pushCandidates` — which artifacts are kept: those met before there are `cap` others;
* `wp_bandCandidates` — the loop over the keys;
* `wp_links` — the edges that a loop over candidates inserts, by key and score.
-/
import Corpus.EdgeEvidence
import Corpus.VariantGroups

namespace Corpus

/-! ### Distinct artifacts up to a cap -/

/-- The artifact is met in the list while fewer than `cap` distinct ones come before it. -/
def Met (cap : ℕ) (ids : List Uuid) (o : Uuid) : Prop :=
  ∃ before after, ids = before ++ o :: after ∧ before.toFinset.card < cap

section Push

variable {cap : ℕ} {ids : List Uuid} {o a : Uuid}

theorem met_snoc : Met cap (ids ++ [a]) o ↔ Met cap ids o ∨ (o = a ∧ ids.toFinset.card < cap) := by
  constructor
  · rintro ⟨before, after, heq, hlt⟩
    rcases List.eq_nil_or_concat after with rfl | ⟨after, b, rfl⟩
    · obtain ⟨rfl, hoa⟩ := List.append_inj' heq rfl
      exact .inr ⟨(List.singleton_inj.mp hoa).symm, hlt⟩
    · rw [List.concat_eq_append, ← List.cons_append, ← List.append_assoc] at heq
      exact .inl ⟨before, after, (List.append_inj' heq rfl).1, hlt⟩
  · rintro (⟨before, after, rfl, hlt⟩ | ⟨rfl, hlt⟩)
    · exact ⟨before, after ++ [a], by rw [List.append_assoc, List.cons_append], hlt⟩
    · exact ⟨ids, [], rfl, hlt⟩

theorem Met.mem (h : Met cap ids o) : o ∈ ids := by
  obtain ⟨before, after, rfl, _⟩ := h
  exact List.mem_append_right _ List.mem_cons_self

/-- As long as the list has fewer artifacts than the cap, each is met. -/
theorem met_of_mem (ho : o ∈ ids) (h : ids.toFinset.card < cap) : Met cap ids o := by
  obtain ⟨before, after, rfl⟩ := List.append_of_mem ho
  refine ⟨before, after, rfl, lt_of_le_of_lt (Finset.card_le_card ?_) h⟩
  rw [List.toFinset_append]
  exact Finset.subset_union_left

theorem pushCandidates_snoc (cap : ℕ) (out ids : List Uuid) (a : Uuid) :
    pushCandidates cap out (ids ++ [a]) = pushCandidates cap (pushCandidates cap out ids) [a] :=
  List.foldl_append

/-- The list of candidates, as far as the list of ids has been read. -/
theorem pushCandidates_spec (cap : ℕ) (ids : List Uuid) :
    (pushCandidates cap [] ids).length = min cap ids.toFinset.card ∧
      ∀ o, o ∈ pushCandidates cap [] ids ↔ Met cap ids o := by
  induction ids using List.reverseRecOn with
  | nil =>
    refine ⟨(Nat.min_zero cap).symm, fun o => iff_of_false List.not_mem_nil fun h => ?_⟩
    exact List.not_mem_nil h.mem
  | append_singleton ids a ih =>
    obtain ⟨hlen, hmem⟩ := ih
    rw [pushCandidates_snoc]
    set out := pushCandidates cap [] ids with hout
    have hcard : (ids ++ [a]).toFinset = insert a ids.toFinset := by
      ext o
      simp
    by_cases hfull : out.length ≥ cap
    · -- the cap is reached
      have hstep : pushCandidates cap out [a] = out := if_pos hfull
      have hge : cap ≤ ids.toFinset.card := by omega
      have hle : ids.toFinset.card ≤ (insert a ids.toFinset).card :=
        Finset.card_le_card (Finset.subset_insert a _)
      refine ⟨by rw [hstep, hlen, hcard]; omega, fun o => ?_⟩
      rw [hstep, hmem, met_snoc]
      exact ⟨.inl, fun h => h.resolve_right fun h' => absurd h'.2 (by omega)⟩
    · have hlt : ids.toFinset.card < cap := by omega
      have hin : a ∈ out ↔ a ∈ ids.toFinset := by
        rw [hmem, List.mem_toFinset]
        exact ⟨Met.mem, fun ha => met_of_mem ha hlt⟩
      have hstep : pushCandidates cap out [a] = if a ∈ out then out else out ++ [a] := if_neg hfull
      by_cases ha : a ∈ out
      · rw [if_pos ha] at hstep
        rw [hstep, hcard, Finset.insert_eq_of_mem (hin.mp ha)]
        refine ⟨hlen, fun o => ?_⟩
        rw [hmem, met_snoc]
        refine ⟨.inl, ?_⟩
        rintro (h | ⟨rfl, _⟩)
        · exact h
        · exact (hmem o).mp ha
      · rw [if_neg ha] at hstep
        rw [hstep, hcard, Finset.card_insert_of_notMem fun h => ha (hin.mpr h), List.length_append]
        refine ⟨by rw [hlen, List.length_singleton]; omega, fun o => ?_⟩
        rw [List.mem_append, hmem, met_snoc, List.mem_singleton]
        exact or_congr_right ⟨fun h => ⟨h, hlt⟩, fun h => h.1⟩

/-- The candidates are the artifacts that are met. -/
theorem mem_pushCandidates : o ∈ pushCandidates cap [] ids ↔ Met cap ids o :=
  (pushCandidates_spec cap ids).2 o

/-- There are none only when no key has any. -/
theorem pushCandidates_eq_nil (hcap : 0 < cap) : pushCandidates cap [] ids = [] ↔ ids = [] := by
  refine ⟨fun h => ?_, fun h => by rw [h]; rfl⟩
  have hlen := (pushCandidates_spec cap ids).1
  rw [h, List.length_nil] at hlen
  have hzero : ids.toFinset.card = 0 := by omega
  exact List.toFinset_eq_empty_iff ids |>.mp (Finset.card_eq_zero.mp hzero)

theorem pushCandidates_of_full {out : List Uuid} (h : out.length ≥ cap) :
    pushCandidates cap out ids = out := by
  induction ids with
  | nil => rfl
  | cons a ids ih =>
    show pushCandidates cap (if out.length ≥ cap then out else _) ids = out
    rw [if_pos h, ih]

end Push

/-- The loop over the keys of an index: run alone, it collects what the keys have. -/
theorem wp_bandCandidates (t x : Uuid) (cap : ℕ) (look : Db → ℕ × String → List Uuid)
    (keys : List (ℕ × String)) (s : Db) : ∀ out, (bandCandidates t x cap look keys out).wp
      (fun _ _ => True)
      (fun r s' => s' = s ∧ r = .ok (pushCandidates cap out (keys.flatMap (look s)))) s := by
  induction keys with
  | nil => exact fun out => ⟨rfl, rfl⟩
  | cons key keys ih =>
    intro out
    have hcons : pushCandidates cap out ((key :: keys).flatMap (look s)) =
        pushCandidates cap (pushCandidates cap out (look s key)) (keys.flatMap (look s)) :=
      List.foldl_append
    rw [hcons]
    unfold bandCandidates Prog.loop
    split
    · next hfull =>
      rw [pushCandidates_of_full hfull]
      exact ih out
    · exact ⟨trivial, fun _ => ih _⟩

/-! ### Edges of a loop over candidates -/

/-- The key of the row that `insert_edge` writes. -/
def edgeKey (t x other : Uuid) (ty : EdgeType) : EdgeKey :=
  (t, if x < other then x else other, if x < other then other else x, ty, modelVersion)

/-- The store has an edge with this key and this score. -/
def Db.HasEdge (s : Db) (k : EdgeKey) (score : ℚ) : Prop :=
  ∃ e, s.sim.edges.get k = some e ∧ e.score = score

/-- The edges that are in the second store and not in the first, with their scores. -/
def Inserted (s s' : Db) : Set (EdgeKey × ℚ) :=
  { p | s.sim.edges.get p.1 = none ∧ s'.HasEdge p.1 p.2 }

/-- Only edges, groups, memberships and the outbox have changed. -/
def EdgeFrame (s s' : Db) : Prop :=
  ∃ e g m o, s' = { s with sim := { s.sim with edges := e, groups := g, members := m }, outbox := o }

/-- The second store has the edges of the first, and where it has none those of `new`. -/
def Grows (new : EdgeKey → ℚ → Prop) (s s' : Db) : Prop :=
  ∀ k score, s'.HasEdge k score ↔ s.HasEdge k score ∨ s.sim.edges.get k = none ∧ new k score

section Links

variable {s s' s'' : Db} {t x other o o' : Uuid} {ty ty' : EdgeType} {k : EdgeKey} {score score' : ℚ}
  {new new' : EdgeKey → ℚ → Prop}

/-- The key says which artifact was joined, and how. -/
theorem edgeKey_inj (h : edgeKey t x o ty = edgeKey t x o' ty') (ho : o ≠ x) (ho' : o' ≠ x) :
    o = o' ∧ ty = ty' := by
  simp only [edgeKey, Prod.mk.injEq, true_and, and_true] at h
  obtain ⟨hsrc, hdst, hty⟩ := h
  refine ⟨?_, hty⟩
  by_cases hlt : x < o
  · by_cases hlt' : x < o'
    · rw [if_pos hlt, if_pos hlt'] at hdst
      exact hdst
    · rw [if_pos hlt, if_neg hlt'] at hsrc
      exact absurd hsrc.symm ho'
  · by_cases hlt' : x < o'
    · rw [if_neg hlt, if_pos hlt'] at hsrc
      exact absurd hsrc ho
    · rw [if_neg hlt, if_neg hlt'] at hsrc
      exact hsrc

theorem EdgeFrame.refl (s : Db) : EdgeFrame s s :=
  ⟨s.sim.edges, s.sim.groups, s.sim.members, s.outbox, rfl⟩

theorem EdgeFrame.trans (h : EdgeFrame s s') (h' : EdgeFrame s' s'') : EdgeFrame s s'' := by
  obtain ⟨e, g, m, o, rfl⟩ := h
  obtain ⟨e', g', m', o', rfl⟩ := h'
  exact ⟨e', g', m', o', rfl⟩

theorem hasEdge_of_get_ne_none (h : s.sim.edges.get k ≠ none) : ∃ score, s.HasEdge k score := by
  obtain ⟨e, he⟩ := Option.ne_none_iff_exists'.mp h
  exact ⟨e.score, e, he, rfl⟩

theorem Grows.refl (s : Db) : Grows (fun _ _ => False) s s := fun k score => by simp

/-- One store after another, when they agree on the scores of a key. -/
theorem Grows.trans (h : Grows new s s') (h' : Grows new' s' s'')
    (hsame : ∀ k p q, new k p → new' k q → p = q) :
    Grows (fun k score => new k score ∨ new' k score) s s'' := by
  intro k score
  rw [h' k score, h k score]
  constructor
  · rintro ((hold | ⟨hnone, hnew⟩) | ⟨hnone, hnew⟩)
    · exact .inl hold
    · exact .inr ⟨hnone, .inl hnew⟩
    · refine .inr ⟨?_, .inr hnew⟩
      by_contra hget
      obtain ⟨p, hp⟩ := hasEdge_of_get_ne_none hget
      obtain ⟨e, he, _⟩ := (h k p).mpr (.inl hp)
      rw [hnone] at he
      cases he
  · rintro (hold | ⟨hnone, hnew | hnew⟩)
    · exact .inl (.inl hold)
    · exact .inl (.inr ⟨hnone, hnew⟩)
    · by_cases hget : s'.sim.edges.get k = none
      · exact .inr ⟨hget, hnew⟩
      · -- the first part has inserted the key, with the same score
        obtain ⟨p, hp⟩ := hasEdge_of_get_ne_none hget
        rcases (h k p).mp hp with ⟨e, he, _⟩ | ⟨_, hp'⟩
        · rw [hnone] at he
          cases he
        · obtain rfl := hsame k p score hp' hnew
          exact .inl (.inr ⟨hnone, hp'⟩)

/-- `Grows` is about the edges only. -/
theorem Grows.of_edges {d d' : Db} (h : Grows new s s') (hd : d.sim.edges = s.sim.edges)
    (hd' : d'.sim.edges = s'.sim.edges) : Grows new d d' := by
  intro k score
  unfold Db.HasEdge
  rw [hd, hd']
  exact h k score

theorem Grows.congr (h : Grows new s s') (hnew : ∀ k score, new k score ↔ new' k score) :
    Grows new' s s' := fun k score => by rw [h k score, hnew k score]

theorem Grows.inserted (h : Grows new s s') :
    Inserted s s' = { p | s.sim.edges.get p.1 = none ∧ new p.1 p.2 } := by
  ext ⟨k, score⟩
  refine and_congr_right fun hnone => (h k score).trans ⟨fun hor => ?_, fun hnew => .inr ⟨hnone, hnew⟩⟩
  rcases hor with ⟨e, he, _⟩ | hnew
  · rw [hnone] at he
    cases he
  · exact hnew.2

/-- One call of `insert_edge`, counted. -/
theorem wp_countEdge (t x : Uuid) (n : ℕ) (other : Uuid) (ty : EdgeType) (score : ℚ) (s : Db) :
    (countEdge t x n other ty score).wp (fun _ _ => True) (fun r s' => ∀ m, r = .ok m →
      EdgeFrame s s' ∧ Grows (fun k p => k = edgeKey t x other ty ∧ p = score) s s') s := by
  have hgrow : ∀ now : Time, Grows (fun k p => k = edgeKey t x other ty ∧ p = score) s
      (s.withEdge (edgeRow t x other ty score now)) := by
    intro now k p
    have hget := Table.get_insertNew s.sim.edges (edgeRow t x other ty score now) k
    show (∃ e, (s.sim.edges.insertNew (edgeRow t x other ty score now)).get k = some e ∧ e.score = p) ↔
      (∃ e, s.sim.edges.get k = some e ∧ e.score = p) ∨ _
    rw [hget]
    cases hold : s.sim.edges.get k with
    | some e => simp
    | none =>
      rw [Option.none_or]
      constructor
      · rintro ⟨e, he, rfl⟩
        split at he
        · next hkey =>
          obtain rfl := Option.some.inj he
          exact .inr ⟨rfl, hkey.symm, rfl⟩
        · cases he
      · rintro (⟨e, he, _⟩ | ⟨_, rfl, rfl⟩)
        · cases he
        · exact ⟨_, if_pos rfl, rfl⟩
  have hframe : ∀ now s', GroupFrame (s.withEdge (edgeRow t x other ty score now)) s' →
      EdgeFrame s s' ∧ Grows (fun k p => k = edgeKey t x other ty ∧ p = score) s s' := by
    rintro now s' ⟨g, m, o, rfl⟩
    exact ⟨⟨_, g, m, o, rfl⟩, hgrow now⟩
  unfold edgeRow edgeKey at hframe
  unfold countEdge insertEdge edgeKey
  dsimp only
  generalize (if x < other then x else other) = src at hframe ⊢
  generalize (if x < other then other else x) = dst at hframe ⊢
  refine Prog.wp_bind (Prog.wp_exec_bind.mpr ⟨trivial, fun env => ?_⟩)
  by_cases hlt : src < dst
  · rw [if_pos hlt]
    dsimp only
    split
    · -- the union of the groups leaves the edges alone
      refine Prog.wp_bind (Prog.Within.wp (I := GroupFrame (s.withEdge
        ⟨t, src, dst, ty, modelVersion, score, env.now⟩)) (fun _ _ _ _ => trivial) ?_
          (fun r s' hs' => ?_) (unionGroups_inGroups _ _) (.refl _))
      · rintro _ _ _ ⟨g, m, o, rfl⟩ ⟨g', m', o', rfl⟩
        exact ⟨g, m, o, rfl⟩
      · cases r with
        | error e =>
        intro m hm
        cases hm
        | ok u => exact fun _ _ => hframe env.now s' hs'
    · exact fun _ _ => hframe env.now _ (.refl _)
  · rw [if_neg hlt]
    intro m hm
    cases hm

/-- **The edges of a loop over candidates**: those of each candidate, when they agree on the
scores. -/
theorem wp_links {β : Type} {body : ℕ → β → Srv ℕ} {each : β → EdgeKey → ℚ → Prop} {xs : List β}
    (hbody : ∀ n b s', EdgeFrame s s' → (body n b).wp (fun _ _ => True)
      (fun r s'' => ∀ m, r = .ok m → EdgeFrame s' s'' ∧ Grows (each b) s' s'') s')
    (hsame : ∀ b ∈ xs, ∀ b' ∈ xs, ∀ k p q, each b k p → each b' k q → p = q) :
    ∀ n s', EdgeFrame s s' → (Prog.loop body xs n).wp (fun _ _ => True) (fun r s'' => ∀ m,
      r = .ok m → EdgeFrame s' s'' ∧ Grows (fun k score => ∃ b ∈ xs, each b k score) s' s'') s' := by
  induction xs with
  | nil => exact fun n s' _ m _ => ⟨.refl s', (Grows.refl s').congr fun k score => by simp⟩
  | cons b xs ih =>
    intro n s' hs'
    refine Prog.wp_bind (Prog.wp_mono (fun _ _ h => h) (fun r s₁ hr => ?_) (hbody n b s' hs'))
    cases r with
    | error e => exact fun _ => nofun
    | ok n₁ =>
      obtain ⟨hframe, hgrow⟩ := hr n₁ rfl
      have hrest := ih (fun b hb b' hb' => hsame b (List.mem_cons_of_mem _ hb) b'
        (List.mem_cons_of_mem _ hb')) n₁ s₁ (hs'.trans hframe)
      refine Prog.wp_mono (fun _ _ h => h) (fun r s₂ hr m hm => ?_) hrest
      obtain ⟨hframe', hgrow'⟩ := hr m hm
      refine ⟨hframe.trans hframe', (hgrow.trans hgrow' ?_).congr fun k score => ?_⟩
      · rintro k p q hp ⟨b', hb', hq⟩
        exact hsame b List.mem_cons_self b' (List.mem_cons_of_mem _ hb') k p q hp hq
      · rw [List.exists_mem_cons_iff]

end Links

end Corpus
