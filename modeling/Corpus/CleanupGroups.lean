/-
Cleanup and the components of strong edges.

Cleaning an artifact deletes its edges and counts what is left of its group; whether
what is left still hangs together is not looked at.  Starting from groups that are the
components of the stored strong edges, the groups stay so exactly as long as no cleaned
artifact was all that connected two others (`KeepsConnected`).

* `cleanup_keeps_groups_iff` — over any sequence of whole runs;
* `chain_cut_in_the_middle` — three artifacts in a row, the middle one cleaned.
-/
import Corpus.CleanupRerun
import Mathlib.Data.List.Perm.Subperm

open Relation

namespace Corpus

/-! ### Groups that hang together -/

/-- A stored strong edge, in either direction. -/
def SimDb.Linked (d : SimDb) (t x y : Uuid) : Prop := d.StrongEdge t x y ∨ d.StrongEdge t y x

/-- Every group has two members, and its members are connected by stored strong edges. -/
structure SimDb.HonestGroups (d : SimDb) : Prop where
  paired : d.PairedGroups
  shared : ∀ {t x g}, d.groupOf t x = some g → 2 ≤ d.memberCount t g
  connected : ∀ {t x y}, d.SameGroup t x y → d.Connected t x y

/-- The other members of the artifact's group are connected by strong edges that do not
touch the artifact. -/
def SimDb.KeepsConnected (d : SimDb) (t x : Uuid) : Prop :=
  ∀ y z, y ≠ x → z ≠ x → d.SameGroup t x y → d.SameGroup t x z →
    ReflTransGen (avoiding (d.Linked t) x) y z

namespace SimDb

variable {d : SimDb} {t t' x y z g : Uuid}

theorem two_le_memberCount (hyz : y ≠ z) (hy : d.groupOf t y = some g)
    (hz : d.groupOf t z = some g) : 2 ≤ d.memberCount t g := by
  have hmem : ∀ v, d.groupOf t v = some g →
      (⟨t, g, v⟩ : GroupMember) ∈ d.members.rows.filter fun m => m.tenant = t && m.groupId = g :=
    fun v hv => List.mem_filter.mpr ⟨mem_members.mpr hv, by simp⟩
  have hne : (⟨t, g, y⟩ : GroupMember) ≠ ⟨t, g, z⟩ :=
    fun hc => hyz (congrArg GroupMember.artifactId hc)
  -- Two different rows are among those that are counted.
  have hsub : [(⟨t, g, y⟩ : GroupMember), ⟨t, g, z⟩] ⊆
      d.members.rows.filter fun m => m.tenant = t && m.groupId = g := by
    intro m hm
    rcases List.mem_pair.mp hm with rfl | rfl
    · exact hmem y hy
    · exact hmem z hz
  exact (List.subperm_of_subset (List.nodup_cons.mpr ⟨by simpa using hne, List.nodup_singleton _⟩)
    hsub).length_le

theorem exists_pair (h : 2 ≤ d.memberCount t g) :
    ∃ y z, y ≠ z ∧ d.groupOf t y = some g ∧ d.groupOf t z = some g := by
  have hnodup : (d.members.rows.filter fun m => m.tenant = t && m.groupId = g).Nodup :=
    (List.Nodup.of_map _ d.members.nodup).filter _
  have hof : ∀ m ∈ d.members.rows.filter (fun m => m.tenant = t && m.groupId = g),
      m = ⟨t, g, m.artifactId⟩ ∧ d.groupOf t m.artifactId = some g := by
    intro m hm
    obtain ⟨hrow, hkey⟩ := List.mem_filter.mp hm
    obtain ⟨rfl, rfl⟩ : m.tenant = t ∧ m.groupId = g := by simpa using hkey
    exact ⟨rfl, mem_members.mp hrow⟩
  unfold memberCount at h
  match hl : d.members.rows.filter fun m => m.tenant = t && m.groupId = g with
  | [] => rw [hl] at h; simp at h
  | [_] => rw [hl] at h; simp at h
  | m :: m' :: rest =>
    rw [hl] at hof hnodup
    obtain ⟨hm, hgm⟩ := hof m (by simp)
    obtain ⟨hm', hgm'⟩ := hof m' (by simp)
    refine ⟨m.artifactId, m'.artifactId, fun hc => ?_, hgm, hgm'⟩
    have heq : m = m' := by rw [hm, hm', hc]
    exact (List.nodup_cons.mp hnodup).1 (heq ▸ List.mem_cons_self)

/-! ### The tables after a run -/

theorem groupOf_cleaned (d : SimDb) (t x t' y : Uuid) :
    (d.cleaned t x).groupOf t' y = if t' = t ∧ y = x then none else d.groupOf t' y := by
  unfold groupOf
  show ((d.members.deleteWhere _).get (t', y)).map _ = _
  rw [Table.get_deleteWhere]
  cases hg : d.members.get (t', y) with
  | none => simp
  | some m =>
    obtain ⟨h1, h2⟩ := Prod.mk.inj (show (m.tenant, m.artifactId) = (t', y) from (Table.mem_of_get hg).2)
    by_cases hc : t' = t ∧ y = x
    · rw [if_pos hc, Option.filter_some, if_neg (by simp [h1, h2, hc])]
      rfl
    · rw [if_neg hc, Option.filter_some, if_pos (by simpa [h1, h2, imp_iff_not_or] using hc)]

theorem groupOf_dropMembers (d : SimDb) (t g t' y : Uuid) :
    (d.dropMembers t g).groupOf t' y =
      if t' = t ∧ d.groupOf t' y = some g then none else d.groupOf t' y := by
  unfold groupOf
  show ((d.members.deleteWhere _).get (t', y)).map _ = _
  rw [Table.get_deleteWhere]
  cases hg : d.members.get (t', y) with
  | none => simp
  | some m =>
    obtain ⟨h1, -⟩ := Prod.mk.inj (show (m.tenant, m.artifactId) = (t', y) from (Table.mem_of_get hg).2)
    by_cases hc : t' = t ∧ m.groupId = g
    · rw [if_pos (by simpa using hc), Option.filter_some, if_neg (by simp [h1, hc])]
      rfl
    · rw [if_neg (by simpa using hc), Option.filter_some, if_pos (by simpa [h1, imp_iff_not_or] using hc)]

theorem strongEdge_dropEdges :
    (d.dropEdges t x).StrongEdge t' y z ↔ d.StrongEdge t' y z ∧ ¬ (t' = t ∧ (y = x ∨ z = x)) := by
  constructor
  · rintro ⟨e, he, rfl, rfl, rfl, hs⟩
    obtain ⟨hrow, hkeep⟩ := Table.mem_deleteWhere.mp he
    refine ⟨⟨e, hrow, rfl, rfl, rfl, hs⟩, ?_⟩
    rintro ⟨ht, hend⟩
    rcases hend with hend | hend <;> simp [ht, hend] at hkeep
  · rintro ⟨⟨e, he, rfl, rfl, rfl, hs⟩, hkeep⟩
    refine ⟨e, Table.mem_deleteWhere.mpr ⟨he, ?_⟩, rfl, rfl, rfl, hs⟩
    simpa using hkeep

theorem edges_afterCleanup (d : SimDb) (t x : Uuid) :
    (d.afterCleanup t x).edges = (d.dropEdges t x).edges := by
  unfold afterCleanup
  split
  · unfold repaired
    split <;> rfl
  · rfl

/-- In the artifact's tenant the paths left are those that avoid it. -/
theorem connected_afterCleanup (d : SimDb) (t x : Uuid) :
    (d.afterCleanup t x).Connected t = ReflTransGen (avoiding (d.Linked t) x) := by
  have hlinks : (fun y z => (d.dropEdges t x).StrongEdge t y z ∨ (d.dropEdges t x).StrongEdge t z y) =
      avoiding (d.Linked t) x := by
    funext y z
    refine propext ?_
    simp only [strongEdge_dropEdges, avoiding, Linked]
    tauto
  rw [← hlinks, ← strongEdge_congr (d.edges_afterCleanup t x)]
  rfl

theorem connected_afterCleanup_of_ne (d : SimDb) (x : Uuid) (h : t' ≠ t) :
    (d.afterCleanup t x).Connected t' = d.Connected t' := by
  have hsame : (d.dropEdges t x).StrongEdge t' = d.StrongEdge t' := by
    funext y z
    refine propext ⟨fun hs => (strongEdge_dropEdges.mp hs).1, fun hs => ?_⟩
    exact strongEdge_dropEdges.mpr ⟨hs, fun hc => h hc.1⟩
  funext y z
  unfold Connected
  rw [strongEdge_congr (d.edges_afterCleanup t x), hsame]

end SimDb

/-! ### One run -/

section Step

variable {d : SimDb} {t t' x y z g : Uuid}

/-- What a whole run can leave: the group needs no repair, or it is dissolved. -/
theorem SimDb.afterCleanup_cases (d : SimDb) (t x : Uuid) :
    (d.afterCleanup t x = d.cleaned t x ∧
      ∀ g, d.groupOf t x = some g → 2 ≤ (d.cleaned t x).memberCount t g) ∨
    ∃ g, d.groupOf t x = some g ∧ (d.cleaned t x).memberCount t g ≤ 1 ∧
      d.afterCleanup t x = ((d.cleaned t x).dropMembers t g).deleteGroup t g := by
  unfold afterCleanup
  cases hg : d.groupOf t x with
  | none =>
    refine .inl ⟨rfl, fun g hc => ?_⟩
    cases hc
  | some g =>
    by_cases hle : (d.cleaned t x).memberCount t g ≤ 1
    · exact .inr ⟨g, rfl, hle, if_pos hle⟩
    · refine .inl ⟨if_neg hle, fun g' hg' => ?_⟩
      obtain rfl : g = g' := Option.some.inj hg'
      omega

theorem SimDb.Connected.symm (h : d.Connected t x y) : d.Connected t y x := by
  rw [SimDb.connected_iff] at h ⊢
  exact .symm _ _ h

/-- Away from the artifact nothing is disconnected. -/
theorem Grouped.avoiding_iff (h : Grouped d) (hk : d.KeepsConnected t x) (hy : y ≠ x) (hz : z ≠ x) :
    ReflTransGen (avoiding (d.Linked t) x) y z ↔ d.Connected t y z := by
  refine ⟨avoiding_le, fun hyz => ?_⟩
  -- A path avoids `x`, or reaches it.
  rcases avoiding_or_reaches (p := x) hyz with hpath | hyx
  · exact hpath
  · -- the path may go through `x`: then both ends are in its group
    have hyx : d.Connected t y x := hyx
    have hzx : d.Connected t x z := hyx.symm.trans hyz
    exact hk y z hy hz ((h.sameGroup_iff hy.symm).mpr hyx.symm) ((h.sameGroup_iff hz.symm).mpr hzx)

theorem SimDb.groupOf_cleaned_self (d : SimDb) (t x : Uuid) :
    (d.cleaned t x).groupOf t = Function.update (d.groupOf t) x none := by
  funext y
  rw [SimDb.groupOf_cleaned]
  by_cases hy : y = x
  · subst hy
    rw [Function.update_self, if_pos ⟨rfl, rfl⟩]
  · rw [Function.update_of_ne hy, if_neg fun hc => hy hc.2]

theorem SimDb.groupOf_cleaned_of_ne (d : SimDb) (x : Uuid) (ht : t' ≠ t) :
    (d.cleaned t x).groupOf t' = d.groupOf t' := by
  funext y
  rw [SimDb.groupOf_cleaned, if_neg fun hc => ht hc.1]

/-- Without its memberships the artifact is out of the components, too. -/
theorem Grouped.labels_cleaned (h : Grouped d) (hk : d.KeepsConnected t x) (t' : Uuid) :
    Labels ((d.afterCleanup t x).Connected t') ((d.cleaned t x).groupOf t') := by
  have hlabels : Labels (d.Connected t') (d.groupOf t') := fun y z hyz =>
    (h.sameGroup_iff hyz).symm
  by_cases ht : t' = t
  · subst ht
    rw [d.connected_afterCleanup, d.groupOf_cleaned_self]
    exact hlabels.erase (fun y z hy hz => h.avoiding_iff hk hy hz)
      (fun z hz => eq_of_avoiding_left hz) fun y hy => eq_of_avoiding_right hy
  · rw [d.connected_afterCleanup_of_ne x ht, d.groupOf_cleaned_of_ne x ht]
    exact hlabels

/-- The other groups keep two members. -/
theorem Grouped.pair_cleaned (h : Grouped d) (hrow : d.groups.get g = some ⟨g, t'⟩)
    (hne : ¬ (t' = t ∧ d.groupOf t x = some g)) :
    ∃ y z, y ≠ z ∧ (d.cleaned t x).groupOf t' y = some g ∧ (d.cleaned t x).groupOf t' z = some g := by
  obtain ⟨y, z, hyz, hy, hz⟩ := h.pair hrow
  have hstay : ∀ v, d.groupOf t' v = some g → (d.cleaned t x).groupOf t' v = some g := by
    intro v hv
    rw [SimDb.groupOf_cleaned, if_neg, hv]
    rintro ⟨rfl, rfl⟩
    exact hne ⟨rfl, hv⟩
  exact ⟨y, z, hyz, hstay y hy, hstay z hz⟩

theorem Grouped.row_cleaned (h : Grouped d) (hy : (d.cleaned t x).groupOf t' y = some g) :
    d.groups.get g = some ⟨g, t'⟩ := by
  rw [SimDb.groupOf_cleaned] at hy
  split at hy
  · cases hy
  · exact h.row hy

/-- **One run** from groups that are components, when the artifact connects nobody. -/
theorem Grouped.afterCleanup (h : Grouped d) (hk : d.KeepsConnected t x) :
    Grouped (d.afterCleanup t x) := by
  have hE : (fun t' => EqvGen ((d.afterCleanup t x).StrongEdge t')) =
      (d.afterCleanup t x).Connected := by
    funext t' y z
    exact propext SimDb.connected_iff.symm
  unfold Grouped
  rw [hE]
  have hlabels := h.labels_cleaned hk
  -- Either the group keeps two members, or its rows are deleted with it.
  rcases d.afterCleanup_cases t x with ⟨heq, hcount⟩ | ⟨g, hg, hcount, heq⟩
  · refine ⟨fun t' => ?_, fun {t' y l} hy => ?_, fun {l t'} hl => ?_⟩
    · rw [show (d.afterCleanup t x).groupOf t' = (d.cleaned t x).groupOf t' by rw [heq]]
      exact hlabels t'
    · rw [heq] at hy ⊢
      exact h.row_cleaned hy
    · rw [heq] at hl ⊢
      by_cases hc : t' = t ∧ d.groupOf t x = some l
      · obtain ⟨rfl, hg⟩ := hc
        exact SimDb.exists_pair (hcount l hg)
      · exact h.pair_cleaned hl hc
  · have hgroup : ∀ t' y, (d.afterCleanup t x).groupOf t' y =
        if t' = t ∧ (d.cleaned t x).groupOf t' y = some g then none
        else (d.cleaned t x).groupOf t' y := by
      intro t' y
      rw [heq, SimDb.groupOf_deleteGroup, SimDb.groupOf_dropMembers]
    have hrows : ∀ l, (d.afterCleanup t x).groups.get l =
        (d.groups.get l).filter fun r => !(r.tenant = t && r.id = g) := by
      intro l
      rw [heq, SimDb.groups_deleteGroup]
      rfl
    refine ⟨fun t' => ?_, fun {t' y l} hy => ?_, fun {l t'} hl => ?_⟩
    · by_cases ht : t' = t
      · subst ht
        refine (hlabels t').dissolve (g := g) (fun y z hy hz => ?_) fun z => ?_
        -- A group that is dissolved has one member at most, so it joins nobody.
        · by_contra hyz
          have := SimDb.two_le_memberCount hyz hy hz
          omega
        · rw [hgroup]
          simp only [true_and]
      · have hsame : (d.afterCleanup t x).groupOf t' = (d.cleaned t x).groupOf t' := by
          funext y
          rw [hgroup, if_neg fun hc => ht hc.1]
        rw [hsame]
        exact hlabels t'
    · rw [hgroup] at hy
      split at hy
      · cases hy
      · next hc =>
        rw [hrows, h.row_cleaned hy, Option.filter_some, if_pos]
        have hl : ¬ (t' = t ∧ l = g) := fun hd => hc ⟨hd.1, hd.2 ▸ hy⟩
        simpa [imp_iff_not_or] using hl
    · rw [hrows] at hl
      obtain ⟨hget, hkeep⟩ := Option.filter_eq_some_iff.mp hl
      have hne : ¬ (t' = t ∧ l = g) := by simpa [imp_iff_not_or] using hkeep
      obtain ⟨y, z, hyz, hy, hz⟩ := h.pair_cleaned (t := t) (x := x) hget
        fun hc => hne ⟨hc.1, Option.some.inj (hc.2.symm.trans hg)⟩
      have hstay : ∀ v, (d.cleaned t x).groupOf t' v = some l →
          (d.afterCleanup t x).groupOf t' v = some l := by
        intro v hv
        rw [hgroup, if_neg, hv]
        rintro ⟨ht, hc⟩
        exact hne ⟨ht, Option.some.inj (hv.symm.trans hc)⟩
      exact ⟨y, z, hyz, hstay y hy, hstay z hz⟩

/-- Components are honest groups. -/
theorem Grouped.honest (h : Grouped d) : d.HonestGroups where
  paired r hr := by
    obtain ⟨y, z, hyz, hy, hz⟩ := h.pair (g := r.id) (t := r.tenant) (Table.mem_rows_iff.mp hr)
    exact SimDb.two_le_memberCount hyz hy hz
  shared {t x g} hx := by
    obtain ⟨y, z, hyz, hy, hz⟩ := h.pair (h.row hx)
    exact SimDb.two_le_memberCount hyz hy hz
  connected {t x y} hxy := by
    by_cases hne : x = y
    · exact hne ▸ .refl
    · exact (h.sameGroup_iff hne).mp hxy

/-- Honest groups after the run were connected without the artifact before it. -/
theorem SimDb.HonestGroups.keepsConnected (h : (d.afterCleanup t x).HonestGroups) :
    d.KeepsConnected t x := by
  rintro y z hy hz ⟨g, hx, hyg⟩ ⟨g', hx', hzg⟩
  obtain rfl : g = g' := Option.some.inj (hx.symm.trans hx')
  by_cases hyz : y = z
  · exact hyz ▸ .refl
  · have hstay : ∀ v, v ≠ x → d.groupOf t v = some g → (d.cleaned t x).groupOf t v = some g := by
      intro v hv hvg
      rw [SimDb.groupOf_cleaned, if_neg fun hc => hv hc.2, hvg]
    have htwo := SimDb.two_le_memberCount hyz (hstay y hy hyg) (hstay z hz hzg)
    rw [← d.connected_afterCleanup]
    refine h.connected ⟨g, ?_⟩
    rcases d.afterCleanup_cases t x with ⟨heq, -⟩ | ⟨g', hg', hcount, -⟩
    · rw [heq]
      exact ⟨hstay y hy hyg, hstay z hz hzg⟩
    · obtain rfl : g = g' := Option.some.inj (hx.symm.trans hg')
      omega

end Step

/-! ### Sequences of runs -/

/-- A destructive cleanup that ran to completion, with the store before and after. -/
structure CleanupCall where
  tenant : Uuid
  artifact : Uuid
  before : CleanupDb
  after : CleanupDb

/-- Cleanups one after another, each run to completion. -/
inductive CleanupRun : CleanupDb → List CleanupCall → Prop where
  | nil (s : CleanupDb) : CleanupRun s []
  | cons {c : CleanupCall} {cs : List CleanupCall} {ls : List CleanupPt} {r : CleanupReport} :
      Prog.Returns (cleanupArtifact c.tenant c.artifact false) c.before ls r c.after →
      CleanupRun c.after cs → CleanupRun c.before (c :: cs)

section Run

variable {d d' : SimDb} {t x : Uuid} {s : CleanupDb} {cs : List CleanupCall}

theorem SimDb.Connected.congr (h : SameTables d d') : d.Connected = d'.Connected := by
  unfold SimDb.Connected
  rw [strongEdge_congr h.edges]

theorem SimDb.groupOf_congr (h : SameTables d d') : d.groupOf = d'.groupOf := by
  unfold SimDb.groupOf
  rw [h.members]

theorem Grouped.congr (hs : SameTables d d') (h : Grouped d) : Grouped d' :=
  h.of_eq hs.edges.symm hs.groups.symm hs.members.symm

theorem SimDb.HonestGroups.congr (hs : SameTables d d') (h : d.HonestGroups) : d'.HonestGroups where
  paired := h.paired.congr hs
  shared {t x g} hx := by
    rw [← SimDb.groupOf_congr hs] at hx
    rw [← hs.memberCount]
    exact h.shared hx
  connected {t x y} hxy := by
    rw [← SimDb.Connected.congr hs]
    refine h.connected ?_
    rwa [SimDb.SameGroup, SimDb.groupOf_congr hs]

theorem same_after {c : CleanupCall} {ls : List CleanupPt} {r : CleanupReport}
    (h : Prog.Returns (cleanupArtifact c.tenant c.artifact false) c.before ls r c.after) :
    SameTables (c.before.sim.afterCleanup c.tenant c.artifact) c.after.sim :=
  (Prog.wp_returns h (wp_cleanupArtifact _ _ _) r rfl).symm

/-- What is gone stays gone. -/
theorem CleanupRun.free_kept (hrun : CleanupRun s cs) : s.sim.Free t x →
    ∀ c ∈ cs, c.after.sim.Free t x := by
  induction hrun with
  | nil s => exact fun _ c hc => absurd hc List.not_mem_nil
  | @cons c cs ls r hret _ ih =>
    intro h b hb
    have hafter := (h.afterCleanup c.tenant c.artifact).congr (same_after hret)
    rcases List.mem_cons.mp hb with rfl | hb
    · exact hafter
    · exact ih hafter b hb

/-- After each run nothing is left of the artifacts cleaned so far. -/
theorem CleanupRun.free (hrun : CleanupRun s cs) : ∀ pre c post, cs = pre ++ c :: post →
    ∀ b ∈ pre ++ [c], c.after.sim.Free b.tenant b.artifact := by
  induction hrun with
  | nil s => exact fun pre c post h => by simp at h
  | @cons c₀ cs ls r hret hrest ih =>
    intro pre c post heq b hb
    have hfree : c₀.after.sim.Free c₀.tenant c₀.artifact :=
      (SimDb.free_afterCleanup _ _ _).congr (same_after hret)
    cases pre with
    | nil =>
      obtain ⟨rfl, -⟩ := List.cons.inj heq
      obtain rfl : b = c₀ := by simpa using hb
      exact hfree
    | cons c₁ pre =>
      obtain ⟨rfl, rfl⟩ := List.cons.inj heq
      rcases List.mem_cons.mp hb with rfl | hb
      · exact hrest.free_kept hfree c (by simp)
      · exact ih pre c post rfl b hb

/-- The groups are honest all along exactly while nobody is disconnected. -/
theorem CleanupRun.honest_iff (hrun : CleanupRun s cs) : Grouped s.sim →
    ((∀ c ∈ cs, c.after.sim.HonestGroups) ↔
      ∀ c ∈ cs, c.before.sim.KeepsConnected c.tenant c.artifact) := by
  induction hrun with
  | nil s => simp
  | @cons c cs ls r hret _ ih =>
    intro h
    have hsame := same_after hret
    -- Groups that are components stay so, which the next run needs.
    have hgrouped : c.before.sim.KeepsConnected c.tenant c.artifact → Grouped c.after.sim :=
      fun hk => (h.afterCleanup hk).congr hsame
    rw [List.forall_mem_cons, List.forall_mem_cons]
    constructor
    · rintro ⟨hc, hcs⟩
      have hk := (hc.congr hsame.symm).keepsConnected
      exact ⟨hk, (ih (hgrouped hk)).mp hcs⟩
    · rintro ⟨hk, hks⟩
      exact ⟨(hgrouped hk).honest, (ih (hgrouped hk)).mpr hks⟩

/-- **Cleanup and groups.**  From a store whose groups are the components of the stored
strong edges, after each of a sequence of destructive cleanups: every group has two
members, connected by the strong edges that remain, and nothing is left of the artifacts
cleaned so far — exactly when no cleanup takes an artifact that connects others. -/
theorem cleanup_keeps_groups_iff (h : Grouped s.sim) (hrun : CleanupRun s cs) :
    (∀ pre c post, cs = pre ++ c :: post → c.after.sim.HonestGroups ∧
      ∀ b ∈ pre ++ [c], c.after.sim.Free b.tenant b.artifact) ↔
    ∀ c ∈ cs, c.before.sim.KeepsConnected c.tenant c.artifact := by
  rw [← hrun.honest_iff h]
  constructor
  · intro hall c hc
    obtain ⟨pre, post, heq⟩ := List.append_of_mem hc
    exact (hall pre c post heq).1
  · intro hall pre c post heq
    exact ⟨hall c (heq ▸ by simp), hrun.free pre c post heq⟩

end Run

/-! ### Three artifacts in a row -/

/-- Edges 1–2 and 2–3. -/
def rowCalls : List EdgeCall :=
  [⟨0, 1, 2, .exactCopy, 1, ends_one_two⟩, ⟨0, 2, 3, .exactCopy, 1, ends_two_three⟩]

def rowStore : CleanupDb := ⟨((insertEdges rowCalls).eval (.drawing 9) Db.empty).2, []⟩

theorem rowStore_grouped : Grouped rowStore.sim := by
  have hrun := Prog.returns_of_run (p := insertEdges rowCalls) (List.replicate 11 (.drawing 9))
    (s := Db.empty) (a := ()) rfl
  exact (Prog.wp_returns hrun (wp_insertEdges rfl rowCalls)).1

/-- The cleanup of an artifact of tenant 0, undisturbed. -/
def cleanOne (x : Uuid) (s : CleanupDb) : CleanupCall :=
  ⟨0, x, s, ((cleanupArtifact 0 x false).eval ⟨false, 0⟩ s).2⟩

theorem returns_cleanOne {x : Uuid} {s : CleanupDb} {n : ℕ} {ls : List CleanupPt} {r : CleanupReport}
    (h : (cleanupArtifact 0 x false).run (List.replicate n ⟨false, 0⟩) s =
      some (ls, .ok r, (cleanOne x s).after)) :
    Prog.Returns (cleanupArtifact (cleanOne x s).tenant (cleanOne x s).artifact false)
      (cleanOne x s).before ls r (cleanOne x s).after :=
  Prog.returns_of_run _ h

/-- From one end of the row: the middle one and then nobody is left behind. -/
theorem cleanup_keeps_groups_iff_from_the_end :
    (cleanOne 1 rowStore).after.sim.HonestGroups ∧
      (cleanOne 2 (cleanOne 1 rowStore).after).after.sim.Free 0 1 := by
  have hrun : CleanupRun rowStore [cleanOne 1 rowStore, cleanOne 2 (cleanOne 1 rowStore).after] :=
    .cons (c := cleanOne 1 rowStore) (returns_cleanOne (n := 17) rfl)
      (.cons (c := cleanOne 2 (cleanOne 1 rowStore).after) (returns_cleanOne (n := 19) rfl) (.nil _))
  have hmembers : ∀ y, y ≠ 1 → rowStore.sim.SameGroup 0 1 y → y = 2 ∨ y = 3 := by
    rintro y hy ⟨g, -, hyg⟩
    have hmem : (⟨0, g, y⟩ : GroupMember) ∈ rowStore.sim.members.rows :=
      SimDb.mem_members.mpr hyg
    rw [show rowStore.sim.members.rows = [⟨0, 9, 1⟩, ⟨0, 9, 2⟩, ⟨0, 9, 3⟩] from rfl] at hmem
    simp only [List.mem_cons, GroupMember.mk.injEq, List.not_mem_nil, or_false] at hmem
    tauto
  have hmembers' : ∀ y, y ≠ 2 → (cleanOne 1 rowStore).after.sim.SameGroup 0 2 y → y = 3 := by
    rintro y hy ⟨g, -, hyg⟩
    have hmem : (⟨0, g, y⟩ : GroupMember) ∈ (cleanOne 1 rowStore).after.sim.members.rows :=
      SimDb.mem_members.mpr hyg
    rw [show (cleanOne 1 rowStore).after.sim.members.rows = [⟨0, 9, 2⟩, ⟨0, 9, 3⟩] from rfl] at hmem
    simp only [List.mem_cons, GroupMember.mk.injEq, List.not_mem_nil, or_false] at hmem
    tauto
  have hedge : rowStore.sim.StrongEdge 0 2 3 :=
    ⟨_, .tail _ (.head _), rfl, rfl, rfl, rfl⟩
  have hall := (cleanup_keeps_groups_iff rowStore_grouped hrun).mpr fun c hc => by
    rcases List.mem_pair.mp hc with rfl | rfl
    · intro y z hy hz hsy hsz
      rcases hmembers y hy hsy with rfl | rfl <;> rcases hmembers z hz hsz with rfl | rfl
      · exact .refl
      · exact .single ⟨.inl hedge, hy, hz⟩
      · exact .single ⟨.inr hedge, hy, hz⟩
      · exact .refl
    · intro y z hy hz hsy hsz
      rw [hmembers' y hy hsy, hmembers' z hz hsz]
  exact ⟨(hall [] _ _ rfl).1, (hall [_] _ [] rfl).2 (cleanOne 1 rowStore) (by simp)⟩

/-- The middle artifact goes: the others are still a group, with no edge left. -/
theorem chain_cut_in_the_middle :
    Grouped rowStore.sim ∧ CleanupRun rowStore [cleanOne 2 rowStore] ∧
      (cleanOne 2 rowStore).after.sim.SameGroup 0 1 3 ∧
      (cleanOne 2 rowStore).after.sim.edges.rows = [] ∧
      ¬ (cleanOne 2 rowStore).after.sim.HonestGroups := by
  have hret := Prog.returns_of_run (p := cleanupArtifact 0 2 false)
    (List.replicate 17 ⟨false, 0⟩) (s := rowStore) rfl
  have hsame : (cleanOne 2 rowStore).after.sim.SameGroup 0 1 3 := ⟨9, rfl, rfl⟩
  refine ⟨rowStore_grouped, .cons (c := cleanOne 2 rowStore) hret (.nil _), hsame, rfl, fun h => ?_⟩
  -- There is no first edge of a path.
  rcases (h.connected hsame).cases_head with heq | ⟨y, hedge, -⟩
  · cases heq
  · rcases hedge with ⟨e, he, -⟩ | ⟨e, he, -⟩ <;> cases he

end Corpus
