/-
Running cleanup again after it was cut short.

The group to repair is found through the membership row of the artifact, which the same
run deletes before it repairs.  A run cut in between leaves a store in which nothing
points to the group: the next run finds no membership and returns, and the group keeps
its one member.

* `Recoverable` — where a run may be cut;
* `rerun_converges_iff` — from every store and every cut, the second run reaches the
  tables of one whole run exactly when the cut is recoverable;
* `singleton_survives_rerun` — a group of two, cut before the members are counted.
-/
import Corpus.Cleanup
import Corpus.VariantGroups

namespace Corpus

/-! ### Groups of two or more -/

/-- Every group row has two members. -/
def SimDb.PairedGroups (d : SimDb) : Prop :=
  ∀ r ∈ d.groups.rows, 2 ≤ d.memberCount r.tenant r.id

instance (d : SimDb) : Decidable d.PairedGroups :=
  inferInstanceAs (Decidable (∀ r ∈ d.groups.rows, _))

/-- A membership or the row of the group is there to be deleted. -/
def SimDb.Undissolved (d : SimDb) (t g : Uuid) : Prop :=
  (∃ m ∈ d.members.rows, m.tenant = t ∧ m.groupId = g) ∨
    ∃ r ∈ d.groups.rows, r.tenant = t ∧ r.id = g

/-- A run cut before `l` has not yet deleted the membership, or its group needs no
repair, or no more repair. -/
def Recoverable (d : SimDb) (t x : Uuid) (l : CleanupPt) : Prop :=
  ∀ g, d.groupOf t x = some g → (d.cleaned t x).memberCount t g ≤ 1 →
    match l with
    | .deleteReceipts | .countRemaining _ | .dissolveMembers _ =>
        ¬ (d.cleaned t x).Undissolved t g
    | .dissolveGroup _ => ¬ ((d.cleaned t x).dropMembers t g).Undissolved t g
    | _ => True

namespace SimDb

variable {d d' : SimDb} {t t' x g g' : Uuid}

theorem PairedGroups.congr (hs : SameTables d d') (h : d.PairedGroups) : d'.PairedGroups := by
  intro r hr
  rw [← hs.groups] at hr
  rw [← hs.memberCount]
  exact h r hr

/-- The other groups do not lose the artifact. -/
theorem memberCount_cleaned (h : ¬ (t' = t ∧ d.groupOf t x = some g)) :
    (d.cleaned t x).memberCount t' g = d.memberCount t' g := by
  unfold memberCount
  show ((d.members.rows.filter _).filter _).length = _
  rw [List.filter_filter]
  congr 1
  refine List.filter_congr fun m hm => ?_
  by_cases hx : m.tenant = t ∧ m.artifactId = x
  · obtain ⟨rfl, rfl⟩ := hx
    have hg : ¬ (m.tenant = t' ∧ m.groupId = g) :=
      fun hc => h ⟨hc.1.symm, hc.2 ▸ mem_members.mp hm⟩
    simpa using hg
  · have hkeep : (m.tenant = t && m.artifactId = x) = false := by simpa using hx
    show (m.tenant = t' && m.groupId = g && !(m.tenant = t && m.artifactId = x)) = _
    rw [hkeep]
    exact Bool.and_true _

theorem memberCount_dropMembers (h : ¬ (t' = t ∧ g' = g)) :
    (d.dropMembers t g).memberCount t' g' = d.memberCount t' g' := by
  unfold memberCount
  show ((d.members.rows.filter _).filter _).length = _
  rw [List.filter_filter]
  congr 1
  refine List.filter_congr fun m _ => ?_
  by_cases hm : m.tenant = t' ∧ m.groupId = g'
  · obtain ⟨rfl, rfl⟩ := hm
    simpa [imp_iff_not_or, or_comm] using h
  · have : (m.tenant = t' && m.groupId = g') = false := by simpa using hm
    rw [this]
    rfl

theorem memberCount_dropMembers_self (d : SimDb) (t g : Uuid) :
    (d.dropMembers t g).memberCount t g = 0 := by
  unfold memberCount
  rw [List.length_eq_zero_iff, List.filter_eq_nil_iff]
  intro m hm
  rw [(Table.mem_deleteWhere.mp hm).2]
  exact Bool.false_ne_true

/-- A whole run leaves groups of two. -/
theorem PairedGroups.afterCleanup (h : d.PairedGroups) (t x : Uuid) :
    (d.afterCleanup t x).PairedGroups := by
  unfold SimDb.afterCleanup
  cases hg : d.groupOf t x with
  | none =>
    intro r hr
    rw [memberCount_cleaned fun hc => by rw [hg] at hc; cases hc.2]
    exact h r hr
  | some g =>
    show ((d.cleaned t x).repaired t g).PairedGroups
    unfold SimDb.repaired
    split
    · intro r hr
      obtain ⟨hmem, hkeep⟩ := Table.mem_deleteWhere.mp hr
      have hne : ¬ (r.tenant = t ∧ r.id = g) := by simpa using hkeep
      show 2 ≤ ((d.cleaned t x).dropMembers t g).memberCount r.tenant r.id
      rw [memberCount_dropMembers hne, memberCount_cleaned]
      · exact h r hmem
      · rintro ⟨ht, hc⟩
        exact hne ⟨ht, (Option.some.inj (hg.symm.trans hc)).symm⟩
    · next hcount =>
      intro r hr
      by_cases hr' : r.tenant = t ∧ r.id = g
      · obtain ⟨rfl, rfl⟩ := hr'
        omega
      · rw [memberCount_cleaned]
        · exact h r hr
        · rintro ⟨ht, hc⟩
          exact hr' ⟨ht, (Option.some.inj (hg.symm.trans hc)).symm⟩

theorem dropMembers_eq_self :
    (d.dropMembers t g).members = d.members ↔ ¬ ∃ m ∈ d.members.rows, m.tenant = t ∧ m.groupId = g := by
  refine Table.deleteWhere_eq_self.trans ⟨?_, ?_⟩
  · rintro h ⟨m, hm, ht, hg⟩
    simpa [ht, hg] using h m hm
  · intro h m hm
    have : ¬ (m.tenant = t ∧ m.groupId = g) := fun hc => h ⟨m, hm, hc⟩
    simpa using this

theorem deleteGroup_eq_self :
    (d.deleteGroup t g).groups = d.groups ↔ ¬ ∃ r ∈ d.groups.rows, r.tenant = t ∧ r.id = g := by
  refine Table.deleteWhere_eq_self.trans ⟨?_, ?_⟩
  · rintro h ⟨r, hr, ht, hg⟩
    simpa [ht, hg] using h r hr
  · intro h r hr
    have : ¬ (r.tenant = t ∧ r.id = g) := fun hc => h ⟨r, hr, hc⟩
    simpa using this

/-- The repair changes nothing exactly when there is nothing to dissolve. -/
theorem same_repaired_iff :
    SameTables d (d.repaired t g) ↔ (d.memberCount t g ≤ 1 → ¬ d.Undissolved t g) := by
  unfold repaired
  by_cases hle : d.memberCount t g ≤ 1
  · rw [if_pos hle]
    constructor
    · rintro h - (hm | hr)
      · exact dropMembers_eq_self.mp h.members.symm hm
      · exact deleteGroup_eq_self.mp h.groups.symm hr
    · intro h
      obtain ⟨hm, hr⟩ := not_or.mp (h hle)
      exact ⟨rfl, rfl, rfl, (dropMembers_eq_self.mpr hm).symm, (deleteGroup_eq_self.mpr hr).symm⟩
  · rw [if_neg hle]
    exact ⟨fun _ hc => absurd hc hle, fun _ => .refl d⟩

end SimDb

/-! ### Two runs -/

namespace SameTables

variable {d d' : SimDb} (h : SameTables d d') (t x g : Uuid)

include h

theorem cleaned : SameTables (d.cleaned t x) (d'.cleaned t x) :=
  (((h.dropFeatures t x).dropFunctions t x).dropEdges t x).dropMember t x

theorem repaired : SameTables (d.repaired t g) (d'.repaired t g) := by
  unfold SimDb.repaired
  rw [h.memberCount]
  split
  · exact (h.dropMembers t g).deleteGroup t g
  · exact h

theorem afterCleanup : SameTables (d.afterCleanup t x) (d'.afterCleanup t x) := by
  unfold SimDb.afterCleanup
  rw [h.groupOf]
  cases d'.groupOf t x with
  | none => exact h.cleaned t x
  | some g => exact (h.cleaned t x).repaired t g

end SameTables

/-- Deletes that were done before are done again to no effect. -/
theorem Begun.cleaned {d d' : SimDb} {t x : Uuid} (h : Begun d t x d')
    (hm : d'.members = d.members) (hg : d'.groups = d.groups) :
    SameTables (d'.cleaned t x) (d.cleaned t x) where
  features := by
    show d'.features.deleteWhere _ = d.features.deleteWhere _
    rcases h.features with h | h
    · rw [h]
    · rw [h]
      exact Table.deleteWhere_deleteWhere_self _ _
  functions := by
    show d'.functions.deleteWhere _ = d.functions.deleteWhere _
    rcases h.functions with h | h
    · rw [h]
    · rw [h]
      exact Table.deleteWhere_deleteWhere_self _ _
  edges := by
    show d'.edges.deleteWhere _ = d.edges.deleteWhere _
    rcases h.edges with h | h
    · rw [h]
    · rw [h]
      exact Table.deleteWhere_deleteWhere_self _ _
  members := by
    show d'.members.deleteWhere _ = d.members.deleteWhere _
    rw [hm]
  groups := hg

theorem Begun.afterCleanup {d d' : SimDb} {t x : Uuid} (h : Begun d t x d')
    (hm : d'.members = d.members) (hg : d'.groups = d.groups) :
    SameTables (d'.afterCleanup t x) (d.afterCleanup t x) := by
  have hgroup : d'.groupOf t x = d.groupOf t x := by
    unfold SimDb.groupOf
    rw [hm]
  unfold SimDb.afterCleanup
  rw [hgroup]
  cases d.groupOf t x with
  | none => exact h.cleaned hm hg
  | some g => exact (h.cleaned hm hg).repaired t g

section Cut

variable {d d' : SimDb} {t x g : Uuid}

/-- Cut once the rows of the artifact are gone. -/
theorem same_afterCleanup_iff_cleaned (hcut : SameTables d' (d.cleaned t x)) :
    SameTables (d'.afterCleanup t x) (d.afterCleanup t x) ↔
      ∀ g, d.groupOf t x = some g → (d.cleaned t x).memberCount t g ≤ 1 →
        ¬ (d.cleaned t x).Undissolved t g := by
  -- the second run finds no membership
  have hagain : SameTables (d'.afterCleanup t x) (d.cleaned t x) :=
    (hcut.afterCleanup t x).trans (SimDb.Free.cleaned d t x).afterCleanup_same
  have hmove : SameTables (d'.afterCleanup t x) (d.afterCleanup t x) ↔
      SameTables (d.cleaned t x) (d.afterCleanup t x) :=
    ⟨hagain.symm.trans, hagain.trans⟩
  rw [hmove]
  unfold SimDb.afterCleanup
  cases hg : d.groupOf t x with
  | none =>
    refine ⟨fun _ g hc => ?_, fun _ => .refl _⟩
    cases hc
  | some g =>
    refine SimDb.same_repaired_iff.trans ⟨?_, ?_⟩
    · rintro h g' hg'
      obtain rfl : g = g' := Option.some.inj hg'
      exact h
    · exact fun h => h g rfl

/-- Cut once the other members of the group are gone, too. -/
theorem same_afterCleanup_iff_dropped (hcut : SameTables d' ((d.cleaned t x).dropMembers t g))
    (hg : d.groupOf t x = some g) (hcount : (d.cleaned t x).memberCount t g ≤ 1) :
    SameTables (d'.afterCleanup t x) (d.afterCleanup t x) ↔
      ∀ g', d.groupOf t x = some g' → (d.cleaned t x).memberCount t g' ≤ 1 →
        ¬ ((d.cleaned t x).dropMembers t g').Undissolved t g' := by
  have hagain : SameTables (d'.afterCleanup t x) ((d.cleaned t x).dropMembers t g) :=
    (hcut.afterCleanup t x).trans ((SimDb.Free.cleaned d t x).dropMembers t g).afterCleanup_same
  -- a whole run is the repair of what the cut left
  have honce : SameTables (d.afterCleanup t x) (((d.cleaned t x).dropMembers t g).repaired t g) := by
    rw [SimDb.afterCleanup, hg]
    show SameTables ((d.cleaned t x).repaired t g) _
    rw [SimDb.repaired, SimDb.repaired, if_pos hcount, SimDb.memberCount_dropMembers_self,
      if_pos (Nat.zero_le 1)]
    have htwice : SameTables ((d.cleaned t x).dropMembers t g)
        (((d.cleaned t x).dropMembers t g).dropMembers t g) :=
      ⟨rfl, rfl, rfl, (Table.deleteWhere_deleteWhere_self _ _).symm, rfl⟩
    exact htwice.deleteGroup t g
  have hmove : SameTables (d'.afterCleanup t x) (d.afterCleanup t x) ↔
      SameTables ((d.cleaned t x).dropMembers t g)
        (((d.cleaned t x).dropMembers t g).repaired t g) :=
    ⟨fun h => (hagain.symm.trans h).trans honce, fun h => (hagain.trans h).trans honce.symm⟩
  rw [hmove, SimDb.same_repaired_iff, SimDb.memberCount_dropMembers_self]
  constructor
  · intro h g' hg' _
    obtain rfl : g = g' := Option.some.inj (hg.symm.trans hg')
    exact h (Nat.zero_le 1)
  · exact fun h _ => h g hg hcount

/-- The tables of the second run are those of one run exactly from recoverable cuts. -/
theorem CutAt.same_afterCleanup_iff {l : CleanupPt} (hcut : CutAt d t x l d') :
    SameTables (d'.afterCleanup t x) (d.afterCleanup t x) ↔ Recoverable d t x l := by
  have hbegun : ∀ h : Begun d t x d' ∧ d'.members = d.members ∧ d'.groups = d.groups,
      (SameTables (d'.afterCleanup t x) (d.afterCleanup t x) ↔
        ∀ g, d.groupOf t x = some g → (d.cleaned t x).memberCount t g ≤ 1 → True) :=
    fun ⟨hb, hm, hg⟩ => ⟨fun _ _ _ _ => trivial, fun _ => hb.afterCleanup hm hg⟩
  cases l with
  | deleteReceipts => exact same_afterCleanup_iff_cleaned hcut
  | countRemaining g => exact same_afterCleanup_iff_cleaned hcut.1
  | dissolveMembers g => exact same_afterCleanup_iff_cleaned hcut.1
  | dissolveGroup g => exact same_afterCleanup_iff_dropped hcut.1 hcut.2.1 hcut.2.2
  | audit =>
    refine ⟨fun _ _ _ _ => trivial, fun _ => ?_⟩
    have hcut' : SameTables d' (d.afterCleanup t x) := hcut
    exact (hcut'.afterCleanup t x).trans (SimDb.free_afterCleanup d t x).afterCleanup_same
  | _ => exact hbegun hcut

end Cut

/-- **Running cleanup again** after a run was cut before a statement (a statement that
fails leaves the store as it found it) reaches the tables of one whole run, without a
group of fewer than two members, exactly from recoverable cuts. -/
theorem rerun_converges_iff {t x : Uuid} {s s₁ s₂ s' : CleanupDb} {ls ls₁ ls' : List CleanupPt}
    {q : CleanupProg CleanupReport} {l : CleanupPt} {r₁ r' : CleanupReport}
    (hcut : Prog.Steps (cleanupArtifact t x false) s ls q s₁) (hl : q.ctl = .at l)
    (hagain : Prog.Returns (cleanupArtifact t x false) s₁ ls₁ r₁ s₂)
    (honce : Prog.Returns (cleanupArtifact t x false) s ls' r' s') :
    (SameTables s₂.sim s'.sim ∧ (s.sim.PairedGroups → s₂.sim.PairedGroups)) ↔
      Recoverable s.sim t x l := by
  have hat : CutAt s.sim t x l s₁.sim := by
    have h := Prog.wp_sound hcut (wp_cleanupArtifact t x s)
    cases q with
    | ret a => cases hl
    | err e => cases hl
    | stmt l' f k =>
      obtain rfl : l' = l := by simpa using hl
      exact h.1
  have h₂ : SameTables s₂.sim (s₁.sim.afterCleanup t x) :=
    Prog.wp_returns hagain (wp_cleanupArtifact t x s₁) r₁ rfl
  have h' : SameTables s'.sim (s.sim.afterCleanup t x) :=
    Prog.wp_returns honce (wp_cleanupArtifact t x s) r' rfl
  rw [← hat.same_afterCleanup_iff]
  constructor
  · exact fun h => (h₂.symm.trans h.1).trans h'
  · intro h
    have hsame := (h₂.trans h).trans h'.symm
    refine ⟨hsame, fun hp => ?_⟩
    exact (hp.afterCleanup t x).congr (h'.symm.trans hsame.symm)

/-! ### A group of two -/

/-- The store after one strong edge between artifacts 1 and 2. -/
def pairStore : CleanupDb := ⟨((insertEdge 0 1 2 .exactCopy 1).eval (.drawing 9) Db.empty).2, []⟩

/-- A cleanup of artifact 1, cut after `n` statements. -/
def cutAfter (n : ℕ) : List CleanupPt × CleanupProg CleanupReport × CleanupDb :=
  (cleanupArtifact 0 1 false).runPart (List.replicate n ⟨false, 0⟩) pairStore

theorem steps_cutAfter (n : ℕ) : Prog.Steps (cleanupArtifact 0 1 false) pairStore (cutAfter n).1
    (cutAfter n).2.1 (cutAfter n).2.2 :=
  Prog.steps_runPart _ _

/-- Cut before the membership is deleted, the second run repairs the group. -/
theorem rerun_converges_iff_before_membership :
    ∃ s₂ s', SameTables s₂ s' ∧ s'.groups.rows = [] ∧ s₂.PairedGroups := by
  have hagain := Prog.returns_of_run (p := cleanupArtifact 0 1 false)
    (List.replicate 19 ⟨false, 0⟩) (s := (cutAfter 13).2.2) rfl
  have honce := Prog.returns_of_run (p := cleanupArtifact 0 1 false)
    (List.replicate 19 ⟨false, 0⟩) (s := pairStore) rfl
  have h := rerun_converges_iff (l := .deleteMember) (steps_cutAfter 13) rfl hagain honce
  obtain ⟨hsame, hpaired⟩ := h.mpr fun _ _ _ => trivial
  exact ⟨_, _, hsame, rfl, hpaired (by decide)⟩

/-- A group that survives with one member: the run is cut before it counts, and the
second one does not find the group. -/
theorem singleton_survives_rerun :
    ∃ ls q s₁ ls₁ r₁ s₂ ls' r' s',
      Prog.Steps (cleanupArtifact 0 1 false) pairStore ls q s₁ ∧
      q.ctl = .at (.countRemaining 9) ∧
      Prog.Returns (cleanupArtifact 0 1 false) s₁ ls₁ r₁ s₂ ∧
      Prog.Returns (cleanupArtifact 0 1 false) pairStore ls' r' s' ∧
      pairStore.sim.PairedGroups ∧ s₂.sim.groups.rows = [⟨9, 0⟩] ∧
      s₂.sim.members.rows = [⟨0, 9, 2⟩] ∧ ¬ SameTables s₂.sim s'.sim ∧
      ¬ s₂.sim.PairedGroups := by
  have hagain := Prog.returns_of_run (p := cleanupArtifact 0 1 false)
    (List.replicate 16 ⟨false, 0⟩) (s := (cutAfter 15).2.2) rfl
  have honce := Prog.returns_of_run (p := cleanupArtifact 0 1 false)
    (List.replicate 19 ⟨false, 0⟩) (s := pairStore) rfl
  refine ⟨_, _, _, _, _, _, _, _, _, steps_cutAfter 15, rfl, hagain, honce, by decide, rfl, rfl,
    fun hsame => ?_, by decide⟩
  have hgroups := congrArg Table.rows hsame.groups
  cases hgroups

end Corpus
