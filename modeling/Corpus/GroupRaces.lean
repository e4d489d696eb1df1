/-
Variant groups under concurrent edge insertions.

A history of `insert_edge` calls is safe as long as a call makes its first read
only while no other call that has read, and not yet written, works on an artifact
or a group it works on (`Apart`).  Without that the statement is false: two
creations that share an artifact leave it in one group and its neighbour alone
in another.

Main results:
* `groups_under_concurrency` — once all calls of a history with `Apart` steps
  have returned, the groups are the components of the stored strong edges;
* `overlapping_creates_split_a_component` — a history where they are not.
-/
import Corpus.UnionInvariant

open Relation

namespace Corpus

/-- What is asked of the group tables once all calls have returned. -/
def GroupsConsistent (d : SimDb) : Prop :=
  (∀ t x y, x ≠ y → (d.SameGroup t x y ↔ d.Connected t x y)) ∧
  (∀ t x y, x ≠ y → d.StrongEdge t x y → d.SameGroup t x y) ∧
  (∀ m ∈ d.members.rows, ∃ g ∈ d.groups.rows, g.id = m.groupId ∧ g.tenant = m.tenant) ∧
  (∀ g ∈ d.groups.rows, ∃ x y, x ≠ y ∧ d.groupOf g.tenant x = some g.id ∧
    d.groupOf g.tenant y = some g.id)

/-- The condition on a step: a call makes its first read of a union only while
no other call of the tenant acts on memberships it has read of an artifact or a
group that this call's edge touches. -/
def Apart {α : Type} (d : SimDb) (pts : ℕ → Ctl Pt α) : Act EdgeCall Env → Prop
  | .exec n _ => ∀ {t a b}, pts n = .at (.sim (.groupOfA t a b)) → ∀ {q a' b'}, Other pts n q →
      q.working = some (t, a', b') → ¬ d.Touch t a b a' b'
  | _ => True

theorem Grouped.unionInv {α : Type} {d : SimDb} (h : Grouped d) :
    UnionInv (α := α) (fun t => EqvGen (d.StrongEdge t)) d fun _ => .idle where
  equiv t := EqvGen.is_equivalence _
  sound _ _ _ h := h
  cover _ _ _ h := .inl (.rel _ _ h)
  labels := h.labels
  row := h.row
  pair hg := .inl (h.pair hg)
  here hc := by cases hc
  apart _ hc := by cases hc
  owners _ hc := by cases hc

/-- The invariant along every history whose steps are apart and in which no call
has failed. -/
theorem unionInv_of_history {s₀ : Db} (h₀ : Grouped s₀.sim)
    {h : List (View Pt Db Bool × Act EdgeCall Env)} {v : View Pt Db Bool}
    (hr : View.VReach (fun l _ => EdgeMove l) (fun c : EdgeCall => c.run.ctl) s₀ h v) :
    (∀ e ∈ h, Apart e.1.store.sim e.1.pts e.2) → (∀ n, v.pts n ≠ .failed) →
      ∃ E, UnionInv E v.store.sim v.pts := by
  induction hr with
  | init => exact fun _ _ => ⟨_, h₀.unionInv⟩
  | @spawn h v c _ hdone ih =>
    intro hapart hok
    have hok' := View.not_failed_of_update (by simp [hdone]) hok
    obtain ⟨E, hi⟩ := ih (fun e he => hapart e (List.mem_append_left _ he)) hok'
    refine ⟨E, hi.idle (fun hp => ?_) fun hp => ?_⟩
    · rw [hdone] at hp
      cases hp
    · cases hp
      exact ⟨rfl, rfl, trivial⟩
  | @exec h v n l l' s' i _ hn hm ih =>
    intro hapart hok
    have hok' := View.not_failed_of_update (by simp [hn]) hok
    obtain ⟨E, hi⟩ := ih (fun e he => hapart e (List.mem_append_left _ he)) hok'
    have hl' : l' ≠ .failed := by
      have hself : Function.update v.pts n l' n ≠ .failed := hok n
      rwa [Function.update_self] at hself
    have hstep : Apart v.store.sim v.pts (.exec n i) :=
      hapart (v, .exec n i) (List.mem_append_right _ (List.mem_singleton_self _))
    exact hi.move hn hm hl' fun hl => hstep (hl ▸ hn)
  | @kill h v n l _ hn ih =>
    intro _ hok
    exact absurd (Function.update_self n .failed v.pts) (hok n)

/-- **Groups under concurrency.**  From any store whose groups are right, after
any interleaving of `insert_edge` calls in which every first read of a union was
`Apart` from the unions at work, and once all calls have returned, the groups
are again the components of the stored strong edges. -/
theorem groups_under_concurrency {s₀ : Db} (h₀ : Grouped s₀.sim)
    {h : Pool.Hist EdgeCall Pt Db Env Error Bool} {p : Pool EdgeCall Pt Db Env Error Bool}
    (hr : Pool.Reach EdgeCall.run s₀ h p)
    (hapart : ∀ e ∈ h, Apart e.1.store.sim e.1.ctl e.2) (hdone : ∀ n, (p.ctl n).settled = true) :
    GroupsConsistent p.store.sim := by
  have hok : ∀ n, p.view.pts n ≠ .failed := by
    intro n hn
    have hset := hdone n
    rw [show p.ctl n = .failed from hn] at hset
    cases hset
  obtain ⟨E, hi⟩ := unionInv_of_history h₀ (hr.view fun c => (insertEdge_follows c).takes)
    (Pool.forall_view (fun (s : Db) pts a => Apart s.sim pts a) hapart) hok
  have hidle : ∀ {n q}, p.view.pts n ≠ .at (.sim q) := by
    intro n q hn
    have hset := hdone n
    rw [show p.ctl n = .at (.sim q) from hn] at hset
    cases hset
  -- with no call in flight the edges that are through are all stored edges
  have hE : ∀ t, E t = EqvGen (p.store.sim.StrongEdge t) := by
    intro t
    funext x y
    refine propext ⟨hi.sound t x y, fun hxy => ?_⟩
    induction hxy with
    | rel x y h =>
      rcases hi.cover t x y h with h | ⟨n, q, hn, _⟩
      · exact h
      · exact absurd hn hidle
    | refl x => exact (hi.equiv t).refl x
    | symm x y _ ih => exact (hi.equiv t).symm ih
    | trans x y z _ _ ih1 ih2 => exact (hi.equiv t).trans ih1 ih2
  have hgrouped : Grouped p.store.sim := by
    refine ⟨fun t => hE t ▸ hi.labels t, hi.row, fun hg => ?_⟩
    rcases hi.pair hg with h | ⟨n, q, hn, _⟩
    · exact h
    · exact absurd hn hidle
  refine ⟨fun t x y hxy => hgrouped.sameGroup_iff hxy, fun t x y hxy hs => ?_, fun m hm => ?_,
    fun g hg => hgrouped.pair (Table.mem_rows_iff.mp hg)⟩
  · exact (hgrouped.sameGroup_iff hxy).mpr (.single (.inl hs))
  · have hrow := hgrouped.row (SimDb.mem_members.mp hm)
    exact ⟨⟨m.groupId, m.tenant⟩, (Table.mem_of_get hrow).1, rfl, rfl⟩

theorem strongEdge_of_get {d : SimDb} {t x y : Uuid} {ty : EdgeType}
    (h : (d.edges.get (t, x, y, ty, modelVersion)).isSome) (hty : mergesGroups ty = true) :
    d.StrongEdge t x y := by
  obtain ⟨e, he⟩ := Option.isSome_iff_exists.mp h
  obtain ⟨hmem, hkey⟩ := Table.mem_of_get he
  simp only [Edge.key, Prod.mk.injEq] at hkey
  exact ⟨e, hmem, hkey.1, hkey.2.1, hkey.2.2.1, by rw [hkey.2.2.2.1]; exact hty⟩

/-- A check that suffices for `Apart`: no other call works on memberships. -/
def worksAlone (p : Pool EdgeCall Pt Db Env Error Bool) : Act EdgeCall Env → Bool
  | .exec n _ => (List.range p.procs.length).all fun m => m = n ||
      match p.ctl m with
      | .at (.sim q) => q.working.isNone
      | _ => true
  | _ => true

theorem apart_of_worksAlone {p : Pool EdgeCall Pt Db Env Error Bool} {a : Act EdgeCall Env}
    (h : worksAlone p a = true) : Apart p.store.sim p.ctl a := by
  cases a with
  | exec n i =>
    intro t a b _ q a' b' hq hw
    obtain ⟨m, hm, hat⟩ := hq
    have hlt : m < p.procs.length := by
      by_contra hge
      rw [Pool.ctl, List.getElem?_eq_none_iff.mpr (Nat.not_lt.mp hge)] at hat
      cases hat
    have hm' := List.all_eq_true.mp h m (List.mem_range.mpr hlt)
    simp [hm, hat, hw] at hm'
  | spawn c => trivial
  | kill n => trivial

theorem apart_of_all {h : Pool.Hist EdgeCall Pt Db Env Error Bool}
    (hall : (h.all fun e => worksAlone e.1 e.2) = true) :
    ∀ e ∈ h, Apart e.1.store.sim e.1.ctl e.2 :=
  fun e he => apart_of_worksAlone (List.all_eq_true.mp hall e he)

/-- Two strong edges that share the artifact `2`. -/
def firstEdge : EdgeCall := ⟨0, 1, 2, .exactCopy, 1, ends_one_two⟩

def secondEdge : EdgeCall := ⟨0, 2, 3, .exactCopy, 1, ends_two_three⟩

/-- Both edges are stored before either union starts, then one union after the
other. -/
def unionsInTurn : List (Act EdgeCall Env) :=
  [.spawn firstEdge, .spawn secondEdge, .exec 0 (.drawing 7), .exec 1 (.drawing 8)] ++
    List.replicate 5 (.exec 0 (.drawing 7)) ++ List.replicate 4 (.exec 1 (.drawing 8))

theorem groups_under_concurrency_in_turn :
    ∃ h p, Pool.Reach EdgeCall.run Db.empty h p ∧ p.store.sim.StrongEdge 0 2 3 ∧
      p.store.sim.SameGroup 0 2 3 := by
  obtain ⟨h, p, hreach, hchk⟩ := Pool.exists_reach EdgeCall.run Db.empty unionsInTurn
    (fun h p => (h.all fun e => worksAlone e.1 e.2) &&
      (p.procs.all fun q => (Pool.procCtl q).settled) &&
      (p.store.sim.edges.get (0, 2, 3, .exactCopy, modelVersion)).isSome) (by decide)
  simp only [Bool.and_eq_true] at hchk
  obtain ⟨⟨hall, hdone⟩, hedge⟩ := hchk
  have hstrong := strongEdge_of_get hedge rfl
  have hgroups := groups_under_concurrency (Grouped.empty rfl) hreach (apart_of_all hall)
    (Pool.settled_of_all hdone)
  exact ⟨h, p, hreach, hstrong, hgroups.2.1 0 2 3 (by decide) hstrong⟩

/-- Both calls read before either writes. -/
def interleavedCreates : List (Act EdgeCall Env) :=
  [.spawn firstEdge, .spawn secondEdge] ++ List.replicate 3 (.exec 0 (.drawing 7)) ++
    List.replicate 3 (.exec 1 (.drawing 8)) ++ List.replicate 3 (.exec 0 (.drawing 7)) ++
    List.replicate 3 (.exec 1 (.drawing 8))

/-- Two creations that share an artifact: `2` and `3` are joined by a strong
edge and end in different groups, and the group of `3` has no other member. -/
theorem overlapping_creates_split_a_component :
    ∃ h p, Pool.Reach EdgeCall.run Db.empty h p ∧ (∀ n, (p.ctl n).settled = true) ∧
      p.store.sim.StrongEdge 0 2 3 ∧ ¬ p.store.sim.SameGroup 0 2 3 ∧
      ¬ GroupsConsistent p.store.sim := by
  obtain ⟨h, p, hreach, hchk⟩ := Pool.exists_reach EdgeCall.run Db.empty interleavedCreates
    (fun _ p => (p.procs.all fun q => (Pool.procCtl q).settled) &&
      (p.store.sim.edges.get (0, 2, 3, .exactCopy, modelVersion)).isSome &&
      decide (p.store.sim.groupOf 0 2 = some 7 ∧ p.store.sim.groupOf 0 3 = some 8)) (by decide)
  simp only [Bool.and_eq_true, decide_eq_true_eq] at hchk
  obtain ⟨⟨hdone, hedge⟩, h2, h3⟩ := hchk
  have hstrong := strongEdge_of_get hedge rfl
  have hsplit : ¬ p.store.sim.SameGroup 0 2 3 := by
    rintro ⟨g, hg2, hg3⟩
    rw [h2] at hg2
    rw [h3, ← hg2] at hg3
    cases hg3
  exact ⟨h, p, hreach, Pool.settled_of_all hdone, hstrong, hsplit,
    fun hc => hsplit (hc.2.1 0 2 3 (by decide) hstrong)⟩

end Corpus
