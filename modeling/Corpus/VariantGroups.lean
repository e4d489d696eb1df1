/-
Variant groups as connected components.

`GroupedBy E d` is the invariant of the two group tables: memberships label the
components of the equivalence `E`, every membership names an existing group row
of its tenant, and every group has two members.  Each of the four ways
`unionGroups` can act carries it from `E` to `E` with one more edge
(`GroupedBy.keep`, `.merge`, `.join`, `.create`); `wp_unionGroups` puts them
together and `wp_insertEdge` adds the edge row.

Main results:
* `groups_are_components` — after any sequence of calls that ran to completion,
  the groups are the components of the stored strong edges, and depend only on
  which strong calls were made;
* `insertEdges_fails_only_on_collision` — a sequence fails only when `Uuid::new_v4`
  returns the id of an existing group.
-/
import Corpus.Components
import Corpus.Groups

open Relation

namespace Corpus

/-! ### The graph of strong edges -/

/-- A stored edge of a strong type from `x` to `y`. -/
def SimDb.StrongEdge (d : SimDb) (t x y : Uuid) : Prop :=
  ∃ e ∈ d.edges.rows, e.tenant = t ∧ e.src = x ∧ e.dst = y ∧ mergesGroups e.edgeType = true

/-- Connected by a path of stored strong edges, in either direction. -/
def SimDb.Connected (d : SimDb) (t x y : Uuid) : Prop :=
  ReflTransGen (fun x y => d.StrongEdge t x y ∨ d.StrongEdge t y x) x y

/-- Members of one variant group. -/
def SimDb.SameGroup (d : SimDb) (t x y : Uuid) : Prop :=
  ∃ g, d.groupOf t x = some g ∧ d.groupOf t y = some g

theorem SimDb.connected_iff {d : SimDb} {t x y : Uuid} :
    d.Connected t x y ↔ EqvGen (d.StrongEdge t) x y := by
  rw [← EqvGen.reflTransGen_symmGen]
  rfl

/-! ### The invariant -/

/-- The group tables hold the components of `E t`, tenant by tenant. -/
structure GroupedBy (E : Uuid → Uuid → Uuid → Prop) (d : SimDb) : Prop where
  labels : ∀ t, Labels (E t) (d.groupOf t)
  row : ∀ {t x g}, d.groupOf t x = some g → d.groups.get g = some ⟨g, t⟩
  pair : ∀ {g t}, d.groups.get g = some ⟨g, t⟩ →
    ∃ x y, x ≠ y ∧ d.groupOf t x = some g ∧ d.groupOf t y = some g

/-- `E` with `a` and `b` connected in tenant `t`. -/
def linkAt (E : Uuid → Uuid → Uuid → Prop) (t a b t' : Uuid) : Uuid → Uuid → Prop :=
  if t' = t then link (E t') a b else E t'

theorem linkAt_self (E : Uuid → Uuid → Uuid → Prop) (t a b : Uuid) :
    linkAt E t a b t = link (E t) a b := if_pos rfl

theorem linkAt_of_ne (E : Uuid → Uuid → Uuid → Prop) {t t' : Uuid} (a b : Uuid) (h : t' ≠ t) :
    linkAt E t a b t' = E t' := if_neg h

theorem linkAt_comm (E : Uuid → Uuid → Uuid → Prop) (t a b : Uuid) :
    linkAt E t a b = linkAt E t b a := by
  funext t'
  unfold linkAt
  rw [link_comm]

namespace SimDb

theorem groupOf_addMember_of_none {d : SimDb} {t g x : Uuid} (h : d.groupOf t x = none) :
    (d.addMember t g x).groupOf t = Function.update (d.groupOf t) x (some g) := by
  funext y
  rw [groupOf_addMember]
  by_cases hy : y = x
  · subst hy
    rw [Function.update_self, h, if_pos ⟨rfl, rfl⟩]
    rfl
  · rw [Function.update_of_ne hy, if_neg fun hc => hy hc.2, Option.or_none]

theorem groupOf_addMember_of_ne (d : SimDb) {t t' : Uuid} (g x : Uuid) (h : t' ≠ t) :
    (d.addMember t g x).groupOf t' = d.groupOf t' := by
  funext y
  rw [groupOf_addMember, if_neg fun hc => h hc.1, Option.or_none]

theorem groupOf_moveMembers_of_ne (d : SimDb) {t t' : Uuid} (keep drop : Uuid) (h : t' ≠ t) :
    (d.moveMembers t keep drop).groupOf t' = d.groupOf t' := by
  funext y
  rw [groupOf_moveMembers, if_neg fun hc => h hc.1]

end SimDb

namespace GroupedBy

variable {E : Uuid → Uuid → Uuid → Prop} {d : SimDb} {t a b g g' : Uuid}

/-- A label is used in one tenant only. -/
theorem tenant_eq (h : GroupedBy E d) {t' x y : Uuid} (hx : d.groupOf t x = some g)
    (hy : d.groupOf t' y = some g) : t = t' := by
  have heq := (h.row hx).symm.trans (h.row hy)
  simpa using heq

theorem keep (hE : ∀ t, Equivalence (E t)) (h : GroupedBy E d) (ha : d.groupOf t a = some g)
    (hb : d.groupOf t b = some g) : GroupedBy (linkAt E t a b) d where
  labels t' := by
    by_cases ht : t' = t
    · subst ht
      rw [linkAt_self]
      exact (h.labels t').keep (hE t') ha hb
    · rw [linkAt_of_ne E a b ht]
      exact h.labels t'
  row := h.row
  pair := h.pair

theorem join (hE : ∀ t, Equivalence (E t)) (h : GroupedBy E d) (ha : d.groupOf t a = some g)
    (hb : d.groupOf t b = none) : GroupedBy (linkAt E t a b) (d.addMember t g b) where
  labels t' := by
    by_cases ht : t' = t
    · subst ht
      rw [linkAt_self, SimDb.groupOf_addMember_of_none hb]
      exact (h.labels t').join (hE t') ha hb
    · rw [linkAt_of_ne E a b ht, SimDb.groupOf_addMember_of_ne d g b ht]
      exact h.labels t'
  row {t' x l} hx := by
    rw [SimDb.groupOf_addMember] at hx
    cases hd : d.groupOf t' x with
    | some l' =>
      rw [hd] at hx
      obtain rfl : l' = l := Option.some.inj hx
      exact h.row hd
    | none =>
      rw [hd] at hx
      simp only [Option.none_or, Option.ite_none_right_eq_some, Option.some.injEq] at hx
      obtain ⟨⟨rfl, _⟩, rfl⟩ := hx
      exact h.row ha
  pair {l t'} hl := by
    obtain ⟨x, y, hxy, hx, hy⟩ := h.pair hl
    refine ⟨x, y, hxy, ?_, ?_⟩
    · rw [SimDb.groupOf_addMember, hx, Option.some_or]
    · rw [SimDb.groupOf_addMember, hy, Option.some_or]

/-- The members of a new group, with the first of them marked. -/
theorem create (hE : ∀ t, Equivalence (E t)) (h : GroupedBy E d) (hab : a ≠ b)
    (ha : d.groupOf t a = none) (hb : d.groupOf t b = none) (hg : d.groups.get g = none) :
    GroupedBy (linkAt E t a b) (((d.addGroup t g).addMember t g a).addMember t g b) := by
  -- no membership names `g` before
  have hunused : ∀ t' x, d.groupOf t' x ≠ some g := by
    intro t' x hx
    rw [h.row hx] at hg
    cases hg
  have ha' : (d.addGroup t g).groupOf t a = none := ha
  have hmark : ((d.addGroup t g).addMember t g a).groupOf t =
      Function.update (d.groupOf t) a (some g) := SimDb.groupOf_addMember_of_none ha'
  have hb' : ((d.addGroup t g).addMember t g a).groupOf t b = none := by
    rw [hmark, Function.update_of_ne hab.symm, hb]
  have hjoin := SimDb.groupOf_addMember_of_none (g := g) hb'
  rw [hmark] at hjoin
  refine ⟨fun t' => ?_, ?_, ?_⟩
  · by_cases ht : t' = t
    · subst ht
      rw [linkAt_self, hjoin]
      have hm := (h.labels t').mark (hE t') ha (hunused t')
      refine hm.join (hE t') (Function.update_self _ _ _) ?_
      rw [Function.update_of_ne hab.symm, hb]
    · rw [linkAt_of_ne E a b ht, SimDb.groupOf_addMember_of_ne _ g b ht,
        SimDb.groupOf_addMember_of_ne _ g a ht]
      exact h.labels t'
  · intro t' x l hx
    show (d.addGroup t g).groups.get l = some ⟨l, t'⟩
    rw [SimDb.groups_addGroup]
    by_cases ht : t' = t
    · subst ht
      rw [hjoin] at hx
      by_cases hl : l = g
      · subst hl
        rw [hg, Option.none_or, if_pos rfl]
      · have hx' : d.groupOf t' x = some l := by
          rcases eq_or_ne x b with rfl | hxb
          · rw [Function.update_self] at hx
            exact absurd (Option.some.inj hx).symm hl
          rcases eq_or_ne x a with rfl | hxa
          · rw [Function.update_of_ne hxb, Function.update_self] at hx
            exact absurd (Option.some.inj hx).symm hl
          rwa [Function.update_of_ne hxb, Function.update_of_ne hxa] at hx
        rw [h.row hx', Option.some_or]
    · rw [SimDb.groupOf_addMember_of_ne _ g b ht, SimDb.groupOf_addMember_of_ne _ g a ht] at hx
      rw [h.row (x := x) hx, Option.some_or]
  · intro l t' hl
    have hl' : (d.addGroup t g).groups.get l = some ⟨l, t'⟩ := hl
    rw [SimDb.groups_addGroup] at hl'
    cases hd : d.groups.get l with
    | none =>
      rw [hd, Option.none_or] at hl'
      split at hl'
      · next hgl =>
        subst hgl
        simp only [Option.some.injEq, VariantGroup.mk.injEq, true_and] at hl'
        subst hl'
        refine ⟨a, b, hab, ?_, ?_⟩
        · rw [hjoin, Function.update_of_ne hab, Function.update_self]
        · rw [hjoin, Function.update_self]
      · cases hl'
    | some r =>
      rw [hd, Option.some_or] at hl'
      obtain ⟨x, y, hxy, hx, hy⟩ := h.pair (hd.trans hl')
      refine ⟨x, y, hxy, ?_, ?_⟩
      · rw [SimDb.groupOf_addMember, SimDb.groupOf_addMember, SimDb.groupOf_addGroup, hx]
        rfl
      · rw [SimDb.groupOf_addMember, SimDb.groupOf_addMember, SimDb.groupOf_addGroup, hy]
        rfl

theorem merge (hE : ∀ t, Equivalence (E t)) (h : GroupedBy E d) (hne : g ≠ g')
    (ha : d.groupOf t a = some g) (hb : d.groupOf t b = some g') :
    GroupedBy (linkAt E t a b) ((d.moveMembers t g g').deleteGroup t g') where
  labels t' := by
    by_cases ht : t' = t
    · subst ht
      rw [linkAt_self]
      refine (h.labels t').merge (hE t') ha hb fun z => ?_
      show (d.moveMembers t' g g').groupOf t' z = _
      rw [SimDb.groupOf_moveMembers]
      simp only [true_and]
    · rw [linkAt_of_ne E a b ht]
      have := d.groupOf_moveMembers_of_ne g g' ht
      show Labels (E t') ((d.moveMembers t g g').groupOf t')
      rw [this]
      exact h.labels t'
  row {t' x l} hx := by
    have hx' : (d.moveMembers t g g').groupOf t' x = some l := hx
    rw [SimDb.groupOf_moveMembers] at hx'
    rw [SimDb.groups_deleteGroup]
    show (d.groups.get l).filter _ = _
    split at hx'
    · next hc =>
      obtain ⟨rfl, _⟩ := hc
      obtain rfl : g = l := Option.some.inj hx'
      rw [h.row ha]
      simp [hne]
    · next hc =>
      rw [h.row hx']
      -- a row of the dropped group belongs to tenant `t`, whose members have moved
      have hl : ¬ (t' = t ∧ l = g') := fun hd => hc ⟨hd.1, hd.2 ▸ hx'⟩
      simpa [-not_and, not_and_or] using hl
  pair {l t'} hl := by
    rw [SimDb.groups_deleteGroup] at hl
    obtain ⟨hget, hkeep⟩ := Option.filter_eq_some_iff.mp hl
    obtain ⟨x, y, hxy, hx, hy⟩ := h.pair (show d.groups.get l = some ⟨l, t'⟩ from hget)
    have hl' : ¬ (t' = t ∧ l = g') := by
      simpa [-not_and, not_and_or] using hkeep
    have hstay : ∀ z, d.groupOf t' z = some l → (d.moveMembers t g g').groupOf t' z = some l := by
      intro z hz
      rw [SimDb.groupOf_moveMembers, if_neg, hz]
      rintro ⟨ht, hz'⟩
      exact hl' ⟨ht, Option.some.inj (hz.symm.trans hz')⟩
    exact ⟨x, y, hxy, hstay x hx, hstay y hy⟩

end GroupedBy

/-! ### The union, statement by statement -/

/-- Statements between a strong edge's row and the end of its union. -/
def Pt.inUnion : Pt → Bool
  | .sim (.groupOfA ..) | .sim (.groupOfB ..) | .sim (.mergeUpdate ..) | .sim (.mergeDelete ..)
  | .sim (.joinAdd ..) | .sim (.createGroup ..) | .sim (.createAddA ..) | .sim (.createAddB ..) =>
    true
  | _ => false

/-- The store without what a union writes. -/
def Db.forgetGroups (s : Db) : Db :=
  { s with sim := { s.sim with groups := .empty, members := .empty }, outbox := [] }

/-- The error of a `Uuid::new_v4` that returned the id of an existing group. -/
def groupCollision : Error := .db "variant_group_pkey"

theorem wp_fire {P : Pt → Db → Prop} {Q : Except Error ℕ → Db → Prop} {l : Pt} {t : Uuid}
    {condition : String} {event : Json} {s : Db} (hP : ∀ o, P l { s with outbox := o })
    (hQ : ∀ n o, Q (.ok n) { s with outbox := o }) :
    Prog.wp P Q (fire l t condition event) s := by
  refine ⟨hP s.outbox, fun i => ?_⟩
  refine Prog.wp_loop (I := fun _ _ s' => ∃ o, s' = { s with outbox := o }) ?_ ?_ _ _ _ ⟨_, rfl⟩
  · rintro n s' ⟨o, rfl⟩
    exact hQ n o
  · rintro id ids n s' ⟨o, rfl⟩
    exact ⟨hP o, fun env => ⟨_, rfl⟩⟩

/-- What is watched during a union: nothing but groups changes, and outside the
window the groups are those of `E`. -/
def unionWatch (E : Uuid → Uuid → Uuid → Prop) (s₀ : Db) (l : Pt) (s : Db) : Prop :=
  s.forgetGroups = s₀.forgetGroups ∧ (l.inUnion = false → GroupedBy E s.sim)

/-- What a union leaves: the groups of `E`, unless an identifier collided. -/
def unionDone {α : Type} (E : Uuid → Uuid → Uuid → Prop) (s₀ : Db) (r : Except Error α)
    (s : Db) : Prop :=
  s.forgetGroups = s₀.forgetGroups ∧
    match r with
    | .ok _ => GroupedBy E s.sim
    | .error e => e = groupCollision

section Union

variable {E : Uuid → Uuid → Uuid → Prop} {t a b g : Uuid} {s₀ s : Db}

theorem wp_addMember {l : Pt} {x : Uuid} {P : Pt → Db → Prop}
    {Q : Except Error Unit → Db → Prop} (hg : (s.sim.groups.get g).isSome) (hP : P l s)
    (hQ : Q (.ok ()) { s with sim := s.sim.addMember t g x }) :
    Prog.wp P Q (addMember l t g x) s := by
  refine Prog.wp_exec.mpr ⟨hP, fun i => ?_⟩
  rw [Option.isNone_eq_false_iff.mpr hg, Bool.and_false]
  exact hQ

/-- One end has a group: the other one joins it, and the triggers fire. -/
theorem wp_joinGroup {x y : Uuid} {l : Pt} (hl : l.inUnion = true)
    (hE : ∀ t, Equivalence (E t)) (h : GroupedBy E s.sim) (hx : s.sim.groupOf t x = some g)
    (hy : s.sim.groupOf t y = none) (hs : s.forgetGroups = s₀.forgetGroups) :
    Prog.wp (unionWatch (linkAt E t x y) s₀) (unionDone (linkAt E t x y) s₀)
      (addMember l t g y >>= fun _ => fireVariantJoin t g y >>= fun _ => Prog.ret ()) s := by
  have hgroup : (s.sim.groups.get g).isSome := by rw [h.row hx]; rfl
  have hjoin := h.join hE hx hy
  refine Prog.wp_bind (wp_addMember hgroup ⟨hs, fun hc => ?_⟩ ?_)
  · rw [hl] at hc
    cases hc
  · refine Prog.wp_bind (wp_fire ?_ ?_)
    · exact fun o => ⟨hs, fun _ => hjoin⟩
    · exact fun n o => ⟨hs, hjoin⟩

/-- Both ends have groups: the members of one move to the other. -/
theorem wp_mergeGroups {keep drop x y : Uuid} (hE : ∀ t, Equivalence (E t))
    (h : GroupedBy E s.sim) (hne : keep ≠ drop) (hx : s.sim.groupOf t x = some keep)
    (hy : s.sim.groupOf t y = some drop) (hs : s.forgetGroups = s₀.forgetGroups) :
    Prog.wp (unionWatch (linkAt E t x y) s₀) (unionDone (linkAt E t x y) s₀)
      (mergeGroups t a b keep drop) s := by
  refine Prog.wp_exec_bind.mpr ⟨⟨hs, fun hc => by cases hc⟩, fun i => ?_⟩
  have hkeep : (s.sim.groups.get keep).isNone = false := by rw [h.row hx]; rfl
  rw [hkeep, Bool.false_and]
  refine Prog.wp_exec.mpr ⟨⟨hs, fun hc => by cases hc⟩, fun i => ?_⟩
  -- nobody is left in the dropped group
  have hnone : ((s.sim.moveMembers t keep drop).members.rows.any fun m => m.groupId = drop) =
      false := by
    rw [Bool.eq_false_iff]
    intro hany
    obtain ⟨m, hm, hd⟩ := List.any_eq_true.mp hany
    have hm' := SimDb.mem_members.mp hm
    rw [of_decide_eq_true hd, SimDb.groupOf_moveMembers] at hm'
    split at hm'
    · exact hne (Option.some.inj hm')
    · next hc =>
      have ht := h.tenant_eq hm' hy
      exact hc ⟨ht, hm'⟩
  rw [hnone]
  exact ⟨hs, h.merge hE hne hx hy⟩

/-- `union_groups` turns the groups of `E` into those of `E` with the edge. -/
theorem wp_unionGroups (hE : ∀ t, Equivalence (E t)) (h : GroupedBy E s.sim) (hab : a ≠ b) :
    Prog.wp (unionWatch (linkAt E t a b) s) (unionDone (linkAt E t a b) s)
      (unionGroups t a b) s := by
  refine ⟨⟨rfl, fun hc => by cases hc⟩, fun _ => ⟨⟨rfl, fun hc => by cases hc⟩, fun _ => ?_⟩⟩
  show Prog.wp _ _ (unionWith t a b (s.sim.groupOf t a) (s.sim.groupOf t b)) s
  cases ha : s.sim.groupOf t a with
  | some g1 =>
    cases hb : s.sim.groupOf t b with
    | some g2 =>
      by_cases hg : g1 = g2
      · subst hg
        rw [unionWith, if_neg (not_not_intro rfl)]
        exact ⟨rfl, h.keep hE ha hb⟩
      · rw [unionWith, if_pos hg]
        rcases Nat.lt_or_gt_of_ne hg with hlt | hgt
        · rw [Nat.min_eq_left hlt.le, Nat.max_eq_right hlt.le]
          exact wp_mergeGroups hE h hg ha hb rfl
        · rw [Nat.min_eq_right hgt.le, Nat.max_eq_left hgt.le, linkAt_comm]
          exact wp_mergeGroups hE h (Ne.symm hg) hb ha rfl
    | none => exact wp_joinGroup rfl hE h ha hb rfl
  | none =>
    cases hb : s.sim.groupOf t b with
    | some g =>
      rw [linkAt_comm]
      exact wp_joinGroup rfl hE h hb ha rfl
    | none =>
      refine Prog.wp_exec_bind.mpr ⟨⟨rfl, fun hc => by cases hc⟩, fun env => ?_⟩
      by_cases hg : (s.sim.groups.get (env.uuid 0)).isSome = true
      · rw [if_pos hg]
        exact ⟨rfl, rfl⟩
      · rw [if_neg hg]
        have hnone : s.sim.groups.get (env.uuid 0) = none := by simpa using hg
        have hnew : ((s.sim.addGroup t (env.uuid 0)).groups.get (env.uuid 0)).isSome := by
          rw [SimDb.groups_addGroup, hnone, if_pos rfl]
          rfl
        refine Prog.wp_bind (wp_addMember hnew ⟨rfl, fun hc => by cases hc⟩ ?_)
        refine wp_addMember hnew ⟨rfl, fun hc => by cases hc⟩ ?_
        exact ⟨rfl, h.create hE hab ha hb hnone⟩

end Union

/-! ### Inserting an edge -/

/-- The groups are the components of the stored strong edges. -/
def Grouped (d : SimDb) : Prop := GroupedBy (fun t => EqvGen (d.StrongEdge t)) d

/-- `s` with an edge row added. -/
def Db.withEdge (s : Db) (e : Edge) : Db := { s with sim := s.sim.addEdge e }

/-- A property of the ends and the type of an edge, which are in its key. -/
theorem SimDb.exists_addEdge (d : SimDb) (e : Edge) {Q : Uuid → Uuid → Uuid → EdgeType → Prop} :
    (∃ e' ∈ (d.addEdge e).edges.rows, Q e'.tenant e'.src e'.dst e'.edgeType) ↔
      (∃ e' ∈ d.edges.rows, Q e'.tenant e'.src e'.dst e'.edgeType) ∨
        Q e.tenant e.src e.dst e.edgeType := by
  constructor
  · rintro ⟨e', he', hrest⟩
    rcases Table.mem_insertNew he' with hold | rfl
    · exact .inl ⟨e', hold, hrest⟩
    · exact .inr hrest
  · rintro (⟨e', he', hrest⟩ | hrest)
    · exact ⟨e', Table.rows_sublist_insertNew _ _ he', hrest⟩
    · cases hg : d.edges.get e.key with
      | none => exact ⟨e, (Table.mem_insertNew_of_none hg).mpr (.inr rfl), hrest⟩
      | some e' =>
        -- a row with the same key has the same ends and type
        obtain ⟨hmem, hkey⟩ := Table.mem_of_get hg
        simp only [Edge.key, Prod.mk.injEq] at hkey
        obtain ⟨h1, h2, h3, h4, _⟩ := hkey
        refine ⟨e', Table.rows_sublist_insertNew _ _ hmem, ?_⟩
        rw [h1, h2, h3, h4]
        exact hrest

theorem SimDb.strongEdge_addEdge (d : SimDb) (e : Edge) (t x y : Uuid) :
    (d.addEdge e).StrongEdge t x y ↔
      d.StrongEdge t x y ∨
        e.tenant = t ∧ e.src = x ∧ e.dst = y ∧ mergesGroups e.edgeType = true :=
  d.exists_addEdge e (Q := fun t' src dst ty => t' = t ∧ src = x ∧ dst = y ∧ mergesGroups ty = true)

/-- Equal edge tables have equal strong edges. -/
theorem strongEdge_congr {d d' : SimDb} (h : d.edges = d'.edges) : d.StrongEdge = d'.StrongEdge := by
  unfold SimDb.StrongEdge
  rw [h]

/-- `Grouped` reads the edges, the groups and the memberships. -/
theorem Grouped.of_eq {d d' : SimDb} (h : Grouped d) (he : d'.edges = d.edges)
    (hg : d'.groups = d.groups) (hm : d'.members = d.members) : Grouped d' := by
  have hgroup : d'.groupOf = d.groupOf := by
    unfold SimDb.groupOf
    rw [hm]
  unfold Grouped
  rw [strongEdge_congr he]
  exact ⟨fun t => hgroup ▸ h.labels t, fun hx => hg ▸ h.row (hgroup ▸ hx),
    fun hx => hgroup ▸ h.pair (hg ▸ hx)⟩

theorem edges_of_forgetGroups {s s' : Db} (h : s.forgetGroups = s'.forgetGroups) :
    s.sim.edges = s'.sim.edges := by
  have := congrArg (fun s : Db => s.sim.edges) h
  exact this

/-- A new strong edge links its ends on top of the old components. -/
theorem eqvGen_addEdge {d : SimDb} {e : Edge} (hstrong : mergesGroups e.edgeType = true) :
    (fun t => EqvGen ((d.addEdge e).StrongEdge t)) =
      linkAt (fun t => EqvGen (d.StrongEdge t)) e.tenant e.src e.dst := by
  funext t
  by_cases ht : t = e.tenant
  · subst ht
    rw [linkAt_self]
    refine eqvGen_insert fun x y => ?_
    rw [SimDb.strongEdge_addEdge]
    simp only [hstrong, true_and, and_true, @eq_comm _ e.src, @eq_comm _ e.dst]
  · rw [linkAt_of_ne _ _ _ ht]
    congr 1
    funext x y
    rw [SimDb.strongEdge_addEdge]
    simp only [Ne.symm ht, false_and, or_false]

/-- A row that is a duplicate or weak leaves the components alone. -/
theorem Grouped.addEdge {d : SimDb} {e : Edge} (h : Grouped d)
    (hc : (d.edges.get e.key).isSome ∨ mergesGroups e.edgeType = false) :
    Grouped (d.addEdge e) := by
  have hsame : (d.addEdge e).StrongEdge = d.StrongEdge := by
    cases hg : d.edges.get e.key with
    | some e' => exact strongEdge_congr (Table.rows_insertNew_of_get hg)
    | none =>
      have hweak : mergesGroups e.edgeType = false := by
        rcases hc with hc | hc
        · rw [hg] at hc
          cases hc
        · exact hc
      funext t x y
      rw [SimDb.strongEdge_addEdge, hweak]
      simp
  unfold Grouped
  rw [hsame]
  exact ⟨h.labels, h.row, h.pair⟩

/-- The row `insert_edge` writes at time `now`. -/
def edgeRow (t a b : Uuid) (ty : EdgeType) (score : ℚ) (now : Time) : Edge :=
  ⟨t, if a < b then a else b, if a < b then b else a, ty, modelVersion, score, now⟩

/-- What is watched during `insert_edge`: before the row nothing has changed;
after it nothing but groups, and outside the union the groups are right. -/
def edgeWatch (s₀ : Db) (t a b : Uuid) (ty : EdgeType) (score : ℚ) (l : Pt) (s : Db) : Prop :=
  (l.inUnion = false ∧ s = s₀) ∨
    ∃ now, s.forgetGroups = (s₀.withEdge (edgeRow t a b ty score now)).forgetGroups ∧
      (l.inUnion = false → Grouped s.sim)

/-- What `insert_edge` leaves. -/
def edgeDone (s₀ : Db) (t a b : Uuid) (ty : EdgeType) (score : ℚ) (r : Except Error Bool)
    (s : Db) : Prop :=
  ∃ now, s.forgetGroups = (s₀.withEdge (edgeRow t a b ty score now)).forgetGroups ∧
    match r with
    | .ok _ => Grouped s.sim
    | .error e => e = groupCollision

theorem edgeRow_lt (t : Uuid) {a b : Uuid} (ty : EdgeType) (score : ℚ) (now : Time) (hab : a ≠ b) :
    (edgeRow t a b ty score now).src < (edgeRow t a b ty score now).dst := by
  unfold edgeRow
  by_cases h : a < b
  · simp only [h, if_true]
  · simp only [h, if_false]
    exact lt_of_le_of_ne (not_lt.mp h) hab.symm

/-- **`insert_edge`** keeps the groups the components of the stored edges. -/
theorem wp_insertEdge {s : Db} {t a b : Uuid} (hab : a ≠ b) (ty : EdgeType) (score : ℚ)
    (h : Grouped s.sim) :
    Prog.wp (edgeWatch s t a b ty score) (edgeDone s t a b ty score)
      (insertEdge t a b ty score) s := by
  refine Prog.wp_exec_bind.mpr ⟨.inl ⟨rfl, rfl⟩, fun env => ?_⟩
  have hlt := edgeRow_lt t ty score env.now hab
  rw [if_pos (show (if a < b then a else b) < (if a < b then b else a) from hlt)]
  show Prog.wp _ _ _ (s.withEdge (edgeRow t a b ty score env.now))
  set e := edgeRow t a b ty score env.now with he
  have hkey : (t, (if a < b then a else b), (if a < b then b else a), ty, modelVersion) = e.key :=
    rfl
  rw [hkey]
  by_cases hc : (s.sim.edges.get e.key).isNone = true ∧ mergesGroups ty = true
  · -- a new strong edge: the union turns the old components into the new ones
    have hlink := eqvGen_addEdge (d := s.sim) (show mergesGroups e.edgeType = true from hc.2)
    have hunion := wp_unionGroups (E := fun t => EqvGen (s.sim.StrongEdge t)) (t := t)
      (s := s.withEdge e) (fun t => EqvGen.is_equivalence _) ⟨h.labels, h.row, h.pair⟩
      (ne_of_lt hlt)
    have hgrouped : ∀ s', Db.forgetGroups s' = (s.withEdge e).forgetGroups →
        GroupedBy (linkAt (fun t => EqvGen (s.sim.StrongEdge t)) t e.src e.dst) s'.sim →
        Grouped s'.sim := by
      intro s' hf hg
      unfold Grouped
      rw [strongEdge_congr (edges_of_forgetGroups hf)]
      exact hlink ▸ hg
    rw [if_pos (by rw [hc.1, hc.2]; rfl)]
    refine Prog.wp_bind (Prog.wp_mono ?_ ?_ hunion)
    · rintro l s' ⟨hf, hg⟩
      exact .inr ⟨env.now, hf, fun hl => hgrouped s' hf (hg hl)⟩
    · rintro r s' ⟨hf, hg⟩
      cases r with
      | ok u => exact ⟨env.now, hf, hgrouped s' hf hg⟩
      | error e => exact ⟨env.now, hf, hg⟩
  · rw [if_neg (by simpa [-Option.isNone_iff_eq_none] using hc)]
    refine ⟨env.now, rfl, h.addEdge ?_⟩
    by_cases hsome : (s.sim.edges.get e.key).isSome = true
    · exact .inl hsome
    · refine .inr ?_
      have hnone : (s.sim.edges.get e.key).isNone = true := by simpa using hsome
      exact Bool.eq_false_iff.mpr fun hm => hc ⟨hnone, hm⟩

theorem Grouped.empty {s : Db} (h : s.sim = .empty) : Grouped s.sim := by
  have hE : ∀ t, s.sim.StrongEdge t = fun _ _ => False := by
    intro t
    funext x y
    simp [h, SimDb.StrongEdge, SimDb.empty]
  refine ⟨fun t x y hxy => ?_, fun {t x g} hx => ?_, fun {g t} hg => ?_⟩
  · refine ⟨fun hc => ?_, fun ⟨g, hx, _⟩ => ?_⟩
    · have heq : x = y := by
        induction hc with
        | rel x y hr => exact absurd hr (by rw [hE]; exact not_false)
        | refl x => rfl
        | symm x y _ ih => exact (ih hxy.symm).symm
        | trans x y z _ _ ih1 ih2 =>
          by_cases h1 : x = y
          · exact h1.trans (ih2 (h1 ▸ hxy))
          · exact absurd (ih1 h1) h1
      exact absurd heq hxy
    · simp [h, SimDb.groupOf, SimDb.empty] at hx
  · simp [h, SimDb.groupOf, SimDb.empty] at hx
  · simp [h, SimDb.empty] at hg

/-! ### Sequences of calls -/

/-- The arguments of one `insert_edge` call, on two different artifacts. -/
structure EdgeCall where
  tenant : Uuid
  a : Uuid
  b : Uuid
  ty : EdgeType
  score : ℚ
  ne : a ≠ b

namespace EdgeCall

def run (c : EdgeCall) : Srv Bool := insertEdge c.tenant c.a c.b c.ty c.score

def strong (c : EdgeCall) : Bool := mergesGroups c.ty

/-- The call stores a strong edge from `x` to `y`. -/
def Links (c : EdgeCall) (t x y : Uuid) : Prop :=
  c.tenant = t ∧ (if c.a < c.b then c.a else c.b) = x ∧ (if c.a < c.b then c.b else c.a) = y ∧
    c.strong = true

end EdgeCall

/-- Calls executed one after another, each to completion. -/
def insertEdges (cs : List EdgeCall) : Srv Unit :=
  Prog.loop (fun _ c => do
    let _ ← c.run
    return ()) cs ()

/-- After a sequence of calls the strong edges are those of the calls, and the
groups are their components. -/
theorem wp_insertEdges {s₀ : Db} (h₀ : s₀.sim = .empty) (cs : List EdgeCall) :
    Prog.wp (fun _ _ => True)
      (fun r s => match r with
        | .ok _ => Grouped s.sim ∧ ∀ t x y, s.sim.StrongEdge t x y ↔ ∃ c ∈ cs, c.Links t x y
        | .error e => e = groupCollision)
      (insertEdges cs) s₀ := by
  refine Prog.wp_loop (I := fun xs _ s => Grouped s.sim ∧ ∃ ys, cs = ys ++ xs ∧
    ∀ t x y, s.sim.StrongEdge t x y ↔ ∃ c ∈ ys, c.Links t x y) ?_ ?_ _ _ _
    ⟨Grouped.empty h₀, [], rfl, fun t x y => ?_⟩
  · rintro u s ⟨hg, ys, hcs, hedges⟩
    obtain rfl : cs = ys := by simpa using hcs
    exact ⟨hg, hedges⟩
  · rintro c xs u s ⟨hg, ys, hcs, hedges⟩
    refine Prog.wp_bind (Prog.wp_mono (fun _ _ _ => trivial) ?_
      (wp_insertEdge c.ne c.ty c.score hg))
    rintro r s' ⟨now, hf, hr⟩
    cases r with
    | error e => exact hr
    | ok new =>
      refine ⟨hr, ys ++ [c], by rw [hcs, List.append_assoc, List.singleton_append], ?_⟩
      intro t x y
      rw [strongEdge_congr (edges_of_forgetGroups hf)]
      show (s.sim.addEdge _).StrongEdge t x y ↔ _
      rw [SimDb.strongEdge_addEdge, hedges]
      simp only [List.mem_append, List.mem_singleton]
      constructor
      · rintro (⟨c', hc', hl⟩ | hl)
        · exact ⟨c', .inl hc', hl⟩
        · exact ⟨c, .inr rfl, hl⟩
      · rintro ⟨c', hc' | rfl, hl⟩
        · exact .inl ⟨c', hc', hl⟩
        · exact .inr hl
  · simp [h₀, SimDb.StrongEdge, SimDb.empty]

/-- A sequence of calls fails only when `Uuid::new_v4` repeats a group id. -/
theorem insertEdges_fails_only_on_collision {s₀ s : Db} (h₀ : s₀.sim = .empty)
    {cs : List EdgeCall} {ls : List Pt} {e : Error}
    (hrun : (insertEdges cs).Steps s₀ ls (.err e) s) : e = groupCollision :=
  Prog.wp_sound hrun (wp_insertEdges h₀ cs)

theorem Grouped.sameGroup_iff {d : SimDb} (h : Grouped d) {t x y : Uuid} (hxy : x ≠ y) :
    d.SameGroup t x y ↔ d.Connected t x y := by
  rw [SimDb.connected_iff]
  exact (h.labels t x y hxy).symm

/-- An artifact in a group shares it with another one. -/
theorem Grouped.partner {d : SimDb} (h : Grouped d) {t x : Uuid} (hx : d.SameGroup t x x) :
    ∃ y, x ≠ y ∧ d.SameGroup t x y := by
  obtain ⟨g, hg, _⟩ := hx
  obtain ⟨y, z, hyz, hy, hz⟩ := h.pair (h.row hg)
  by_cases hxy : x = y
  · exact ⟨z, hxy ▸ hyz, g, hg, hz⟩
  · exact ⟨y, hxy, g, hg, hy⟩

/-- Equal strong edges give equal partitions. -/
theorem Grouped.sameGroup_congr {d d' : SimDb} (h : Grouped d) (h' : Grouped d')
    (hE : d.StrongEdge = d'.StrongEdge) (t x y : Uuid) : d.SameGroup t x y ↔ d'.SameGroup t x y := by
  have hne : ∀ x y, x ≠ y → (d.SameGroup t x y ↔ d'.SameGroup t x y) := by
    intro x y hxy
    rw [h.sameGroup_iff hxy, h'.sameGroup_iff hxy, SimDb.Connected, SimDb.Connected, hE]
  by_cases hxy : x = y
  · subst hxy
    constructor
    · intro hx
      obtain ⟨z, hz, g, hxg, hzg⟩ := h.partner hx
      obtain ⟨g', hxg', _⟩ := (hne x z hz).mp ⟨g, hxg, hzg⟩
      exact ⟨g', hxg', hxg'⟩
    · intro hx
      obtain ⟨z, hz, g, hxg, hzg⟩ := h'.partner hx
      obtain ⟨g', hxg', _⟩ := (hne x z hz).mpr ⟨g, hxg, hzg⟩
      exact ⟨g', hxg', hxg'⟩
  · exact hne x y hxy

/-- **Variant groups are the components of the strong-edge graph.**  After any
sequence of calls run one after another from an empty similarity store: members
of one group are exactly the artifacts connected by stored strong edges; an
artifact has at most one membership, which names an existing group; a group has
two members; and the partition depends only on the strong calls, in any order. -/
theorem groups_are_components {s₀ s : Db} (h₀ : s₀.sim = .empty) {cs : List EdgeCall}
    {ls : List Pt} (hrun : (insertEdges cs).Returns s₀ ls () s) :
    (∀ t x y, x ≠ y → (s.sim.SameGroup t x y ↔ s.sim.Connected t x y)) ∧
    (∀ m ∈ s.sim.members.rows, ∀ m' ∈ s.sim.members.rows,
      m.tenant = m'.tenant → m.artifactId = m'.artifactId → m = m') ∧
    (∀ m ∈ s.sim.members.rows, ∃ g ∈ s.sim.groups.rows, g.id = m.groupId ∧ g.tenant = m.tenant) ∧
    (∀ g ∈ s.sim.groups.rows, ∃ m ∈ s.sim.members.rows, ∃ m' ∈ s.sim.members.rows,
      m.artifactId ≠ m'.artifactId ∧ m.groupId = g.id ∧ m'.groupId = g.id ∧
        m.tenant = g.tenant ∧ m'.tenant = g.tenant) ∧
    (∀ (cs' : List EdgeCall) (s₀' s' : Db) (ls' : List Pt), s₀'.sim = .empty →
      (cs.filter EdgeCall.strong).Perm (cs'.filter EdgeCall.strong) →
      (insertEdges cs').Returns s₀' ls' () s' →
      ∀ t x y, s.sim.SameGroup t x y ↔ s'.sim.SameGroup t x y) := by
  obtain ⟨hg, hedges⟩ := Prog.wp_returns hrun (wp_insertEdges h₀ cs)
  refine ⟨fun t x y hxy => hg.sameGroup_iff hxy, ?_, ?_, ?_, ?_⟩
  · intro m hm m' hm' ht ha
    exact Table.eq_of_mem hm hm' (Prod.ext ht ha)
  · intro m hm
    have hrow := hg.row (SimDb.mem_members.mp hm)
    exact ⟨⟨m.groupId, m.tenant⟩, (Table.mem_of_get hrow).1, rfl, rfl⟩
  · intro g hmem
    obtain ⟨x, y, hxy, hx, hy⟩ := hg.pair (g := g.id) (t := g.tenant) (Table.mem_rows_iff.mp hmem)
    exact ⟨⟨g.tenant, g.id, x⟩, SimDb.mem_members.mpr hx, ⟨g.tenant, g.id, y⟩,
      SimDb.mem_members.mpr hy, hxy, rfl, rfl, rfl, rfl⟩
  · intro cs' s₀' s' ls' h₀' hperm hrun'
    obtain ⟨hg', hedges'⟩ := Prog.wp_returns hrun' (wp_insertEdges h₀' cs')
    refine hg.sameGroup_congr hg' ?_
    funext t x y
    rw [hedges, hedges']
    -- only strong calls link, and both lists have the same ones
    have hmem : ∀ c : EdgeCall, c.Links t x y → (c ∈ cs ↔ c ∈ cs') := by
      intro c hc
      have := hperm.mem_iff (a := c)
      simpa [List.mem_filter, hc.2.2.2] using this
    refine propext ⟨?_, ?_⟩
    · rintro ⟨c, hc, hl⟩
      exact ⟨c, (hmem c hl).mp hc, hl⟩
    · rintro ⟨c, hc, hl⟩
      exact ⟨c, (hmem c hl).mpr hc, hl⟩

theorem ends_one_two : (1 : Uuid) ≠ 2 := by decide

theorem ends_two_three : (2 : Uuid) ≠ 3 := by decide

/-- Two strong edges that share an end, the second given backwards, and a weak
one to a third artifact. -/
def chainCalls : List EdgeCall :=
  [⟨0, 1, 2, .exactCopy, 1, ends_one_two⟩, ⟨0, 3, 2, .semanticStrong, 1, ends_two_three.symm⟩,
    ⟨0, 3, 4, .byteSimilar, 1, by decide⟩]

theorem groups_are_components_chain :
    ∃ ls s, (insertEdges chainCalls).Returns Db.empty ls () s ∧
      s.sim.Connected 0 1 3 ∧ ¬ s.sim.Connected 0 3 4 := by
  have hrun := Prog.returns_of_run (p := insertEdges chainCalls)
    (List.replicate 12 (Env.drawing 7)) (s := Db.empty) (a := ()) rfl
  have h := groups_are_components rfl hrun
  refine ⟨_, _, hrun, (h.1 0 1 3 (by decide)).mp ⟨7, rfl, rfl⟩, fun hc => ?_⟩
  obtain ⟨g, _, h4⟩ := (h.1 0 3 4 (by decide)).mpr hc
  cases h4

end Corpus
