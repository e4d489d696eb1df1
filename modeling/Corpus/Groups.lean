/-
Typed edges and variant groups (`similarity/edges.rs`).

`insertEdge` stores an edge once per unordered pair and type; a new edge of a
strong type then unions the variant groups of its endpoints (`unionGroups`).
The union reads both memberships and acts in up to three further statements,
with no transaction around them.
-/
import Corpus.Points

namespace Corpus

/-- `model::merges_groups`. -/
def mergesGroups : EdgeType → Bool
  | .exactCopy | .normalizedEquivalent | .semanticStrong => true
  | .byteSimilar | .sharedProvenance | .semanticWeak => false

/-- `MODEL_VERSION`. -/
def modelVersion : String := "similarity-model:v1"

namespace SimDb

/-- `group_of`: the group an artifact belongs to. -/
def groupOf (d : SimDb) (t x : Uuid) : Option Uuid := (d.members.get (t, x)).map GroupMember.groupId

/-- `UPDATE variant_group_member SET group_id = keep WHERE group_id = drop`. -/
def moveMembers (d : SimDb) (t keep drop : Uuid) : SimDb :=
  { d with
    members := d.members.updateWhere (fun m => m.tenant = t && m.groupId = drop)
      (fun m => { m with groupId := keep }) fun _ => rfl }

/-- `DELETE FROM variant_group WHERE tenant_id = t AND id = g`. -/
def deleteGroup (d : SimDb) (t g : Uuid) : SimDb :=
  { d with groups := d.groups.deleteWhere fun r => r.tenant = t && r.id = g }

/-- `INSERT INTO variant_group_member … ON CONFLICT DO NOTHING`. -/
def addMember (d : SimDb) (t g x : Uuid) : SimDb :=
  { d with members := d.members.insertNew ⟨t, g, x⟩ }

/-- `INSERT INTO variant_group`. -/
def addGroup (d : SimDb) (t g : Uuid) : SimDb :=
  { d with groups := d.groups.insertNew ⟨g, t⟩ }

/-- `INSERT INTO similarity_edge … ON CONFLICT DO NOTHING`. -/
def addEdge (d : SimDb) (e : Edge) : SimDb :=
  { d with edges := d.edges.insertNew e }

end SimDb

namespace SimDb

theorem groupOf_addMember (d : SimDb) (t g x t' y : Uuid) :
    (d.addMember t g x).groupOf t' y =
      (d.groupOf t' y).or (if t' = t ∧ y = x then some g else none) := by
  unfold groupOf addMember
  rw [Table.get_insertNew]
  by_cases h : t' = t ∧ y = x
  · obtain ⟨rfl, rfl⟩ := h
    cases d.members.get (t', y) <;> simp [GroupMember.key]
  · have hk : ¬ GroupMember.key ⟨t, g, x⟩ = (t', y) := by
      intro hk
      simp only [GroupMember.key, Prod.mk.injEq] at hk
      exact h ⟨hk.1.symm, hk.2.symm⟩
    rw [if_neg h, if_neg hk, Option.or_none, Option.or_none]

theorem groupOf_moveMembers (d : SimDb) (t keep drop t' y : Uuid) :
    (d.moveMembers t keep drop).groupOf t' y =
      if t' = t ∧ d.groupOf t' y = some drop then some keep else d.groupOf t' y := by
  have hget : (d.moveMembers t keep drop).members.get (t', y) =
      (d.members.get (t', y)).map fun m =>
        if m.tenant = t && m.groupId = drop then { m with groupId := keep } else m :=
    Table.get_updateWhere d.members _ (fun m => { m with groupId := keep }) (fun _ => rfl) _
  unfold groupOf
  rw [hget]
  cases hg : d.members.get (t', y) with
  | none => simp
  | some m =>
    have hm : m.tenant = t' := congrArg Prod.fst (Table.mem_of_get hg).2
    simp only [Option.map_some, Option.some.injEq, hm, Bool.and_eq_true, decide_eq_true_eq]
    split <;> rfl

@[simp] theorem groupOf_addGroup (d : SimDb) (t g t' y : Uuid) :
    (d.addGroup t g).groupOf t' y = d.groupOf t' y := rfl

@[simp] theorem groupOf_deleteGroup (d : SimDb) (t g t' y : Uuid) :
    (d.deleteGroup t g).groupOf t' y = d.groupOf t' y := rfl

theorem groups_addGroup (d : SimDb) (t g g' : Uuid) :
    (d.addGroup t g).groups.get g' = (d.groups.get g').or (if g = g' then some ⟨g, t⟩ else none) :=
  Table.get_insertNew _ _ _

theorem groups_deleteGroup (d : SimDb) (t g g' : Uuid) :
    (d.deleteGroup t g).groups.get g' =
      (d.groups.get g').filter fun r => !(r.tenant = t && r.id = g) :=
  Table.get_deleteWhere _ _ _

/-- A member row is what `groupOf` reads. -/
theorem mem_members {d : SimDb} {m : GroupMember} :
    m ∈ d.members.rows ↔ d.groupOf m.tenant m.artifactId = some m.groupId := by
  rw [Table.mem_rows_iff, groupOf]
  show d.members.get (m.tenant, m.artifactId) = some m ↔ _
  constructor
  · intro h
    rw [h]
    rfl
  · intro h
    obtain ⟨m', hm', hg⟩ := Option.map_eq_some_iff.mp h
    have hk : (m'.tenant, m'.artifactId) = (m.tenant, m.artifactId) := (Table.mem_of_get hm').2
    obtain ⟨h1, h2⟩ := Prod.mk.inj hk
    rw [hm']
    cases m
    cases m'
    simp_all

end SimDb

/-- The loop of `triggers::fire`: one outbox row for each trigger. -/
def queueAll (l : Pt) (t : Uuid) (event : Json) : List Uuid → ℕ → Srv ℕ :=
  Prog.loop fun n id => do
    Prog.update l fun s env => { s with outbox := s.outbox ++ [⟨t, id, event, env.now⟩] }
    return n + 1

/-- `triggers::fire`: queue an event for every enabled trigger of the condition. -/
def fire (l : Pt) (t : Uuid) (condition : String) (event : Json) : Srv ℕ := do
  let ids ← Prog.query l fun s =>
    (s.triggers.filter fun r => r.tenant = t && r.condition = condition && r.enabled).map
      Trigger.id
  queueAll l t event ids 0

/-- `add_member`; a new row must name an existing group. -/
def addMember (l : Pt) (t g x : Uuid) : Srv Unit :=
  Prog.exec l fun s _ =>
    if (s.sim.members.get (t, x)).isNone && (s.sim.groups.get g).isNone then
      .error (.db "variant_group_member_group_id_fkey")
    else .ok ((), { s with sim := s.sim.addMember t g x })

def fireVariantJoin (t g x : Uuid) : Srv ℕ :=
  fire (.sim (.fire t)) t "variant_join" (.obj [("type", .str "variant_join"),
    ("group_id", .num g), ("artifact_id", .num x)])

/-- The branch of `union_groups` for two groups: the members of `drop` move to
`keep`, whose row stays. -/
def mergeGroups (t a b keep drop : Uuid) : Srv Unit := do
  Prog.exec (.sim (.mergeUpdate t a b keep drop)) fun s _ =>
    if (s.sim.groups.get keep).isNone &&
        s.sim.members.rows.any fun m => m.tenant = t && m.groupId = drop then
      .error (.db "variant_group_member_group_id_fkey")
    else .ok ((), { s with sim := s.sim.moveMembers t keep drop })
  Prog.exec (.sim (.mergeDelete t drop)) fun s _ =>
    if s.sim.members.rows.any fun m => m.groupId = drop then
      .error (.db "variant_group_member_group_id_fkey")
    else .ok ((), { s with sim := s.sim.deleteGroup t drop })

/-- The four cases of `union_groups` on the memberships it has read. -/
def unionWith (t a b : Uuid) : Option Uuid → Option Uuid → Srv Unit
  | some g1, some g2 =>
    if g1 ≠ g2 then mergeGroups t a b (min g1 g2) (max g1 g2) else return
  | some g, none => do
    addMember (.sim (.joinAdd t a b g b)) t g b
    let _ ← fireVariantJoin t g b
  | none, some g => do
    addMember (.sim (.joinAdd t a b g a)) t g a
    let _ ← fireVariantJoin t g a
  | none, none => do
    let g ← Prog.exec (.sim (.createGroup t a b)) fun s env =>
      if (s.sim.groups.get (env.uuid 0)).isSome then .error (.db "variant_group_pkey")
      else .ok (env.uuid 0, { s with sim := s.sim.addGroup t (env.uuid 0) })
    addMember (.sim (.createAddA t a b g)) t g a
    addMember (.sim (.createAddB t a b g)) t g b

/-- `union_groups`: the merged component keeps the smaller group id. -/
def unionGroups (t a b : Uuid) : Srv Unit := do
  let ga ← Prog.query (.sim (.groupOfA t a b)) fun s => s.sim.groupOf t a
  let gb ← Prog.query (.sim (.groupOfB t a b ga)) fun s => s.sim.groupOf t b
  unionWith t a b ga gb

/-- `insert_edge`: store the pair with its smaller end first, at most once per
type; a new strong edge unions the groups.  Returns whether the row is new. -/
def insertEdge (t a b : Uuid) (ty : EdgeType) (score : ℚ) : Srv Bool := do
  let src := if a < b then a else b
  let dst := if a < b then b else a
  let inserted ← Prog.exec (.sim (.insertEdge t src dst ty)) fun s env =>
    if src < dst then
      .ok ((s.sim.edges.get (t, src, dst, ty, modelVersion)).isNone,
        { s with sim := s.sim.addEdge ⟨t, src, dst, ty, modelVersion, score, env.now⟩ })
    else .error (.db "similarity_edge_check")
  if inserted && mergesGroups ty then
    unionGroups t src dst
  return inserted

end Corpus
