/-
Cleanup of an artifact's similarity rows (`similarity/lifecycle.rs`).

`cleanupArtifact` counts, and unless it is a dry run deletes, table by table and
without a transaction, what the similarity tables hold of one artifact; it then looks
at the group the artifact was in and dissolves it if at most one member is left.  The
group is read before the membership is deleted, and nothing else remembers it.

`afterCleanup` is what a whole run makes of the tables, `CutAt` what is left of them
when a run stops before a statement (`wp_cleanupArtifact`).
-/
import Corpus.Groups

namespace Corpus

/-! ### Legal hold -/

/-- A `jsonb` member as text (`->>`); the text of an array or an object is left out, it
is never a boolean. -/
def Json.asText : Json → Option String
  | .str s => some s
  | .num n => some (toString n)
  | .bool b => some (toString b)
  | _ => none

/-- `isspace`, with the vertical tab and the form feed. -/
def pgSpace (c : Char) : Bool := c.isWhitespace || c.toNat == 11 || c.toNat == 12

/-- The cast of PostgreSQL from text to `boolean`; `none` is an error. -/
def pgBoolean (text : String) : Option Bool :=
  let trimmed := ((text.toList.dropWhile pgSpace).reverse.dropWhile pgSpace).reverse.map
    Char.toLower
  let isOne (words : List String) := words.any fun w => w.toList = trimmed
  if isOne ["t", "tr", "tru", "true", "y", "ye", "yes", "on", "1"] then some true
  else if isOne ["f", "fa", "fal", "fals", "false", "n", "no", "of", "off", "0"] then some false
  else none

/-- `provenance.legal_hold` of the artifact; missing rows, members and odd texts are
not held. -/
def IngestDb.legalHold (d : IngestDb) (t x : Uuid) : Bool :=
  match d.artifacts.rows.find? fun a => a.tenant = t && a.id = x with
  | some a => (((a.provenance.get? "legal_hold").bind Json.asText).bind pgBoolean).getD false
  | none => false

/-! ### Deletes -/

namespace SimDb

def dropFeatures (d : SimDb) (t x : Uuid) : SimDb :=
  { d with features := d.features.deleteWhere fun f => f.tenant = t && f.artifactId = x }

def dropFunctions (d : SimDb) (t x : Uuid) : SimDb :=
  { d with functions := d.functions.deleteWhere fun f => f.tenant = t && f.artifactId = x }

def dropFunctionBands (d : SimDb) (t x : Uuid) : SimDb :=
  { d with functionBands := d.functionBands.deleteWhere fun b => b.tenant = t && b.artifactId = x }

/-- Edges with the artifact at either end. -/
def dropEdges (d : SimDb) (t x : Uuid) : SimDb :=
  { d with edges := d.edges.deleteWhere fun e => e.tenant = t && (e.src = x || e.dst = x) }

def dropLshBands (d : SimDb) (t x : Uuid) : SimDb :=
  { d with lshBands := d.lshBands.deleteWhere fun b => b.tenant = t && b.artifactId = x }

def dropMember (d : SimDb) (t x : Uuid) : SimDb :=
  { d with members := d.members.deleteWhere fun m => m.tenant = t && m.artifactId = x }

def dropReceipts (d : SimDb) (t x : Uuid) : SimDb :=
  { d with receipts := d.receipts.deleteWhere fun r => r.tenant = t && r.artifactId = x }

/-- `DELETE FROM variant_group_member WHERE tenant_id AND group_id`. -/
def dropMembers (d : SimDb) (t g : Uuid) : SimDb :=
  { d with members := d.members.deleteWhere fun m => m.tenant = t && m.groupId = g }

/-- `SELECT COUNT(*) FROM variant_group_member WHERE tenant_id AND group_id`. -/
def memberCount (d : SimDb) (t g : Uuid) : ℕ :=
  (d.members.rows.filter fun m => m.tenant = t && m.groupId = g).length

end SimDb

/-! ### The procedure -/

/-- `CleanupCounts`. -/
structure CleanupCounts where
  features : ℕ := 0
  functions : ℕ := 0
  edges : ℕ := 0
  lshBands : ℕ := 0
  groupMemberships : ℕ := 0
  receipts : ℕ := 0
  groupsRepaired : ℕ := 0
  groupsRemoved : ℕ := 0

/-- `CleanupReport`. -/
structure CleanupReport where
  tenantId : Uuid
  artifactId : Uuid
  dryRun : Bool
  legalHold : Bool
  counts : CleanupCounts
  recordedAt : Time

/-- A row of `similarity_cleanup_log`. -/
structure CleanupLog where
  tenant : Uuid
  artifactId : Uuid
  dryRun : Bool
  counts : CleanupCounts
  createdAt : Time

/-- The store, with the audit table. -/
structure CleanupDb where
  db : Db
  log : List CleanupLog

abbrev CleanupDb.sim (s : CleanupDb) : SimDb := s.db.sim

def CleanupDb.withSim (s : CleanupDb) (d : SimDb) : CleanupDb := { s with db := { s.db with sim := d } }

@[simp] theorem CleanupDb.withSim_sim (s : CleanupDb) (d : SimDb) : (s.withSim d).sim = d := rfl

/-- What a statement draws from outside: whether it fails, for those whose error is
ignored, and the clock. -/
structure CleanupEnv where
  fails : Bool
  now : Time

/-- The statements of `cleanup_artifact`. -/
inductive CleanupPt where
  | legalHold
  | countFeatures
  | countFunctions
  | countEdges
  | countLsh
  | countMemberships
  | countReceipts
  | recordedAt
  | findGroup
  | deleteFeatures
  | deleteFunctions
  | deleteFunctionBands
  | deleteEdges
  | deleteLsh
  | deleteMember
  | deleteReceipts
  | countRemaining (g : Uuid)
  | dissolveMembers (g : Uuid)
  | dissolveGroup (g : Uuid)
  | audit
  deriving DecidableEq

abbrev CleanupProg := Prog CleanupPt CleanupDb CleanupEnv Error

/-- `count_lsh`, `count_receipts`: an error counts as zero. -/
def countIfAny (l : CleanupPt) (n : CleanupDb → ℕ) : CleanupProg ℕ :=
  Prog.stmt l (fun s _ => s) fun s env => Prog.ret (if env.fails then 0 else n s)

/-- A `DELETE` whose error is returned. -/
def delete (l : CleanupPt) (f : SimDb → SimDb) : CleanupProg Unit :=
  Prog.update l fun s _ => s.withSim (f s.sim)

/-- A `DELETE` whose error is ignored. -/
def deleteBestEffort (l : CleanupPt) (f : SimDb → SimDb) : CleanupProg Unit :=
  Prog.update l fun s env => if env.fails then s else s.withSim (f s.sim)

/-- `repair_group`: whether the group changed, and whether it is gone. -/
def repairGroup (t g : Uuid) : CleanupProg (Bool × Bool) := do
  let remaining ← Prog.query (.countRemaining g) fun s => s.sim.memberCount t g
  if remaining ≤ 1 then do
    delete (.dissolveMembers g) fun d => d.dropMembers t g
    Prog.exec (.dissolveGroup g) fun s _ =>
      if s.sim.members.rows.any fun m => m.groupId = g then
        .error (.db "variant_group_member_group_id_fkey")
      else .ok ((), s.withSim (s.sim.deleteGroup t g))
    return (true, true)
  else return (false, false)

/-- The repair of the group the artifact was in, if any, and its two counts. -/
def repairAndCount (t : Uuid) (counts : CleanupCounts) : Option Uuid → CleanupProg CleanupCounts
  | none => return counts
  | some g => do
    let repaired ← repairGroup t g
    return if repaired.2 then { counts with groupsRemoved := 1 }
      else if repaired.1 then { counts with groupsRepaired := 1 }
      else counts

/-- The audit row and the report. -/
def writeAudit (t x : Uuid) (counts : CleanupCounts) : CleanupProg CleanupReport :=
  Prog.stmt .audit (fun s env => { s with log := s.log ++ [⟨t, x, false, counts, env.now⟩] })
    fun _ env => Prog.ret ⟨t, x, false, false, counts, env.now⟩

/-- The deletes, the repair and the audit row. -/
def deleteRows (t x : Uuid) (counts : CleanupCounts) : CleanupProg CleanupReport := do
  let group ← Prog.query .findGroup fun s => s.sim.groupOf t x
  delete .deleteFeatures fun d => d.dropFeatures t x
  delete .deleteFunctions fun d => d.dropFunctions t x
  deleteBestEffort .deleteFunctionBands fun d => d.dropFunctionBands t x
  delete .deleteEdges fun d => d.dropEdges t x
  deleteBestEffort .deleteLsh fun d => d.dropLshBands t x
  delete .deleteMember fun d => d.dropMember t x
  deleteBestEffort .deleteReceipts fun d => d.dropReceipts t x
  let counts ← repairAndCount t counts group
  writeAudit t x counts

/-- `cleanup_artifact`. -/
def cleanupArtifact (t x : Uuid) (dryRun : Bool) : CleanupProg CleanupReport := do
  let held ← Prog.stmt .legalHold (fun s _ => s) fun s env =>
    Prog.ret (if env.fails then false else s.db.ingest.legalHold t x)
  if held && !dryRun then
    Prog.err (.conflict s!"artifact {printUuid x} is under legal hold; cleanup refused")
  else do
    let features ← Prog.query .countFeatures fun s =>
      (s.sim.features.rows.filter fun f => f.tenant = t && f.artifactId = x).length
    let functions ← Prog.query .countFunctions fun s =>
      (s.sim.functions.rows.filter fun f => f.tenant = t && f.artifactId = x).length
    let edges ← Prog.query .countEdges fun s =>
      (s.sim.edges.rows.filter fun e => e.tenant = t && (e.src = x || e.dst = x)).length
    let lshBands ← countIfAny .countLsh fun s =>
      (s.sim.lshBands.rows.filter fun b => b.tenant = t && b.artifactId = x).length
    let groupMemberships ← Prog.query .countMemberships fun s =>
      (s.sim.members.rows.filter fun m => m.tenant = t && m.artifactId = x).length
    let receipts ← countIfAny .countReceipts fun s =>
      (s.sim.receipts.rows.filter fun r => r.tenant = t && r.artifactId = x).length
    let counts : CleanupCounts :=
      { features, functions, edges, lshBands, groupMemberships, receipts }
    if dryRun || held then
      Prog.stmt .recordedAt (fun s _ => s) fun _ env => Prog.ret ⟨t, x, true, held, counts, env.now⟩
    else deleteRows t x counts

/-! ### What a run makes of the tables -/

/-- The same rows of features, functions, edges, memberships and groups. -/
structure SameTables (d d' : SimDb) : Prop where
  features : d.features = d'.features
  functions : d.functions = d'.functions
  edges : d.edges = d'.edges
  members : d.members = d'.members
  groups : d.groups = d'.groups

namespace SimDb

/-- Without the rows of the artifact. -/
def cleaned (d : SimDb) (t x : Uuid) : SimDb :=
  (((d.dropFeatures t x).dropFunctions t x).dropEdges t x).dropMember t x

/-- `repair_group`, as a whole. -/
def repaired (d : SimDb) (t g : Uuid) : SimDb :=
  if d.memberCount t g ≤ 1 then (d.dropMembers t g).deleteGroup t g else d

/-- A whole run of `cleanup_artifact`. -/
def afterCleanup (d : SimDb) (t x : Uuid) : SimDb :=
  match d.groupOf t x with
  | some g => (d.cleaned t x).repaired t g
  | none => d.cleaned t x

end SimDb

/-- Some of the deletes before the membership have run. -/
structure Begun (d : SimDb) (t x : Uuid) (d' : SimDb) : Prop where
  features : d'.features = d.features ∨ d'.features = (d.dropFeatures t x).features
  functions : d'.functions = d.functions ∨ d'.functions = (d.dropFunctions t x).functions
  edges : d'.edges = d.edges ∨ d'.edges = (d.dropEdges t x).edges

/-- What a run that stands before a statement has done. -/
def CutAt (d : SimDb) (t x : Uuid) (l : CleanupPt) (d' : SimDb) : Prop :=
  match l with
  | .deleteReceipts => SameTables d' (d.cleaned t x)
  | .countRemaining g => SameTables d' (d.cleaned t x) ∧ d.groupOf t x = some g
  | .dissolveMembers g => SameTables d' (d.cleaned t x) ∧ d.groupOf t x = some g ∧
      (d.cleaned t x).memberCount t g ≤ 1
  | .dissolveGroup g => SameTables d' ((d.cleaned t x).dropMembers t g) ∧
      d.groupOf t x = some g ∧ (d.cleaned t x).memberCount t g ≤ 1
  | .audit => SameTables d' (d.afterCleanup t x)
  | _ => Begun d t x d' ∧ d'.members = d.members ∧ d'.groups = d.groups

theorem SameTables.refl (d : SimDb) : SameTables d d := ⟨rfl, rfl, rfl, rfl, rfl⟩

theorem SameTables.trans {d d' d'' : SimDb} (h : SameTables d d') (h' : SameTables d' d'') :
    SameTables d d'' :=
  ⟨h.features.trans h'.features, h.functions.trans h'.functions, h.edges.trans h'.edges,
    h.members.trans h'.members, h.groups.trans h'.groups⟩

theorem SameTables.symm {d d' : SimDb} (h : SameTables d d') : SameTables d' d :=
  ⟨h.features.symm, h.functions.symm, h.edges.symm, h.members.symm, h.groups.symm⟩

/-! ### Statement by statement -/

namespace SameTables

variable {d d' : SimDb} (h : SameTables d d') (t x g : Uuid)

include h

theorem groupOf : d.groupOf t x = d'.groupOf t x := by
  unfold SimDb.groupOf
  rw [h.members]

theorem memberCount : d.memberCount t g = d'.memberCount t g := by
  unfold SimDb.memberCount
  rw [h.members]

theorem dropFeatures : SameTables (d.dropFeatures t x) (d'.dropFeatures t x) where
  features := by
    unfold SimDb.dropFeatures
    rw [h.features]
  functions := h.functions
  edges := h.edges
  members := h.members
  groups := h.groups

theorem dropFunctions : SameTables (d.dropFunctions t x) (d'.dropFunctions t x) where
  features := h.features
  functions := by
    unfold SimDb.dropFunctions
    rw [h.functions]
  edges := h.edges
  members := h.members
  groups := h.groups

theorem dropEdges : SameTables (d.dropEdges t x) (d'.dropEdges t x) where
  features := h.features
  functions := h.functions
  edges := by
    unfold SimDb.dropEdges
    rw [h.edges]
  members := h.members
  groups := h.groups

theorem dropMember : SameTables (d.dropMember t x) (d'.dropMember t x) where
  features := h.features
  functions := h.functions
  edges := h.edges
  members := by
    unfold SimDb.dropMember
    rw [h.members]
  groups := h.groups

theorem dropMembers : SameTables (d.dropMembers t g) (d'.dropMembers t g) where
  features := h.features
  functions := h.functions
  edges := h.edges
  members := by
    unfold SimDb.dropMembers
    rw [h.members]
  groups := h.groups

theorem deleteGroup : SameTables (d.deleteGroup t g) (d'.deleteGroup t g) where
  features := h.features
  functions := h.functions
  edges := h.edges
  members := h.members
  groups := by
    unfold SimDb.deleteGroup
    rw [h.groups]

end SameTables

section Rules

variable {P : CleanupPt → CleanupDb → Prop} {Q : Except Error Unit → CleanupDb → Prop}
  {l : CleanupPt} {f : SimDb → SimDb} {s : CleanupDb}

theorem wp_delete (hP : P l s) (hQ : Q (.ok ()) (s.withSim (f s.sim))) :
    Prog.wp P Q (delete l f) s :=
  ⟨hP, fun _ => hQ⟩

/-- A `DELETE` on a table nobody looks at, whether it fails or not. -/
theorem wp_deleteBestEffort {d : SimDb} (hf : ∀ d, SameTables (f d) d) (hs : SameTables s.sim d)
    (hP : P l s) (hQ : ∀ s' : CleanupDb, SameTables s'.sim d → Q (.ok ()) s') :
    Prog.wp P Q (deleteBestEffort l f) s := by
  refine ⟨hP, fun env => ?_⟩
  show Q (.ok ()) (if env.fails then s else s.withSim (f s.sim))
  split
  · exact hQ s hs
  · exact hQ _ ((hf s.sim).trans hs)

end Rules

section Run

variable {t x : Uuid} {d : SimDb} {s : CleanupDb}

/-- What is shown of a destructive run. -/
def cleanupDone (d : SimDb) (t x : Uuid) (r : Except Error CleanupReport) (s : CleanupDb) : Prop :=
  ∀ a, r = .ok a → SameTables s.sim (d.afterCleanup t x)

theorem wp_writeAudit (counts : CleanupCounts) (h : SameTables s.sim (d.afterCleanup t x)) :
    Prog.wp (fun l s => CutAt d t x l s.sim) (cleanupDone d t x) (writeAudit t x counts) s :=
  ⟨h, fun _ _ _ => h⟩

/-- The repair of the group, wherever it stops. -/
theorem wp_repairGroup {g : Uuid} (hg : d.groupOf t x = some g)
    (h : SameTables s.sim (d.cleaned t x)) :
    Prog.wp (fun l s => CutAt d t x l s.sim)
      (fun r s => ∀ c, r = .ok c → SameTables s.sim (d.afterCleanup t x)) (repairGroup t g) s := by
  have hafter : d.afterCleanup t x = (d.cleaned t x).repaired t g := by
    rw [SimDb.afterCleanup, hg]
  have hcount := h.memberCount t g
  unfold repairGroup
  rw [Prog.query_bind, Prog.wp_stmt]
  refine ⟨⟨h, hg⟩, fun _ => ?_⟩
  by_cases hle : s.sim.memberCount t g ≤ 1
  · rw [if_pos hle]
    have hdrop := h.dropMembers t g
    refine Prog.wp_seq (fun _ s' => SameTables s'.sim ((d.cleaned t x).dropMembers t g))
      (wp_delete ⟨h, hg, hcount ▸ hle⟩ hdrop) fun _ s₁ h₁ => ?_
    refine Prog.wp_exec_bind.mpr ⟨⟨h₁, hg, hcount ▸ hle⟩, fun _ => ?_⟩
    -- another tenant's membership may name the group
    cases s₁.sim.members.rows.any fun m => m.groupId = g with
    | true => exact fun c hc => by cases hc
    | false =>
      intro c _
      rw [hafter, SimDb.repaired, if_pos (hcount ▸ hle)]
      exact h₁.deleteGroup t g
  · rw [if_neg hle]
    intro c _
    rw [hafter, SimDb.repaired, if_neg (hcount ▸ hle)]
    exact h

theorem wp_repairAndCount (counts : CleanupCounts) (h : SameTables s.sim (d.cleaned t x)) :
    Prog.wp (fun l s => CutAt d t x l s.sim)
      (fun r s => ∀ c, r = .ok c → SameTables s.sim (d.afterCleanup t x))
      (repairAndCount t counts (d.groupOf t x)) s := by
  cases hg : d.groupOf t x with
  | none =>
    intro c _
    rwa [SimDb.afterCleanup, hg]
  | some g =>
    refine Prog.wp_seq (fun _ s' => SameTables s'.sim (d.afterCleanup t x)) ?_ fun _ _ h' _ _ => h'
    refine Prog.wp_mono (fun _ _ h => h) ?_ (wp_repairGroup hg h)
    intro r s' h'
    cases r with
    | ok c => exact h' c rfl
    | error e => exact fun _ ha => by cases ha

/-- The deletes, one by one. -/
theorem wp_deleteRows (counts : CleanupCounts) :
    Prog.wp (fun l s' => CutAt s.sim t x l s'.sim) (cleanupDone s.sim t x)
      (deleteRows t x counts) s := by
  have hnothing : Begun s.sim t x s.sim ∧ s.sim.members = s.sim.members ∧
      s.sim.groups = s.sim.groups := ⟨⟨.inl rfl, .inl rfl, .inl rfl⟩, rfl, rfl⟩
  unfold deleteRows
  rw [Prog.query_bind, Prog.wp_stmt]
  refine ⟨hnothing, fun _ => ?_⟩
  refine Prog.wp_seq (fun _ s' => s'.sim = s.sim.dropFeatures t x) ?_ fun _ s₁ h₁ => ?_
  · exact wp_delete hnothing rfl
  refine Prog.wp_seq (fun _ s' => SameTables s'.sim ((s.sim.dropFeatures t x).dropFunctions t x))
    ?_ fun _ s₂ h₂ => ?_
  · refine wp_delete ?_ ?_
    · show Begun s.sim t x s₁.sim ∧ _
      rw [h₁]
      exact ⟨⟨.inr rfl, .inl rfl, .inl rfl⟩, rfl, rfl⟩
    · show SameTables (s₁.sim.dropFunctions t x) _
      rw [h₁]
      exact .refl _
  have hfunctions : ∀ {s' : CleanupDb},
      SameTables s'.sim ((s.sim.dropFeatures t x).dropFunctions t x) →
      Begun s.sim t x s'.sim ∧ s'.sim.members = s.sim.members ∧ s'.sim.groups = s.sim.groups :=
    fun h => ⟨⟨.inr h.features, .inr h.functions, .inl h.edges⟩, h.members, h.groups⟩
  refine Prog.wp_seq (fun _ s' => SameTables s'.sim ((s.sim.dropFeatures t x).dropFunctions t x))
    (wp_deleteBestEffort (fun _ => ⟨rfl, rfl, rfl, rfl, rfl⟩) h₂ (hfunctions h₂) fun _ h => h)
    fun _ s₃ h₃ => ?_
  refine Prog.wp_seq
    (fun _ s' => SameTables s'.sim (((s.sim.dropFeatures t x).dropFunctions t x).dropEdges t x))
    (wp_delete (hfunctions h₃) (h₃.dropEdges t x)) fun _ s₄ h₄ => ?_
  have hedges : ∀ {s' : CleanupDb},
      SameTables s'.sim (((s.sim.dropFeatures t x).dropFunctions t x).dropEdges t x) →
      Begun s.sim t x s'.sim ∧ s'.sim.members = s.sim.members ∧ s'.sim.groups = s.sim.groups :=
    fun h => ⟨⟨.inr h.features, .inr h.functions, .inr h.edges⟩, h.members, h.groups⟩
  refine Prog.wp_seq
    (fun _ s' => SameTables s'.sim (((s.sim.dropFeatures t x).dropFunctions t x).dropEdges t x))
    (wp_deleteBestEffort (fun _ => ⟨rfl, rfl, rfl, rfl, rfl⟩) h₄ (hedges h₄) fun _ h => h)
    fun _ s₅ h₅ => ?_
  refine Prog.wp_seq (fun _ s' => SameTables s'.sim (s.sim.cleaned t x))
    (wp_delete (hedges h₅) (h₅.dropMember t x)) fun _ s₆ h₆ => ?_
  refine Prog.wp_seq (fun _ s' => SameTables s'.sim (s.sim.cleaned t x))
    (wp_deleteBestEffort (fun _ => ⟨rfl, rfl, rfl, rfl, rfl⟩) h₆ h₆ fun _ h => h) fun _ s₇ h₇ => ?_
  refine Prog.wp_seq (fun _ s' => SameTables s'.sim (s.sim.afterCleanup t x)) ?_ fun c s₈ h₈ => ?_
  · refine Prog.wp_mono (fun _ _ h => h) ?_ (wp_repairAndCount counts h₇)
    rintro r s' h
    cases r with
    | ok c => exact h c rfl
    | error e => exact fun _ ha => by cases ha
  · exact wp_writeAudit c h₈

/-- **`cleanup_artifact`**, when it is not a dry run: what it has done wherever it
stops, and what it leaves when it returns. -/
theorem wp_cleanupArtifact (t x : Uuid) (s : CleanupDb) :
    Prog.wp (fun l s' => CutAt s.sim t x l s'.sim) (cleanupDone s.sim t x)
      (cleanupArtifact t x false) s := by
  have hnothing : Begun s.sim t x s.sim ∧ s.sim.members = s.sim.members ∧
      s.sim.groups = s.sim.groups := ⟨⟨.inl rfl, .inl rfl, .inl rfl⟩, rfl, rfl⟩
  refine ⟨hnothing, fun env => ?_⟩
  show Prog.wp _ _ (if (if env.fails then false else s.db.ingest.legalHold t x) && !false then _
    else _) s
  generalize (if env.fails then false else s.db.ingest.legalHold t x) = held
  cases held with
  | true => exact fun a ha => by cases ha
  | false =>
    refine ⟨hnothing, fun _ => ⟨hnothing, fun _ => ⟨hnothing, fun _ => ⟨hnothing, fun _ =>
      ⟨hnothing, fun _ => ⟨hnothing, fun _ => ?_⟩⟩⟩⟩⟩⟩
    exact wp_deleteRows _

end Run

/-! ### What is left of an artifact -/

/-- Features, functions, edges and memberships hold nothing of the artifact. -/
structure SimDb.Free (d : SimDb) (t x : Uuid) : Prop where
  features : ∀ f ∈ d.features.rows, f.tenant = t → f.artifactId ≠ x
  functions : ∀ f ∈ d.functions.rows, f.tenant = t → f.artifactId ≠ x
  edges : ∀ e ∈ d.edges.rows, e.tenant = t → e.src ≠ x ∧ e.dst ≠ x
  members : ∀ m ∈ d.members.rows, m.tenant = t → m.artifactId ≠ x

namespace SimDb

variable {d d' : SimDb} {t x g : Uuid}

theorem Free.cleaned (d : SimDb) (t x : Uuid) : (d.cleaned t x).Free t x where
  features f hf ht := by
    simpa [ht] using (Table.mem_deleteWhere.mp hf).2
  functions f hf ht := by
    simpa [ht] using (Table.mem_deleteWhere.mp hf).2
  edges e he ht := by
    simpa [ht] using (Table.mem_deleteWhere.mp he).2
  members m hm ht := by
    simpa [ht] using (Table.mem_deleteWhere.mp hm).2

theorem Free.congr (h : d.Free t x) (hs : SameTables d d') : d'.Free t x where
  features := hs.features ▸ h.features
  functions := hs.functions ▸ h.functions
  edges := hs.edges ▸ h.edges
  members := hs.members ▸ h.members

theorem Free.dropMembers (h : d.Free t x) (t' g : Uuid) : (d.dropMembers t' g).Free t x where
  features := h.features
  functions := h.functions
  edges := h.edges
  members m hm := h.members m (Table.mem_deleteWhere.mp hm).1

theorem Free.repaired (h : d.Free t x) (t' g : Uuid) : (d.repaired t' g).Free t x := by
  unfold SimDb.repaired
  split
  · have hdrop := h.dropMembers t' g
    exact ⟨hdrop.features, hdrop.functions, hdrop.edges, hdrop.members⟩
  · exact h

/-- Cleaning another artifact adds nothing. -/
theorem Free.other (h : d.Free t x) (t' y : Uuid) : (d.cleaned t' y).Free t x where
  features f hf := h.features f (Table.mem_deleteWhere.mp hf).1
  functions f hf := h.functions f (Table.mem_deleteWhere.mp hf).1
  edges e he := h.edges e (Table.mem_deleteWhere.mp he).1
  members m hm := h.members m (Table.mem_deleteWhere.mp hm).1

/-- A whole run leaves nothing of its own artifact, nor anything new of others. -/
theorem free_afterCleanup (d : SimDb) (t x : Uuid) : (d.afterCleanup t x).Free t x := by
  unfold SimDb.afterCleanup
  split
  · exact (Free.cleaned d t x).repaired t _
  · exact Free.cleaned d t x

theorem Free.afterCleanup (h : d.Free t x) (t' y : Uuid) : (d.afterCleanup t' y).Free t x := by
  unfold SimDb.afterCleanup
  split
  · exact (h.other t' y).repaired t' _
  · exact h.other t' y

/-- There is nothing to clean. -/
theorem Free.same (h : d.Free t x) : SameTables (d.cleaned t x) d where
  features := Table.deleteWhere_eq_self.mpr fun f hf => by
    simpa using h.features f hf
  functions := Table.deleteWhere_eq_self.mpr fun f hf => by
    simpa using h.functions f hf
  edges := Table.deleteWhere_eq_self.mpr fun e he => by
    simpa using h.edges e he
  members := Table.deleteWhere_eq_self.mpr fun m hm => by
    simpa using h.members m hm
  groups := rfl

theorem Free.groupOf_none (h : d.Free t x) : d.groupOf t x = none := by
  cases hg : d.groupOf t x with
  | none => rfl
  | some g => exact absurd rfl (h.members ⟨t, g, x⟩ (mem_members.mpr hg) rfl)

/-- A second run has nothing to do. -/
theorem Free.afterCleanup_same (h : d.Free t x) : SameTables (d.afterCleanup t x) d := by
  rw [SimDb.afterCleanup, h.groupOf_none]
  exact h.same

end SimDb

end Corpus
