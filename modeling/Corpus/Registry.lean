/-
The rule registry: rules are stored once, bundles are content-addressed
(`registry.rs`).

`createRule` is the second half of the registry; `publishBundle` is in `Hunts.lean`,
and `Config.pinned` gives it the digest of `rules.rs`.  `RegistryRuns` are the
sequences of calls of the two, any of which may fail or be cut off.

* `RegistryOk` — what holds of the registry in every reachable state: a rule is known
  by its name, the rows of a bundle are rules of its tenant, and its digest is the
  digest of what they say;
* `Later` — no call changes a rule, apart from its state, or the rows of a bundle;
* `Published.ok` — the transaction of `publish_bundle` keeps the first and makes the
  second, through a bundle that exists as well as through a new one;
* `bundles_content_addressed` — bundles do not change, and are what they hash.
-/
import Corpus.Frames
import Corpus.Rules

namespace Corpus

/-! ### Creating rules -/

/-- The statements of `create_rule`. -/
inductive RegistryPt where
  | findRule (t : Uuid) (stableId : String)
  | insertRule (t : Uuid) (stableId : String)

abbrev RegistryProg := Prog RegistryPt Db Env RuleError

/-- `get_rule_by_stable_id`. -/
def Db.ruleByStableId (s : Db) (t : Uuid) (stableId : String) : Option Rule :=
  s.hunt.rules.rows.find? fun r => r.tenant = t && r.stableId = stableId

/-- `INSERT INTO rule`; a `text` column takes no NUL byte. -/
def Db.insertRule (s : Db) (r : Rule) : Except RuleError (Rule × Db) :=
  if ¬NulFree r.source then
    .error (.other (.db "invalid byte sequence for encoding \"UTF8\": 0x00"))
  else if (s.hunt.rules.get r.id).isSome then .error (.other (.db "rule_pkey"))
  else if s.hunt.rules.rows.any fun x =>
      x.tenant = r.tenant && x.ns = r.ns && x.stableId = r.stableId then
    .error (.other (.db "rule_tenant_id_namespace_stable_id_key"))
  else .ok (r, { s with hunt := { s.hunt with rules := s.hunt.rules.insertNew r } })

/-- `create_rule`; `debug` is what `{:?}` prints, `compileValidate` is `compile_validate`, of the
`yara_x` crate. -/
def createRule (debug : String → String) (compileValidate : String → Except String Unit)
    (t : Uuid) (source : String) : RegistryProg Rule :=
  match parseRuleName debug source with
  | .error e => Prog.err e
  | .ok stableId =>
    match compileValidate source with
    | .error msg => Prog.err (.other (.ruleCompile msg))
    | .ok _ => do
      let existing ← Prog.query (.findRule t stableId) fun s => s.ruleByStableId t stableId
      match existing with
      | some r =>
        if r.source = source then return r
        else
          let quoted := debug stableId
          Prog.err (.other (.conflict
            s!"rule {quoted} already exists with different source; revoke it first"))
      | none =>
        Prog.exec (.insertRule t stableId) fun s env =>
          s.insertRule ⟨env.uuid 0, t, "default", stableId, source, .validated, env.now⟩

/-- The configuration whose bundle digest is `bundle_digest` under `COMPILER_CONFIG`. -/
def Config.pinned (cfg : Config) (compilerConfig : String) : Config :=
  { cfg with bundleDigest := Corpus.bundleDigest cfg.sha256 compilerConfig }

/-! ### What is stored of a bundle -/

/-- What a rule is, apart from its state. -/
def Rule.fixed (r : Rule) : Uuid × String × String × String := (r.tenant, r.ns, r.stableId, r.source)

namespace Db

/-- The rows of a bundle. -/
def ruleRows (s : Db) (b : Uuid) : List BundleRule := s.hunt.bundleRules.filter fun x => x.bundleId = b

/-- The rules of a bundle, by their ids. -/
def bundleMembers (s : Db) (b : Uuid) : List Uuid := (s.ruleRows b).map BundleRule.ruleId

/-- The name and source of a stored rule. -/
def rulePair (s : Db) (id : Uuid) : Option (String × String) :=
  (s.hunt.rules.get id).map fun r => (r.stableId, r.source)

/-- The (stable id, source) pairs of a bundle's members. -/
def bundlePairs (s : Db) (b : Uuid) : List (String × String) := (s.bundleMembers b).filterMap s.rulePair

end Db

/-- Later in the life of the registry: rules and bundles stay, a rule changes its state
at most, and the rows of a bundle do not change. -/
structure Later (s s' : Db) : Prop where
  rules : s.hunt.rules.Persists Rule.fixed s'.hunt.rules
  bundles : s.hunt.bundles.Persists Bundle.id s'.hunt.bundles
  ruleRows : ∀ b ∈ s.hunt.bundles.rows, s'.ruleRows b.id = s.ruleRows b.id

namespace Later

theorem refl (s : Db) : Later s s := ⟨.refl _ _, .refl _ _, fun _ _ => rfl⟩

/-- A bundle that exists goes on existing. -/
theorem bundle {s s' : Db} (h : Later s s') {b : Bundle} (hb : b ∈ s.hunt.bundles.rows) :
    ∃ b' ∈ s'.hunt.bundles.rows, b'.id = b.id ∧ b'.key = b.key := by
  obtain ⟨b', hget, hid⟩ := h.bundles b.key b (Table.mem_rows_iff.mp hb)
  exact ⟨b', (Table.mem_of_get hget).1, hid, (Table.mem_of_get hget).2⟩

theorem trans {s s' s'' : Db} (h : Later s s') (h' : Later s' s'') : Later s s'' := by
  refine ⟨h.rules.trans h'.rules, h.bundles.trans h'.bundles, fun b hb => ?_⟩
  obtain ⟨b', hb', hid, -⟩ := h.bundle hb
  rw [← hid, h'.ruleRows b' hb', hid, h.ruleRows b hb]

end Later

/-- A stored bundle: its rows are distinct rules of its tenant, and its digest is that
of their names and sources. -/
structure BundleOk (sha256 : Bytes → Bytes) (config : String) (s : Db) (b : Bundle) : Prop where
  rules : ∀ id ∈ s.bundleMembers b.id, ∃ r, s.hunt.rules.get id = some r ∧ r.tenant = b.tenant
  nodup : (s.bundleMembers b.id).Nodup
  digest : bundleDigest sha256 config (s.bundlePairs b.id) = b.digest

/-- What holds of the registry. -/
structure RegistryOk (sha256 : Bytes → Bytes) (config : String) (s : Db) : Prop where
  nulFree : ∀ r ∈ s.hunt.rules.rows, NulFree r.stableId ∧ NulFree r.source
  defaultNs : ∀ r ∈ s.hunt.rules.rows, r.ns = "default"
  ruleOnce : ∀ r ∈ s.hunt.rules.rows, ∀ r' ∈ s.hunt.rules.rows, r.tenant = r'.tenant →
    r.stableId = r'.stableId → r.id = r'.id
  bundleOnce : ∀ b ∈ s.hunt.bundles.rows, ∀ b' ∈ s.hunt.bundles.rows, b.id = b'.id → b.key = b'.key
  rowsOf : ∀ x ∈ s.hunt.bundleRules, ∃ b ∈ s.hunt.bundles.rows, b.id = x.bundleId
  bundles : ∀ b ∈ s.hunt.bundles.rows, BundleOk sha256 config s b

variable {sha256 : Bytes → Bytes} {config : String} {s s' : Db}

/-! ### What stays -/

/-- The pair of a rule stays. -/
theorem Later.rulePair (h : Later s s') {id : Uuid} {r : Rule} (hr : s.hunt.rules.get id = some r) :
    s'.rulePair id = s.rulePair id := by
  obtain ⟨r', hr', hfixed⟩ := h.rules id r hr
  obtain ⟨-, -, hid, hsource⟩ : r'.tenant = r.tenant ∧ r'.ns = r.ns ∧ r'.stableId = r.stableId ∧
      r'.source = r.source := by
    simpa [Rule.fixed] using hfixed
  rw [Db.rulePair, Db.rulePair, hr, hr', Option.map_some, Option.map_some, hid, hsource]

theorem Later.bundleMembers (h : Later s s') {b : Bundle} (hb : b ∈ s.hunt.bundles.rows) :
    s'.bundleMembers b.id = s.bundleMembers b.id := by
  rw [Db.bundleMembers, h.ruleRows b hb]
  rfl

theorem Later.bundlePairs (h : Later s s') {b : Bundle} (hb : b ∈ s.hunt.bundles.rows)
    (hok : BundleOk sha256 config s b) : s'.bundlePairs b.id = s.bundlePairs b.id := by
  rw [Db.bundlePairs, h.bundleMembers hb, Db.bundlePairs]
  refine List.filterMap_congr fun id hid => ?_
  obtain ⟨r, hr, -⟩ := hok.rules id hid
  exact h.rulePair hr

/-- A stored bundle stays what it is. -/
theorem BundleOk.later {b b' : Bundle} (hok : BundleOk sha256 config s b) (h : Later s s')
    (hb : b ∈ s.hunt.bundles.rows) (hid : b'.id = b.id) (hkey : b'.key = b.key) :
    BundleOk sha256 config s' b' := by
  obtain ⟨htenant, hdigest⟩ := Prod.mk.inj hkey
  refine ⟨fun id hm => ?_, ?_, ?_⟩
  · rw [hid, h.bundleMembers hb] at hm
    obtain ⟨r, hr, ht⟩ := hok.rules id hm
    obtain ⟨r', hr', hfixed⟩ := h.rules id r hr
    exact ⟨r', hr', by rw [(Prod.mk.inj hfixed).1, ht, htenant]⟩
  · rw [hid, h.bundleMembers hb]
    exact hok.nodup
  · rw [hid, h.bundlePairs hb hok, hok.digest, hdigest]

/-- **The sources of a bundle are settled.** -/
theorem Later.bundleSources (h : Later s s') {b : Bundle} (hb : b ∈ s.hunt.bundles.rows)
    (hok : BundleOk sha256 config s b) (t : Uuid) : s'.bundleSources t b.id = s.bundleSources t b.id := by
  have hrows : s'.hunt.bundleRules.filter (fun x => x.bundleId = b.id) =
      s.hunt.bundleRules.filter fun x => x.bundleId = b.id := h.ruleRows b hb
  rw [Db.bundleSources, hrows, Db.bundleSources]
  refine List.filterMap_congr fun x hx => ?_
  have hmem : x.ruleId ∈ s.bundleMembers b.id :=
    List.mem_map_of_mem ((List.mem_insertionSort _).mp hx)
  obtain ⟨r, hr, -⟩ := hok.rules _ hmem
  obtain ⟨r', hr', hfixed⟩ := h.rules _ r hr
  obtain ⟨htenant, hns, -, hsource⟩ : r'.tenant = r.tenant ∧ r'.ns = r.ns ∧
      r'.stableId = r.stableId ∧ r'.source = r.source := by
    simpa [Rule.fixed] using hfixed
  rw [hr, hr', Option.filter_some, Option.filter_some, htenant]
  split
  · rw [Option.map_some, Option.map_some, hns, hsource]
  · rfl

/-! ### What the rules of a bundle say -/

/-- Distinct rules of one tenant have distinct names. -/
theorem RegistryOk.names_nodup (hok : RegistryOk sha256 config s) {t : Uuid} {ids : List Uuid}
    (hrules : ∀ id ∈ ids, ∃ r, s.hunt.rules.get id = some r ∧ r.tenant = t) (hd : ids.Nodup) :
    ((ids.filterMap s.rulePair).map Prod.fst).Nodup := by
  rw [List.map_filterMap]
  refine List.pairwise_filterMap.mpr (hd.imp_of_mem fun {id id'} hid hid' hne => ?_)
  intro name hname name' hname' heq
  obtain ⟨r, hr, ht⟩ := hrules id hid
  obtain ⟨r', hr', ht'⟩ := hrules id' hid'
  have h : r.stableId = name := by simpa [Db.rulePair, hr] using hname
  have h' : r'.stableId = name' := by simpa [Db.rulePair, hr'] using hname'
  refine hne ?_
  calc id = r.id := (Table.mem_of_get hr).2.symm
    _ = r'.id := hok.ruleOnce r (Table.mem_of_get hr).1 r' (Table.mem_of_get hr').1
        (ht.trans ht'.symm) (by rw [h, h', heq])
    _ = id' := (Table.mem_of_get hr').2

/-- Stored names and sources have no NUL. -/
theorem RegistryOk.nulFree_pairs (hok : RegistryOk sha256 config s) (ids : List Uuid) :
    NulFreeRules (ids.filterMap s.rulePair) := by
  intro p hp
  obtain ⟨id, -, hpair⟩ := List.mem_filterMap.mp hp
  obtain ⟨r, hr, rfl⟩ := Option.map_eq_some_iff.mp hpair
  exact hok.nulFree r (Table.mem_of_get hr).1

/-- Rules of a tenant that say the same are the same rules. -/
theorem RegistryOk.mem_of_pairs (hok : RegistryOk sha256 config s) {t : Uuid} {ids ids' : List Uuid}
    (hrules : ∀ id ∈ ids, ∃ r, s.hunt.rules.get id = some r ∧ r.tenant = t)
    (hrules' : ∀ id ∈ ids', ∃ r, s.hunt.rules.get id = some r ∧ r.tenant = t)
    (h : (ids.filterMap s.rulePair).Perm (ids'.filterMap s.rulePair)) {id : Uuid} (hid : id ∈ ids) :
    id ∈ ids' := by
  obtain ⟨r, hr, ht⟩ := hrules id hid
  have hpair : s.rulePair id = some (r.stableId, r.source) := by rw [Db.rulePair, hr]; rfl
  have hmem := h.mem_iff.mp (List.mem_filterMap.mpr ⟨id, hid, hpair⟩)
  obtain ⟨id', hid', hpair'⟩ := List.mem_filterMap.mp hmem
  obtain ⟨r', hr', ht'⟩ := hrules' id' hid'
  have hname : r'.stableId = r.stableId := by
    rw [Db.rulePair, hr'] at hpair'
    exact congrArg Prod.fst (Option.some.inj hpair')
  have : id = id' := by
    calc id = r.id := (Table.mem_of_get hr).2.symm
      _ = r'.id := hok.ruleOnce r (Table.mem_of_get hr).1 r' (Table.mem_of_get hr').1
          (ht.trans ht'.symm) hname.symm
      _ = id' := (Table.mem_of_get hr').2
  exact this ▸ hid'

/-- **One digest, one set of rules.** -/
theorem RegistryOk.members_iff (hok : RegistryOk sha256 config s) (hsha : Function.Injective sha256)
    (hconfig : NulFree config) {t : Uuid} {ids ids' : List Uuid}
    (hrules : ∀ id ∈ ids, ∃ r, s.hunt.rules.get id = some r ∧ r.tenant = t)
    (hrules' : ∀ id ∈ ids', ∃ r, s.hunt.rules.get id = some r ∧ r.tenant = t)
    (hd : ids.Nodup) (hd' : ids'.Nodup) :
    bundleDigest sha256 config (ids.filterMap s.rulePair) =
        bundleDigest sha256 config (ids'.filterMap s.rulePair) ↔ ∀ id, id ∈ ids ↔ id ∈ ids' := by
  constructor
  · intro h id
    have hperm := (bundleDigest_injective hsha hconfig hconfig (hok.nulFree_pairs ids)
      (hok.nulFree_pairs ids') h).1
    exact ⟨hok.mem_of_pairs hrules hrules' hperm, hok.mem_of_pairs hrules' hrules hperm.symm⟩
  · intro h
    exact bundleDigest_perm sha256 config (hok.names_nodup hrules hd)
      (((List.perm_ext_iff_of_nodup hd hd').mpr h).filterMap _)

/-! ### Creating a rule -/

theorem Db.insertRule_ok {r x : Rule} (h : s.insertRule r = .ok (x, s')) :
    NulFree r.source ∧ s.hunt.rules.get r.id = none ∧
      (∀ y ∈ s.hunt.rules.rows, ¬(y.tenant = r.tenant ∧ y.ns = r.ns ∧ y.stableId = r.stableId)) ∧
      s' = { s with hunt := { s.hunt with rules := s.hunt.rules.insertNew r } } := by
  unfold Db.insertRule at h
  split at h
  · cases h
  · next hnul =>
    split at h
    · cases h
    · next hfree =>
      split at h
      · cases h
      · next hname =>
        obtain ⟨-, rfl⟩ := Prod.mk.inj (Except.ok.inj h)
        refine ⟨not_not.mp hnul, by simpa using hfree, fun y hy heq => ?_, rfl⟩
        exact hname (List.any_eq_true.mpr ⟨y, hy, by simpa [and_assoc] using heq⟩)

/-- The registry after an insert. -/
theorem RegistryOk.insertRule (hok : RegistryOk sha256 config s) {r x : Rule}
    (hname : NulFree r.stableId) (hns : r.ns = "default") (h : s.insertRule r = .ok (x, s')) :
    RegistryOk sha256 config s' ∧ Later s s' := by
  obtain ⟨hsource, hfree, hnew, rfl⟩ := Db.insertRule_ok h
  have hlater : Later s { s with hunt := { s.hunt with rules := s.hunt.rules.insertNew r } } :=
    ⟨.insertNew _ _ r, .refl _ _, fun _ _ => rfl⟩
  have hmem : ∀ {y}, y ∈ (s.hunt.rules.insertNew r).rows → y ∈ s.hunt.rules.rows ∨ y = r :=
    fun hy => (Table.mem_insertNew_of_none hfree).mp hy
  -- a name that is taken in the tenant is taken in its only namespace
  have hfresh : ∀ y ∈ s.hunt.rules.rows, y.tenant = r.tenant → y.stableId ≠ r.stableId :=
    fun y hy ht hid => hnew y hy ⟨ht, (hok.defaultNs y hy).trans hns.symm, hid⟩
  refine ⟨⟨fun y hy => ?_, fun y hy => ?_, fun y hy y' hy' ht hid => ?_, hok.bundleOnce, hok.rowsOf,
    fun b hb => (hok.bundles b hb).later hlater hb rfl rfl⟩, hlater⟩
  · rcases hmem hy with hy | rfl
    · exact hok.nulFree y hy
    · exact ⟨hname, hsource⟩
  · rcases hmem hy with hy | rfl
    · exact hok.defaultNs y hy
    · exact hns
  · rcases hmem hy with hold | hnew' <;> rcases hmem hy' with hold' | hnew''
    · exact hok.ruleOnce y hold y' hold' ht hid
    · subst hnew''
      exact absurd hid (hfresh y hold ht)
    · subst hnew'
      exact absurd hid.symm (hfresh y' hold' ht.symm)
    · rw [hnew', hnew'']

/-- **`create_rule` keeps the registry**, wherever it stops. -/
theorem wp_createRule (hok : RegistryOk sha256 config s) (debug : String → String)
    (compileValidate : String → Except String Unit) (t : Uuid) (source : String) :
    Prog.wp (fun _ s' => RegistryOk sha256 config s' ∧ Later s s')
      (fun _ s' => RegistryOk sha256 config s' ∧ Later s s')
      (createRule debug compileValidate t source) s := by
  have hsame : RegistryOk sha256 config s ∧ Later s s := ⟨hok, .refl s⟩
  unfold createRule
  cases hname : parseRuleName debug source with
  | error e => exact hsame
  | ok stableId =>
    dsimp only
    cases compileValidate source with
    | error msg => exact hsame
    | ok _ =>
      dsimp only
      rw [Prog.query_bind]
      refine ⟨hsame, fun _ => ?_⟩
      dsimp only
      cases s.ruleByStableId t stableId with
      | some r =>
        dsimp only
        split
        · exact hsame
        · exact hsame
      | none =>
        refine Prog.wp_exec.mpr ⟨hsame, fun env => ?_⟩
        cases hins : s.insertRule
            ⟨env.uuid 0, t, "default", stableId, source, .validated, env.now⟩ with
        | error e => exact hsame
        | ok res => exact hok.insertRule (nulFree_parseRuleName hname) rfl hins

/-! ### Publishing a bundle -/

/-- What the transaction of `publish_bundle` does to the registry, for the bundle `id`. -/
inductive PublishedAs (s s' : Db) (t : Uuid) (members : List Uuid) (digest : String) : Uuid → Prop where
  | existing {b} : s.hunt.bundles.get (t, digest) = some b →
      s'.hunt.bundleRules = s.hunt.bundleRules →
      (∀ k, (s'.hunt.bundles.get k).map Bundle.id = (s.hunt.bundles.get k).map Bundle.id) →
      PublishedAs s s' t members digest b.id
  | new {b : Bundle} : s.hunt.bundles.get (t, digest) = none → b.key = (t, digest) →
      (∀ x ∈ s.hunt.bundles.rows, x.id ≠ b.id) → members.Nodup →
      s'.hunt.bundles = s.hunt.bundles.insertNew b →
      s'.hunt.bundleRules = s.hunt.bundleRules ++ members.mapIdx (fun i r => ⟨b.id, r, i⟩) →
      PublishedAs s s' t members digest b.id

theorem get_activate_fixed (rules : Table Rule.id) (q : Rule → Bool) (id : Uuid) :
    ((rules.updateWhere q (fun r => { r with state := .active }) fun _ => rfl).get id).map Rule.fixed =
      (rules.get id).map Rule.fixed := by
  rw [Table.get_updateWhere]
  cases rules.get id with
  | none => rfl
  | some r =>
    rw [Option.map_some, Option.map_some, Option.map_some]
    split <;> rfl

theorem get_activate_id (bundles : Table Bundle.key) (q : Bundle → Bool) (k : Uuid × String) :
    ((bundles.updateWhere q (fun x => { x with active := true }) fun _ => rfl).get k).map Bundle.id =
      (bundles.get k).map Bundle.id := by
  have hget := Table.get_updateWhere bundles q (fun x => { x with active := true }) (fun _ => rfl) k
  refine (congrArg (Option.map Bundle.id) hget).trans ?_
  cases bundles.get k with
  | none => rfl
  | some x =>
    rw [Option.map_some, Option.map_some, Option.map_some]
    split <;> rfl

/-- The last statement of the transaction does not touch the registry. -/
theorem hunt_of_addForward {c : Bool} {r : Hunt} {s₁ : Db}
    (h : (if c then (s₁.insertHunt r).map fun x => ((), x.2) else .ok ((), s₁)) = .ok ((), s')) :
    s'.hunt.rules = s₁.hunt.rules ∧ s'.hunt.bundles = s₁.hunt.bundles ∧
      s'.hunt.bundleRules = s₁.hunt.bundleRules := by
  split at h
  · unfold Db.insertHunt at h
    split at h
    · cases h
    · cases h
      exact ⟨rfl, rfl, rfl⟩
  · cases h
    exact ⟨rfl, rfl, rfl⟩

/-- The rows of the members are the rows of their ids. -/
theorem mapIdx_ruleId (b : Uuid) (members : List Rule) :
    members.mapIdx (fun i r => (⟨b, r.id, i⟩ : BundleRule)) =
      (members.map Rule.id).mapIdx fun i r => ⟨b, r, i⟩ := by
  refine List.ext_getElem? fun i => ?_
  rw [List.getElem?_mapIdx, List.getElem?_mapIdx, List.getElem?_map, Option.map_map]
  rfl

theorem Db.publish_registry {cfg : Config} {t : Uuid} {members : List Rule} {digest : String}
    {activate : Bool} {env : Env} (h : s.publish cfg t members digest activate env = .ok ((), s')) :
    (∀ id, (s'.hunt.rules.get id).map Rule.fixed = (s.hunt.rules.get id).map Rule.fixed) ∧
      ∃ id, PublishedAs s s' t (members.map Rule.id) digest id := by
  unfold Db.publish at h
  cases hb : s.hunt.bundles.get (t, digest) with
  | some b =>
    simp only [hb, Option.isNone_some, Bool.false_and, Bool.false_eq_true, if_false] at h
    obtain ⟨hrules, hbundles, hrows⟩ := hunt_of_addForward h
    refine ⟨fun id => ?_, b.id, .existing hb hrows fun k => ?_⟩
    · rw [hrules]
      exact get_activate_fixed _ _ id
    · rw [hbundles]
      dsimp only
      split
      · exact get_activate_id _ _ k
      · rfl
  | none =>
    simp only [hb, Option.isNone_none, Bool.true_and] at h
    split at h
    · cases h
    · next hfresh =>
      split at h
      · cases h
      · next hnodup =>
        obtain ⟨hrules, hbundles, hrows⟩ := hunt_of_addForward h
        refine ⟨fun id => ?_, _, .new hb (b := ⟨env.uuid 0, t, digest, _, activate, env.now⟩) rfl
          (fun x hx heq => ?_) ?_ hbundles ?_⟩
        · rw [hrules]
          exact get_activate_fixed _ _ id
        · exact hfresh (List.any_eq_true.mpr ⟨x, hx, decide_eq_true heq⟩)
        · simpa using hnodup
        · rw [hrows]
          exact congrArg _ (mapIdx_ruleId _ members)

theorem map_ruleId_mapIdx (b : Uuid) (members : List Uuid) :
    (members.mapIdx fun i r => (⟨b, r, i⟩ : BundleRule)).map BundleRule.ruleId = members := by
  refine List.ext_getElem? fun i => ?_
  simp [List.getElem?_mapIdx, Function.comp_def]

section PublishedAs

variable {t id : Uuid} {members : List Uuid} {digest : String}
  (hfixed : ∀ id, (s'.hunt.rules.get id).map Rule.fixed = (s.hunt.rules.get id).map Rule.fixed)

include hfixed

/-- A rule of the later state is a rule of the earlier one. -/
theorem rule_of_fixed {r : Rule} (hr : s'.hunt.rules.get id = some r) :
    ∃ r₀, s.hunt.rules.get id = some r₀ ∧ r.fixed = r₀.fixed := by
  have := hfixed id
  rw [hr, Option.map_some] at this
  obtain ⟨r₀, hr₀, heq⟩ := Option.map_eq_some_iff.mp this.symm
  exact ⟨r₀, hr₀, heq.symm⟩

theorem persists_of_fixed : s.hunt.rules.Persists Rule.fixed s'.hunt.rules := by
  intro k r hr
  have := hfixed k
  rw [hr, Option.map_some] at this
  obtain ⟨r', hr', heq⟩ := Option.map_eq_some_iff.mp this
  exact ⟨r', hr', heq⟩

theorem PublishedAs.later (hp : PublishedAs s s' t members digest id) : Later s s' := by
  refine ⟨persists_of_fixed hfixed, ?_, fun b hb => ?_⟩
  · cases hp with
    | existing _ _ hids =>
      intro k b hb
      have := hids k
      rw [hb, Option.map_some] at this
      exact Option.map_eq_some_iff.mp this
    | new _ _ _ _ hbundles _ =>
      rw [hbundles]
      exact .insertNew _ _ _
  · cases hp with
    | existing _ hrows _ => rw [Db.ruleRows, hrows, Db.ruleRows]
    | @new b' _ _ hfresh _ _ hrows =>
      -- the rows that are new belong to the new bundle
      have hnone : (members.mapIdx fun i r => (⟨b'.id, r, i⟩ : BundleRule)).filter
          (fun x => x.bundleId = b.id) = [] := by
        refine List.filter_eq_nil_iff.mpr fun x hx => ?_
        obtain ⟨i, hi, rfl⟩ := List.mem_mapIdx.mp hx
        simpa using (hfresh b hb).symm
      rw [Db.ruleRows, hrows, List.filter_append, hnone, List.append_nil, Db.ruleRows]

omit hfixed in
/-- A new bundle has exactly the rows that came with it. -/
theorem RegistryOk.new_members (hok : RegistryOk sha256 config s) {b : Bundle}
    (hfresh : ∀ x ∈ s.hunt.bundles.rows, x.id ≠ b.id)
    (hrows : s'.hunt.bundleRules =
      s.hunt.bundleRules ++ members.mapIdx (fun i r => ⟨b.id, r, i⟩)) :
    s'.bundleMembers b.id = members := by
  have hold : s.hunt.bundleRules.filter (fun x => x.bundleId = b.id) = [] := by
    refine List.filter_eq_nil_iff.mpr fun x hx heq => ?_
    obtain ⟨b', hb', hid⟩ := hok.rowsOf x hx
    exact hfresh b' hb' (hid.trans (of_decide_eq_true heq))
  have hnew : (members.mapIdx fun i r => (⟨b.id, r, i⟩ : BundleRule)).filter
      (fun x => x.bundleId = b.id) = members.mapIdx fun i r => ⟨b.id, r, i⟩ := by
    refine List.filter_eq_self.mpr fun x hx => ?_
    obtain ⟨i, hi, rfl⟩ := List.mem_mapIdx.mp hx
    exact decide_eq_true rfl
  rw [Db.bundleMembers, Db.ruleRows, hrows, List.filter_append, hold, hnew, List.nil_append,
    map_ruleId_mapIdx]

/-- The pairs of rules do not change. -/
theorem rulePair_of_fixed (id : Uuid) : s'.rulePair id = s.rulePair id := by
  have hpair : ∀ d : Db, d.rulePair id =
      ((d.hunt.rules.get id).map Rule.fixed).map fun f => (f.2.2.1, f.2.2.2) := by
    intro d
    rw [Option.map_map]
    rfl
  rw [hpair, hfixed, ← hpair]

/-- **The transaction keeps the registry**, and the bundle it is about has the rules it
was given. -/
theorem PublishedAs.ok (hp : PublishedAs s s' t members digest id) (hok : RegistryOk sha256 config s)
    (hsha : Function.Injective sha256) (hconfig : NulFree config)
    (hmembers : ∀ id ∈ members, ∃ r, s.hunt.rules.get id = some r ∧ r.tenant = t)
    (hd : members.Nodup)
    (hdigest : bundleDigest sha256 config (members.filterMap s.rulePair) = digest) :
    RegistryOk sha256 config s' ∧ ∃ b ∈ s'.hunt.bundles.rows, b.id = id ∧ b.key = (t, digest) ∧
      ∀ x, x ∈ members ↔ x ∈ s'.bundleMembers b.id := by
  have hlater := hp.later hfixed
  have hold : ∀ r ∈ s'.hunt.rules.rows, ∃ r₀ ∈ s.hunt.rules.rows, r₀.id = r.id ∧
      r.tenant = r₀.tenant ∧ r.ns = r₀.ns ∧ r.stableId = r₀.stableId ∧ r.source = r₀.source := by
    intro r hr
    obtain ⟨r₀, hr₀, heq⟩ := rule_of_fixed hfixed (Table.mem_rows_iff.mp hr)
    exact ⟨r₀, (Table.mem_of_get hr₀).1, (Table.mem_of_get hr₀).2, by simpa [Rule.fixed] using heq⟩
  -- the part about rules, and the bundles that were there before
  have hkeep (hbundleOnce : ∀ b ∈ s'.hunt.bundles.rows, ∀ b' ∈ s'.hunt.bundles.rows,
        b.id = b'.id → b.key = b'.key)
      (hrowsOf : ∀ x ∈ s'.hunt.bundleRules, ∃ b ∈ s'.hunt.bundles.rows, b.id = x.bundleId)
      (hbundles : ∀ b ∈ s'.hunt.bundles.rows, BundleOk sha256 config s' b) :
      RegistryOk sha256 config s' := by
    refine ⟨fun r hr => ?_, fun r hr => ?_, fun r hr r' hr' ht hid => ?_, hbundleOnce, hrowsOf,
      hbundles⟩
    · obtain ⟨r₀, hr₀, -, -, -, hname, hsource⟩ := hold r hr
      rw [hname, hsource]
      exact hok.nulFree r₀ hr₀
    · obtain ⟨r₀, hr₀, -, -, hns, -, -⟩ := hold r hr
      rw [hns]
      exact hok.defaultNs r₀ hr₀
    · obtain ⟨r₀, hr₀, hid₀, ht₀, -, hname₀, -⟩ := hold r hr
      obtain ⟨r₁, hr₁, hid₁, ht₁, -, hname₁, -⟩ := hold r' hr'
      rw [← hid₀, ← hid₁]
      exact hok.ruleOnce r₀ hr₀ r₁ hr₁ (by rw [← ht₀, ht, ht₁]) (by rw [← hname₀, hid, hname₁])
  cases hp with
  | @existing b hb hrows hids =>
    have hback : ∀ b' ∈ s'.hunt.bundles.rows, ∃ b₀ ∈ s.hunt.bundles.rows,
        b'.id = b₀.id ∧ b'.key = b₀.key := by
      intro b' hb'
      have := hids b'.key
      rw [Table.mem_rows_iff.mp hb', Option.map_some] at this
      obtain ⟨b₀, hb₀, hid⟩ := Option.map_eq_some_iff.mp this.symm
      exact ⟨b₀, (Table.mem_of_get hb₀).1, hid.symm, (Table.mem_of_get hb₀).2.symm⟩
    obtain ⟨hmem, hkey⟩ := Table.mem_of_get hb
    refine ⟨hkeep (fun x hx y hy hid => ?_) (fun x hx => ?_) fun x hx => ?_, ?_⟩
    · obtain ⟨x₀, hx₀, hxid, hxkey⟩ := hback x hx
      obtain ⟨y₀, hy₀, hyid, hykey⟩ := hback y hy
      rw [hxkey, hykey]
      exact hok.bundleOnce x₀ hx₀ y₀ hy₀ (by rw [← hxid, hid, hyid])
    · rw [hrows] at hx
      obtain ⟨b₀, hb₀, hid⟩ := hok.rowsOf x hx
      obtain ⟨b', hb', hid', -⟩ := hlater.bundle hb₀
      exact ⟨b', hb', hid'.trans hid⟩
    · obtain ⟨x₀, hx₀, hid, hxkey⟩ := hback x hx
      exact (hok.bundles x₀ hx₀).later hlater hx₀ hid hxkey
    · obtain ⟨b', hb', hid', hkey'⟩ := hlater.bundle hmem
      refine ⟨b', hb', hid', hkey'.trans hkey, ?_⟩
      have hbok := hok.bundles b hmem
      obtain ⟨htenant, hdig⟩ := Prod.mk.inj hkey
      rw [hid', hlater.bundleMembers hmem]
      -- the same digest, so the same rules
      refine (hok.members_iff hsha hconfig hmembers (fun id hid => ?_) hd hbok.nodup).mp ?_
      · rw [← htenant]
        exact hbok.rules id hid
      · rw [hdigest, ← hdig]
        exact hbok.digest.symm
  | @new b hnone hkey hfresh _ hbundles hrows =>
    have hmembersOf : s'.bundleMembers b.id = members := hok.new_members hfresh hrows
    have hnone' : s.hunt.bundles.get b.key = none := hkey ▸ hnone
    have hcases : ∀ {x}, x ∈ s'.hunt.bundles.rows ↔ x ∈ s.hunt.bundles.rows ∨ x = b := by
      intro x
      rw [hbundles]
      exact Table.mem_insertNew_of_none hnone'
    obtain ⟨htenant, hdig⟩ := Prod.mk.inj hkey
    refine ⟨hkeep (fun x hx y hy hid => ?_) (fun x hx => ?_) fun x hx => ?_,
      b, hcases.mpr (.inr rfl), rfl, hkey, fun x => by rw [hmembersOf]⟩
    · rcases hcases.mp hx with hx | hx <;> rcases hcases.mp hy with hy | hy
      · exact hok.bundleOnce x hx y hy hid
      · exact absurd (hid.trans (congrArg Bundle.id hy)) (hfresh x hx)
      · exact absurd (hid.symm.trans (congrArg Bundle.id hx)) (hfresh y hy)
      · rw [hx, hy]
    · rw [hrows] at hx
      rcases List.mem_append.mp hx with hx | hx
      · obtain ⟨b₀, hb₀, hid⟩ := hok.rowsOf x hx
        exact ⟨b₀, hcases.mpr (.inl hb₀), hid⟩
      · obtain ⟨i, hi, rfl⟩ := List.mem_mapIdx.mp hx
        exact ⟨b, hcases.mpr (.inr rfl), rfl⟩
    · rcases hcases.mp hx with hx | rfl
      · exact (hok.bundles x hx).later hlater hx rfl rfl
      · refine ⟨fun id hid => ?_, hmembersOf ▸ hd, ?_⟩
        · rw [hmembersOf] at hid
          obtain ⟨r, hr, ht⟩ := hmembers id hid
          obtain ⟨r', hr', hfix⟩ := hlater.rules id r hr
          exact ⟨r', hr', by rw [(Prod.mk.inj hfix).1, ht, htenant]⟩
        · rw [Db.bundlePairs, hmembersOf, hdig, ← hdigest]
          congr 1
          exact List.filterMap_congr fun id _ => rulePair_of_fixed hfixed id

end PublishedAs

/-! ### Calls of `publish_bundle` -/

/-- The answer `b` to a call that named the rules `ids` is a stored bundle of exactly
these rules. -/
def Answered (s : Db) (ids : List Uuid) (b : Bundle) : Prop :=
  ids ≠ [] ∧ ∃ b₁ ∈ s.hunt.bundles.rows, b₁.id = b.id ∧ ∀ x, x ∈ ids ↔ x ∈ s.bundleMembers b₁.id

theorem Answered.later {ids : List Uuid} {b : Bundle} (h : Answered s ids b) (hl : Later s s') :
    Answered s' ids b := by
  obtain ⟨hne, b₁, hb₁, hid, hmem⟩ := h
  obtain ⟨b₂, hb₂, hid₂, -⟩ := hl.bundle hb₁
  refine ⟨hne, b₂, hb₂, hid₂.trans hid, fun x => ?_⟩
  rw [hid₂, hl.bundleMembers hb₁]
  exact hmem x

/-- The rules of a call, as they are stored. -/
def Found (s : Db) (t : Uuid) (found : List Rule) : Prop :=
  ∀ r ∈ found, s.hunt.rules.get r.id = some r ∧ r.tenant = t

/-- The look-ups of `publish_bundle`. -/
theorem wp_bundleMembers {P : Pt → Db → Prop} (hP : ∀ l, P l s) (t : Uuid) (ids : List Uuid) :
    Prog.wp P (fun r s' => s' = s ∧ ∀ found, r = .ok found →
      found.map Rule.id = ids ∧ Found s t found) (bundleMembers t ids []) s := by
  refine Prog.wp_loop (I := fun rest found s' => s' = s ∧ found.map Rule.id ++ rest = ids ∧
    Found s t found) ?_ ?_ ids [] s ⟨rfl, rfl, fun _ h => absurd h List.not_mem_nil⟩
  · rintro found s' ⟨rfl, hids, hfound⟩
    refine ⟨rfl, fun found' heq => ?_⟩
    obtain rfl := Except.ok.inj heq
    exact ⟨(List.append_nil _).symm.trans hids, hfound⟩
  · rintro id rest found s' ⟨rfl, hids, hfound⟩
    rw [Prog.query_bind]
    refine ⟨hP _, fun _ => ?_⟩
    dsimp only
    cases hget : (s'.hunt.rules.get id).filter fun x => x.tenant = t with
    | none => exact ⟨rfl, nofun⟩
    | some rule =>
      dsimp only
      split
      · exact ⟨rfl, nofun⟩
      · obtain ⟨hrow, ht⟩ := Option.filter_eq_some_iff.mp hget
        have hid : rule.id = id := (Table.mem_of_get hrow).2
        refine ⟨rfl, ?_, fun r hr => ?_⟩
        · rw [List.map_append, List.map_singleton, hid, List.append_assoc]
          exact hids
        · rcases List.mem_append.mp hr with hr | hr
          · exact hfound r hr
          · obtain rfl := List.mem_singleton.mp hr
            exact ⟨hid ▸ hrow, of_decide_eq_true ht⟩

/-- A compiler that rejects repetitions leaves a call with distinct rules. -/
theorem Found.nodup {t : Uuid} {members : List Rule} (h : Found s t members)
    (hd : (members.map fun r => (r.ns, r.source)).Nodup) : (members.map Rule.id).Nodup := by
  refine List.Nodup.map_on (fun r hr r' hr' hid => ?_) hd.of_map
  have hget := (h r hr).1
  rw [hid, (h r' hr').1] at hget
  exact (Option.some.inj hget).symm

theorem Found.pairs {t : Uuid} {members : List Rule} (h : Found s t members) :
    (members.map Rule.id).filterMap s.rulePair = members.map fun r => (r.stableId, r.source) := by
  rw [List.filterMap_map]
  refine (List.filterMap_congr fun r hr => ?_).trans
    (congrFun List.filterMap_eq_map members)
  show s.rulePair r.id = _
  rw [Db.rulePair, (h r hr).1]
  rfl

section Publish

variable {cfg : Config} (t : Uuid) (ids : List Uuid) (activate : Bool)

/-- The transaction, for members that were looked up. -/
theorem publish_answered (hok : RegistryOk cfg.sha256 config s)
    (hsha : Function.Injective cfg.sha256) (hconfig : NulFree config) {found members : List Rule}
    (hne : ids ≠ []) (hids : found.map Rule.id = ids) (hfound : Found s t found)
    (hperm : members.Perm found) (hd : (members.map fun r => (r.ns, r.source)).Nodup) {env : Env}
    (h : s.publish (cfg.pinned config) t members
      (bundleDigest cfg.sha256 config (members.map fun r => (r.stableId, r.source))) activate env =
        .ok ((), s')) :
    RegistryOk cfg.sha256 config s' ∧ Later s s' ∧ ∀ b,
      s'.hunt.bundles.get (t, bundleDigest cfg.sha256 config
        (members.map fun r => (r.stableId, r.source))) = some b → Answered s' ids b := by
  have hmembers : Found s t members := fun r hr => hfound r (hperm.mem_iff.mp hr)
  obtain ⟨hfixed, id, hp⟩ := Db.publish_registry h
  obtain ⟨hok', b, hb, -, hkey, hmem⟩ := hp.ok hfixed hok hsha hconfig (fun x hx => by
    obtain ⟨r, hr, rfl⟩ := List.mem_map.mp hx
    exact ⟨r, hmembers r hr⟩) (hmembers.nodup hd) (by rw [hmembers.pairs])
  refine ⟨hok', hp.later hfixed, fun b' hget => ⟨hne, b, hb, ?_, fun x => ?_⟩⟩
  · obtain ⟨hb', hkey'⟩ := Table.mem_of_get hget
    rw [Table.eq_of_mem hb hb' (hkey.trans hkey'.symm)]
  · rw [← hmem x, ← hids]
    exact ((hperm.map Rule.id).mem_iff).symm

/-- **`publish_bundle` keeps the registry**, wherever it stops, and answers with a bundle
of exactly the rules it was given. -/
theorem wp_publishBundle (hok : RegistryOk cfg.sha256 config s)
    (hsha : Function.Injective cfg.sha256) (hconfig : NulFree config)
    (hcompile : ∀ sources, cfg.compileBundle sources = .ok () → sources.Nodup) :
    Prog.wp (fun _ s' => RegistryOk cfg.sha256 config s' ∧ Later s s')
      (fun r s' => RegistryOk cfg.sha256 config s' ∧ Later s s' ∧
        ∀ b, r = .ok b → Answered s' ids b)
      (publishBundle (cfg.pinned config) t ids activate) s := by
  have hsame : RegistryOk cfg.sha256 config s ∧ Later s s := ⟨hok, .refl s⟩
  unfold publishBundle
  split
  · exact ⟨hok, .refl s, nofun⟩
  · next hids =>
    have hne : ids ≠ [] := by simpa using hids
    refine Prog.wp_seq (fun found s' => s' = s ∧ found.map Rule.id = ids ∧ Found s t found)
      (Prog.wp_mono (fun _ _ h => h) ?_ (wp_bundleMembers (fun _ => hsame) t ids)) ?_
    · rintro (e | found) s' ⟨rfl, hfound⟩
      · exact ⟨hok, .refl _, nofun⟩
      · exact ⟨rfl, hfound found rfl⟩
    · rintro found s' ⟨rfl, hmap, hfound⟩
      dsimp only
      generalize hm : found.insertionSort (fun x y => x.stableId ≤ y.stableId) = members
      have hperm : members.Perm found := hm ▸ List.perm_insertionSort _ _
      cases hc : (cfg.pinned config).compileBundle (members.map fun r => (r.ns, r.source)) with
      | error e => exact ⟨hok, .refl _, nofun⟩
      | ok _ =>
        dsimp only
        refine Prog.wp_exec_bind.mpr ⟨hsame, fun env => ?_⟩
        cases hpub : s'.publish (cfg.pinned config) t members ((cfg.pinned config).bundleDigest
            (members.map fun r => (r.stableId, r.source))) activate env with
        | error e => exact ⟨hok, .refl _, nofun⟩
        | ok res =>
          obtain ⟨hok', hlater, hget⟩ :=
            publish_answered t ids activate hok hsha hconfig hne hmap hfound hperm
            (hcompile _ hc) hpub
          unfold getBundle
          rw [Prog.query_bind]
          refine ⟨⟨hok', hlater⟩, fun _ => ?_⟩
          dsimp only
          split
          · next b hb =>
            refine ⟨hok', hlater, fun b' heq => ?_⟩
            obtain rfl := Except.ok.inj heq
            exact hget _ hb
          · exact ⟨hok', hlater, nofun⟩

end Publish

/-! ### Sequences of calls -/

/-- `RegistryRuns cfg config compileValidate s h s'`: calls of `create_rule` and
`publish_bundle`, one after the other and each stopping anywhere, lead from `s` to `s'`;
`h` lists the rules and the answer of every `publish_bundle` that returned one. -/
inductive RegistryRuns (cfg : Config) (config : String)
    (compileValidate : String → Except String Unit) (s : Db) :
    List (List Uuid × Bundle) → Db → Prop where
  | start : RegistryRuns cfg config compileValidate s [] s
  | createRule {h s₁ s₂ ls p} (t : Uuid) (source : String) :
      RegistryRuns cfg config compileValidate s h s₁ →
      Prog.Steps (Corpus.createRule cfg.debug compileValidate t source) s₁ ls p s₂ →
      RegistryRuns cfg config compileValidate s h s₂
  | publish {h s₁ s₂ ls b} (t : Uuid) (ids : List Uuid) (activate : Bool) :
      RegistryRuns cfg config compileValidate s h s₁ →
      Prog.Returns (publishBundle (cfg.pinned config) t ids activate) s₁ ls b s₂ →
      RegistryRuns cfg config compileValidate s (h ++ [(ids, b)]) s₂
  | publishPart {h s₁ s₂ ls p} (t : Uuid) (ids : List Uuid) (activate : Bool) :
      RegistryRuns cfg config compileValidate s h s₁ →
      Prog.Steps (publishBundle (cfg.pinned config) t ids activate) s₁ ls p s₂ →
      RegistryRuns cfg config compileValidate s h s₂

/-- What is watched all along a program holds wherever it stops. -/
theorem holds_of_wp {L ε α : Type} {I : Db → Prop} {p q : Prog L Db Env ε α} {ls : List L}
    (h : Prog.wp (fun _ => I) (fun _ => I) p s) (hrun : Prog.Steps p s ls q s') : I s' := by
  have hq := Prog.wp_sound hrun h
  cases q with
  | ret a => exact hq
  | err e => exact hq
  | stmt l f k => exact hq.1

/-- The empty registry. -/
theorem registryOk_empty (sha256 : Bytes → Bytes) (config : String) :
    RegistryOk sha256 config Db.empty :=
  ⟨fun _ h => absurd h List.not_mem_nil, fun _ h => absurd h List.not_mem_nil,
    fun _ h => absurd h List.not_mem_nil, fun _ h => absurd h List.not_mem_nil,
    fun _ h => absurd h List.not_mem_nil, fun _ h => absurd h List.not_mem_nil⟩

/-- **Any sequence of calls keeps the registry.** -/
theorem RegistryRuns.ok {cfg : Config} {compileValidate : String → Except String Unit}
    {h : List (List Uuid × Bundle)} (hr : RegistryRuns cfg config compileValidate s h s')
    (hok : RegistryOk cfg.sha256 config s) (hsha : Function.Injective cfg.sha256)
    (hconfig : NulFree config)
    (hcompile : ∀ sources, cfg.compileBundle sources = .ok () → sources.Nodup) :
    RegistryOk cfg.sha256 config s' ∧ Later s s' ∧ ∀ e ∈ h, Answered s' e.1 e.2 := by
  induction hr with
  | start => exact ⟨hok, .refl s, fun _ he => absurd he List.not_mem_nil⟩
  | createRule t source _ hrun ih =>
    obtain ⟨hok₁, hlater₁, hans⟩ := ih
    obtain ⟨hok₂, hlater₂⟩ := holds_of_wp (wp_createRule hok₁ cfg.debug compileValidate t source) hrun
    exact ⟨hok₂, hlater₁.trans hlater₂, fun e he => (hans e he).later hlater₂⟩
  | publish t ids activate _ hrun ih =>
    obtain ⟨hok₁, hlater₁, hans⟩ := ih
    obtain ⟨hok₂, hlater₂, hnew⟩ :=
      Prog.wp_returns hrun (wp_publishBundle t ids activate hok₁ hsha hconfig hcompile)
    refine ⟨hok₂, hlater₁.trans hlater₂, fun e he => ?_⟩
    rcases List.mem_append.mp he with he | he
    · exact (hans e he).later hlater₂
    · obtain rfl := List.mem_singleton.mp he
      exact hnew _ rfl
  | publishPart t ids activate _ hrun ih =>
    obtain ⟨hok₁, hlater₁, hans⟩ := ih
    have hwp := wp_publishBundle t ids activate hok₁ hsha hconfig hcompile
    obtain ⟨hok₂, hlater₂⟩ := holds_of_wp
      (Prog.wp_mono (fun _ _ h => h) (fun _ _ h => ⟨h.1, h.2.1⟩) hwp) hrun
    exact ⟨hok₂, hlater₁.trans hlater₂, fun e he => (hans e he).later hlater₂⟩

/-- Answers name the same bundle iff the calls named the same rules. -/
theorem RegistryOk.answered_iff (hok : RegistryOk sha256 config s)
    (hsha : Function.Injective sha256) (hconfig : NulFree config) {ids ids' : List Uuid}
    {b b' : Bundle} (h : Answered s ids b) (h' : Answered s ids' b') :
    b.id = b'.id ↔ ∀ x, x ∈ ids ↔ x ∈ ids' := by
  obtain ⟨hne, c, hc, hid, hmem⟩ := h
  obtain ⟨-, c', hc', hid', hmem'⟩ := h'
  have hcok := hok.bundles c hc
  have hcok' := hok.bundles c' hc'
  constructor
  · intro heq x
    have : c.id = c'.id := hid.trans (heq.trans hid'.symm)
    rw [hmem, hmem', this]
  · intro hsame
    have hset : ∀ x, x ∈ s.bundleMembers c.id ↔ x ∈ s.bundleMembers c'.id :=
      fun x => (hmem x).symm.trans ((hsame x).trans (hmem' x))
    -- a common rule shows that the tenants agree, the digests agree with the rules
    have htenant : c.tenant = c'.tenant := by
      obtain ⟨x, hx⟩ := List.exists_mem_of_ne_nil ids hne
      obtain ⟨r, hr, ht⟩ := hcok.rules x ((hmem x).mp hx)
      obtain ⟨r', hr', ht'⟩ := hcok'.rules x ((hset x).mp ((hmem x).mp hx))
      obtain rfl := Option.some.inj (hr.symm.trans hr')
      exact ht.symm.trans ht'
    have hdigest : c.digest = c'.digest := by
      rw [← hcok.digest, ← hcok'.digest]
      refine (hok.members_iff hsha hconfig hcok.rules (fun x hx => ?_) hcok.nodup
        hcok'.nodup).mpr hset
      rw [htenant]
      exact hcok'.rules x hx
    rw [← hid, ← hid', Table.eq_of_mem hc hc' (Prod.ext htenant hdigest)]

/-- **Bundles are immutable and content-addressed.**  In every state that calls of
`create_rule` and `publish_bundle` reach, a bundle's digest is that of its current
members; two answers of `publish_bundle` are the same bundle iff the calls named the same
rules; and its sources are the same in every later state.  The digest itself depends on
the set of rules alone, and determines it. -/
theorem bundles_content_addressed (cfg : Config) (config : String)
    (compileValidate : String → Except String Unit) (hsha : Function.Injective cfg.sha256)
    (hconfig : NulFree config)
    (hcompile : ∀ sources, cfg.compileBundle sources = .ok () → sources.Nodup) :
    (∀ h s, RegistryRuns cfg config compileValidate Db.empty h s →
      (∀ b ∈ s.hunt.bundles.rows,
        bundleDigest cfg.sha256 config (s.bundlePairs b.id) = b.digest) ∧
      (∀ e ∈ h, ∀ e' ∈ h, e.2.id = e'.2.id ↔ ∀ x, x ∈ e.1 ↔ x ∈ e'.1) ∧
      ∀ h' s', RegistryRuns cfg config compileValidate s h' s' →
        ∀ b ∈ s.hunt.bundles.rows, ∀ t, s'.bundleSources t b.id = s.bundleSources t b.id) ∧
    ∀ rs rs' : List (String × String), (rs.map Prod.fst).Nodup → (rs'.map Prod.fst).Nodup →
      NulFreeRules rs → NulFreeRules rs' →
        (bundleDigest cfg.sha256 config rs = bundleDigest cfg.sha256 config rs' ↔ rs.Perm rs') := by
  refine ⟨fun h s hr => ?_, fun rs rs' hd _ hr hr' => ?_⟩
  · obtain ⟨hok, -, hans⟩ := hr.ok (registryOk_empty _ _) hsha hconfig hcompile
    refine ⟨fun b hb => (hok.bundles b hb).digest, fun e he e' he' => ?_, fun h' s' hr' b hb t => ?_⟩
    · exact hok.answered_iff hsha hconfig (hans e he) (hans e' he')
    · exact (hr'.ok hok hsha hconfig hcompile).2.1.bundleSources hb (hok.bundles b hb) t
  · constructor
    · exact fun heq => (bundleDigest_injective hsha hconfig hconfig hr hr' heq).1
    · exact fun hperm => bundleDigest_perm cfg.sha256 config hd hperm

/-- A registry whose compiler rejects repetitions. -/
def Config.strict : Config :=
  { Config.plain with
    compileBundle := fun sources => if sources.Nodup then .ok () else .error "duplicate rule" }

/-- Two rules of tenant 0, stored under the ids 1 and 2. -/
def twoRules : Db :=
  let create (source : String) (id : Uuid) (s : Db) : Db :=
    ((createRule String.quote (fun _ => .ok ()) 0 source).runPart (List.replicate 2 (.drawing id)) s).2.2
  create "rule b { condition: true }" 2 (create "rule a { condition: true }" 1 Db.empty)

/-- A run that returns, with what its result must pass. -/
def publishes (ids : List Uuid) (s : Db) (chk : Bundle → Db → Bool) : Bool :=
  match (publishBundle (Config.strict.pinned "config") 0 ids false).run
    (List.replicate 4 (Env.drawing 7)) s with
  | some (_, .ok b, s') => chk b s'
  | _ => false

theorem returns_of_publishes {ids : List Uuid} {chk : Bundle → Db → Bool}
    (h : publishes ids s chk = true) : ∃ ls b s', Prog.Returns
      (publishBundle (Config.strict.pinned "config") 0 ids false) s ls b s' ∧ chk b s' = true := by
  unfold publishes at h
  split at h
  · next ls b s' hrun => exact ⟨ls, b, s', Prog.returns_of_run _ hrun, h⟩
  · cases h

/-- Publishing the two rules in either order gives one bundle. -/
theorem bundles_content_addressed_twice : ∃ b b' s,
    RegistryRuns Config.strict "config" (fun _ => .ok ()) Db.empty [([1, 2], b), ([2, 1], b')] s ∧
      b.id = b'.id := by
  have hcreate : RegistryRuns Config.strict "config" (fun _ => .ok ()) Db.empty [] twoRules :=
    .createRule 0 _ (.createRule 0 _ .start (Prog.steps_runPart _ _)) (Prog.steps_runPart _ _)
  have hpass : publishes [1, 2] twoRules (fun _ s₁ => publishes [2, 1] s₁ fun _ _ => true) = true := by
    decide +kernel
  obtain ⟨ls₁, b₁, s₁, hrun₁, hpass₁⟩ := returns_of_publishes hpass
  obtain ⟨ls₂, b₂, s₂, hrun₂, -⟩ := returns_of_publishes hpass₁
  have hruns := (hcreate.publish 0 [1, 2] false hrun₁).publish 0 [2, 1] false hrun₂
  refine ⟨b₁, b₂, s₂, hruns, ?_⟩
  have hclaim := ((bundles_content_addressed Config.strict "config" (fun _ => .ok ())
    Function.injective_id (by decide) (fun sources h => by
      simp only [Config.strict] at h
      split at h
      · assumption
      · cases h)).1 _ s₂ hruns).2.1
  refine (hclaim ([1, 2], b₁) (by simp) ([2, 1], b₂) (by simp)).mpr fun x => ?_
  simp only [List.mem_cons, List.not_mem_nil, or_false]
  exact or_comm

end Corpus
