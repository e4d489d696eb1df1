/-
`publish_bundle` as a transaction among others (`registry.rs`).

Elsewhere the transaction of `publish_bundle` is one statement; here each of its SQL
statements is, under READ COMMITTED.  The forward hunt of a bundle is looked up and then
inserted, with no unique index on it.  Two publishers cannot both find none: to get that
far for a stored bundle they update its row, which is locked until the commit, and the
publisher of a new bundle holds its digest.

* `publishBundleTx` — the statements; `PubWork` — what a transaction has changed so far;
* `publishBlocks` — the row locks and unique keys that make a statement wait;
* `PubOk` — what holds of the committed rows; `TxOk` — what holds of a transaction at
  each of its statements; `TxApart` — what no two transactions hold at once;
* `one_forward_hunt` — every order of the statements of any number of publishers.
-/
import Corpus.Hunts
import Corpus.Transactions

namespace Corpus

/-! ### Rows -/

/-- The tables that `publish_bundle` reads and writes. -/
structure PubDb where
  rules : List Rule
  bundles : List Bundle
  bundleRules : List BundleRule
  hunts : List Hunt

/-- What an open transaction has changed: the bundle it inserted with its rows, the
bundle it activated, the rules it activated, the hunt it inserted. -/
structure PubWork where
  bundle : Option Bundle
  rows : List BundleRule
  activated : Option Uuid
  rules : List Uuid
  hunt : Option Hunt

def PubWork.empty : PubWork := ⟨none, [], none, [], none⟩

/-- The committed rows as the transaction sees them, and as its commit leaves them. -/
def PubDb.view (d : PubDb) (w : PubWork) : PubDb where
  rules := d.rules.map fun r => if r.id ∈ w.rules then { r with state := .active } else r
  bundles := (d.bundles ++ w.bundle.toList).map fun b =>
    if w.activated = some b.id then { b with active := true } else b
  bundleRules := d.bundleRules ++ w.rows
  hunts := d.hunts ++ w.hunt.toList

/-! ### The transaction -/

/-- What a call has found out before it begins its transaction. -/
structure PublishCall where
  tenant : Uuid
  members : List Rule
  digest : String
  activate : Bool

/-- The statements of `publish_bundle`. -/
inductive TxPt where
  | findRule (t id : Uuid)
  | select (c : PublishCall)
  | activate (c : PublishCall) (b : Uuid)
  | insertBundle (c : PublishCall)
  | insertRow (c : PublishCall) (b : Uuid) (row : BundleRule)
  | updateRule (c : PublishCall) (b r : Uuid)
  | selectForward (c : PublishCall) (b : Uuid)
  | insertHunt (c : PublishCall) (b : Uuid)
  | commit (c : PublishCall) (b : Uuid)
  | get (c : PublishCall)

abbrev TxProg := Prog TxPt (PubDb × PubWork) Env Error

/-- `UNIQUE (tenant_id, digest)`, for the bundle of the call. -/
def PublishCall.key (c : PublishCall) : Uuid × String := (c.tenant, c.digest)

/-- `get_bundle`, after the commit. -/
def getPublished (c : PublishCall) : TxProg Bundle :=
  .exec (.get c) fun s _ =>
    match (s.1.view s.2).bundles.find? fun b => b.key = c.key with
    | some b => .ok (b, s)
    | none =>
      let digest := c.digest
      .error (.notFound s!"bundle {digest}")

/-- `COMMIT` and what follows. -/
def commitPublish (c : PublishCall) (b : Uuid) : TxProg Bundle := do
  .update (.commit c b) fun s _ => (s.1.view s.2, .empty)
  getPublished c

/-- The forward hunt of the bundle `b`. -/
def forwardPublish (c : PublishCall) (b : Uuid) : TxProg Bundle :=
  if c.activate then do
    let forward ← .query (.selectForward c b) fun s => (s.1.view s.2).hunts.find? fun h =>
      h.tenant = c.tenant && h.bundleId = b && h.kind = .forward
    match forward with
    | some _ => commitPublish c b
    | none => do
      .exec (.insertHunt c b) fun s env =>
        if (s.1.view s.2).hunts.any fun h => h.id = env.uuid 1 then .error (.db "hunt_pkey")
        else .ok ((), (s.1, { s.2 with
          hunt := some ⟨env.uuid 1, c.tenant, .forward, b, c.digest, .activeForward, none, 0, {},
            none, env.now, none, none⟩ }))
      commitPublish c b
  else commitPublish c b

/-- `UPDATE rule SET state = 'ACTIVE' … WHERE id = ? AND state IN ('DRAFT','VALIDATED')`, for
each of the members to come. -/
def updateRules (c : PublishCall) (b : Uuid) : List Rule → TxProg Bundle
  | [] => forwardPublish c b
  | r :: rest => do
    .update (.updateRule c b r.id) fun s _ =>
      if (s.1.view s.2).rules.any fun x =>
          x.id = r.id && (x.state = .draft || x.state = .validated) then
        (s.1, { s.2 with rules := s.2.rules ++ [r.id] })
      else s
    updateRules c b rest

/-- `INSERT INTO rule_bundle_rule`, for each of the rows to come. -/
def insertRows (c : PublishCall) (b : Uuid) : List BundleRule → TxProg Bundle
  | [] => updateRules c b c.members
  | row :: rest => do
    .exec (.insertRow c b row) fun s _ =>
      if (s.1.view s.2).bundleRules.any fun x => x.bundleId = row.bundleId && x.ruleId = row.ruleId
      then .error (.db "rule_bundle_rule_pkey")
      else .ok ((), (s.1, { s.2 with rows := s.2.rows ++ [row] }))
    insertRows c b rest

/-- The transaction of `publish_bundle`. -/
def publishTx (cfg : Config) (c : PublishCall) : TxProg Bundle := do
  let existing ← .query (.select c) fun s =>
    (s.1.view s.2).bundles.find? fun b => b.key = c.key
  match existing with
  | some b =>
    if c.activate then do
      .update (.activate c b.id) fun s _ =>
        if (s.1.view s.2).bundles.any fun x => x.id = b.id then
          (s.1, { s.2 with activated := some b.id })
        else s
      updateRules c b.id c.members
    else updateRules c b.id c.members
  | none => do
    let id ← .exec (.insertBundle c) fun s env =>
      if (s.1.view s.2).bundles.any fun x => x.id = env.uuid 0 then .error (.db "rule_bundle_pkey")
      else if (s.1.view s.2).bundles.any fun x => x.key = c.key then
        .error (.db "rule_bundle_tenant_id_digest_key")
      else .ok (env.uuid 0, (s.1, { s.2 with
        bundle := some ⟨env.uuid 0, c.tenant, c.digest, cfg.engineVersion, c.activate, env.now⟩ }))
    insertRows c id (c.members.mapIdx fun i r => ⟨id, r.id, i⟩)

/-- The rules of a call, none missing and none revoked. -/
def findRules (t : Uuid) : List Uuid → List Rule → TxProg (List Rule) :=
  Prog.loop fun members id => do
    let r ← .query (.findRule t id) fun s =>
      (s.1.view s.2).rules.find? fun x => x.tenant = t && x.id = id
    match r with
    | none => Prog.err (.notFound s!"rule {printUuid id}")
    | some rule =>
      if rule.state = .revoked then Prog.err (.badRequest s!"rule {rule.stableId} is REVOKED")
      else return members ++ [rule]

/-- `publish_bundle`; what precedes the transaction runs in no transaction. -/
def publishBundleTx (cfg : Config) (t : Uuid) (ruleIds : List Uuid) (activate : Bool) :
    TxProg Bundle := do
  if ruleIds.isEmpty then Prog.err (.badRequest "bundle requires at least one rule")
  else do
    let found ← findRules t ruleIds []
    let members := found.insertionSort fun x y => x.stableId ≤ y.stableId
    match cfg.compileBundle (members.map fun r => (r.ns, r.source)) with
    | .error e => Prog.err (.ruleCompile e)
    | .ok _ =>
      publishTx cfg ⟨t, members, cfg.bundleDigest (members.map fun r => (r.stableId, r.source)),
        activate⟩

/-- A call of `publish_bundle`. -/
structure PublishArgs where
  tenant : Uuid
  ruleIds : List Uuid
  activate : Bool

/-- The statement waits for a transaction with the changes `w`: for the lock of a row that
it updated, or for a unique key that it inserted. -/
def publishBlocks : TxPt → Env → PubWork → Bool
  | .activate _ b, _, w => w.activated = some b
  | .insertBundle c, env, w => w.bundle.any fun x => x.key = c.key || x.id = env.uuid 0
  | .updateRule _ _ r, _, w => w.rules.contains r
  | .insertHunt _ _, env, w => w.hunt.any fun h => h.id = env.uuid 1
  | _, _, _ => false

/-- The states that any number of publishers reach from the rules `rules`. -/
def PublishReach (cfg : Config) (rules : List Rule) :
    Sessions PubDb TxPt PubWork Env Error Bundle → Prop :=
  Sessions.Reach (fun a : PublishArgs => publishBundleTx cfg a.tenant a.ruleIds a.activate)
    publishBlocks .empty ⟨rules, [], [], []⟩

/-! ### What a statement can do -/

/-- The statements before the transaction has changed anything. -/
def TxPt.first : TxPt → Prop
  | findRule .. | select _ => True
  | _ => False

/-- Where the transaction stands once the bundle is there. -/
def AfterBundle (c : PublishCall) (b : Uuid) (p : Ctl TxPt Bundle) : Prop :=
  (∃ row, p = .at (.insertRow c b row)) ∨ (∃ r, p = .at (.updateRule c b r)) ∨
    c.activate = true ∧ p = .at (.selectForward c b) ∨ c.activate = false ∧ p = .at (.commit c b)

/-- The moves of `publish_bundle`. -/
inductive PubMove : TxPt → Env → PubDb × PubWork → PubDb × PubWork → Ctl TxPt Bundle → Prop where
  | failed {l i s} : PubMove l i s s .failed
  | findRule {t id i s p} : (∀ l, p = .at l → l.first) → PubMove (.findRule t id) i s s p
  | selectActivate {c i d w b} : b ∈ (d.view w).bundles → b.key = c.key → c.activate = true →
      PubMove (.select c) i (d, w) (d, w) (.at (.activate c b.id))
  | selectKeep {c i d w b p} : b ∈ (d.view w).bundles → b.key = c.key → c.activate = false →
      AfterBundle c b.id p → PubMove (.select c) i (d, w) (d, w) p
  | selectNone {c i s} : PubMove (.select c) i s s (.at (.insertBundle c))
  | activate {c b i d w p} : (∃ x ∈ (d.view w).bundles, x.id = b) → AfterBundle c b p →
      PubMove (.activate c b) i (d, w) (d, { w with activated := some b }) p
  | activateNone {c b i d w p} : (∀ x ∈ (d.view w).bundles, x.id ≠ b) → AfterBundle c b p →
      PubMove (.activate c b) i (d, w) (d, w) p
  | insertBundle {c i d w p x} : (∀ y ∈ (d.view w).bundles, y.key ≠ x.key ∧ y.id ≠ x.id) →
      x.id = i.uuid 0 → x.key = c.key → x.active = c.activate → AfterBundle c x.id p →
      PubMove (.insertBundle c) i (d, w) (d, { w with bundle := some x }) p
  | insertRow {c b row i d w p} : AfterBundle c b p →
      PubMove (.insertRow c b row) i (d, w) (d, { w with rows := w.rows ++ [row] }) p
  | updateRule {c b r i d w u p} : AfterBundle c b p →
      PubMove (.updateRule c b r) i (d, w) (d, { w with rules := u }) p
  | forwardSome {c b i d w h} : h ∈ (d.view w).hunts → h.kind = .forward → h.bundleId = b →
      PubMove (.selectForward c b) i (d, w) (d, w) (.at (.commit c b))
  | forwardNone {c b i d w} :
      (∀ h ∈ (d.view w).hunts, h.tenant = c.tenant → h.kind = .forward → h.bundleId ≠ b) →
      PubMove (.selectForward c b) i (d, w) (d, w) (.at (.insertHunt c b))
  | insertHunt {c b i d w h} : h.kind = .forward → h.bundleId = b → h.tenant = c.tenant →
      PubMove (.insertHunt c b) i (d, w) (d, { w with hunt := some h }) (.at (.commit c b))
  | commit {c b i d w} : PubMove (.commit c b) i (d, w) (d.view w, .empty) (.at (.get c))
  | get {c i s b} : PubMove (.get c) i s s (.done b)

theorem getPublished_takes (c : PublishCall) : (getPublished c).Takes PubMove := by
  refine Prog.takes_exec fun s i => ?_
  cases (s.1.view s.2).bundles.find? fun b => b.key = c.key with
  | some b => exact .get
  | none => exact .failed

theorem commitPublish_takes (c : PublishCall) (b : Uuid) : (commitPublish c b).Takes PubMove :=
  fun _ _ => ⟨.commit, getPublished_takes c⟩

theorem forwardPublish_ctl (c : PublishCall) (b : Uuid) : AfterBundle c b (forwardPublish c b).ctl := by
  unfold forwardPublish
  cases hact : c.activate with
  | true => exact .inr (.inr (.inl ⟨hact, rfl⟩))
  | false => exact .inr (.inr (.inr ⟨hact, rfl⟩))

theorem updateRules_ctl (c : PublishCall) (b : Uuid) (rules : List Rule) :
    AfterBundle c b (updateRules c b rules).ctl := by
  cases rules with
  | nil => exact forwardPublish_ctl c b
  | cons r rest => exact .inr (.inl ⟨r.id, rfl⟩)

theorem insertRows_ctl (c : PublishCall) (b : Uuid) (rows : List BundleRule) :
    AfterBundle c b (insertRows c b rows).ctl := by
  cases rows with
  | nil => exact updateRules_ctl c b c.members
  | cons row rest => exact .inl ⟨row, rfl⟩

theorem forwardPublish_takes (c : PublishCall) (b : Uuid) : (forwardPublish c b).Takes PubMove := by
  unfold forwardPublish
  split
  · rw [Prog.query_bind]
    rintro ⟨d, w⟩ i
    dsimp only
    cases hf : (d.view w).hunts.find? fun h =>
        h.tenant = c.tenant && h.bundleId = b && h.kind = .forward with
    | some h =>
      have hh := List.find?_some hf
      simp only [Bool.and_eq_true, decide_eq_true_eq] at hh
      exact ⟨.forwardSome (List.mem_of_find?_eq_some hf) hh.2 hh.1.2, commitPublish_takes c b⟩
    | none =>
      refine ⟨.forwardNone fun h hm ht hk hb => ?_, ?_⟩
      · have := List.find?_eq_none.mp hf h hm
        simp [ht, hk, hb] at this
      · refine Prog.takes_exec_bind fun s i => ?_
        split
        · next r hr =>
          split at hr
          · cases hr
          · cases hr
            exact ⟨.insertHunt rfl rfl rfl, commitPublish_takes c b⟩
        · exact .failed
  · exact commitPublish_takes c b

theorem updateRules_takes (c : PublishCall) (b : Uuid) (rules : List Rule) :
    (updateRules c b rules).Takes PubMove := by
  induction rules with
  | nil => exact forwardPublish_takes c b
  | cons r rest ih =>
    rintro ⟨d, w⟩ i
    refine ⟨?_, ih⟩
    dsimp only
    split
    · exact .updateRule (updateRules_ctl c b rest)
    · exact .updateRule (u := w.rules) (updateRules_ctl c b rest)

theorem insertRows_takes (c : PublishCall) (b : Uuid) (rows : List BundleRule) :
    (insertRows c b rows).Takes PubMove := by
  induction rows with
  | nil => exact updateRules_takes c b c.members
  | cons row rest ih =>
    refine Prog.takes_exec_bind fun s i => ?_
    dsimp only
    split
    · next r hr =>
      split at hr
      · cases hr
      · cases hr
        exact ⟨.insertRow (insertRows_ctl c b rest), ih⟩
    · exact .failed

theorem publishTx_takes (cfg : Config) (c : PublishCall) : (publishTx cfg c).Takes PubMove := by
  unfold publishTx
  rw [Prog.query_bind]
  rintro ⟨d, w⟩ i
  dsimp only
  cases hf : (d.view w).bundles.find? fun b => b.key = c.key with
  | some b =>
    have hkey : b.key = c.key := by simpa using List.find?_some hf
    have hmem := List.mem_of_find?_eq_some hf
    dsimp only
    cases hact : c.activate with
    | true =>
      refine ⟨.selectActivate hmem hkey hact, ?_⟩
      rintro ⟨d, w⟩ i
      refine ⟨?_, updateRules_takes c b.id c.members⟩
      dsimp only
      split
      · next hany =>
        obtain ⟨x, hx, hid⟩ := List.any_eq_true.mp hany
        exact .activate ⟨x, hx, of_decide_eq_true hid⟩ (updateRules_ctl ..)
      · next hany =>
        refine .activateNone (fun x hx hid => hany ?_) (updateRules_ctl ..)
        exact List.any_eq_true.mpr ⟨x, hx, decide_eq_true hid⟩
    | false =>
      exact ⟨.selectKeep hmem hkey hact (updateRules_ctl ..), updateRules_takes ..⟩
  | none =>
    refine ⟨.selectNone, Prog.takes_exec_bind ?_⟩
    rintro ⟨d, w⟩ i
    dsimp only
    split
    · next r hr =>
      split at hr
      · cases hr
      · next hid =>
        split at hr
        · cases hr
        · next hkey =>
          cases hr
          refine ⟨.insertBundle (fun y hy => ⟨fun heq => hkey ?_, fun heq => hid ?_⟩) rfl rfl rfl
            (insertRows_ctl ..), insertRows_takes ..⟩
          · exact List.any_eq_true.mpr ⟨y, hy, decide_eq_true heq⟩
          · exact List.any_eq_true.mpr ⟨y, hy, decide_eq_true heq⟩
    · exact .failed

/-- The rules of the call are read in no transaction, and what follows starts with nothing
changed. -/
theorem findRules_takes (t : Uuid) {g : List Rule → TxProg Bundle}
    (hctl : ∀ found l, (g found).ctl = .at l → l.first) (hg : ∀ found, (g found).Takes PubMove)
    (ids : List Uuid) : ∀ found, (findRules t ids found >>= g).Takes PubMove ∧
      ∀ l, (findRules t ids found >>= g).ctl = .at l → l.first := by
  induction ids with
  | nil => exact fun found => ⟨hg found, hctl found⟩
  | cons id rest ih =>
    intro found
    unfold findRules Prog.loop
    rw [Prog.bind_assoc', Prog.bind_assoc', Prog.query_bind]
    refine ⟨fun s i => ?_, fun l hl => ?_⟩
    · dsimp only
      cases (s.1.view s.2).rules.find? fun x => x.tenant = t && x.id = id with
      | none => exact ⟨.failed, trivial⟩
      | some rule =>
        dsimp only
        split
        · exact ⟨.failed, trivial⟩
        · obtain ⟨htakes, hfirst⟩ := ih (found ++ [rule])
          exact ⟨.findRule hfirst, htakes⟩
    · cases hl
      trivial

theorem publishBundleTx_takes (cfg : Config) (t : Uuid) (ids : List Uuid) (activate : Bool) :
    (publishBundleTx cfg t ids activate).Takes PubMove ∧
      ∀ l, (publishBundleTx cfg t ids activate).ctl = .at l → l.first := by
  unfold publishBundleTx
  split
  · exact ⟨trivial, nofun⟩
  · refine findRules_takes t (fun found l hl => ?_) (fun found => ?_) ids []
    · dsimp only at hl
      split at hl
      · cases hl
      · cases hl
        trivial
    · dsimp only
      split
      · trivial
      · exact publishTx_takes cfg _

/-! ### The invariant -/

/-- The bundle with the id `b` is committed, with the tenant and digest of the call. -/
def Existing (d : PubDb) (c : PublishCall) (b : Uuid) : Prop :=
  ∃ x ∈ d.bundles, x.id = b ∧ x.key = c.key

def HasForward (d : PubDb) (b : Uuid) : Prop := ∃ h ∈ d.hunts, h.kind = .forward ∧ h.bundleId = b

def NoForward (d : PubDb) (b : Uuid) : Prop := ∀ h ∈ d.hunts, h.kind = .forward → h.bundleId ≠ b

/-- What holds of the committed rows. -/
structure PubOk (d : PubDb) : Prop where
  keys : (d.bundles.map Bundle.key).Nodup
  ids : (d.bundles.map Bundle.id).Nodup
  hunts : ∀ h ∈ d.hunts, ∃ b ∈ d.bundles, b.id = h.bundleId ∧ b.tenant = h.tenant
  once : ((d.hunts.filter fun h => h.kind = .forward).map Hunt.bundleId).Nodup
  active : ∀ b ∈ d.bundles, b.active = true → HasForward d b.id

/-- The transaction has the bundle `b`: it inserted it, and no committed bundle has its key
or its id, or it found it, and holds its row if the call activates. -/
def Held (d : PubDb) (c : PublishCall) (b : Uuid) (w : PubWork) : Prop :=
  (∃ x, w.bundle = some x ∧ x.id = b ∧ x.key = c.key ∧ x.active = c.activate ∧
      (∀ y ∈ d.bundles, y.key ≠ x.key ∧ y.id ≠ x.id) ∧ w.activated = none) ∨
    (w.bundle = none ∧ Existing d c b ∧ w.activated = if c.activate then some b else none)

/-- At the commit: a call that activates has inserted the only forward hunt of the bundle,
or the bundle has one. -/
def ForwardDone (d : PubDb) (c : PublishCall) (b : Uuid) (w : PubWork) : Prop :=
  match w.hunt with
  | some h => c.activate = true ∧ h.kind = .forward ∧ h.bundleId = b ∧ h.tenant = c.tenant ∧
      NoForward d b
  | none => c.activate = true → HasForward d b

/-- What holds of a transaction at each of its statements. -/
def TxOk (d : PubDb) : TxPt → PubWork → Prop
  | .activate c b, w => w = .empty ∧ Existing d c b ∧ c.activate = true
  | .insertRow c b _, w | .updateRule c b _, w => Held d c b w ∧ w.hunt = none
  | .selectForward c b, w => Held d c b w ∧ w.hunt = none ∧ c.activate = true
  | .insertHunt c b, w => Held d c b w ∧ c.activate = true ∧ NoForward d b
  | .commit c b, w => Held d c b w ∧ ForwardDone d c b w
  | _, w => w = .empty

/-- No two transactions have activated one bundle, or inserted bundles with one key or one
id. -/
structure TxApart (w w' : PubWork) : Prop where
  activated : ∀ b, w.activated = some b → w'.activated ≠ some b
  bundle : ∀ x y, w.bundle = some x → w'.bundle = some y → x.key ≠ y.key ∧ x.id ≠ y.id

theorem TxApart.symm {w w' : PubWork} (h : TxApart w w') : TxApart w' w where
  activated := fun b hb hb' => h.activated b hb' hb
  bundle := fun x y hx hy => ⟨(h.bundle y x hy hx).1.symm, (h.bundle y x hy hx).2.symm⟩

theorem TxApart.empty (w : PubWork) : TxApart .empty w := ⟨nofun, nofun⟩

/-! ### What a transaction sees -/

theorem view_ids (d : PubDb) (w : PubWork) :
    (d.view w).bundles.map Bundle.id = (d.bundles ++ w.bundle.toList).map Bundle.id := by
  unfold PubDb.view
  rw [List.map_map]
  refine List.map_congr_left fun b _ => ?_
  show (if w.activated = some b.id then { b with active := true } else b).id = b.id
  split <;> rfl

theorem view_keys (d : PubDb) (w : PubWork) :
    (d.view w).bundles.map Bundle.key = (d.bundles ++ w.bundle.toList).map Bundle.key := by
  unfold PubDb.view
  rw [List.map_map]
  refine List.map_congr_left fun b _ => ?_
  show (if w.activated = some b.id then { b with active := true } else b).key = b.key
  split <;> rfl

/-- A bundle in the view is a committed or an inserted one, perhaps activated. -/
theorem mem_view {d : PubDb} {w : PubWork} {x : Bundle} (h : x ∈ (d.view w).bundles) :
    ∃ y ∈ d.bundles ++ w.bundle.toList, y.id = x.id ∧ y.key = x.key ∧
      (x.active = true → y.active = true ∨ w.activated = some y.id) := by
  obtain ⟨y, hy, rfl⟩ := List.mem_map.mp h
  refine ⟨y, hy, ?_⟩
  split
  · next ha => exact ⟨rfl, rfl, fun _ => .inr ha⟩
  · exact ⟨rfl, rfl, .inl⟩

theorem view_mem (d : PubDb) (w : PubWork) {y : Bundle} (h : y ∈ d.bundles ++ w.bundle.toList) :
    ∃ x ∈ (d.view w).bundles, x.id = y.id ∧ x.key = y.key := by
  refine ⟨_, List.mem_map.mpr ⟨y, h, rfl⟩, ?_⟩
  split <;> exact ⟨rfl, rfl⟩

/-! ### One statement -/

section Statement

variable {d d' : PubDb} {w w' w₂ : PubWork} {c c₂ : PublishCall} {b b₂ : Uuid} {l : TxPt} {i : Env}
  {p : Ctl TxPt Bundle}

theorem TxPt.first.ok (h : l.first) : TxOk d l .empty := by
  cases l with
  | findRule t id => rfl
  | select c => rfl
  | _ => cases h

theorem AfterBundle.ok (h : AfterBundle c b p) (hheld : Held d c b w) (hhunt : w.hunt = none)
    (hl : p = .at l) : TxOk d l w := by
  obtain ⟨row, rfl⟩ | ⟨r, rfl⟩ | ⟨hact, rfl⟩ | ⟨hact, rfl⟩ := h
  · cases hl
    exact ⟨hheld, hhunt⟩
  · cases hl
    exact ⟨hheld, hhunt⟩
  · cases hl
    exact ⟨hheld, hhunt, hact⟩
  · cases hl
    refine ⟨hheld, ?_⟩
    unfold ForwardDone
    rw [hhunt]
    intro hact'
    rw [hact] at hact'
    cases hact'

theorem Existing.of_view (h : ∃ x ∈ (d.view .empty).bundles, x.id = b ∧ x.key = c.key) :
    Existing d c b := by
  obtain ⟨x, hx, hid, hkey⟩ := h
  obtain ⟨y, hy, hyid, hykey, _⟩ := mem_view hx
  have hy : y ∈ d.bundles := by simpa [PubWork.empty] using hy
  exact ⟨y, hy, hyid.trans hid, hykey.trans hkey⟩

/-- What a transaction inserts or holds has the tenant of its call. -/
theorem Held.tenant (hd : PubOk d) (h : Held d c b w) {y : Bundle} (hy : y ∈ d.bundles)
    (hid : y.id = b) : y.tenant = c.tenant := by
  obtain ⟨x, _, hxid, _, _, hfresh, _⟩ | ⟨_, ⟨x, hx, hxid, hkey⟩, _⟩ := h
  · exact absurd (hid.trans hxid.symm) (hfresh y hy).2
  · have hyx : y = x := List.inj_on_of_nodup_map hd.ids hy hx (hid.trans hxid.symm)
    rw [hyx]
    exact congrArg Prod.fst hkey

/-- Every statement but the commit leaves the committed rows alone, and keeps what holds of
its transaction and the distance from those that do not block it. -/
theorem PubMove.ok (h : PubMove l i (d, w) (d', w') p) (hd : PubOk d) (hw : TxOk d l w) :
    (d' = d ∧ (∀ l', p = .at l' → TxOk d l' w') ∧
        ∀ w₂, publishBlocks l i w₂ = false → TxApart w w₂ → TxApart w' w₂) ∨
      ∃ c b, l = .commit c b ∧ d' = d.view w ∧ w' = .empty ∧ p = .at (.get c) := by
  cases h with
  | failed => exact .inl ⟨rfl, nofun, fun _ _ ha => ha⟩
  | findRule hfirst =>
    obtain rfl : w = .empty := hw
    exact .inl ⟨rfl, fun l' hl => (hfirst l' hl).ok, fun _ _ ha => ha⟩
  | selectActivate hmem hkey hact =>
    obtain rfl : w = .empty := hw
    refine .inl ⟨rfl, fun l' hl => ?_, fun _ _ ha => ha⟩
    cases hl
    exact ⟨rfl, .of_view ⟨_, hmem, rfl, hkey⟩, hact⟩
  | selectKeep hmem hkey hact hafter =>
    obtain rfl : w = .empty := hw
    refine .inl ⟨rfl, fun l' hl => hafter.ok (.inr ⟨rfl, ?_, ?_⟩) rfl hl, fun _ _ ha => ha⟩
    · exact .of_view ⟨_, hmem, rfl, hkey⟩
    · rw [hact]
      rfl
  | selectNone =>
    obtain rfl : w = .empty := hw
    refine .inl ⟨rfl, fun l' hl => ?_, fun _ _ ha => ha⟩
    cases hl
    exact rfl
  | activate _ hafter =>
    obtain ⟨rfl, hex, hact⟩ := hw
    refine .inl ⟨rfl, fun l' hl => hafter.ok (.inr ⟨rfl, hex, ?_⟩) rfl hl, fun w₂ hb ha => ?_⟩
    · rw [if_pos hact]
    · -- the lock on the row of the bundle
      have hne : w₂.activated ≠ some _ := of_decide_eq_false hb
      refine ⟨fun b' hb' => ?_, ha.bundle⟩
      obtain rfl := Option.some.inj hb'
      exact hne
  | activateNone hnone =>
    obtain ⟨rfl, ⟨x, hx, hid, _⟩, _⟩ := hw
    obtain ⟨y, hy, hyid, _⟩ := view_mem d .empty (List.mem_append_left _ hx)
    exact absurd (hyid.trans hid) (hnone y hy)
  | @insertBundle c _ _ _ _ x hfree hid hkey hact hafter =>
    obtain rfl : w = .empty := hw
    refine .inl ⟨rfl, fun l' hl => hafter.ok (.inl ⟨x, rfl, rfl, hkey, hact, ?_, rfl⟩) rfl hl,
      fun w₂ hb ha => ⟨ha.activated, fun x' y hx' hy => ?_⟩⟩
    · intro y hy
      obtain ⟨z, hz, hzid, hzkey⟩ := view_mem d .empty (List.mem_append_left _ hy)
      rw [← hzid, ← hzkey]
      exact hfree z hz
    · -- the unique keys of the table
      obtain rfl := Option.some.inj hx'
      have hb : ¬ (y.key = c.key ∨ y.id = i.uuid 0) := by
        simpa [publishBlocks, hy] using hb
      rw [hkey, hid]
      exact ⟨fun h => hb (.inl h.symm), fun h => hb (.inr h.symm)⟩
  | insertRow hafter =>
    obtain ⟨hheld, hhunt⟩ := hw
    exact .inl ⟨rfl, fun l' hl => hafter.ok hheld hhunt hl, fun _ _ ha => ⟨ha.activated, ha.bundle⟩⟩
  | updateRule hafter =>
    obtain ⟨hheld, hhunt⟩ := hw
    exact .inl ⟨rfl, fun l' hl => hafter.ok hheld hhunt hl, fun _ _ ha => ⟨ha.activated, ha.bundle⟩⟩
  | @forwardSome c b _ _ _ h hm hkind hid =>
    obtain ⟨hheld, hhunt, _⟩ := hw
    refine .inl ⟨rfl, fun l' hl => ?_, fun _ _ ha => ha⟩
    cases hl
    refine ⟨hheld, ?_⟩
    unfold ForwardDone
    rw [hhunt]
    unfold PubDb.view at hm
    rw [hhunt, Option.toList_none, List.append_nil] at hm
    exact fun _ => ⟨h, hm, hkind, hid⟩
  | @forwardNone c b _ _ _ hnone =>
    obtain ⟨hheld, _, hact⟩ := hw
    refine .inl ⟨rfl, fun l' hl => ?_, fun _ _ ha => ha⟩
    cases hl
    refine ⟨hheld, hact, fun h hm hkind hid => ?_⟩
    obtain ⟨y, hy, hyid, hyt⟩ := hd.hunts h hm
    have ht : h.tenant = c.tenant := hyt ▸ hheld.tenant hd hy (hyid.trans hid)
    exact hnone h (List.mem_append_left _ hm) ht hkind hid
  | insertHunt hkind hid htenant =>
    obtain ⟨hheld, hact, hno⟩ := hw
    refine .inl ⟨rfl, fun l' hl => ?_, fun _ _ ha => ⟨ha.activated, ha.bundle⟩⟩
    cases hl
    exact ⟨hheld, hact, hkind, hid, htenant, hno⟩
  | commit => exact .inr ⟨_, _, rfl, rfl, rfl, rfl⟩
  | get => exact .inl ⟨rfl, nofun, fun _ _ ha => ha⟩

/-! ### A commit -/

theorem Existing.view (h : Existing d c b) (w : PubWork) : Existing (d.view w) c b := by
  obtain ⟨x, hx, hid, hkey⟩ := h
  obtain ⟨y, hy, hyid, hykey⟩ := view_mem d w (List.mem_append_left _ hx)
  exact ⟨y, hy, hyid.trans hid, hykey.trans hkey⟩

theorem HasForward.view (h : HasForward d b) (w : PubWork) : HasForward (d.view w) b := by
  obtain ⟨x, hx, h⟩ := h
  exact ⟨x, List.mem_append_left _ hx, h⟩

theorem ForwardDone.has (h : ForwardDone d c b w) (hact : c.activate = true) :
    HasForward (d.view w) b := by
  unfold ForwardDone at h
  cases hh : w.hunt with
  | none =>
    rw [hh] at h
    exact (h hact).view w
  | some x =>
    rw [hh] at h
    refine ⟨x, List.mem_append_right _ ?_, h.2.1, h.2.2.1⟩
    rw [hh]
    exact List.mem_singleton_self x

/-- The bundle of a transaction, as its commit leaves it. -/
theorem Held.bundle (h : Held d c b w) :
    ∃ x ∈ d.bundles ++ w.bundle.toList, x.id = b ∧ x.key = c.key := by
  obtain ⟨x, hx, hid, hkey, _⟩ | ⟨_, ⟨x, hx, h⟩, _⟩ := h
  · refine ⟨x, List.mem_append_right _ ?_, hid, hkey⟩
    rw [hx]
    exact List.mem_singleton_self x
  · exact ⟨x, List.mem_append_left _ hx, h⟩

/-- Two transactions that have activated, or inserted as active, one bundle are not apart. -/
theorem Held.apart (h : Held d c b w) (h₂ : Held d c₂ b w₂) (hact : c.activate = true)
    (hact₂ : c₂.activate = true) : ¬ TxApart w w₂ := by
  intro ha
  obtain ⟨x, hx, hid, _, _, hfresh, _⟩ | ⟨_, ⟨y, hy, hyid, _⟩, hlock⟩ := h
  · obtain ⟨x₂, hx₂, hid₂, _⟩ | ⟨_, ⟨y, hy, hyid, _⟩, _⟩ := h₂
    · exact (ha.bundle x x₂ hx hx₂).2 (hid.trans hid₂.symm)
    · exact (hfresh y hy).2 (hyid.trans hid.symm)
  · obtain ⟨x₂, _, hid₂, _, _, hfresh, _⟩ | ⟨_, _, hlock₂⟩ := h₂
    · exact (hfresh y hy).2 (hyid.trans hid₂.symm)
    · rw [if_pos hact] at hlock
      rw [if_pos hact₂] at hlock₂
      exact ha.activated b hlock hlock₂

theorem Held.view (h₂ : Held d c₂ b₂ w₂) (ha : TxApart w w₂) : Held (d.view w) c₂ b₂ w₂ := by
  obtain ⟨x, hx, hid, hkey, hact, hfresh, hnone⟩ | ⟨hnone, hex, hlock⟩ := h₂
  · refine .inl ⟨x, hx, hid, hkey, hact, fun y hy => ?_, hnone⟩
    obtain ⟨z, hz, hzid, hzkey, _⟩ := mem_view hy
    rw [← hzid, ← hzkey]
    obtain hz | hz := List.mem_append.mp hz
    · exact hfresh z hz
    · exact ha.bundle z x (Option.mem_toList.mp hz) hx
  · exact .inr ⟨hnone, hex.view w, hlock⟩

/-- The commit of one transaction does not give a forward hunt to the bundle of another. -/
theorem NoForward.view (h : NoForward d b₂) (hheld : Held d c b w) (hdone : ForwardDone d c b w)
    (h₂ : Held d c₂ b₂ w₂) (hact₂ : c₂.activate = true) (ha : TxApart w w₂) :
    NoForward (d.view w) b₂ := by
  intro x hx hkind hid
  obtain hx | hx := List.mem_append.mp hx
  · exact h x hx hkind hid
  · have hw : w.hunt = some x := Option.mem_toList.mp hx
    unfold ForwardDone at hdone
    rw [hw] at hdone
    obtain ⟨hact, _, hb, _⟩ := hdone
    obtain rfl : b = b₂ := hb.symm.trans hid
    exact hheld.apart h₂ hact hact₂ ha

/-- The commit of one transaction keeps what holds of another. -/
theorem TxOk.view (h : TxOk d l w₂) (hheld : Held d c b w) (hdone : ForwardDone d c b w)
    (ha : TxApart w w₂) : TxOk (d.view w) l w₂ := by
  cases l with
  | findRule | select | insertBundle | get => exact h
  | «activate» c₂ b₂ => exact ⟨h.1, h.2.1.view w, h.2.2⟩
  | insertRow c₂ b₂ row => exact ⟨h.1.view ha, h.2⟩
  | updateRule c₂ b₂ r => exact ⟨h.1.view ha, h.2⟩
  | selectForward c₂ b₂ => exact ⟨h.1.view ha, h.2⟩
  | insertHunt c₂ b₂ => exact ⟨h.1.view ha, h.2.1, h.2.2.view hheld hdone h.1 h.2.1 ha⟩
  | commit c₂ b₂ =>
    refine ⟨h.1.view ha, ?_⟩
    have h₂ := h.2
    unfold ForwardDone at h₂ ⊢
    cases hh : w₂.hunt with
    | none =>
      rw [hh] at h₂
      exact fun hact => (h₂ hact).view w
    | some x =>
      rw [hh] at h₂
      obtain ⟨hact, hkind, hid, htenant, hno⟩ := h₂
      exact ⟨hact, hkind, hid, htenant, hno.view hheld hdone h.1 hact ha⟩

theorem nodup_insert {β : Type} {f : Bundle → β} (hd : (d.bundles.map f).Nodup)
    (hw : ∀ x, w.bundle = some x → ∀ y ∈ d.bundles, f y ≠ f x) :
    ((d.bundles ++ w.bundle.toList).map f).Nodup := by
  cases hb : w.bundle with
  | none => simpa using hd
  | some x =>
    rw [Option.toList_some, List.map_append, List.map_singleton]
    refine hd.append (List.nodup_singleton _) ?_
    rw [List.disjoint_singleton]
    intro hm
    obtain ⟨y, hy, heq⟩ := List.mem_map.mp hm
    exact hw x hb y hy heq

/-- What a transaction inserts is not there yet. -/
theorem Held.fresh (h : Held d c b w) {x : Bundle} (hx : w.bundle = some x) :
    ∀ y ∈ d.bundles, y.key ≠ x.key ∧ y.id ≠ x.id := by
  obtain ⟨x', hx', _, _, _, hfresh, _⟩ | ⟨hnone, _⟩ := h
  · obtain rfl := Option.some.inj (hx'.symm.trans hx)
    exact hfresh
  · rw [hnone] at hx
    cases hx

/-- **A commit** keeps what holds of the rows. -/
theorem PubOk.view (hd : PubOk d) (hheld : Held d c b w) (hdone : ForwardDone d c b w) :
    PubOk (d.view w) where
  keys := by
    rw [view_keys]
    exact nodup_insert hd.keys fun x hx y hy => (hheld.fresh hx y hy).1
  ids := by
    rw [view_ids]
    exact nodup_insert hd.ids fun x hx y hy => (hheld.fresh hx y hy).2
  hunts := by
    intro h hm
    suffices hb : ∃ y ∈ d.bundles ++ w.bundle.toList, y.id = h.bundleId ∧ y.tenant = h.tenant by
      obtain ⟨y, hy, hid, ht⟩ := hb
      obtain ⟨x, hx, hxid, hxkey⟩ := view_mem d w hy
      exact ⟨x, hx, hxid.trans hid, (congrArg Prod.fst hxkey).trans ht⟩
    obtain hm | hm := List.mem_append.mp hm
    · obtain ⟨y, hy, h⟩ := hd.hunts h hm
      exact ⟨y, List.mem_append_left _ hy, h⟩
    · unfold ForwardDone at hdone
      rw [Option.mem_toList.mp hm] at hdone
      obtain ⟨_, _, hid, htenant, _⟩ := hdone
      obtain ⟨y, hy, hyid, hykey⟩ := hheld.bundle
      exact ⟨y, hy, hyid.trans hid.symm, (congrArg Prod.fst hykey).trans htenant.symm⟩
  once := by
    show (((d.hunts ++ w.hunt.toList).filter fun h => h.kind = .forward).map Hunt.bundleId).Nodup
    cases hh : w.hunt with
    | none => simpa using hd.once
    | some x =>
      unfold ForwardDone at hdone
      rw [hh] at hdone
      obtain ⟨_, hkind, hid, _, hno⟩ := hdone
      have hx : [x].filter (fun h => decide (h.kind = HuntKind.forward)) = [x] := by simp [hkind]
      rw [Option.toList_some, List.filter_append, hx, List.map_append, List.map_singleton]
      refine hd.once.append (List.nodup_singleton _) ?_
      rw [List.disjoint_singleton]
      intro hm
      obtain ⟨y, hy, heq⟩ := List.mem_map.mp hm
      obtain ⟨hy, hykind⟩ := List.mem_filter.mp hy
      exact hno y hy (of_decide_eq_true hykind) (heq.trans hid)
  active := by
    intro x hx hact
    obtain ⟨y, hy, hyid, _, hyact⟩ := mem_view hx
    rw [← hyid]
    obtain hyact | hlock := hyact hact
    · obtain hy | hy := List.mem_append.mp hy
      · exact (hd.active y hy hyact).view w
      · -- inserted as active
        have hy : w.bundle = some y := Option.mem_toList.mp hy
        obtain ⟨z, hz, hid, _, hzact, _⟩ | ⟨hnone, _⟩ := hheld
        · obtain rfl := Option.some.inj (hz.symm.trans hy)
          rw [hid]
          exact hdone.has (hzact.symm.trans hyact)
        · rw [hnone] at hy
          cases hy
    · -- activated by this transaction
      obtain ⟨_, _, _, _, _, _, hnone⟩ | ⟨_, _, hif⟩ := hheld
      · rw [hnone] at hlock
        cases hlock
      · rw [hif] at hlock
        split at hlock
        · next hcall =>
          rw [← Option.some.inj hlock]
          exact hdone.has hcall
        · cases hlock

end Statement

/-! ### Every order of the statements -/

/-- What holds between any two statements of any transactions. -/
structure PubInv (d : PubDb) (v : ℕ → Option (TxPt × PubWork)) : Prop where
  rows : PubOk d
  tx : ∀ n l w, v n = some (l, w) → TxOk d l w
  apart : ∀ m n, m ≠ n → ∀ l w l' w', v m = some (l, w) → v n = some (l', w') → TxApart w w'

section Run

variable {d d' : PubDb} {v v' : ℕ → Option (TxPt × PubWork)}

/-- A transaction that goes elsewhere, when the others and the rows stay as they are. -/
theorem PubInv.update (h : PubInv d v) {n : ℕ} {x : Option (TxPt × PubWork)}
    (hx : ∀ l w, x = some (l, w) → TxOk d l w)
    (ha : ∀ l w, x = some (l, w) → ∀ m ≠ n, ∀ l' w', v m = some (l', w') → TxApart w w') :
    PubInv d (Function.update v n x) where
  rows := h.rows
  tx := by
    intro m l w hm
    by_cases hmn : m = n
    · subst hmn
      rw [Function.update_self] at hm
      exact hx l w hm
    · rw [Function.update_of_ne hmn] at hm
      exact h.tx m l w hm
  apart := by
    intro m k hmk l w l' w' hm hk
    by_cases hmn : m = n
    · subst hmn
      rw [Function.update_self] at hm
      rw [Function.update_of_ne (Ne.symm hmk)] at hk
      exact ha l w hm k (Ne.symm hmk) l' w' hk
    · rw [Function.update_of_ne hmn] at hm
      by_cases hkn : k = n
      · subst hkn
        rw [Function.update_self] at hk
        exact (ha l' w' hk m hmn l w hm).symm
      · rw [Function.update_of_ne hkn] at hk
        exact h.apart m k hmk l w l' w' hm hk

/-- A transaction that has ended. -/
theorem PubInv.leave (h : PubInv d v) (n : ℕ) : PubInv d (Function.update v n none) := by
  refine h.update (fun l w heq => ?_) (fun l w heq => ?_)
  · exact absurd heq.symm (Option.some_ne_none _)
  · exact absurd heq.symm (Option.some_ne_none _)

theorem PubInv.moves (h : PubInv d v)
    (hm : Sessions.Moves PubMove publishBlocks .empty TxPt.first d v d' v') : PubInv d' v' := by
  cases hm with
  | opened _ hfirst =>
    refine h.update (fun l w heq => ?_) (fun l w heq m _ l' w' _ => ?_)
    · obtain ⟨rfl, rfl⟩ := Prod.mk.inj (Option.some.inj heq)
      exact hfirst.ok
    · obtain ⟨_, rfl⟩ := Prod.mk.inj (Option.some.inj heq)
      exact .empty w'
  | @ended n => exact h.leave n
  | @exec n l w i _ w' p hn hfree hmove =>
    obtain ⟨rfl, hok, hapart⟩ | ⟨c, b, rfl, rfl, rfl, rfl⟩ := hmove.ok h.rows (h.tx n l w hn)
    · refine h.update (fun l' w₁ heq => ?_) (fun l' w₁ heq m hmn l₂ w₂ hm => ?_)
      · cases p with
        | «at» l₁ =>
          obtain ⟨rfl, rfl⟩ := Prod.mk.inj (Option.some.inj heq)
          exact hok _ rfl
        | _ => cases heq
      · cases p with
        | «at» l₁ =>
          obtain ⟨rfl, rfl⟩ := Prod.mk.inj (Option.some.inj heq)
          exact hapart w₂ (hfree m hmn l₂ w₂ hm) (h.apart n m (Ne.symm hmn) l w l₂ w₂ hn hm)
        | _ => cases heq
    · obtain ⟨hheld, hdone⟩ := h.tx n _ w hn
      -- first the session leaves its place, then the rows change for the others
      have hleft : PubInv d (Function.update v n none) := h.leave n
      have hrows : PubInv (d.view w) (Function.update v n none) := by
        refine ⟨h.rows.view hheld hdone, fun m l₂ w₂ hm => ?_, hleft.apart⟩
        by_cases hmn : m = n
        · subst hmn
          rw [Function.update_self] at hm
          cases hm
        · rw [Function.update_of_ne hmn] at hm
          exact (h.tx m l₂ w₂ hm).view hheld hdone (h.apart n m (Ne.symm hmn) _ w l₂ w₂ hn hm)
      have hidem : Function.update v n (some (TxPt.get c, PubWork.empty)) =
          Function.update (Function.update v n none) n (some (TxPt.get c, PubWork.empty)) :=
        (Function.update_idem _ _ _).symm
      show PubInv (d.view w) (Function.update v n (some (TxPt.get c, PubWork.empty)))
      rw [hidem]
      refine hrows.update (fun l w heq => ?_) (fun l w heq m _ l' w' _ => ?_)
      · obtain ⟨rfl, rfl⟩ := Prod.mk.inj (Option.some.inj heq)
        exact rfl
      · obtain ⟨_, rfl⟩ := Prod.mk.inj (Option.some.inj heq)
        exact .empty w'

theorem PublishReach.inv {cfg : Config} {rules : List Rule}
    {p : Sessions PubDb TxPt PubWork Env Error Bundle} (h : PublishReach cfg rules p) :
    PubInv p.db p.points := by
  refine Sessions.Reach.inv h (fun a => (publishBundleTx_takes cfg _ _ _).1)
    (fun a => (publishBundleTx_takes cfg _ _ _).2) ?_ fun d v d' v' hi hm => hi.moves hm
  refine ⟨⟨.nil, .nil, nofun, .nil, nofun⟩, fun n l w heq => ?_, fun m n _ l w l' w' heq => ?_⟩
  · exact absurd heq.symm (Option.some_ne_none _)
  · exact absurd heq.symm (Option.some_ne_none _)

end Run

/-- The forward hunts of a bundle. -/
def forwardHunts (d : PubDb) (b : Uuid) : List Hunt :=
  d.hunts.filter fun h => h.kind = .forward && h.bundleId = b

theorem forwardHunts_le_one {d : PubDb} (hd : PubOk d) (b : Uuid) : (forwardHunts d b).length ≤ 1 := by
  have hsub : (forwardHunts d b).Sublist (d.hunts.filter fun h => h.kind = .forward) :=
    List.monotone_filter_right d.hunts fun h hh => (Bool.and_eq_true_iff.mp hh).1
  have hnodup := hd.once.sublist (hsub.map Hunt.bundleId)
  have heq : ∀ h ∈ forwardHunts d b, h.bundleId = b := fun h hh =>
    of_decide_eq_true (Bool.and_eq_true_iff.mp (List.mem_filter.mp hh).2).2
  -- two of them would have one bundle id
  cases hf : forwardHunts d b with
  | nil => simp
  | cons x rest =>
    cases rest with
    | nil => simp
    | cons y rest =>
      rw [hf] at hnodup heq
      have hx := heq x List.mem_cons_self
      have hy := heq y (List.mem_cons_of_mem _ List.mem_cons_self)
      simp [hx, hy] at hnodup

/-- **One forward hunt per bundle.**  Whatever the calls of `publish_bundle` and the order of
their statements, each committed bundle has at most one forward hunt and an active one
exactly one, and no two bundles of a tenant have one digest. -/
theorem one_forward_hunt (cfg : Config) (rules : List Rule)
    (p : Sessions PubDb TxPt PubWork Env Error Bundle) (h : PublishReach cfg rules p) :
    (∀ b ∈ p.db.bundles, (forwardHunts p.db b.id).length ≤ 1) ∧
      (∀ b ∈ p.db.bundles, b.active = true → (forwardHunts p.db b.id).length = 1) ∧
      (p.db.bundles.map fun b => (b.tenant, b.digest)).Nodup := by
  have hd := h.inv.rows
  refine ⟨fun b _ => forwardHunts_le_one hd b.id, fun b hb hact => ?_, hd.keys⟩
  have hone := forwardHunts_le_one hd b.id
  obtain ⟨x, hx, hkind, hid⟩ := hd.active b hb hact
  have hpos : 0 < (forwardHunts p.db b.id).length := by
    refine List.length_pos_of_mem (List.mem_filter.mpr ⟨hx, ?_⟩)
    simp [hkind, hid]
  omega

/-- The bundle of the rule 1 is published inactive; then two calls publish it active.  Both
find the bundle before either has updated it; the second waits for the first at its row. -/
def racingPublishers : List (TxAct PublishArgs Env) :=
  let exec (n k : ℕ) : List (TxAct PublishArgs Env) :=
    List.replicate k (.exec n (.drawing (k + n)))
  .start ⟨0, [1], false⟩ :: exec 0 7 ++ [.start ⟨0, [1], true⟩, .start ⟨0, [1], true⟩] ++
    exec 1 2 ++ exec 2 2 ++ exec 1 5 ++ exec 2 4

def oneRule : Rule := ⟨1, 0, "default", "a", "rule a { condition: true }", .draft, 0⟩

/-- A run of publishers, with what the committed rows must pass. -/
def racesTo (as : List (TxAct PublishArgs Env)) (chk : PubDb → Bool) : Bool :=
  match Sessions.run (fun a : PublishArgs => publishBundleTx .plain a.tenant a.ruleIds a.activate)
    publishBlocks .empty (.start ⟨[oneRule], [], [], []⟩) as with
  | some p => chk p.db
  | none => false

theorem reach_of_racesTo {as : List (TxAct PublishArgs Env)} {chk : PubDb → Bool}
    (h : racesTo as chk = true) : ∃ p, PublishReach .plain [oneRule] p ∧ chk p.db = true := by
  unfold racesTo at h
  split at h
  · next p hrun => exact ⟨p, Sessions.reach_run as .start hrun, h⟩
  · cases h

/-- While one publisher holds the row of the bundle, the other cannot activate it. -/
example : racesTo (racingPublishers.take 15 ++ [.exec 2 (.drawing 0)]) (fun _ => true) = false := by
  decide +kernel

/-- Two publishers race for one bundle, and it gets one forward hunt. -/
theorem one_forward_hunt_raced : ∃ p, PublishReach .plain [oneRule] p ∧
    ∃ b, p.db.bundles = [b] ∧ (forwardHunts p.db b.id).length = 1 := by
  have hrun : racesTo racingPublishers (fun d =>
      d.bundles.length = 1 && d.bundles.all fun b => b.active) = true := by decide +kernel
  obtain ⟨p, hp, hchk⟩ := reach_of_racesTo hrun
  obtain ⟨hlen, hactive⟩ := Bool.and_eq_true_iff.mp hchk
  obtain ⟨b, hb⟩ := List.length_eq_one_iff.mp (of_decide_eq_true hlen)
  have hmem : b ∈ p.db.bundles := by
    rw [hb]
    exact List.mem_singleton_self b
  exact ⟨p, hp, b, hb, (one_forward_hunt .plain [oneRule] p hp).2.1 b hmem
    (List.all_eq_true.mp hactive b hmem)⟩

end Corpus
