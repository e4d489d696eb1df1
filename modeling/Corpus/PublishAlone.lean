/-
`publish_bundle` alone (`registry.rs`).

`publishBundle` runs the transaction as one statement on the whole store, and
`publishBundleTx` runs its SQL statements one after another on the tables that it touches.
With nothing between the statements the two agree.

* `Db.pub` — the tables of the store that the call reads and writes;
* `SameCommit` — the answer of a run and the rows it has committed;
* `publishTx_alone` — the transaction from its `SELECT` to the row it answers;
* `publishBundleTx_alone` — the call.
-/
import Corpus.Publishing

namespace Corpus

/-- The tables of the store that `publish_bundle` reads and writes. -/
def Db.pub (s : Db) : PubDb :=
  ⟨s.hunt.rules.rows, s.hunt.bundles.rows, s.hunt.bundleRules, s.hunt.hunts.rows⟩

/-- The run of the statements answers as the run on the store does, and has committed the
same rows. -/
def SameCommit (r : Except Error Bundle × PubDb × PubWork) (q : Except Error Bundle × Db) : Prop :=
  r.1 = q.1 ∧ r.2.1 = q.2.pub

/-- A rule when the members have been activated. -/
def activateMembers (members : List Rule) (r : Rule) : Rule :=
  if members.any (fun m => m.id = r.id) && (r.state = .draft || r.state = .validated) then
    { r with state := .active }
  else r

theorem activateMembers_cons (m : Rule) (members : List Rule) (r : Rule) :
    activateMembers members (activateMembers [m] r) = activateMembers (m :: members) r := by
  by_cases hstate : r.state = .draft ∨ r.state = .validated
  · by_cases hm : m.id = r.id
    · simp [activateMembers, hm, hstate]
    · simp [activateMembers, hm, hstate]
  · simp [activateMembers, hstate]

section Alone

variable {d : PubDb} {w : PubWork} {c : PublishCall} {cfg : Config} {env : Env} {b : Uuid} {s : Db}

/-! ### The rules -/

theorem rules_view_append (hids : (d.rules.map Rule.id).Nodup) (m : Rule)
    (hany : (d.view w).rules.any (fun x =>
      x.id = m.id && (x.state = .draft || x.state = .validated)) = true) :
    (d.view { w with rules := w.rules ++ [m.id] }).rules =
      (d.view w).rules.map (activateMembers [m]) := by
  obtain ⟨x, hx, hopen⟩ := List.any_eq_true.mp hany
  simp only [Bool.and_eq_true, Bool.or_eq_true, decide_eq_true_eq] at hopen
  obtain ⟨hxid, hxstate⟩ := hopen
  obtain ⟨y, hy, rfl⟩ := List.mem_map.mp hx
  have hyid : y.id = m.id := by
    rw [← hxid]
    split <;> rfl
  show d.rules.map _ = (d.rules.map _).map _
  rw [List.map_map]
  refine List.map_congr_left fun r hr => ?_
  dsimp only [Function.comp_apply]
  by_cases hold : r.id ∈ w.rules
  · rw [if_pos (List.mem_append_left _ hold), if_pos hold]
    simp [activateMembers]
  · rw [if_neg hold]
    by_cases hm : r.id = m.id
    · -- The row with the id is the one that was found.
      obtain rfl : r = y := List.inj_on_of_nodup_map hids hr hy (hm.trans hyid.symm)
      rw [if_neg hold] at hxstate
      rw [if_pos (by simp [hm])]
      simp [activateMembers, hm, hxstate]
    · have hm' : m.id ≠ r.id := Ne.symm hm
      rw [if_neg (by simp [hold, hm])]
      simp [activateMembers, hm']

theorem rules_view_same {m : Rule}
    (hnone : (d.view w).rules.any (fun x =>
      x.id = m.id && (x.state = .draft || x.state = .validated)) = false) :
    (d.view w).rules = (d.view w).rules.map (activateMembers [m]) := by
  refine ((List.map_congr_left fun r hr => ?_).trans (List.map_id _)).symm
  have hr := List.any_eq_false.mp hnone r hr
  have hr' : ¬ (m.id = r.id ∧ (r.state = .draft ∨ r.state = .validated)) := by
    intro hopen
    refine hr ?_
    simp only [Bool.and_eq_true, Bool.or_eq_true, decide_eq_true_eq]
    exact hopen.imp_left Eq.symm
  simp only [activateMembers, List.any_cons, List.any_nil, Bool.or_false, Bool.and_eq_true,
    Bool.or_eq_true, decide_eq_true_eq, if_neg hr', id]

/-- The updates of the rules, and what comes behind them. -/
theorem eval_updateRules (c : PublishCall) (b : Uuid) (env : Env)
    (hids : (d.rules.map Rule.id).Nodup) (members : List Rule) :
    ∀ w : PubWork, ∃ u, (updateRules c b members).eval env (d, w) =
        (forwardPublish c b).eval env (d, { w with rules := u }) ∧
      (d.view { w with rules := u }).rules = (d.view w).rules.map (activateMembers members) := by
  induction members with
  | nil =>
    intro w
    refine ⟨w.rules, rfl, ?_⟩
    have hid : activateMembers [] = id := by
      funext r
      simp [activateMembers]
    rw [hid, List.map_id]
  | cons m members ih =>
    intro w
    have hstep : ∀ w', (d.view w').rules = (d.view w).rules.map (activateMembers [m]) →
        ∀ u, (d.view { w' with rules := u }).rules =
          (d.view w').rules.map (activateMembers members) →
        (d.view { w' with rules := u }).rules =
          (d.view w).rules.map (activateMembers (m :: members)) := by
      intro w' hw' u hu
      rw [hu, hw', List.map_map]
      exact List.map_congr_left fun r _ => activateMembers_cons m members r
    cases hany : (d.view w).rules.any fun x =>
        x.id = m.id && (x.state = .draft || x.state = .validated) with
    | true =>
      obtain ⟨u, heval, hrules⟩ := ih { w with rules := w.rules ++ [m.id] }
      refine ⟨u, ?_, hstep _ (rules_view_append hids m hany) u hrules⟩
      simp only [updateRules, Prog.update_bind, Prog.eval_stmt, hany, if_true]
      exact heval
    | false =>
      obtain ⟨u, heval, hrules⟩ := ih w
      refine ⟨u, ?_, hstep w (rules_view_same hany) u hrules⟩
      simp only [updateRules, Prog.update_bind, Prog.eval_stmt, hany, Bool.false_eq_true, if_false]
      exact heval

/-! ### The rows of a new bundle -/

theorem insertRows_cons_eval {row : BundleRule} {rows : List BundleRule}
    (hnew : ∀ x ∈ (d.view w).bundleRules, x.bundleId = row.bundleId → x.ruleId ≠ row.ruleId) :
    (insertRows c b (row :: rows)).eval env (d, w) =
      (insertRows c b rows).eval env (d, { w with rows := w.rows ++ [row] }) := by
  have hany : ((d.view w).bundleRules.any fun x =>
      x.bundleId = row.bundleId && x.ruleId = row.ruleId) = false := by
    refine List.any_eq_false.mpr fun x hx hsame => ?_
    simp only [Bool.and_eq_true, decide_eq_true_eq] at hsame
    exact hnew x hx hsame.1 hsame.2
  simp only [insertRows, Prog.exec_bind, Prog.eval_stmt, hany, Bool.false_eq_true, if_false]

/-- A row that the bundle has already is refused, wherever it stands among the rows. -/
theorem insertRows_refused : ∀ (rows : List BundleRule) (w : PubWork),
    (∃ row ∈ rows, ∃ x ∈ (d.view w).bundleRules,
      x.bundleId = row.bundleId ∧ x.ruleId = row.ruleId) →
    ∃ w', (insertRows c b rows).eval env (d, w) =
      (.error (.db "rule_bundle_rule_pkey"), (d, w')) := by
  intro rows
  induction rows with
  | nil =>
    intro w h
    obtain ⟨row, hrow, _⟩ := h
    cases hrow
  | cons row rows ih =>
    intro w h
    by_cases hnew : ∀ x ∈ (d.view w).bundleRules,
        x.bundleId = row.bundleId → x.ruleId ≠ row.ruleId
    · rw [insertRows_cons_eval hnew]
      obtain ⟨row', hrow', x, hx, hsame⟩ := h
      obtain rfl | hrow' := List.mem_cons.mp hrow'
      · exact absurd hsame.2 (hnew x hx hsame.1)
      · refine ih _ ⟨row', hrow', x, ?_, hsame⟩
        show x ∈ d.bundleRules ++ (w.rows ++ [row])
        rw [← List.append_assoc]
        exact List.mem_append_left _ hx
    · push Not at hnew
      obtain ⟨x, hx, hb, hr⟩ := hnew
      have hany : ((d.view w).bundleRules.any fun x =>
          x.bundleId = row.bundleId && x.ruleId = row.ruleId) = true :=
        List.any_eq_true.mpr ⟨x, hx, by simp [hb, hr]⟩
      refine ⟨w, ?_⟩
      simp only [insertRows, Prog.exec_bind, Prog.eval_stmt, hany, if_true, Prog.eval_err]

/-- The `INSERT`s of the rows of a bundle that has none of them. -/
theorem insertRows_eval (d : PubDb) (c : PublishCall) (b : Uuid) (env : Env) :
    ∀ (rows : List BundleRule) (w : PubWork),
    (∀ row ∈ rows, row.bundleId = b) →
    (∀ x ∈ (d.view w).bundleRules, x.bundleId = b → x.ruleId ∉ rows.map BundleRule.ruleId) →
    if (rows.map BundleRule.ruleId).Nodup then
      (insertRows c b rows).eval env (d, w) =
        (updateRules c b c.members).eval env (d, { w with rows := w.rows ++ rows })
    else ∃ w', (insertRows c b rows).eval env (d, w) =
      (.error (.db "rule_bundle_rule_pkey"), (d, w')) := by
  intro rows
  induction rows with
  | nil =>
    intro w _ _
    rw [List.map_nil, if_pos List.nodup_nil, List.append_nil]
    rfl
  | cons row rows ih =>
    intro w hrows hfresh
    obtain ⟨hrow, hrows⟩ := List.forall_mem_cons.mp hrows
    have hnew : ∀ x ∈ (d.view w).bundleRules, x.bundleId = row.bundleId →
        x.ruleId ≠ row.ruleId := by
      intro x hx hxb hxr
      refine hfresh x hx (hxb.trans hrow) ?_
      rw [hxr]
      exact List.mem_cons_self
    rw [insertRows_cons_eval hnew]
    have hview : ∀ x ∈ (d.view { w with rows := w.rows ++ [row] }).bundleRules,
        x ∈ (d.view w).bundleRules ∨ x = row := by
      intro x hx
      have hx : x ∈ d.bundleRules ++ (w.rows ++ [row]) := hx
      rw [← List.append_assoc] at hx
      exact (List.mem_append.mp hx).imp_right List.mem_singleton.mp
    by_cases hdup : row.ruleId ∈ rows.map BundleRule.ruleId
    · -- The row comes again further down.
      have hnot : ¬ ((row :: rows).map BundleRule.ruleId).Nodup :=
        fun h => (List.nodup_cons.mp h).1 hdup
      rw [if_neg hnot]
      obtain ⟨row', hrow', hsame⟩ := List.mem_map.mp hdup
      refine insertRows_refused rows _ ⟨row', hrow', row, ?_, ?_, hsame.symm⟩
      · show row ∈ d.bundleRules ++ (w.rows ++ [row])
        simp
      · rw [hrow, hrows row' hrow']
    · have hfresh' : ∀ x ∈ (d.view { w with rows := w.rows ++ [row] }).bundleRules,
          x.bundleId = b → x.ruleId ∉ rows.map BundleRule.ruleId := by
        intro x hx hxb
        obtain hx | rfl := hview x hx
        · exact fun hmem => hfresh x hx hxb (List.mem_cons_of_mem _ hmem)
        · exact hdup
      have hrest := ih { w with rows := w.rows ++ [row] } hrows hfresh'
      rw [List.append_assoc] at hrest
      have hiff : ((row :: rows).map BundleRule.ruleId).Nodup ↔
          (rows.map BundleRule.ruleId).Nodup :=
        List.nodup_cons.trans (and_iff_right hdup)
      simp only [hiff]
      exact hrest

/-! ### The forward hunt and the commit -/

theorem view_empty (d : PubDb) : d.view .empty = d := by
  have hrules : (d.view .empty).rules = d.rules :=
    (List.map_congr_left fun r _ => if_neg List.not_mem_nil).trans (List.map_id _)
  have hbundles : (d.view .empty).bundles = d.bundles := by
    show (d.bundles ++ []).map _ = _
    rw [List.append_nil]
    exact (List.map_congr_left fun b _ => if_neg (by simp [PubWork.empty])).trans (List.map_id _)
  have hlinks : (d.view .empty).bundleRules = d.bundleRules := List.append_nil _
  have hhunts : (d.view .empty).hunts = d.hunts := List.append_nil _
  cases hv : d.view .empty
  rw [hv] at hrules hbundles hlinks hhunts
  cases d
  simp only at hrules hbundles hlinks hhunts
  rw [hrules, hbundles, hlinks, hhunts]

theorem commitPublish_alone (h : d.view w = s.pub) :
    SameCommit ((commitPublish c b).eval env (d, w))
      ((getBundle (.pubGet c.tenant c.digest) c.tenant c.digest).eval env s) := by
  have hfind : ((d.view w).view .empty).bundles.find? (fun b => b.key = c.key) =
      s.hunt.bundles.get (c.tenant, c.digest) := by
    rw [view_empty, h]
    rfl
  simp only [commitPublish, getPublished, getBundle, Prog.update_bind, Prog.query_bind, Prog.exec,
    Prog.eval_stmt, hfind]
  cases s.hunt.bundles.get (c.tenant, c.digest) with
  | some x => exact ⟨rfl, h⟩
  | none => exact ⟨rfl, h⟩

/-- What `publish_bundle` does once the rows are there, as one statement. -/
def Db.publishForward (s : Db) (c : PublishCall) (b : Uuid) (env : Env) : Except Error (Unit × Db) :=
  if c.activate && (s.forwardHunt c.tenant b).isNone then
    (s.insertHunt ⟨env.uuid 1, c.tenant, .forward, b, c.digest, .activeForward, none, 0, {}, none,
      env.now, none, none⟩).map fun r => ((), r.2)
  else .ok ((), s)

/-- The answer and the store of a call whose transaction ends with `r`. -/
def publishEnd (c : PublishCall) (env : Env) (old : Db) : Except Error (Unit × Db) →
    Except Error Bundle × Db
  | .ok r => (getBundle (.pubGet c.tenant c.digest) c.tenant c.digest).eval env r.2
  | .error e => (.error e, old)

theorem view_insertHunt (hw : w.hunt = none) (f : Hunt) :
    d.view { w with hunt := some f } = { d.view w with hunts := (d.view w).hunts ++ [f] } := by
  have hhunts : (d.view w).hunts = d.hunts := by
    show d.hunts ++ w.hunt.toList = d.hunts
    rw [hw]
    exact List.append_nil _
  rw [hhunts]
  rfl

theorem pub_insertNew {f : Hunt} (hid : s.hunt.hunts.get f.id = none) :
    Db.pub { s with hunt := { s.hunt with hunts := s.hunt.hunts.insertNew f } } =
      { s.pub with hunts := s.pub.hunts ++ [f] } := by
  show PubDb.mk _ _ _ (s.hunt.hunts.insertNew f).rows = _
  rw [Table.rows_insertNew_of_none hid]
  rfl

theorem forwardPublish_alone {old : Db} (hold : d = old.pub) (h : d.view w = s.pub)
    (hw : w.hunt = none) :
    SameCommit ((forwardPublish c b).eval env (d, w))
      (publishEnd c env old (s.publishForward c b env)) := by
  unfold forwardPublish Db.publishForward
  cases hact : c.activate with
  | false => exact commitPublish_alone h
  | true =>
    have hfind : (d.view w).hunts.find? (fun h =>
        h.tenant = c.tenant && h.bundleId = b && h.kind = .forward) = s.forwardHunt c.tenant b := by
      rw [h]
      rfl
    simp only [if_true, Prog.query_bind, Prog.eval_stmt, hfind, Bool.true_and]
    cases s.forwardHunt c.tenant b with
    | some f => exact commitPublish_alone h
    | none =>
      have hany : ((d.view w).hunts.any fun h => h.id = env.uuid 1) =
          (s.hunt.hunts.get (env.uuid 1)).isSome := by
        rw [h, Table.get, List.isSome_find?]
        rfl
      simp only [Option.isNone_none, if_true, Prog.exec_bind, Prog.eval_stmt, hany, Db.insertHunt]
      cases hid : s.hunt.hunts.get (env.uuid 1) with
      | some x => exact ⟨rfl, hold⟩
      | none =>
        refine commitPublish_alone ?_
        rw [view_insertHunt hw, h]
        exact (pub_insertNew hid).symm

/-! ### The transaction and the call -/

/-- The updates of the rules and what comes behind them, once the bundle stands. -/
theorem updateRules_alone {old : Db} (hold : d = old.pub) (hw : w.hunt = none)
    (hbundles : (d.view w).bundles = s.hunt.bundles.rows)
    (hlinks : (d.view w).bundleRules = s.hunt.bundleRules)
    (hhunts : d.hunts = s.hunt.hunts.rows) (hempty : w.rules = [])
    (hrules : s.hunt.rules.rows = d.rules.map (activateMembers c.members)) :
    SameCommit ((updateRules c b c.members).eval env (d, w))
      (publishEnd c env old (s.publishForward c b env)) := by
  have hids : (d.rules.map Rule.id).Nodup := by
    rw [hold]
    exact old.hunt.rules.nodup
  obtain ⟨u, heval, hview⟩ := eval_updateRules c b env hids c.members w
  rw [heval]
  refine forwardPublish_alone hold ?_ hw
  have hsame : (d.view w).rules = d.rules := by
    simp [PubDb.view, hempty]
  rw [hsame, ← hrules] at hview
  have hhunts' : (d.view w).hunts = s.hunt.hunts.rows := by
    rw [← hhunts]
    simp [PubDb.view, hw]
  show PubDb.mk (d.view { w with rules := u }).rules (d.view w).bundles (d.view w).bundleRules
    (d.view w).hunts = s.pub
  rw [hview, hbundles, hlinks, hhunts']
  rfl

theorem Rule.id_active (r : Rule) : ({ r with state := .active } : Rule).id = r.id := rfl

/-- The store with the rules of the call activated and its bundle as given. -/
def Db.withBundle (s : Db) (members : List Rule) (bundles : Table Bundle.key)
    (bundleRules : List BundleRule) : Db :=
  { s with hunt := { s.hunt with
    bundles, bundleRules
    rules := s.hunt.rules.updateWhere
      (fun r => members.any (fun m => m.id = r.id) && (r.state = .draft || r.state = .validated))
      (fun r => { r with state := .active }) Rule.id_active } }

theorem publish_existing {x : Bundle} (hget : s.hunt.bundles.get (c.tenant, c.digest) = some x) :
    s.publish cfg c.tenant c.members c.digest c.activate env =
      (s.withBundle c.members
        (if c.activate then
          s.hunt.bundles.updateWhere (fun y => y.id = x.id) (fun y => { y with active := true })
            fun _ => rfl
        else s.hunt.bundles) s.hunt.bundleRules).publishForward c x.id env := by
  simp only [Db.publish, hget, Option.isNone_some, Bool.false_and, Bool.false_eq_true, if_false]
  rfl

/-- The row of a new bundle. -/
def PublishCall.row (c : PublishCall) (cfg : Config) (env : Env) : Bundle :=
  ⟨env.uuid 0, c.tenant, c.digest, cfg.engineVersion, c.activate, env.now⟩

/-- The rows of its rules. -/
def PublishCall.links (c : PublishCall) (b : Uuid) : List BundleRule :=
  c.members.mapIdx fun i r => ⟨b, r.id, i⟩

theorem links_ruleIds (c : PublishCall) (b : Uuid) :
    (c.links b).map BundleRule.ruleId = c.members.map Rule.id :=
  List.ext_getElem (by simp [PublishCall.links]) (by simp [PublishCall.links])

theorem links_bundleId {row : BundleRule} (h : row ∈ c.links b) : row.bundleId = b := by
  obtain ⟨i, hi, rfl⟩ := List.mem_mapIdx.mp h
  rfl

theorem publish_new (hget : s.hunt.bundles.get (c.tenant, c.digest) = none) :
    s.publish cfg c.tenant c.members c.digest c.activate env =
      if s.hunt.bundles.rows.any fun y => y.id = env.uuid 0 then .error (.db "rule_bundle_pkey")
      else if (c.members.map Rule.id).Nodup then
        (s.withBundle c.members (s.hunt.bundles.insertNew (c.row cfg env))
          (s.hunt.bundleRules ++ c.links (env.uuid 0))).publishForward c (env.uuid 0) env
      else .error (.db "rule_bundle_rule_pkey") := by
  by_cases hnodup : (c.members.map Rule.id).Nodup
  · simp only [Db.publish, hget, hnodup, Option.isNone_none, Bool.true_and, decide_true,
      Bool.not_true, Bool.false_eq_true, if_false, if_true]
    rfl
  · simp only [Db.publish, hget, hnodup, Option.isNone_none, Bool.true_and, decide_false,
      Bool.not_false, if_false, if_true]

/-- The transaction of a call whose bundle is stored. -/
theorem publishTx_existing {x : Bundle}
    (hget : s.hunt.bundles.get (c.tenant, c.digest) = some x) :
    SameCommit ((publishTx cfg c).eval env (s.pub, .empty))
      (publishEnd c env s (s.publish cfg c.tenant c.members c.digest c.activate env)) := by
  have hfind : (s.pub.view .empty).bundles.find? (fun y => y.key = c.key) = some x := by
    rw [view_empty]
    exact hget
  rw [publish_existing hget]
  simp only [publishTx, Prog.query_bind, Prog.eval_stmt, hfind]
  cases hact : c.activate with
  | false =>
    simp only [Bool.false_eq_true, if_false]
    refine updateRules_alone rfl rfl ?_ ?_ rfl rfl rfl
    · rw [view_empty]
      rfl
    · rw [view_empty]
      rfl
  | true =>
    have hany : ((s.pub.view .empty).bundles.any fun y => y.id = x.id) = true := by
      rw [view_empty]
      exact List.any_eq_true.mpr ⟨x, (Table.mem_of_get hget).1, decide_eq_true rfl⟩
    simp only [if_true, Prog.update_bind, Prog.eval_stmt, hany]
    refine updateRules_alone rfl rfl ?_ (List.append_nil _) rfl rfl rfl
    show (s.hunt.bundles.rows ++ []).map _ = s.hunt.bundles.rows.map _
    rw [List.append_nil]
    refine List.map_congr_left fun y _ => ?_
    simp only [Option.some.injEq, decide_eq_true_eq, eq_comm (a := y.id)]

/-- The transaction of a call whose bundle is new. -/
theorem publishTx_new (hget : s.hunt.bundles.get (c.tenant, c.digest) = none)
    (hlinks : ∀ x ∈ s.hunt.bundleRules, ∃ y ∈ s.hunt.bundles.rows, y.id = x.bundleId) :
    SameCommit ((publishTx cfg c).eval env (s.pub, .empty))
      (publishEnd c env s (s.publish cfg c.tenant c.members c.digest c.activate env)) := by
  have hfind : (s.pub.view .empty).bundles.find? (fun y => y.key = c.key) = none := by
    rw [view_empty]
    exact hget
  have hkeys : ((s.pub.view .empty).bundles.any fun y => y.key = c.key) = false := by
    rw [view_empty]
    refine List.any_eq_false.mpr fun y hy hkey => ?_
    exact Table.get_eq_none.mp hget (List.mem_map.mpr ⟨y, hy, of_decide_eq_true hkey⟩)
  have hids : ((s.pub.view .empty).bundles.any fun y => y.id = env.uuid 0) =
      s.hunt.bundles.rows.any fun y => y.id = env.uuid 0 := by
    rw [view_empty]
    rfl
  rw [publish_new hget]
  simp only [publishTx, Prog.query_bind, Prog.exec_bind, Prog.eval_stmt, hfind, hkeys, hids,
    Bool.false_eq_true, if_false]
  cases htaken : s.hunt.bundles.rows.any fun y => y.id = env.uuid 0 with
  | true => exact ⟨rfl, rfl⟩
  | false =>
    -- No stored row names a bundle with the new id, so only the call's own rows can meet.
    have hfresh : ∀ x ∈ (s.pub.view { PubWork.empty with bundle := some (c.row cfg env) }).bundleRules,
        x.bundleId = env.uuid 0 → x.ruleId ∉ (c.links (env.uuid 0)).map BundleRule.ruleId := by
      intro x hx heq
      have hx : x ∈ s.hunt.bundleRules ++ [] := hx
      rw [List.append_nil] at hx
      obtain ⟨y, hy, hyid⟩ := hlinks x hx
      exact absurd (decide_eq_true (hyid.trans heq)) (List.any_eq_false.mp htaken y hy)
    have hinsert := insertRows_eval s.pub c (env.uuid 0) env _ _ (fun _ => links_bundleId) hfresh
    rw [links_ruleIds] at hinsert
    simp only [Bool.false_eq_true, if_false]
    by_cases hnodup : (c.members.map Rule.id).Nodup
    · rw [if_pos hnodup] at hinsert ⊢
      refine hinsert ▸ updateRules_alone rfl rfl ?_ rfl rfl rfl rfl
      show (s.hunt.bundles.rows ++ [_]).map _ = (s.hunt.bundles.insertNew _).rows
      rw [Table.rows_insertNew_of_none hget]
      exact (List.map_congr_left fun y _ => if_neg (by simp [PubWork.empty])).trans
        (List.map_id _)
    · rw [if_neg hnodup] at hinsert ⊢
      obtain ⟨w', heval⟩ := hinsert
      exact heval ▸ ⟨rfl, rfl⟩

/-- The transaction from its `SELECT` to the row it answers. -/
theorem publishTx_alone (cfg : Config) (c : PublishCall) (env : Env)
    (hlinks : ∀ x ∈ s.hunt.bundleRules, ∃ y ∈ s.hunt.bundles.rows, y.id = x.bundleId) :
    SameCommit ((publishTx cfg c).eval env (s.pub, .empty))
      (publishEnd c env s (s.publish cfg c.tenant c.members c.digest c.activate env)) := by
  cases hget : s.hunt.bundles.get (c.tenant, c.digest) with
  | some x => exact publishTx_existing hget
  | none => exact publishTx_new hget hlinks

/-- `SELECT … FROM rule WHERE tenant_id = ? AND id = ?`, with `id` the key of the table. -/
theorem find_rule (s : Db) (t id : Uuid) :
    (s.pub.view .empty).rules.find? (fun x => x.tenant = t && x.id = id) =
      (s.hunt.rules.get id).filter fun x => x.tenant = t := by
  rw [view_empty]
  cases hget : s.hunt.rules.get id with
  | none =>
    refine List.find?_eq_none.mpr fun x hx hboth => ?_
    rw [Bool.and_eq_true] at hboth
    exact Table.get_eq_none.mp hget (List.mem_map.mpr ⟨x, hx, of_decide_eq_true hboth.2⟩)
  | some r =>
    obtain ⟨hr, hid⟩ := Table.mem_of_get hget
    by_cases ht : r.tenant = t
    · rw [Option.filter_some, if_pos (decide_eq_true ht)]
      cases hfind : s.pub.rules.find? fun x => x.tenant = t && x.id = id with
      | none =>
        refine absurd ?_ (List.find?_eq_none.mp hfind r hr)
        rw [Bool.and_eq_true]
        exact ⟨decide_eq_true ht, decide_eq_true hid⟩
      | some x =>
        have hx := List.find?_some hfind
        rw [Bool.and_eq_true] at hx
        rw [s.hunt.rules.eq_of_mem (List.mem_of_find?_eq_some hfind) hr
          ((of_decide_eq_true hx.2).trans hid.symm)]
    · rw [Option.filter_some, if_neg (by simp [ht])]
      refine List.find?_eq_none.mpr fun x hx hboth => ?_
      rw [Bool.and_eq_true] at hboth
      have heq := s.hunt.rules.eq_of_mem hx hr ((of_decide_eq_true hboth.2).trans hid.symm)
      exact ht (heq ▸ of_decide_eq_true hboth.1)

/-- The look-up of the rules, which runs in no transaction. -/
theorem findRules_alone (s : Db) (env : Env) (t : Uuid) :
    ∀ (ids : List Uuid) (members : List Rule), ∃ found,
      (bundleMembers t ids members).eval env s = (found, s) ∧
      (findRules t ids members).eval env (s.pub, .empty) = (found, (s.pub, .empty)) := by
  intro ids
  induction ids with
  | nil => exact fun members => ⟨.ok members, rfl, rfl⟩
  | cons id ids ih =>
    intro members
    simp only [bundleMembers, findRules, Prog.loop, Prog.query_bind, Prog.stmt_bind,
      Prog.eval_stmt, find_rule]
    cases (s.hunt.rules.get id).filter fun x => x.tenant = t with
    | none => exact ⟨_, rfl, rfl⟩
    | some rule =>
      by_cases hrev : rule.state = .revoked
      · simp only [hrev, if_true]
        exact ⟨_, rfl, rfl⟩
      · simp only [hrev, if_false]
        exact ih (members ++ [rule])

/-- Alone, the statements of `publish_bundle` answer as the call with one transaction does,
and commit the same rows, where each row of `rule_bundle_rule` names a stored bundle. -/
theorem publishBundleTx_alone (t : Uuid) (ids : List Uuid) (activate : Bool)
    (hlinks : ∀ x ∈ s.hunt.bundleRules, ∃ y ∈ s.hunt.bundles.rows, y.id = x.bundleId) :
    SameCommit ((publishBundleTx cfg t ids activate).eval env (s.pub, .empty))
      ((publishBundle cfg t ids activate).eval env s) := by
  unfold publishBundleTx publishBundle
  by_cases hids : ids.isEmpty = true
  · rw [if_pos hids, if_pos hids]
    exact ⟨rfl, rfl⟩
  · obtain ⟨found, hstore, htx⟩ := findRules_alone s env t ids []
    rw [if_neg hids, if_neg hids, Prog.eval_bind, Prog.eval_bind, hstore, htx]
    cases found with
    | error e => exact ⟨rfl, rfl⟩
    | ok found =>
      dsimp only
      generalize found.insertionSort (fun x y => x.stableId ≤ y.stableId) = members
      cases cfg.compileBundle (members.map fun r => (r.ns, r.source)) with
      | error e => exact ⟨rfl, rfl⟩
      | ok _ =>
        have htrans := publishTx_alone cfg ⟨t, members,
          cfg.bundleDigest (members.map fun r => (r.stableId, r.source)), activate⟩ env hlinks
        dsimp only at htrans
        simp only [Prog.exec_bind, Prog.eval_stmt]
        cases hpub : s.publish cfg t members
            (cfg.bundleDigest (members.map fun r => (r.stableId, r.source))) activate env with
        | error e =>
          rw [hpub] at htrans
          exact htrans
        | ok r =>
          rw [hpub] at htrans
          exact htrans

end Alone

end Corpus
