/-
Enrollment, any number of calls at a time.

The first statement of `enroll` consumes the token, in one conditional `UPDATE`; from
then on the call alone holds it, and no other call can mint an agent from it.  What
follows are separate statements without a transaction, each of which can fail: the token
is gone then, and after the `INSERT` an agent is left over.

* `enrollment_one_time` — in every interleaving a token mints at most one agent;
  and where no call fails that has consumed its token (`enrollOk`), the calls that fail
  have changed neither tokens nor agents;
* `suspended_tenant_burns_token` — a token whose tenant is not active.
-/
import Corpus.Access
import Corpus.Pool

namespace Corpus

variable {cfg : AccessConfig}

/-! ### Moves -/

/-- The statements of `enroll` as moves between program points. -/
inductive EnrollMove (cfg : AccessConfig) :
    AccessPt → AccessEnv → AccessDb → AccessDb → Ctl AccessPt EnrollResponse → Prop where
  | refused {req : EnrollRequest} {env : AccessEnv} {s : AccessDb} :
      s.consumeToken (cfg.hashToken req.enrollmentToken) env.env.now = none →
      EnrollMove cfg (.consume req) env s s .failed
  | consumed {req : EnrollRequest} {env : AccessEnv} {s s' : AccessDb} {t : Uuid} :
      s.consumeToken (cfg.hashToken req.enrollmentToken) env.env.now = some (t, s') →
      EnrollMove cfg (.consume req) env s s' (.at (.tokenTenant req t))
  | noTenant {req : EnrollRequest} {env : AccessEnv} {s : AccessDb} {t : Uuid} :
      s.tenants.get t = none → EnrollMove cfg (.tokenTenant req t) env s s .failed
  | inactive {req : EnrollRequest} {env : AccessEnv} {s : AccessDb} {t : Uuid} {row : TenantRow} :
      s.tenants.get t = some row → row.status ≠ "active" →
      EnrollMove cfg (.tokenTenant req t) env s s .failed
  | active {req : EnrollRequest} {env : AccessEnv} {s : AccessDb} {t : Uuid} {row : TenantRow} :
      s.tenants.get t = some row → row.status = "active" →
      EnrollMove cfg (.tokenTenant req t) env s s (.at (.insertAgent req t))
  | insertFails {req : EnrollRequest} {env : AccessEnv} {s : AccessDb} {t : Uuid} {e : Error} :
      s.insertAgent (cfg.newAgent req t env.env).1 = .error e →
      EnrollMove cfg (.insertAgent req t) env s s .failed
  | inserted {req : EnrollRequest} {env : AccessEnv} {s s' : AccessDb} {t : Uuid} :
      s.insertAgent (cfg.newAgent req t env.env).1 = .ok s' →
      EnrollMove cfg (.insertAgent req t) env s s' (.at (.consumedBy req (env.env.uuid 0)))
  | consumedBy {req : EnrollRequest} {env : AccessEnv} {s : AccessDb} {agent : Uuid} :
      EnrollMove cfg (.consumedBy req agent) env s
        (s.setConsumedBy (cfg.hashToken req.enrollmentToken) agent) (.at (.sign req agent))
  | signFails {req : EnrollRequest} {env : AccessEnv} {s : AccessDb} {agent : Uuid} {e : Error} :
      cfg.signCert agent env = .error e → EnrollMove cfg (.sign req agent) env s s .failed
  | signed {req : EnrollRequest} {env : AccessEnv} {s : AccessDb} {agent : Uuid}
      (r : EnrollResponse) : EnrollMove cfg (.sign req agent) env s s (.done r)

theorem mintAgent_takes (req : EnrollRequest) (t : Uuid) :
    (mintAgent cfg req t).Takes (EnrollMove cfg) := by
  refine Prog.takes_exec_bind fun s env => ?_
  cases hins : s.insertAgent (cfg.newAgent req t env.env).1 with
  | error e => exact .insertFails hins
  | ok s' =>
    refine ⟨.inserted hins, fun s₁ _ => ⟨.consumedBy, ?_⟩⟩
    refine Prog.takes_exec_bind fun s₂ env₂ => ?_
    cases hcert : cfg.signCert (env.env.uuid 0) env₂ with
    | error e => exact .signFails hcert
    | ok c => exact ⟨.signed _, trivial⟩

theorem enroll_takes (req : EnrollRequest) : (enroll cfg req).Takes (EnrollMove cfg) := by
  refine Prog.takes_exec_bind fun s env => ?_
  cases hcons : s.consumeToken (cfg.hashToken req.enrollmentToken) env.env.now with
  | none => exact .refused hcons
  | some r =>
    refine ⟨.consumed hcons, ?_⟩
    refine Prog.takes_exec_bind fun s₁ env₁ => ?_
    cases hrow : s₁.tenants.get r.1 with
    | none => exact .noTenant hrow
    | some row =>
      dsimp only
      obtain ⟨hact, hreq⟩ | ⟨hact, e, hreq⟩ := requireActive_cases row
      · simp only [hreq]
        exact ⟨.active hrow hact, mintAgent_takes req r.1⟩
      · simp only [hreq]
        exact ⟨.inactive hrow hact, trivial⟩

/-- A statement that finds no token changes nothing. -/
theorem EnrollMove.of_refused {req : EnrollRequest} {env : AccessEnv} {s s' : AccessDb}
    {c : Ctl AccessPt EnrollResponse} (h : EnrollMove cfg (.consume req) env s s' c)
    (hnone : s.consumeToken (cfg.hashToken req.enrollmentToken) env.env.now = none) : s' = s := by
  cases h with
  | refused => rfl
  | consumed hsome =>
    rw [hnone] at hsome
    cases hsome

/-! ### The tables -/

namespace AccessDb

variable {s s' : AccessDb} {k k' : Bytes} {now : Time} {t : Uuid}

/-- The token is there, and consumed. -/
def Consumed (s : AccessDb) (k : Bytes) : Prop :=
  ∃ tok, s.tokens.get k = some tok ∧ tok.consumedAt.isSome = true

theorem consumeToken_eq_some (h : s.consumeToken k now = some (t, s')) :
    (∃ tok, s.tokens.get k = some tok ∧ tok.usable now = true ∧ tok.tenant = t) ∧
      s' = { s with
        tokens := s.tokens.updateWhere (fun r => r.tokenSha256 = k)
          (fun r => { r with consumedAt := some now }) fun _ => rfl } := by
  unfold consumeToken at h
  cases hg : s.tokens.get k with
  | none =>
    rw [hg] at h
    cases h
  | some tok =>
    rw [hg] at h
    by_cases hu : tok.usable now = true
    · simp only [hu, if_true, Option.some.injEq, Prod.mk.injEq] at h
      exact ⟨⟨tok, rfl, hu, h.1⟩, h.2.symm⟩
    · simp only [hu] at h
      cases h

/-- A consumed token cannot be consumed again. -/
theorem Consumed.not_usable (h : s.Consumed k) {tok : EnrollmentToken}
    (ht : s.tokens.get k = some tok) : tok.usable now = false := by
  obtain ⟨tok', ht', hc⟩ := h
  obtain rfl : tok' = tok := Option.some.inj (ht'.symm.trans ht)
  unfold EnrollmentToken.usable
  rw [Option.isNone_eq_false_iff.mpr hc, Bool.false_and]

theorem Consumed.setConsumedBy (h : s.Consumed k) (agent : Uuid) :
    (s.setConsumedBy k' agent).Consumed k := by
  obtain ⟨tok, ht, hc⟩ := h
  refine ⟨_, Table.get_updateWhere_of_some ?_ ht, ?_⟩
  · exact fun _ => rfl
  · split
    · exact hc
    · exact hc

theorem Consumed.consume (h : s.Consumed k) (hs : s.consumeToken k' now = some (t, s')) :
    s'.Consumed k := by
  obtain ⟨-, rfl⟩ := consumeToken_eq_some hs
  obtain ⟨tok, ht, hc⟩ := h
  refine ⟨_, Table.get_updateWhere_of_some ?_ ht, ?_⟩
  · exact fun _ => rfl
  · split
    · rfl
    · exact hc

theorem consumed_of_consume (hs : s.consumeToken k now = some (t, s')) : s'.Consumed k := by
  obtain ⟨⟨tok, ht, -, -⟩, rfl⟩ := consumeToken_eq_some hs
  refine ⟨_, Table.get_updateWhere_of_some ?_ ht, ?_⟩
  · exact fun _ => rfl
  · rw [if_pos (by simpa using (Table.mem_of_get ht).2)]
    rfl

theorem insertAgent_eq_ok {a : AgentRow} (h : s.insertAgent a = .ok s') :
    s.agents.get a.id = none ∧ s' = { s with agents := s.agents.insertNew a } := by
  unfold insertAgent at h
  split at h
  · cases h
  · next hfresh =>
    split at h
    · cases h
    · exact ⟨by simpa using hfresh, (Except.ok.inj h).symm⟩

end AccessDb

/-! ### Who holds a token, and what it has minted -/

/-- The call has consumed the token `k` and not yet minted an agent. -/
def HoldsToken (cfg : AccessConfig) (k : Bytes) : Ctl AccessPt EnrollResponse → Prop
  | .at (.tokenTenant req _) | .at (.insertAgent req _) => cfg.hashToken req.enrollmentToken = k
  | _ => False

/-- The agent an action mints from the token `k`. -/
def mintedAt (cfg : AccessConfig) (k : Bytes) (s : AccessDb)
    (pts : ℕ → Ctl AccessPt EnrollResponse) : Act EnrollRequest AccessEnv → Option Uuid
  | .exec n env =>
    match pts n with
    | .at (.insertAgent req t) =>
      if cfg.hashToken req.enrollmentToken = k ∧
          (s.insertAgent (cfg.newAgent req t env.env).1).isOk = true then some (env.env.uuid 0)
      else none
    | _ => none
  | _ => none

abbrev EnrollHist := Pool.Hist EnrollRequest AccessPt AccessDb AccessEnv Error EnrollResponse

/-- The agents a history mints from the token `k`. -/
def mintedBy (cfg : AccessConfig) (k : Bytes) (h : EnrollHist) : List Uuid :=
  h.filterMap fun e => mintedAt cfg k e.1.store e.1.ctl e.2

/-- As `mintedBy`, of a history of program points. -/
def minted (cfg : AccessConfig) (k : Bytes)
    (h : List (View AccessPt AccessDb EnrollResponse × Act EnrollRequest AccessEnv)) : List Uuid :=
  h.filterMap fun e => mintedAt cfg k e.1.store e.1.pts e.2

theorem mintedBy_eq (k : Bytes) (h : EnrollHist) :
    mintedBy cfg k h = minted cfg k (h.map fun e => (e.1.view, e.2)) := by
  unfold mintedBy minted
  rw [List.filterMap_map]
  rfl

/-! ### One agent for each token -/

abbrev EnrollView := View AccessPt AccessDb EnrollResponse

/-- A token that is held or has minted is consumed; one call holds it, and as long as
it does, the token has minted nothing. -/
structure OneTime (cfg : AccessConfig) (s₀ : AccessDb)
    (h : List (EnrollView × Act EnrollRequest AccessEnv)) (v : EnrollView) : Prop where
  held : ∀ {k n}, HoldsToken cfg k (v.pts n) → v.store.Consumed k
  used : ∀ {k}, minted cfg k h ≠ [] → v.store.Consumed k
  apart : ∀ {k n m}, HoldsToken cfg k (v.pts n) → HoldsToken cfg k (v.pts m) → n = m
  unminted : ∀ {k n}, HoldsToken cfg k (v.pts n) → minted cfg k h = []
  once : ∀ k, (minted cfg k h).length ≤ 1
  rows : ∀ a ∈ v.store.agents.rows, a ∈ s₀.agents.rows ∨ ∃ k, a.id ∈ minted cfg k h

theorem minted_append {k : Bytes} {h : List (EnrollView × Act EnrollRequest AccessEnv)}
    {v : EnrollView} {a : Act EnrollRequest AccessEnv} :
    minted cfg k (h ++ [(v, a)]) = minted cfg k h ++ (mintedAt cfg k v.store v.pts a).toList := by
  unfold minted
  rw [List.filterMap_append, List.filterMap_cons, List.filterMap_nil]
  cases mintedAt cfg k v.store v.pts a <;> rfl

theorem holdsToken_update {k : Bytes} {pts : ℕ → Ctl AccessPt EnrollResponse} {n m : ℕ}
    {c : Ctl AccessPt EnrollResponse} (h : HoldsToken cfg k (Function.update pts n c m)) :
    (m = n ∧ HoldsToken cfg k c) ∨ (m ≠ n ∧ HoldsToken cfg k (pts m)) := by
  rcases eq_or_ne m n with rfl | hne
  · rw [Function.update_self] at h
    exact .inl ⟨rfl, h⟩
  · rw [Function.update_of_ne hne] at h
    exact .inr ⟨hne, h⟩

namespace OneTime

variable {s₀ : AccessDb} {h : List (EnrollView × Act EnrollRequest AccessEnv)} {v : EnrollView}

/-- An action that mints nothing, after which no call holds more than before. -/
theorem quiet (hi : OneTime cfg s₀ h v) {a : Act EnrollRequest AccessEnv} {v' : EnrollView}
    (hmint : ∀ k, mintedAt cfg k v.store v.pts a = none)
    (hpts : ∀ k m, HoldsToken cfg k (v'.pts m) → HoldsToken cfg k (v.pts m))
    (hstore : ∀ k, v.store.Consumed k → v'.store.Consumed k)
    (hagents : v'.store.agents = v.store.agents) : OneTime cfg s₀ (h ++ [(v, a)]) v' := by
  have hsame : ∀ k, minted cfg k (h ++ [(v, a)]) = minted cfg k h := by
    intro k
    rw [minted_append, hmint k]
    exact List.append_nil _
  refine ⟨fun {k n} hn => hstore k (hi.held (hpts k n hn)), fun {k} hk => ?_,
    fun {k n m} hn hm => hi.apart (hpts k n hn) (hpts k m hm), fun {k n} hn => ?_, fun k => ?_,
    fun a ha => ?_⟩
  · rw [hsame] at hk
    exact hstore k (hi.used hk)
  · rw [hsame]
    exact hi.unminted (hpts k n hn)
  · rw [hsame]
    exact hi.once k
  · rw [hagents] at ha
    simp only [hsame]
    exact hi.rows a ha

/-- The call `n` leaves a place where it held nothing new. -/
theorem quiet_update (hi : OneTime cfg s₀ h v) {a : Act EnrollRequest AccessEnv} {s' : AccessDb}
    {n size : ℕ} {c : Ctl AccessPt EnrollResponse}
    (hmint : ∀ k, mintedAt cfg k v.store v.pts a = none)
    (hc : ∀ k, HoldsToken cfg k c → HoldsToken cfg k (v.pts n))
    (hstore : ∀ k, v.store.Consumed k → s'.Consumed k) (hagents : s'.agents = v.store.agents) :
    OneTime cfg s₀ (h ++ [(v, a)]) ⟨s', Function.update v.pts n c, size⟩ := by
  refine hi.quiet hmint (fun k m hm => ?_) hstore hagents
  rcases holdsToken_update hm with ⟨rfl, hk⟩ | ⟨_, hk⟩
  · exact hc k hk
  · exact hk

/-- The `UPDATE` that consumes the token: nobody holds it, and nothing is minted. -/
theorem consume (hi : OneTime cfg s₀ h v) {n : ℕ} {req : EnrollRequest} {env : AccessEnv}
    {t : Uuid} {s' : AccessDb} (hn : v.pts n = .at (.consume req))
    (hs : v.store.consumeToken (cfg.hashToken req.enrollmentToken) env.env.now = some (t, s')) :
    OneTime cfg s₀ (h ++ [(v, .exec n env)])
      ⟨s', Function.update v.pts n (.at (.tokenTenant req t)), v.size⟩ := by
  obtain ⟨⟨tok, ht, hu, -⟩, rfl⟩ := AccessDb.consumeToken_eq_some hs
  -- A token that can be used has not been consumed before.
  have hfresh : ¬ v.store.Consumed (cfg.hashToken req.enrollmentToken) := by
    intro hc
    rw [hc.not_usable ht] at hu
    cases hu
  have hsame : ∀ k, minted cfg k (h ++ [(v, .exec n env)]) = minted cfg k h := by
    intro k
    have hnone : mintedAt cfg k v.store v.pts (.exec n env) = none := by simp [mintedAt, hn]
    rw [minted_append, hnone]
    exact List.append_nil _
  have hunminted : minted cfg (cfg.hashToken req.enrollmentToken) h = [] := by
    by_contra hne
    exact hfresh (hi.used hne)
  refine ⟨fun {k m} hm => ?_, fun {k} hk => ?_, fun {k m m'} hm hm' => ?_, fun {k m} hm => ?_,
    fun k => ?_, fun a ha => ?_⟩
  · rcases holdsToken_update hm with ⟨rfl, hk⟩ | ⟨_, hm⟩
    · obtain rfl : cfg.hashToken req.enrollmentToken = k := hk
      exact AccessDb.consumed_of_consume hs
    · exact (hi.held hm).consume hs
  · rw [hsame] at hk
    exact (hi.used hk).consume hs
  · rcases holdsToken_update hm with ⟨hmn, hk⟩ | ⟨_, hold⟩ <;>
      rcases holdsToken_update hm' with ⟨hmn', hk'⟩ | ⟨_, hold'⟩
    · rw [hmn, hmn']
    · obtain rfl : cfg.hashToken req.enrollmentToken = k := hk
      exact absurd (hi.held hold') hfresh
    · obtain rfl : cfg.hashToken req.enrollmentToken = k := hk'
      exact absurd (hi.held hold) hfresh
    · exact hi.apart hold hold'
  · rw [hsame]
    rcases holdsToken_update hm with ⟨rfl, hk⟩ | ⟨_, hm⟩
    · obtain rfl : cfg.hashToken req.enrollmentToken = k := hk
      exact hunminted
    · exact hi.unminted hm
  · rw [hsame]
    exact hi.once k
  · simp only [hsame]
    exact hi.rows a ha

/-- The `INSERT`: the holder mints its agent and lets go. -/
theorem insert (hi : OneTime cfg s₀ h v) {n : ℕ} {req : EnrollRequest} {env : AccessEnv}
    {t : Uuid} {s' : AccessDb} (hn : v.pts n = .at (.insertAgent req t))
    (hs : v.store.insertAgent (cfg.newAgent req t env.env).1 = .ok s') :
    OneTime cfg s₀ (h ++ [(v, .exec n env)])
      ⟨s', Function.update v.pts n (.at (.consumedBy req (env.env.uuid 0))), v.size⟩ := by
  have hholds : HoldsToken cfg (cfg.hashToken req.enrollmentToken) (v.pts n) := by
    rw [hn]
    rfl
  -- One agent more for this token, none for others.
  have hmint : ∀ k, minted cfg k (h ++ [(v, .exec n env)]) = minted cfg k h ++
      if cfg.hashToken req.enrollmentToken = k then [env.env.uuid 0] else [] := by
    intro k
    rw [minted_append]
    congr 1
    simp only [mintedAt, hn, hs]
    by_cases hk : cfg.hashToken req.enrollmentToken = k
    · rw [if_pos ⟨hk, rfl⟩, if_pos hk]
      rfl
    · rw [if_neg fun hc => hk hc.1, if_neg hk]
      rfl
  obtain ⟨hfresh, rfl⟩ := AccessDb.insertAgent_eq_ok hs
  -- Behind the insert the call holds no token.
  have hother : ∀ {k m}, HoldsToken cfg k
      (Function.update v.pts n (.at (.consumedBy req (env.env.uuid 0))) m) →
      m ≠ n ∧ HoldsToken cfg k (v.pts m) := by
    intro k m hm
    rcases holdsToken_update hm with ⟨_, hk⟩ | hm
    · exact hk.elim
    · exact hm
  refine ⟨fun {k m} hm => hi.held (hother hm).2, fun {k} hk => ?_,
    fun {k m m'} hm hm' => hi.apart (hother hm).2 (hother hm').2, fun {k m} hm => ?_, fun k => ?_,
    fun a ha => ?_⟩
  · rw [hmint] at hk
    by_cases hk' : cfg.hashToken req.enrollmentToken = k
    · exact hk' ▸ hi.held hholds
    · rw [if_neg hk', List.append_nil] at hk
      exact hi.used hk
  · obtain ⟨hne, hm⟩ := hother hm
    rw [hmint, hi.unminted hm, if_neg]
    · rfl
    · rintro rfl
      exact hne (hi.apart hm hholds)
  · rw [hmint]
    by_cases hk : cfg.hashToken req.enrollmentToken = k
    · obtain rfl := hk
      rw [hi.unminted hholds, if_pos rfl]
      exact Nat.le_refl 1
    · rw [if_neg hk, List.append_nil]
      exact hi.once k
  · rcases Table.mem_insertNew ha with ha | rfl
    · rcases hi.rows a ha with h₀ | ⟨k, hk⟩
      · exact .inl h₀
      · exact .inr ⟨k, by rw [hmint]; exact List.mem_append_left _ hk⟩
    · refine .inr ⟨cfg.hashToken req.enrollmentToken, ?_⟩
      rw [hmint, if_pos rfl]
      exact List.mem_append_right _ (List.mem_singleton_self _)

end OneTime

theorem oneTime {s₀ : AccessDb} {h : List (EnrollView × Act EnrollRequest AccessEnv)}
    {v : EnrollView}
    (hr : View.VReach (EnrollMove cfg) (fun req => (enroll cfg req).ctl) s₀ h v) :
    OneTime cfg s₀ h v := by
  refine View.VReach.invariant (fun _ _ => True) (OneTime cfg s₀) ?_ ?_ ?_ ?_ hr
    fun _ _ => trivial
  · exact ⟨fun hn => hn.elim, fun hk => absurd rfl hk, fun hn => hn.elim, fun _ => rfl,
      fun _ => Nat.zero_le 1, fun a ha => .inl ha⟩
  · intro h v req hi _ _
    exact hi.quiet_update (fun _ => rfl) (fun _ hc => hc.elim) (fun _ hk => hk) rfl
  · intro h v n l c s' env hi hn hT _
    cases hT with
    -- The call fails or is over; nothing was minted in this step.
    | refused | noTenant | inactive | signFails | signed =>
      exact hi.quiet_update (fun _ => by simp [mintedAt, hn]) (fun _ hc => hc.elim)
        (fun _ hk => hk) rfl
    | insertFails hs =>
      refine hi.quiet_update (fun k => ?_) (fun _ hc => hc.elim) (fun _ hk => hk) rfl
      simp [mintedAt, hn, hs, Except.isOk, Except.toBool]
    | active =>
      refine hi.quiet_update (fun _ => by simp [mintedAt, hn]) (fun k hc => ?_) (fun _ hk => hk) rfl
      rw [hn]
      exact hc
    | consumedBy =>
      exact hi.quiet_update (fun _ => by simp [mintedAt, hn]) (fun _ hc => hc.elim)
        (fun _ hk => hk.setConsumedBy _) rfl
    | consumed hs => exact hi.consume hn hs
    | inserted hs => exact hi.insert hn hs
  · intro h v n l hi _ _
    exact hi.quiet_update (fun _ => rfl) (fun _ hc => hc.elim) (fun _ hk => hk) rfl

/-! ### Calls that fail -/

/-- The tenant is there and active. -/
def AccessDb.active (s : AccessDb) (t : Uuid) : Bool :=
  (s.tenants.get t).any fun row => row.status = "active"

/-- An action that makes no call fail that has consumed its token: a token is consumed
when its tenant is active, the agent's id is new, the certificate is signed, and no call
is cut off later than before its first statement. -/
def enrollOk (cfg : AccessConfig) (s : AccessDb) (pts : ℕ → Ctl AccessPt EnrollResponse) :
    Act EnrollRequest AccessEnv → Bool
  | .spawn _ => true
  | .kill n =>
    match pts n with
    | .at (.consume _) => true
    | _ => false
  | .exec n env =>
    match pts n with
    | .at (.consume req) =>
      match s.tokens.get (cfg.hashToken req.enrollmentToken) with
      | some tok => !tok.usable env.env.now || s.active tok.tenant
      | none => true
    | .at (.insertAgent _ _) => (s.agents.get (env.env.uuid 0)).isNone
    | .at (.sign _ agent) => (cfg.signCert agent env).isOk
    | _ => true

theorem AccessDb.active_iff {s : AccessDb} {t : Uuid} :
    s.active t = true ↔ ∃ row, s.tenants.get t = some row ∧ row.status = "active" := by
  unfold AccessDb.active
  cases s.tenants.get t with
  | none => simp
  | some row => simp

/-- The call has consumed its token and not failed. -/
def Underway : Ctl AccessPt EnrollResponse → Prop
  | .at (.tokenTenant _ _) | .at (.insertAgent _ _) | .at (.consumedBy _ _) | .at (.sign _ _)
  | .done _ => True
  | _ => False

/-- The statement found no token to consume. -/
def Refused (cfg : AccessConfig) (v : EnrollView) (n : ℕ) (env : AccessEnv) : Prop :=
  ∃ req, v.pts n = .at (.consume req) ∧
    v.store.consumeToken (cfg.hashToken req.enrollmentToken) env.env.now = none

/-- A call that is not under way has found no token; one that is has an active tenant. -/
structure NoTrace (cfg : AccessConfig) (h : List (EnrollView × Act EnrollRequest AccessEnv))
    (v : EnrollView) : Prop where
  active : ∀ {n req t}, v.pts n = .at (.tokenTenant req t) ∨ v.pts n = .at (.insertAgent req t) →
    v.store.active t = true
  refused : ∀ e ∈ h, ∀ n env, e.2 = .exec n env → Refused cfg e.1 n env ∨ Underway (v.pts n)

namespace NoTrace

variable {h : List (EnrollView × Act EnrollRequest AccessEnv)} {v : EnrollView}

/-- The call `n` goes on to `c`. -/
theorem update (hi : NoTrace cfg h v) {a : Act EnrollRequest AccessEnv} {s' : AccessDb}
    {n size : ℕ} {c : Ctl AccessPt EnrollResponse} (htenants : s'.tenants = v.store.tenants)
    (hactive : ∀ req t, c = .at (.tokenTenant req t) ∨ c = .at (.insertAgent req t) →
      v.store.active t = true)
    (hc : Underway (v.pts n) → Underway c)
    (ha : ∀ m env, a = .exec m env → m = n ∧ (Refused cfg v n env ∨ Underway c)) :
    NoTrace cfg (h ++ [(v, a)]) ⟨s', Function.update v.pts n c, size⟩ where
  active {m req t} hm := by
    dsimp only at hm
    show s'.active t = true
    rw [AccessDb.active, htenants]
    rcases eq_or_ne m n with rfl | hne
    · rw [Function.update_self] at hm
      exact hactive req t hm
    · rw [Function.update_of_ne hne] at hm
      exact hi.active hm
  refused := by
    intro e he m env hexec
    show Refused cfg e.1 m env ∨ Underway (Function.update v.pts n c m)
    rcases List.mem_append.mp he with he | he
    · rcases hi.refused e he m env hexec with hr | hu
      · exact .inl hr
      · refine .inr ?_
        rcases eq_or_ne m n with rfl | hne
        · rw [Function.update_self]
          exact hc hu
        · rwa [Function.update_of_ne hne]
    · obtain rfl := List.mem_singleton.mp he
      obtain ⟨rfl, hr | hu⟩ := ha m env hexec
      · exact .inl hr
      · refine .inr ?_
        rw [Function.update_self]
        exact hu

/-- A statement after which the call is under way. -/
theorem goes_on (hi : NoTrace cfg h v) {env : AccessEnv} {s' : AccessDb} {n : ℕ}
    {c : Ctl AccessPt EnrollResponse} (htenants : s'.tenants = v.store.tenants)
    (hactive : ∀ req t, c = .at (.tokenTenant req t) ∨ c = .at (.insertAgent req t) →
      v.store.active t = true) (hc : Underway c) :
    NoTrace cfg (h ++ [(v, .exec n env)]) ⟨s', Function.update v.pts n c, v.size⟩ := by
  refine hi.update htenants hactive (fun _ => hc) fun m env' hexec => ?_
  obtain ⟨rfl, rfl⟩ := Act.exec.inj hexec
  exact ⟨rfl, .inr hc⟩

end NoTrace

theorem noTrace {s₀ : AccessDb} {h : List (EnrollView × Act EnrollRequest AccessEnv)}
    {v : EnrollView}
    (hr : View.VReach (EnrollMove cfg) (fun req => (enroll cfg req).ctl) s₀ h v)
    (hok : ∀ e ∈ h, enrollOk cfg e.1.store e.1.pts e.2 = true) : NoTrace cfg h v := by
  refine View.VReach.invariant (fun v a => enrollOk cfg v.store v.pts a = true) (NoTrace cfg) ?_ ?_ ?_ ?_
    hr hok
  · refine ⟨fun hn => ?_, fun e he => absurd he List.not_mem_nil⟩
    rcases hn with hn | hn <;> cases hn
  · intro h v req hi hidle _
    refine hi.update rfl (fun req t hc => ?_) (fun hu => ?_) fun m env hexec => ?_
    · rcases hc with hc | hc <;> cases hc
    · rw [hidle] at hu
      exact hu.elim
    · cases hexec
  · intro h v n l c s' env hi hn hT hok
    simp only [enrollOk, hn] at hok
    cases hT with
    | @refused req _ _ hs =>
      refine hi.update rfl (fun req t hc => ?_) (fun hu => ?_) fun m env' hexec => ?_
      · rcases hc with hc | hc <;> cases hc
      · rw [hn] at hu
        exact hu.elim
      · obtain ⟨rfl, rfl⟩ := Act.exec.inj hexec
        exact ⟨rfl, .inl ⟨req, hn, hs⟩⟩
    | consumed hs =>
      obtain ⟨⟨tok, ht, hu, rfl⟩, rfl⟩ := AccessDb.consumeToken_eq_some hs
      refine hi.goes_on rfl (fun req' t' hc => ?_) trivial
      rcases hc with hc | hc <;> cases hc
      simpa only [ht, hu, Bool.not_true, Bool.false_or] using hok
    -- The tenant was active when the token was consumed, and stays so.
    | noTenant hnone =>
      obtain ⟨row, hrow, -⟩ := AccessDb.active_iff.mp (hi.active (.inl hn))
      rw [hnone] at hrow
      cases hrow
    | inactive hrow hact =>
      obtain ⟨row', hrow', hact'⟩ := AccessDb.active_iff.mp (hi.active (.inl hn))
      obtain rfl := Option.some.inj (hrow.symm.trans hrow')
      exact absurd hact' hact
    | active hrow hact =>
      refine hi.goes_on rfl (fun req' t' hc => ?_) trivial
      rcases hc with hc | hc <;> cases hc
      exact AccessDb.active_iff.mpr ⟨_, hrow, hact⟩
    | @insertFails req _ _ t e hs =>
      obtain ⟨row, hrow, -⟩ := AccessDb.active_iff.mp (hi.active (.inr hn))
      have hfresh : (v.store.agents.get (cfg.newAgent req t env.env).1.id).isSome = false := by
        show (v.store.agents.get (env.env.uuid 0)).isSome = false
        simpa using hok
      have htenant : (v.store.tenants.get (cfg.newAgent req t env.env).1.tenant).isNone = false := by
        show (v.store.tenants.get t).isNone = false
        rw [hrow]
        rfl
      simp [AccessDb.insertAgent, hfresh, htenant] at hs
    | inserted hs =>
      obtain ⟨-, rfl⟩ := AccessDb.insertAgent_eq_ok hs
      refine hi.goes_on rfl (fun req' t' hc => ?_) trivial
      rcases hc with hc | hc <;> cases hc
    | consumedBy | signed =>
      refine hi.goes_on rfl (fun req' t' hc => ?_) trivial
      rcases hc with hc | hc <;> cases hc
    | signFails hs =>
      dsimp only at hok
      rw [hs] at hok
      cases hok
  · intro h v n l hi hn hok
    -- A call is cut off only before it has consumed its token.
    obtain ⟨req, hreq⟩ : ∃ req, v.pts n = .at (.consume req) := by
      simp only [enrollOk] at hok
      split at hok
      · next req hreq => exact ⟨req, hreq⟩
      · cases hok
    refine hi.update rfl (fun req t hc => ?_) (fun hu => ?_) fun m env hexec => ?_
    · rcases hc with hc | hc <;> cases hc
    · rw [hreq] at hu
      exact hu.elim
    · cases hexec

/-- **Enrollment** in every interleaving: a token mints at most one agent, and all new
agents are minted by tokens.  And when every action is `enrollOk`, no statement of a
failed call has changed the tokens or the agents. -/
theorem enrollment_one_time {s₀ : AccessDb} {h : EnrollHist}
    {p : Pool EnrollRequest AccessPt AccessDb AccessEnv Error EnrollResponse}
    (hr : Pool.Reach (enroll cfg) s₀ h p) :
    (∀ k, (mintedBy cfg k h).length ≤ 1) ∧
    (∀ a ∈ p.store.agents.rows, a ∈ s₀.agents.rows ∨ ∃ k, a.id ∈ mintedBy cfg k h) ∧
    ((∀ e ∈ h, enrollOk cfg e.1.store e.1.ctl e.2 = true) →
      ∀ n, p.ctl n = .failed → ∀ e ∈ h, ∀ env p', e.2 = .exec n env →
        e.1.step (enroll cfg) e.2 = some p' →
        p'.store.tokens = e.1.store.tokens ∧ p'.store.agents = e.1.store.agents) := by
  have hview := hr.view enroll_takes
  have hone := oneTime hview
  refine ⟨fun k => ?_, fun a ha => ?_, fun hok n hn e he env p' hexec hs => ?_⟩
  · rw [mintedBy_eq]
    exact hone.once k
  · simp only [mintedBy_eq]
    exact hone.rows a ha
  · have hno := noTrace hview (Pool.forall_view (fun s pts a => enrollOk cfg s pts a = true) hok)
    rw [hexec] at hs
    obtain ⟨l, hl, hT⟩ := hr.step_takes enroll_takes he hs
    -- A call that has failed is not under way.
    have hlast : Refused cfg e.1.view n env := by
      rcases hno.refused (e.1.view, e.2) (List.mem_map_of_mem he) n env hexec with hq | hu
      · exact hq
      · have hu : Underway (p.ctl n) := hu
        rw [hn] at hu
        exact hu.elim
    obtain ⟨req, hreq, hnone⟩ := hlast
    have hreq : e.1.ctl n = .at (.consume req) := hreq
    rw [hreq] at hl
    obtain rfl := Ctl.at.inj hl
    have hsame := hT.of_refused hnone
    exact ⟨congrArg AccessDb.tokens hsame, congrArg AccessDb.agents hsame⟩

/-! ### A tenant that is not active -/

/-- An active and a suspended tenant, with a token each. -/
def twoTenants : AccessDb where
  tenants := (Table.empty.insertNew ⟨1, "default", "Default tenant", "active", 0⟩).insertNew
    ⟨5, "acme", "Acme", "suspended", 0⟩
  tokens := (Table.empty.insertNew ⟨asBytes "a", 1, "", 0, none, none, none⟩).insertNew
    ⟨asBytes "b", 5, "", 0, none, none, none⟩
  agents := .empty
  db := .empty

/-- Statements of the call `n`, which draw the identifier `u`. -/
def enrollSteps (n k : ℕ) (u : Uuid) : List (Act EnrollRequest AccessEnv) :=
  List.replicate k (.exec n ⟨.drawing u, ⟨.ok [], 0⟩⟩)

/-- Two calls with one token: the second is refused, and leaves no trace. -/
theorem enrollment_one_time_twice :
    ∃ h p, Pool.Reach (enroll .plain) twoTenants h p ∧ p.ctl 1 = .failed ∧
      (mintedBy .plain (asBytes "a") h).length ≤ 1 ∧ p.store.agents.rows.length = 1 ∧
      ∀ e ∈ h, ∀ env p', e.2 = .exec 1 env → e.1.step (enroll .plain) e.2 = some p' →
        p'.store.tokens = e.1.store.tokens ∧ p'.store.agents = e.1.store.agents := by
  obtain ⟨h, p, hreach, hchk⟩ := Pool.exists_reach (enroll .plain) twoTenants
    (.spawn ⟨"a", "host", "1"⟩ :: enrollSteps 0 2 7 ++ .spawn ⟨"a", "host", "1"⟩ ::
      enrollSteps 1 1 8 ++ enrollSteps 0 3 7)
    (fun h p => h.all (fun e => enrollOk .plain e.1.store e.1.ctl e.2) &&
      (p.ctl 1 matches .failed) && p.store.agents.rows.length = 1) (by decide)
  simp only [Bool.and_eq_true, List.all_eq_true, decide_eq_true_eq] at hchk
  obtain ⟨⟨hok, hfailed⟩, hrows⟩ := hchk
  have hctl : p.ctl 1 = .failed := by
    split at hfailed
    · next h => exact h
    · cases hfailed
  obtain ⟨hone, -, hno⟩ := enrollment_one_time hreach
  exact ⟨h, p, hreach, hctl, hone _, hrows, hno hok 1 hctl⟩

/-- The tenant of a valid token is suspended: the call fails, and the token is gone. -/
theorem suspended_tenant_burns_token :
    ∃ h p, Pool.Reach (enroll .plain) twoTenants h p ∧ p.ctl 0 = .failed ∧
      (twoTenants.tokens.get (asBytes "b")).any (fun tok => tok.usable 0) = true ∧
      (p.store.tokens.get (asBytes "b")).any (fun tok => !tok.usable 0) = true := by
  obtain ⟨h, p, hreach, hchk⟩ := Pool.exists_reach (enroll .plain) twoTenants
    (.spawn ⟨"b", "host", "1"⟩ :: enrollSteps 0 2 7)
    (fun _ p => (p.ctl 0 matches .failed) &&
      (p.store.tokens.get (asBytes "b")).any fun tok => !tok.usable 0) (by decide)
  simp only [Bool.and_eq_true] at hchk
  have hctl : p.ctl 0 = .failed := by
    have hfailed := hchk.1
    split at hfailed
    · next h => exact h
    · cases hfailed
  exact ⟨h, p, hreach, hctl, by decide, hchk.2⟩

end Corpus
