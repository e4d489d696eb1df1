/-
Agents and their server.

Machines start, are stopped anywhere and start again, in any interleaving with the requests to
both listeners.  The request of an enrollment may be lost, and its answer may be lost or come
too late; then the next start asks again.

* `Fleet.step` — a step of a machine or of the server;
* `fleet_identities` — a machine has no identity, or a whole answer that the server gave it, and
  this is never replaced; no two machines have the same; and its certificate lets it in as the agent
  that was enrolled for it, until it expires.
-/
import Corpus.Agent.Startup
import Corpus.AgentRows

namespace Corpus

open Agent.Startup

/-- A machine: its table `identity` with the start in progress, and the calls of `enroll` it has
made, the latest first.  Is it waiting for the answer to that one? -/
structure Machine where
  process : Process StartPt IdentityRows StartEnv String Runtime
  asked : List ℕ
  waits : Bool

structure Fleet where
  server : AccessPool
  machines : ℕ → Machine

/-- What can happen next. -/
inductive FleetAct where
  /-- any request, one statement of one, or its end -/
  | server (a : Act AccessRequest AccessEnv)
  | boot (m : ℕ) (c : StartConfig)
  | stop (m : ℕ)
  /-- the next operation of the start; a request to the server fails with `e` -/
  | exec (m : ℕ) (sqlite : Option String) (e : String)
  /-- the request of the start reaches the server -/
  | send (m : ℕ)
  /-- the answer reaches the machine -/
  | receive (m : ℕ)
  /-- the running agent stores another key -/
  | write (m : ℕ) (key value : String)

namespace Fleet

/-- The server, and machines that were never started. -/
def new (s₀ : AccessDb) : Fleet := ⟨.start s₀, fun _ => ⟨⟨fun _ => none, none⟩, [], false⟩⟩

/-- The table `identity` of a machine. -/
def rows (f : Fleet) (m : ℕ) : IdentityRows := (f.machines m).process.store

def setMachine (f : Fleet) (m : ℕ) (x : Machine) : Fleet :=
  { f with machines := Function.update f.machines m x }

/-- One step; `none` where it is not possible. -/
def step (cfg : AccessConfig) (f : Fleet) : FleetAct → Option Fleet
  | .server a => (f.server.step (serveAccess cfg) a).map fun p => { f with server := p }
  | .boot m c =>
    some (f.setMachine m ⟨⟨f.rows m, some (startUp cfg c)⟩, (f.machines m).asked, false⟩)
  | .stop m => some (f.setMachine m ⟨⟨f.rows m, none⟩, (f.machines m).asked, false⟩)
  | .exec m sqlite e =>
    match (f.machines m).process.rest with
    | some (.stmt _ g k) =>
      let i : StartEnv := ⟨sqlite, .error e⟩
      some (f.setMachine m ⟨⟨g (f.rows m) i, some (k (f.rows m) i)⟩, (f.machines m).asked, false⟩)
    | some (.ret _) | some (.err _) | none => none
  | .send m =>
    match (f.machines m).process.rest, (f.machines m).waits with
    | some (.stmt (.enroll req) g k), false =>
      (f.server.step (serveAccess cfg) (.spawn (.enroll req))).map fun p =>
        setMachine { f with server := p } m ⟨⟨f.rows m, some (.stmt (.enroll req) g k)⟩,
          f.server.procs.length :: (f.machines m).asked, true⟩
    | _, _ => none
  | .receive m =>
    match (f.machines m).process.rest, (f.machines m).waits, (f.machines m).asked with
    | some (.stmt (.enroll _) g k), true, n :: ns =>
      match f.server.procs[n]? with
      | some ⟨_, some (.ret (.enrolled r))⟩ =>
        let i : StartEnv := ⟨none, .ok r⟩
        some (f.setMachine m ⟨⟨g (f.rows m) i, some (k (f.rows m) i)⟩, n :: ns, false⟩)
      | _ => none
    | _, _, _ => none
  | .write m key value =>
    if key ∈ identityKeys then none
    else
      some (f.setMachine m ⟨⟨(f.rows m).set key value, (f.machines m).process.rest⟩,
        (f.machines m).asked, (f.machines m).waits⟩)

/-- Histories: each step with the fleet it was taken in. -/
inductive Reach (cfg : AccessConfig) (s₀ : AccessDb) : List (Fleet × FleetAct) → Fleet → Prop where
  | init : Reach cfg s₀ [] (new s₀)
  | step {h : List (Fleet × FleetAct)} {f f' : Fleet} {a : FleetAct} :
      Reach cfg s₀ h f → f.step cfg a = some f' → Reach cfg s₀ (h ++ [(f, a)]) f'

/-- Run a list of steps, keeping the history. -/
def run (cfg : AccessConfig) :
    List (Fleet × FleetAct) → Fleet → List FleetAct → Option (List (Fleet × FleetAct) × Fleet)
  | h, f, [] => some (h, f)
  | h, f, a :: as => (f.step cfg a).bind fun f' => run cfg (h ++ [(f, a)]) f' as

theorem reach_run {cfg : AccessConfig} {s₀ : AccessDb} : ∀ (as : List FleetAct)
    {h h' : List (Fleet × FleetAct)} {f f' : Fleet}, Reach cfg s₀ h f →
      run cfg h f as = some (h', f') → Reach cfg s₀ h' f' := by
  intro as
  induction as with
  | nil =>
    intro h h' f f' hr heq
    obtain ⟨rfl, rfl⟩ := Prod.mk.inj (Option.some.inj heq)
    exact hr
  | cons a as ih =>
    intro h h' f f' hr heq
    obtain ⟨f₁, hs, hrest⟩ := Option.bind_eq_some_iff.mp heq
    exact ih (.step hr hs) hrest

/-- A run that passes a check shows that a history passing it exists. -/
theorem exists_reach (cfg : AccessConfig) (s₀ : AccessDb) (as : List FleetAct)
    (chk : List (Fleet × FleetAct) → Fleet → Bool)
    (hchk : ((run cfg [] (new s₀) as).any fun r => chk r.1 r.2) = true) :
    ∃ h f, Reach cfg s₀ h f ∧ chk h f = true := by
  obtain ⟨r, hr, hchk⟩ := (Option.any_eq_true _ _).mp hchk
  exact ⟨r.1, r.2, reach_run as .init hr, hchk⟩

/-! ### What a step does -/

/-- An answer that the machine has asked for, and the server has given. -/
def Delivered (f : Fleet) (m : ℕ) (r : EnrollResponse) : Prop :=
  ∃ n ∈ (f.machines m).asked, Enrolled f.server n r

/-- What a step does to the server, and to each machine. -/
structure Moves (cfg : AccessConfig) (f f' : Fleet) (a : FleetAct) : Prop where
  server : f'.server = f.server ∨ ∃ b, f.server.step (serveAccess cfg) b = some f'.server ∧
    (a = .server b ∨ ∃ c, b = .spawn c)
  machine : ∀ m, Process.Step (startUp cfg) SameIdentity (Genuine (Delivered f' m))
    (f.machines m).process (f'.machines m).process
  asked : ∀ m, (f'.machines m).asked = (f.machines m).asked ∨
    ((f'.machines m).asked = f.server.procs.length :: (f.machines m).asked ∧
      f.server.procs.length < f'.server.procs.length ∧
      ∀ m', m' ≠ m → (f'.machines m').asked = (f.machines m').asked)

variable {cfg : AccessConfig} {f f' : Fleet} {a : FleetAct}

/-- A step of one machine, which asks for nothing. -/
theorem Moves.of_machine {m : ℕ} {x : Machine} (a : FleetAct)
    (hasked : x.asked = (f.machines m).asked)
    (hx : Process.Step (startUp cfg) SameIdentity (Genuine (Delivered (f.setMachine m x) m))
      (f.machines m).process x.process) : Moves cfg f (f.setMachine m x) a := by
  refine ⟨.inl rfl, fun m' => ?_, fun m' => .inl ?_⟩
  · rcases eq_or_ne m' m with rfl | hne
    · show Process.Step _ _ _ _ (Function.update f.machines m' x m').process
      rw [Function.update_self]
      exact hx
    · show Process.Step _ _ _ _ (Function.update f.machines m x m').process
      rw [Function.update_of_ne hne]
      exact .other _ (.refl _)
  · show (Function.update f.machines m x m').asked = _
    rcases eq_or_ne m' m with rfl | hne
    · rw [Function.update_self]
      exact hasked
    · rw [Function.update_of_ne hne]

theorem step_moves (hs : f.step cfg a = some f') : Moves cfg f f' a := by
  cases a with
  | server b =>
    obtain ⟨p, hp, rfl⟩ := Option.map_eq_some_iff.mp hs
    exact ⟨.inr ⟨b, hp, .inl rfl⟩, fun m => .other _ (.refl _), fun m => .inl rfl⟩
  | boot m c =>
    obtain rfl : _ = f' := Option.some.inj hs
    exact .of_machine _ rfl (.start _ _ c)
  | stop m =>
    obtain rfl : _ = f' := Option.some.inj hs
    exact .of_machine _ rfl (.stop _ _)
  | exec m sqlite e =>
    simp only [step] at hs
    split at hs
    · next l g k hrest =>
      obtain rfl : _ = f' := Option.some.inj hs
      refine .of_machine _ rfl ?_
      have hproc : (f.machines m).process = ⟨f.rows m, some (.stmt l g k)⟩ := by
        rw [← hrest]
        rfl
      rw [hproc]
      exact .exec g k _ fun _ _ _ hreply => nomatch hreply
    all_goals cases hs
  | send m =>
    simp only [step] at hs
    split at hs
    · next req g k hrest hwaits =>
      obtain ⟨p, hp, rfl⟩ := Option.map_eq_some_iff.mp hs
      refine ⟨.inr ⟨_, hp, .inr ⟨_, rfl⟩⟩, fun m' => ?_, fun m' => ?_⟩
      · show Process.Step _ _ _ _ (Function.update f.machines m _ m').process
        rcases eq_or_ne m' m with rfl | hne
        · rw [Function.update_self, ← hrest]
          exact .other _ (.refl _)
        · rw [Function.update_of_ne hne]
          exact .other _ (.refl _)
      · rcases eq_or_ne m' m with rfl | hne
        · refine .inr ⟨?_, ?_, fun m'' hne => ?_⟩
          · show (Function.update f.machines m' _ m').asked = _
            rw [Function.update_self]
          · obtain rfl : _ = p := Option.some.inj hp
            show _ < (f.server.procs ++ [_]).length
            rw [List.length_append]
            exact Nat.lt_succ_self _
          · show (Function.update f.machines m' _ m'').asked = _
            rw [Function.update_of_ne hne]
        · left
          show (Function.update f.machines m _ m').asked = _
          rw [Function.update_of_ne hne]
    · cases hs
  | receive m =>
    simp only [step] at hs
    split at hs
    · next req g k n ns hrest hwaits hasked =>
      split at hs
      · next c r hn =>
        obtain rfl : _ = f' := Option.some.inj hs
        refine .of_machine _ hasked.symm ?_
        have hproc : (f.machines m).process = ⟨f.rows m, some (.stmt (.enroll req) g k)⟩ := by
          rw [← hrest]
          rfl
        rw [hproc]
        refine .exec g k _ fun _ r' _ hreply => ?_
        obtain rfl : r = r' := Except.ok.inj hreply
        refine ⟨n, ?_, c, hn⟩
        show n ∈ (Function.update f.machines m _ m).asked
        rw [Function.update_self]
        exact List.mem_cons_self
      · cases hs
    · cases hs
  | write m key value =>
    simp only [step] at hs
    split at hs
    · cases hs
    · next hkey =>
      obtain rfl : _ = f' := Option.some.inj hs
      refine .of_machine _ rfl (.other _ fun k hk => ?_)
      refine Function.update_of_ne ?_ _ _
      rintro rfl
      exact hkey hk

namespace Moves

/-- Calls that have returned stay. -/
theorem enrolled (h : Moves cfg f f' a) {n : ℕ} {r : EnrollResponse}
    (hn : Enrolled f.server n r) : Enrolled f'.server n r := by
  rcases h.server with heq | ⟨b, hb, -⟩
  · rw [heq]
    exact hn
  · obtain ⟨c, hn⟩ := hn
    exact ⟨c, Pool.step_returned hb hn⟩

theorem delivered (h : Moves cfg f f' a) {m : ℕ} {r : EnrollResponse} (hr : Delivered f m r) :
    Delivered f' m r := by
  obtain ⟨n, hn, hr⟩ := hr
  refine ⟨n, ?_, h.enrolled hr⟩
  rcases h.asked m with heq | ⟨heq, -, -⟩
  · rw [heq]
    exact hn
  · rw [heq]
    exact List.mem_cons_of_mem _ hn

end Moves

/-! ### Runs -/

variable {s₀ : AccessDb} {h : List (Fleet × FleetAct)}

/-- Every call of `enroll` is the call of one machine, at most. -/
structure AskedApart (f : Fleet) : Prop where
  made : ∀ {m n}, n ∈ (f.machines m).asked → n < f.server.procs.length
  apart : ∀ {m m' n}, n ∈ (f.machines m).asked → n ∈ (f.machines m').asked → m = m'

theorem Moves.length_le (h : Moves cfg f f' a) :
    f.server.procs.length ≤ f'.server.procs.length := by
  rcases h.server with heq | ⟨b, hb, -⟩
  · rw [heq]
  · cases b with
    | spawn c =>
      obtain heq := Option.some.inj hb
      rw [← heq, List.length_append]
      exact Nat.le_add_right _ _
    | exec n i =>
      simp only [Pool.step] at hb
      split at hb
      · obtain heq := Option.some.inj hb
        rw [← heq, List.length_set]
      · cases hb
    | kill n =>
      simp only [Pool.step] at hb
      split at hb
      · obtain heq := Option.some.inj hb
        rw [← heq, List.length_set]
      · cases hb

theorem AskedApart.step (hi : AskedApart f) (h : Moves cfg f f' a) : AskedApart f' := by
  -- A call that was not asked for before is the latest.
  have hnew : ∀ {m n}, n ∈ (f'.machines m).asked → n ∈ (f.machines m).asked ∨
      (n = f.server.procs.length ∧ n < f'.server.procs.length ∧
        ∀ m', m' ≠ m → (f'.machines m').asked = (f.machines m').asked) := by
    intro m n hn
    rcases h.asked m with heq | ⟨heq, hlt, hother⟩
    · rw [heq] at hn
      exact .inl hn
    · rw [heq] at hn
      rcases List.mem_cons.mp hn with rfl | hn
      · exact .inr ⟨rfl, hlt, hother⟩
      · exact .inl hn
  have hold : ∀ {m}, f.server.procs.length ∉ (f.machines m).asked :=
    fun hn => Nat.lt_irrefl _ (hi.made hn)
  refine ⟨fun hn => ?_, fun {m m' n} hn hn' => ?_⟩
  · rcases hnew hn with hn | ⟨-, hlt, -⟩
    · exact Nat.lt_of_lt_of_le (hi.made hn) h.length_le
    · exact hlt
  · rcases hnew hn with hm | ⟨rfl, -, hother⟩
    · rcases hnew hn' with hm' | ⟨rfl, -, -⟩
      · exact hi.apart hm hm'
      · exact absurd hm hold
    · by_contra hne
      rw [hother m' (Ne.symm hne)] at hn'
      exact hold hn'

theorem Reach.askedApart (hr : Reach cfg s₀ h f) : AskedApart f := by
  induction hr with
  | init => exact ⟨fun hn => absurd hn List.not_mem_nil, fun hn => absurd hn List.not_mem_nil⟩
  | step _ hs ih => exact ih.step (step_moves hs)

/-- The history of the server. -/
theorem Reach.server (hr : Reach cfg s₀ h f) : ∃ hp : AccessHist,
    Pool.Reach (serveAccess cfg) s₀ hp f.server ∧
      ∀ e ∈ hp, (∃ e' ∈ h, e'.1.server = e.1 ∧ e'.2 = .server e.2) ∨ ∃ c, e.2 = .spawn c := by
  induction hr with
  | init => exact ⟨[], .init, fun e he => absurd he List.not_mem_nil⟩
  | @step h f f' a _ hs ih =>
    obtain ⟨hp, hreach, hall⟩ := ih
    have hbefore : ∀ e ∈ hp, (∃ e' ∈ h ++ [(f, a)], e'.1.server = e.1 ∧ e'.2 = .server e.2) ∨
        ∃ c, e.2 = .spawn c := by
      intro e he
      rcases hall e he with ⟨e', he', hsame⟩ | hspawn
      · exact .inl ⟨e', List.mem_append_left _ he', hsame⟩
      · exact .inr hspawn
    rcases (step_moves hs).server with heq | ⟨b, hb, hwhy⟩
    · rw [heq]
      exact ⟨hp, hreach, hbefore⟩
    · refine ⟨hp ++ [(f.server, b)], .step hreach hb, fun e he => ?_⟩
      rcases List.mem_append.mp he with he | he
      · exact hbefore e he
      · obtain rfl := List.mem_singleton.mp he
        rcases hwhy with rfl | hspawn
        · exact .inl ⟨_, List.mem_append_right _ (List.mem_singleton_self _), rfl, rfl⟩
        · exact .inr hspawn

/-- What is kept on one machine; `D` are the answers it gets in all. -/
abbrev MachineKept (cfg : AccessConfig) (D : EnrollResponse → Prop) :
    Process StartPt IdentityRows StartEnv String Runtime → Prop :=
  Process.Kept SameIdentity (Stores cfg D) (Genuine D) Anew (RunsAs cfg D) (Settled cfg D)

theorem MachineKept.step (htext : ∀ u, cfg.parseUuid (cfg.showUuid u) = some u)
    {D D' : EnrollResponse → Prop} (hD : ∀ r, D' r → D r)
    {p p' : Process StartPt IdentityRows StartEnv String Runtime} (hk : MachineKept cfg D p)
    (hs : Process.Step (startUp cfg) SameIdentity (Genuine D') p p') :
    Stores cfg D p.store p'.store ∧ MachineKept cfg D p' := by
  refine Process.Kept.step SameIdentity.refl (fun _ _ _ => SameIdentity.trans) (fun _ _ => .inl)
    (fun _ _ hd hs => Settled.stores hs hd) (fun c _ hd => startUp_guarantees htext c hd) hk ?_
  cases hs with
  | start s q c => exact .start s q c
  | stop s q => exact .stop s q
  | exec g k s hi => exact .exec g k s fun req r hl hreply => hD r (hi req r hl hreply)
  | other q hR => exact .other q hR

theorem Reach.kept (htext : ∀ u, cfg.parseUuid (cfg.showUuid u) = some u)
    (hr : Reach cfg s₀ h f) {m : ℕ} {D : EnrollResponse → Prop} :
    (∀ r, Delivered f m r → D r) → MachineKept cfg D (f.machines m).process := by
  induction hr with
  | init => exact fun _ => ⟨.inl fun _ _ => rfl, fun q hq => nomatch hq⟩
  | step _ hs ih =>
    intro hD
    have hmoves := step_moves hs
    exact (MachineKept.step htext hD (ih fun r hr => hD r (hmoves.delivered hr))
      (hmoves.machine m)).2

/-- A stored key stays, from any moment of the history on. -/
theorem Reach.stays (htext : ∀ u, cfg.parseUuid (cfg.showUuid u) = some u)
    (hr : Reach cfg s₀ h f) {e : Fleet × FleetAct} (he : e ∈ h) {m : ℕ} {k v : String}
    (hk : k ∈ identityKeys) (hv : e.1.rows m k = some v) : f.rows m k = some v := by
  induction hr with
  | init => exact absurd he List.not_mem_nil
  | @step h f f' a hr hs ih =>
    have hmoves := step_moves hs
    have hprev : f.rows m k = some v := by
      rcases List.mem_append.mp he with he | he
      · exact ih he
      · obtain rfl := List.mem_singleton.mp he
        exact hv
    have hkept := hr.kept htext fun r hr => hmoves.delivered (m := m) hr
    exact (MachineKept.step htext (fun _ hr => hr) hkept (hmoves.machine m)).1.get hk hprev

/-- A machine that asks the server has no identity. -/
theorem Reach.anew (htext : ∀ u, cfg.parseUuid (cfg.showUuid u) = some u) (hr : Reach cfg s₀ h f)
    {e : Fleet × FleetAct} (he : e ∈ h) {m : ℕ} (hsend : e.2 = .send m) :
    NoIdentity (e.1.rows m) := by
  induction hr with
  | init => exact absurd he List.not_mem_nil
  | @step h f f' a hr hs ih =>
    rcases List.mem_append.mp he with he | he
    · exact ih he
    · obtain rfl := List.mem_singleton.mp he
      obtain rfl : a = .send m := hsend
      simp only [Fleet.step] at hs
      split at hs
      · next req g k hrest _ =>
        have hkept := hr.kept htext (m := m) fun r hr => hr
        have hproc : (f.machines m).process = ⟨f.rows m, some (.stmt (.enroll req) g k)⟩ := by
          rw [← hrest]
          rfl
        rw [hproc] at hkept
        exact hkept.next req rfl
      · cases hs

/-- In the history, a certificate was signed for the agent at this time. -/
def SignedAt (h : List (Fleet × FleetAct)) (agent : Uuid) (t : Time) : Prop :=
  ∃ e ∈ h, ∃ n i req, e.2 = .server (.exec n i) ∧ e.1.server.ctl n = .at (.sign req agent) ∧
    i.env.now = t

end Fleet

open Fleet

/-- **The identities of the machines**, in every interleaving of their starts and of all requests.
A machine has no identity, or the whole of an answer that the server gave to a call of its own: the
server's CA, and a certificate with its key that lets it in as the row of that answer from 1975 to
30 days after it was signed, and at no other time. -/
theorem fleet_identities {cfg : AccessConfig} (hpki : cfg.pki.Lawful)
    (hca : cfg.ca.Paired cfg.pki) {root : Bytes} (hlisten : serverConfig cfg.pki cfg.ca = .ok root)
    (htext : ∀ u, cfg.parseUuid (cfg.showUuid u) = some u) {s₀ : AccessDb}
    {h : List (Fleet × FleetAct)} {f : Fleet} (hr : Fleet.Reach cfg s₀ h f) :
    (∀ m, NoIdentity (f.rows m) ∨ ∃ n ∈ (f.machines m).asked, ∃ r a t, Enrolled f.server n r ∧
      Holds cfg (f.rows m) r ∧ r.caCertPem = cfg.ca.certPem ∧
      f.server.store.agents.get r.agentId = some a ∧ a.tenant = r.tenantId ∧
      a.tokenSha256 = cfg.hashToken r.agentToken ∧ Fleet.SignedAt h r.agentId t ∧
      ∀ now, certAgent cfg f.server.store now r.clientCertPem r.clientKeyPem =
        if certificateStart ≤ unixSecond now ∧ unixSecond now ≤ unixSecond t + 30 * 86400 then some a
        else none) ∧
    (∀ m m' v, f.rows m "agent_id" = some v → f.rows m' "agent_id" = some v → m = m') ∧
    (∀ m u, (f.machines m).process.rest = some (.ret u) →
      f.rows m "agent_id" = some (cfg.showUuid u.agentId) ∧
      f.rows m "ca_cert_pem" = some u.uploader.caCertPem ∧
      f.rows m "client_cert_pem" = some u.uploader.clientCertPem ∧
      f.rows m "client_key_pem" = some u.uploader.clientKeyPem) ∧
    ∀ e ∈ h, (∀ m k v, k ∈ identityKeys → e.1.rows m k = some v → f.rows m k = some v) ∧
      ∀ m, e.2 = .send m → NoIdentity (e.1.rows m) := by
  obtain ⟨hp, hreach, hall⟩ := hr.server
  have hkept := fun m => hr.kept htext (m := m) fun r hr => hr
  refine ⟨fun m => ?_, fun m m' v hm hm' => ?_, fun m u hu => ?_, fun e he => ⟨?_, ?_⟩⟩
  · rcases (hkept m).store with hno | ⟨r, ⟨n, hmine, hn⟩, hholds⟩
    · exact .inl hno
    · obtain ⟨⟨a, ha, ht, hh⟩, hissued⟩ := enrolled_backed hreach hn
      obtain ⟨t, draw, ⟨e, he, k, i, req, hact, hctl, htime⟩, hcert⟩ := hissued.cert
      have hsigned : Fleet.SignedAt h r.agentId t := by
        rcases hall e he with ⟨e', he', hserver, hact'⟩ | ⟨c, hspawn⟩
        · refine ⟨e', he', k, i, req, ?_, ?_, htime⟩
          · rw [hact', hact]
          · rw [hserver, hctl]
        · rw [hact] at hspawn
          cases hspawn
      refine .inr ⟨n, hmine, r, a, t, hn, hholds, hissued.ca, ha, ht, hh, hsigned, ?_⟩
      exact certAgent_issued hpki hca hlisten htext hcert ha
  · -- The same id was given out by one call, and that is the call of one machine.
    have hstored : ∀ {m}, f.rows m "agent_id" = some v →
        ∃ r, f.Delivered m r ∧ v = cfg.showUuid r.agentId := by
      intro m hm
      rcases (hkept m).store with hno | ⟨r, hr, hholds⟩
      · have hnone : f.rows m "agent_id" = none := hno "agent_id" (by decide)
        rw [hnone] at hm
        cases hm
      · exact ⟨r, hr, Option.some.inj (hm.symm.trans hholds.agentId)⟩
    obtain ⟨r, ⟨n, hn, hret⟩, hv⟩ := hstored hm
    obtain ⟨r', ⟨n', hn', hret'⟩, hv'⟩ := hstored hm'
    have hid : r.agentId = r'.agentId := by
      refine Option.some.inj ?_
      rw [← htext r.agentId, ← htext r'.agentId, ← hv, ← hv']
    obtain rfl := enrolled_apart hreach hret hret' hid
    exact hr.askedApart.apart hn hn'
  · obtain ⟨d, hd, hq⟩ := (hkept m).rest _ hu
    obtain ⟨r, -, hholds, hid, hroot, hcert, hkey⟩ := hq
    have hsame := hholds.same hd
    rw [hid, hroot, hcert, hkey]
    exact ⟨hsame.agentId, hsame.caCert, hsame.clientCert, hsame.clientKey⟩
  · exact fun m k v hk hv => hr.stays htext he hk hv
  · exact fun m hsend => hr.anew htext he hsend

/-- As `AccessConfig.plain`, with crates that are lawful. -/
noncomputable def paperConfig : AccessConfig :=
  { AccessConfig.plain with
    pki := Pki.paper
    ca := DeploymentCa.paper }

/-- A start with the token, up to its request. -/
def bootWith (token : String) : List FleetAct :=
  .boot 0 ⟨"http://corpus:8080", none, some token, some "host", "1", "host", "boot",
      ⟨fun _ => true, fun _ => true, fun _ _ => true⟩⟩ ::
    List.replicate 2 (.exec 0 none "") ++ [.send 0]

/-- The statements of the `n`-th call in November 2023, which draw the identifier `u` and the key
`key`. -/
def serveWith (n : ℕ) (u : Uuid) (key : UInt8) : List FleetAct :=
  List.replicate 5
    (.server (.exec n ⟨{ Env.drawing u with now := 1700000000000000 }, ⟨.ok [key], 0⟩⟩))

/-- A machine is stopped before the answer, and enrolled by its second start. -/
def enrolledTwice : List FleetAct :=
  bootWith "a" ++ serveWith 0 3 1 ++ [.stop 0] ++ bootWith "c" ++ serveWith 1 4 2 ++
    [.receive 0] ++ List.replicate 6 (.exec 0 none "")

/-- A tenant with two tokens. -/
def twoTokens : AccessDb :=
  { twoTenants with
    tokens := twoTenants.tokens.insertNew ⟨asBytes "c", 1, "", 0, none, none, none⟩ }

/-- The server's statements are those of that month. -/
def inNovember : FleetAct → Bool
  | .server (.exec _ i) => i.env.now = 1700000000000000
  | .server (.spawn _) | .server (.kill _) | .boot _ _ | .stop _ | .exec _ _ _ | .send _
  | .receive _ | .write _ _ _ => true

/-- The machine is the second agent, and its certificate lets it in for 30 days. -/
theorem fleet_identities_second : ∃ h f, Fleet.Reach paperConfig twoTokens h f ∧
    f.rows 0 "agent_id" = some (paperConfig.showUuid 4) ∧
    (∃ r a, Holds paperConfig (f.rows 0) r ∧ f.server.store.agents.get r.agentId = some a ∧
      a.tenant = r.tenantId ∧
      certAgent paperConfig f.server.store 1702592000000000 r.clientCertPem r.clientKeyPem =
        some a ∧
      certAgent paperConfig f.server.store 1702592001000000 r.clientCertPem r.clientKeyPem =
        none) ∧
    ∀ m, f.rows m "agent_id" = some (paperConfig.showUuid 4) → m = 0 := by
  obtain ⟨h, f, hreach, hchk⟩ := Fleet.exists_reach paperConfig twoTokens enrolledTwice
    (fun h f => f.rows 0 "agent_id" = some (paperConfig.showUuid 4) &&
      h.all fun e => inNovember e.2) (by decide)
  simp only [Bool.and_eq_true, decide_eq_true_eq, List.all_eq_true] at hchk
  obtain ⟨hid, hnow⟩ := hchk
  obtain ⟨root, hlisten⟩ := listens_paper
  have hpki : paperConfig.pki.Lawful := lawful_paper
  obtain ⟨hident, hapart, -, -⟩ := fleet_identities hpki paired_paper hlisten
    parseCounted_countedText hreach
  refine ⟨h, f, hreach, hid, ?_, fun m hm => hapart m 0 _ hm hid⟩
  rcases hident 0 with hno | ⟨n, -, r, a, t, -, hholds, -, ha, ht, -, hsigned, hlet⟩
  · have hnone : f.rows 0 "agent_id" = none := hno "agent_id" (by decide)
    rw [hid] at hnone
    cases hnone
  · obtain ⟨e, he, k, i, req, hact, -, rfl⟩ := hsigned
    have htime := hnow e he
    rw [hact] at htime
    refine ⟨r, a, hholds, ha, ht, ?_, ?_⟩
    · rw [hlet, of_decide_eq_true htime]
      exact if_pos (by decide)
    · rw [hlet, of_decide_eq_true htime]
      exact if_neg (by decide)

end Corpus
