/-
The start of an agent (`main.rs`, `state.rs`).

The identity of an agent is five keys of its state database: its id and token, the CA and a
client certificate with its key.  A start that finds no identity asks the server for one, with
the enrollment token of the configuration, and stores the answer in one transaction.

* `ensureIdentity`, `mtlsUploader`, `startUp` — the start up to the runtime;
* `startUp_guarantees` — the five keys are only written together, where there was none of them
  before; the server is only asked then; and the runtime is that of a stored answer.
-/
import Corpus.Access
import Corpus.Process

namespace Corpus.Agent.Startup

/-! ### The table `identity` -/

abbrev IdentityRows := String → Option String

namespace IdentityRows

/-- `INSERT … ON CONFLICT(key) DO UPDATE SET value`. -/
def set (d : IdentityRows) (key value : String) : IdentityRows :=
  Function.update d key (some value)

/-- The writes of one transaction. -/
def setMany (d : IdentityRows) (pairs : List (String × String)) : IdentityRows :=
  pairs.foldl (fun d e => d.set e.1 e.2) d

theorem setMany_of_notMem {k : String} : ∀ {pairs : List (String × String)} {d : IdentityRows},
    k ∉ pairs.map Prod.fst → d.setMany pairs k = d k := by
  intro pairs
  induction pairs with
  | nil => exact fun _ => rfl
  | cons e pairs ih =>
    intro d hk
    rw [List.map_cons, List.mem_cons, not_or] at hk
    exact (ih hk.2).trans (Function.update_of_ne hk.1 _ _)

theorem setMany_of_mem {e : String × String} : ∀ {pairs : List (String × String)}
    {d : IdentityRows}, (pairs.map Prod.fst).Nodup → e ∈ pairs →
    d.setMany pairs e.1 = some e.2 := by
  intro pairs
  induction pairs with
  | nil => exact fun _ he => absurd he List.not_mem_nil
  | cons e' pairs ih =>
    intro d hnodup he
    obtain ⟨hnew, hnodup⟩ := List.nodup_cons.mp hnodup
    rcases List.mem_cons.mp he with rfl | he
    · have hlast : (d.set e.1 e.2).setMany pairs e.1 = d.set e.1 e.2 e.1 := setMany_of_notMem hnew
      exact hlast.trans (Function.update_self _ _ _)
    · exact ih hnodup he

end IdentityRows

/-! ### The start -/

/-- `reqwest`: which PEM texts it loads as an identity and as a root, and whether it builds a
client of the two. -/
structure Reqwest where
  identity : String → Bool
  root : String → Bool
  client : String → String → Bool

/-- What a start reads of its `Config`, and of the machine: `hostname` and `os_boot_id`. -/
structure StartConfig where
  serverUrl : String
  agentUrl : Option String
  enrollmentToken : Option String
  hostName : Option String
  version : String
  osHost : String
  osBoot : String
  reqwest : Reqwest

/-- The error of the database, if it fails, and the answer to `Uploader::enroll`. -/
structure StartEnv where
  sqlite : Option String
  reply : Except String EnrollResponse

/-- The operations of a start. -/
inductive StartPt where
  | getIdentity (key : String)
  | setIdentityMany (pairs : List (String × String))
  | enroll (req : EnrollRequest)

abbrev StartProg := Prog StartPt IdentityRows StartEnv String

/-- `get_identity`. -/
def getIdentity (key : String) : StartProg (Option String) :=
  .exec (.getIdentity key) fun d i =>
    match i.sqlite with
    | some e => .error e
    | none => .ok (d key, d)

/-- `set_identity_many`, one transaction. -/
def setIdentityMany (pairs : List (String × String)) : StartProg Unit :=
  .exec (.setIdentityMany pairs) fun d i =>
    match i.sqlite with
    | some e => .error e
    | none => .ok ((), d.setMany pairs)

/-- `Uploader::enroll`. -/
def uploaderEnroll (req : EnrollRequest) : StartProg EnrollResponse :=
  .exec (.enroll req) fun d i => i.reply.map fun r => (r, d)

/-- What `ensure_identity` stores of the answer. -/
def identityPairs (showUuid : Uuid → String) (r : EnrollResponse) : List (String × String) :=
  [("agent_id", showUuid r.agentId), ("agent_token", r.agentToken), ("ca_cert_pem", r.caCertPem),
    ("client_cert_pem", r.clientCertPem), ("client_key_pem", r.clientKeyPem)]

/-- `ensure_identity` where the database has none. -/
def enrollAnew (cfg : AccessConfig) (c : StartConfig) : StartProg (Uuid × String) :=
  match c.enrollmentToken with
  | none => Prog.err "no identity in state db and no enrollment_token in config"
  | some token => do
    let resp ← uploaderEnroll ⟨token, c.hostName.getD c.osHost, c.version⟩
    setIdentityMany (identityPairs cfg.showUuid resp)
    return (resp.agentId, resp.agentToken)

/-- `ensure_identity`. -/
def ensureIdentity (cfg : AccessConfig) (c : StartConfig) : StartProg (Uuid × String) := do
  let id ← getIdentity "agent_id"
  let token ← getIdentity "agent_token"
  match id, token with
  | some id, some token =>
    match cfg.parseUuid id with
    | some agent => return (agent, token)
    | none => Prog.err "invalid agent_id"
  | some _, none | none, _ => enrollAnew cfg c

/-- `refresh_boot_identity`. -/
def refreshBootIdentity (current : String) : StartProg Bool := do
  let stored ← getIdentity "boot_id"
  if stored = some current then return false
  else
    setIdentityMany [("boot_id", current), ("agent_sequence", "0")]
    return stored.isSome

/-- `str::trim_start_matches`, of a text that is not empty. -/
def trimStartMatches (pre s : String) : String :=
  String.ofList (go s.length s.toList)
where
  go : ℕ → List Char → List Char
    | 0, cs => cs
    | n + 1, cs => if pre.toList.isPrefixOf cs then go n (cs.drop pre.length) else cs

/-- `derive_agent_url`. -/
def deriveAgentUrl (serverUrl : String) : String :=
  let rest := trimStartMatches "https://" (trimStartMatches "http://" serverUrl)
  let host := String.ofList (rest.toList.takeWhile (· ≠ ':'))
  s!"https://{host}:8443"

/-- The mTLS client of an agent: where it sends, and its certificates. -/
structure Uploader where
  base : String
  caCertPem : String
  clientCertPem : String
  clientKeyPem : String

/-- `Uploader::new_mtls`; slashes at the end of the base are dropped. -/
def Uploader.newMtls (lib : Reqwest) (base caPem certPem keyPem : String) :
    Except String Uploader :=
  let identity := certPem ++ "\n" ++ keyPem
  if !lib.identity identity then .error "loading client identity"
  else if !lib.root caPem then .error "loading CA root"
  else if !lib.client identity caPem then .error "building mTLS client"
  else .ok ⟨String.ofList (base.toList.reverse.dropWhile (· = '/')).reverse, caPem, certPem, keyPem⟩

/-- `mtls_uploader`. -/
def mtlsUploader (c : StartConfig) : StartProg Uploader := do
  let ca ← getIdentity "ca_cert_pem"
  let cert ← getIdentity "client_cert_pem"
  let key ← getIdentity "client_key_pem"
  match ca, cert, key with
  | some ca, some cert, some key =>
    match Uploader.newMtls c.reqwest (c.agentUrl.getD (deriveAgentUrl c.serverUrl)) ca cert key with
    | .ok uploader => return uploader
    | .error e => Prog.err e
  | none, _, _ | some _, none, _ | some _, some _, none =>
    Prog.err "missing mTLS client cert material; delete state and re-enroll"

/-- `AgentRuntime`, as far as the identity goes. -/
structure Runtime where
  agentId : Uuid
  uploader : Uploader

/-- `run` up to the runtime. -/
def startUp (cfg : AccessConfig) (c : StartConfig) : StartProg Runtime := do
  let ident ← ensureIdentity cfg c
  let _ ← refreshBootIdentity c.osBoot
  let uploader ← mtlsUploader c
  return ⟨ident.1, uploader⟩

/-! ### Identities -/

/-- The keys of an identity. -/
def identityKeys : List String :=
  ["agent_id", "agent_token", "ca_cert_pem", "client_cert_pem", "client_key_pem"]

theorem keys_identityPairs (showUuid : Uuid → String) (r : EnrollResponse) :
    (identityPairs showUuid r).map Prod.fst = identityKeys := rfl

/-- The identity is the same. -/
def SameIdentity (d d' : IdentityRows) : Prop := ∀ k ∈ identityKeys, d' k = d k

def NoIdentity (d : IdentityRows) : Prop := ∀ k ∈ identityKeys, d k = none

/-- The identity is that of the answer. -/
structure Holds (cfg : AccessConfig) (d : IdentityRows) (r : EnrollResponse) : Prop where
  agentId : d "agent_id" = some (cfg.showUuid r.agentId)
  agentToken : d "agent_token" = some r.agentToken
  caCert : d "ca_cert_pem" = some r.caCertPem
  clientCert : d "client_cert_pem" = some r.clientCertPem
  clientKey : d "client_key_pem" = some r.clientKeyPem

variable {cfg : AccessConfig} {d d' d'' : IdentityRows} {r : EnrollResponse}
  {D : EnrollResponse → Prop}

theorem SameIdentity.refl (d : IdentityRows) : SameIdentity d d := fun _ _ => rfl

theorem SameIdentity.trans (h : SameIdentity d d') (h' : SameIdentity d' d'') :
    SameIdentity d d'' := fun k hk => (h' k hk).trans (h k hk)

theorem NoIdentity.same (h : NoIdentity d) (hd : SameIdentity d d') : NoIdentity d' :=
  fun k hk => (hd k hk).trans (h k hk)

theorem Holds.same (h : Holds cfg d r) (hd : SameIdentity d d') : Holds cfg d' r where
  agentId := (hd _ (by decide)).trans h.agentId
  agentToken := (hd _ (by decide)).trans h.agentToken
  caCert := (hd _ (by decide)).trans h.caCert
  clientCert := (hd _ (by decide)).trans h.clientCert
  clientKey := (hd _ (by decide)).trans h.clientKey

theorem holds_setMany (cfg : AccessConfig) (d : IdentityRows) (r : EnrollResponse) :
    Holds cfg (d.setMany (identityPairs cfg.showUuid r)) r := by
  have hnodup : ((identityPairs cfg.showUuid r).map Prod.fst).Nodup := by
    rw [keys_identityPairs]
    decide
  have hpair : ∀ e ∈ identityPairs cfg.showUuid r,
      d.setMany (identityPairs cfg.showUuid r) e.1 = some e.2 :=
    fun e he => IdentityRows.setMany_of_mem hnodup he
  simp only [identityPairs, List.forall_mem_cons, List.not_mem_nil, false_implies,
    implies_true, and_true] at hpair
  obtain ⟨h₁, h₂, h₃, h₄, h₅⟩ := hpair
  exact ⟨h₁, h₂, h₃, h₄, h₅⟩

theorem sameIdentity_setMany {pairs : List (String × String)}
    (h : ∀ k ∈ identityKeys, k ∉ pairs.map Prod.fst) : SameIdentity d (d.setMany pairs) :=
  fun k hk => IdentityRows.setMany_of_notMem (h k hk)

/-- There is no identity, or that of an answer in `D`. -/
def Settled (cfg : AccessConfig) (D : EnrollResponse → Prop) (d : IdentityRows) : Prop :=
  NoIdentity d ∨ ∃ r, D r ∧ Holds cfg d r

/-- The identity stays the same, or there was none, and now there is that of an answer in `D`. -/
def Stores (cfg : AccessConfig) (D : EnrollResponse → Prop) (d d' : IdentityRows) : Prop :=
  SameIdentity d d' ∨ (NoIdentity d ∧ ∃ r, D r ∧ Holds cfg d' r)

theorem Settled.same (h : Settled cfg D d) (hd : SameIdentity d d') : Settled cfg D d' := by
  rcases h with h | ⟨r, hr, h⟩
  · exact .inl (h.same hd)
  · exact .inr ⟨r, hr, h.same hd⟩

theorem Settled.stores (h : Settled cfg D d) (hd : Stores cfg D d d') : Settled cfg D d' := by
  rcases hd with hd | ⟨-, hd⟩
  · exact h.same hd
  · exact .inr hd

/-- A key that is there stays. -/
theorem Stores.get (h : Stores cfg D d d') {k v : String} (hk : k ∈ identityKeys)
    (hv : d k = some v) : d' k = some v := by
  rcases h with h | ⟨hno, -⟩
  · exact (h k hk).trans hv
  · rw [hno k hk] at hv
    cases hv

/-! ### What a start guarantees -/

/-- The answers are those of `D`. -/
def Genuine (D : EnrollResponse → Prop) (l : StartPt) (i : StartEnv) : Prop :=
  ∀ req r, l = .enroll req → i.reply = .ok r → D r

/-- The server is asked only where there is no identity. -/
def Anew (l : StartPt) (d : IdentityRows) : Prop := ∀ req, l = .enroll req → NoIdentity d

/-- The runtime is that of a stored answer. -/
def RunsAs (cfg : AccessConfig) (D : EnrollResponse → Prop) (u : Runtime) (d : IdentityRows) :
    Prop :=
  ∃ r, D r ∧ Holds cfg d r ∧ u.agentId = r.agentId ∧ u.uploader.caCertPem = r.caCertPem ∧
    u.uploader.clientCertPem = r.clientCertPem ∧ u.uploader.clientKeyPem = r.clientKeyPem

/-- A program of the start, among writes of other keys. -/
abbrev Starts (cfg : AccessConfig) (D : EnrollResponse → Prop) {α : Type}
    (Q : α → IdentityRows → Prop) (p : StartProg α) (d : IdentityRows) : Prop :=
  p.Guarantees SameIdentity (Stores cfg D) (Genuine D) Anew Q d

theorem starts_getIdentity {key : String} {J : IdentityRows → Prop}
    (hJ : ∀ d d', SameIdentity d d' → J d → J d') (hd : J d) :
    Starts cfg D (fun v d => v = d key ∧ J d) (getIdentity key) d := by
  refine Prog.guarantees_exec (fun d => .inl (.refl d)) (fun _ _ _ h => nomatch h) ?_
  intro d' hd' i _ v d'' hrun
  cases hsql : i.sqlite with
  | some e =>
    rw [hsql] at hrun
    cases hrun
  | none =>
    rw [hsql] at hrun
    cases hrun
    exact ⟨.inl (.refl d'), rfl, hJ _ _ hd' hd⟩

theorem starts_setIdentityMany {pairs : List (String × String)} {Q : Unit → IdentityRows → Prop}
    (h : ∀ d', SameIdentity d d' → Stores cfg D d' (d'.setMany pairs) ∧ Q () (d'.setMany pairs)) :
    Starts cfg D Q (setIdentityMany pairs) d := by
  refine Prog.guarantees_exec (fun d => .inl (.refl d)) (fun _ _ _ h => nomatch h) ?_
  intro d' hd' i _ v d'' hrun
  cases hsql : i.sqlite with
  | some e =>
    rw [hsql] at hrun
    cases hrun
  | none =>
    rw [hsql] at hrun
    cases hrun
    exact h d' hd'

theorem starts_enrollAnew (c : StartConfig) (hd : NoIdentity d) :
    Starts cfg D (fun id d => ∃ r, D r ∧ Holds cfg d r ∧ id = (r.agentId, r.agentToken))
      (enrollAnew cfg c) d := by
  unfold enrollAnew
  split
  · trivial
  · refine Prog.guarantees_bind (Q := fun r d => D r ∧ NoIdentity d) ?_ fun r d₁ hr => ?_
    · refine Prog.guarantees_exec (fun d => .inl (.refl d)) (fun d' hd' _ _ => hd.same hd') ?_
      intro d' hd' i hi r d'' hrun
      cases hreply : i.reply with
      | error e =>
        rw [hreply] at hrun
        cases hrun
      | ok r' =>
        rw [hreply] at hrun
        cases hrun
        exact ⟨.inl (.refl d'), hi _ _ rfl hreply, hd.same hd'⟩
    · refine Prog.guarantees_bind (Q := fun _ d => Holds cfg d r) ?_ fun _ d₂ hholds => ?_
      · refine starts_setIdentityMany fun d' hd' => ⟨.inr ⟨hr.2.same hd', r, hr.1, ?_⟩, ?_⟩
        · exact holds_setMany cfg d' r
        · exact holds_setMany cfg d' r
      · exact ⟨r, hr.1, hholds, rfl⟩

theorem starts_ensureIdentity (htext : ∀ u, cfg.parseUuid (cfg.showUuid u) = some u)
    (c : StartConfig) (hd : Settled cfg D d) :
    Starts cfg D (fun id d => ∃ r, D r ∧ Holds cfg d r ∧ id = (r.agentId, r.agentToken))
      (ensureIdentity cfg c) d := by
  refine Prog.guarantees_bind (starts_getIdentity (J := Settled cfg D)
    (fun _ _ h hs => hs.same h) hd) ?_
  rintro id d₁ ⟨rfl, hd₁⟩
  refine Prog.guarantees_bind (starts_getIdentity
    (J := fun d => d "agent_id" = d₁ "agent_id" ∧ Settled cfg D d) ?_ ⟨rfl, hd₁⟩) ?_
  · exact fun d d' h hJ => ⟨(h _ (by decide)).trans hJ.1, hJ.2.same h⟩
  rintro token d₂ ⟨rfl, hid, hd₂⟩
  rw [← hid]
  rcases hd₂ with hno | ⟨r, hr, hholds⟩
  · rw [hno "agent_id" (by decide)]
    exact starts_enrollAnew c hno
  · rw [hholds.agentId, hholds.agentToken]
    dsimp only
    rw [htext]
    exact ⟨r, hr, hholds, rfl⟩

theorem starts_refreshBootIdentity {J : IdentityRows → Prop} (current : String)
    (hJ : ∀ d d', SameIdentity d d' → J d → J d') (hd : J d) :
    Starts cfg D (fun _ d => J d) (refreshBootIdentity current) d := by
  refine Prog.guarantees_bind (starts_getIdentity hJ hd) fun stored d₁ hd₁ => ?_
  split
  · exact hd₁.2
  · refine Prog.guarantees_bind (Q := fun _ d => J d) ?_ fun _ _ hd₂ => hd₂
    refine starts_setIdentityMany fun d' hd' => ?_
    have hkeys : ∀ k ∈ identityKeys, k ∉ ["boot_id", "agent_sequence"] := by decide
    have hother : SameIdentity d' (d'.setMany [("boot_id", current), ("agent_sequence", "0")]) :=
      sameIdentity_setMany hkeys
    exact ⟨.inl hother, hJ _ _ (hd'.trans hother) hd₁.2⟩

/-- A client has the texts that it was built of. -/
theorem newMtls_ok {lib : Reqwest} {base caPem certPem keyPem : String} {u : Uploader}
    (h : Uploader.newMtls lib base caPem certPem keyPem = .ok u) :
    u.caCertPem = caPem ∧ u.clientCertPem = certPem ∧ u.clientKeyPem = keyPem := by
  unfold Uploader.newMtls at h
  dsimp only at h
  split_ifs at h
  obtain rfl := Except.ok.inj h
  exact ⟨rfl, rfl, rfl⟩

/-- The material of a stored identity is complete. -/
theorem starts_mtlsUploader (c : StartConfig) (hd : Holds cfg d r) :
    Starts cfg D (fun u d => Holds cfg d r ∧ u.caCertPem = r.caCertPem ∧
      u.clientCertPem = r.clientCertPem ∧ u.clientKeyPem = r.clientKeyPem) (mtlsUploader c) d := by
  have hJ : ∀ d d', SameIdentity d d' → Holds cfg d r → Holds cfg d' r := fun _ _ h hs => hs.same h
  refine Prog.guarantees_bind (starts_getIdentity hJ hd) ?_
  rintro ca d₁ ⟨rfl, hd₁⟩
  refine Prog.guarantees_bind (starts_getIdentity hJ hd₁) ?_
  rintro cert d₂ ⟨rfl, hd₂⟩
  refine Prog.guarantees_bind (starts_getIdentity hJ hd₂) ?_
  rintro key d₃ ⟨rfl, hd₃⟩
  rw [hd₁.caCert, hd₂.clientCert, hd₃.clientKey]
  dsimp only
  cases hnew : Uploader.newMtls c.reqwest (c.agentUrl.getD (deriveAgentUrl c.serverUrl)) r.caCertPem
      r.clientCertPem r.clientKeyPem with
  | error e => trivial
  | ok u =>
    obtain ⟨hca, hcert, hkey⟩ := newMtls_ok hnew
    exact ⟨hd₃, hca, hcert, hkey⟩

/-- **Each start** keeps an identity it finds, and stores a whole one where it finds none. -/
theorem startUp_guarantees (htext : ∀ u, cfg.parseUuid (cfg.showUuid u) = some u)
    (c : StartConfig) (hd : Settled cfg D d) : Starts cfg D (RunsAs cfg D) (startUp cfg c) d := by
  refine Prog.guarantees_bind (starts_ensureIdentity htext c hd) ?_
  rintro id d₁ ⟨r, hr, hholds, rfl⟩
  refine Prog.guarantees_bind (starts_refreshBootIdentity c.osBoot
    (fun _ _ h hs => Holds.same hs h) hholds) fun _ d₂ hd₂ => ?_
  refine Prog.guarantees_bind (starts_mtlsUploader c hd₂) ?_
  rintro u d₃ ⟨hd₃, hca, hcert, hkey⟩
  exact ⟨r, hr, hd₃, rfl, hca, hcert, hkey⟩

end Corpus.Agent.Startup
