/-
Client certificates (`mtls.rs`).

The server signs a certificate for an agent when it enrolls, in the name of its id and for 30 days.
Every client of the agent listener presents one in its TLS handshake, and is the agent whose id its
certificate names.

* `agentIdFromCertDer_signed` — the id that was signed for is the id that is read;
* `handshake_signed` — the certificate gets through the handshake until it expires, and not later.

The crates that make, print, read and check certificates are parameters; `Pki.Lawful` is what is
known of them.
-/
import Corpus.Basic
import Corpus.CharClasses
import Mathlib.Data.Countable.Basic
import Mathlib.Logic.Equiv.List

namespace Corpus

/-! ### The crates -/

/-- A key pair, in PKCS #8. -/
abbrev KeyPair := Bytes

/-- `rcgen::CertificateParams`, as far as it is set here; times are in seconds. -/
structure CertificateParams where
  subjectAltNames : List String
  commonName : String
  notBefore : ℤ
  notAfter : ℤ

/-- The crates.  Each function fails with the text of its error. -/
structure Pki where
  /-- `rcgen`: `KeyPair::from_pem` and `serialize_pem` -/
  keyFromPem : String → Except String KeyPair
  serializePem : KeyPair → String
  publicKey : KeyPair → Bytes
  /-- `CertificateParams::new` and `from_ca_cert_pem` -/
  certificateParams : List String → Except String CertificateParams
  fromCaCertPem : String → Except String CertificateParams
  selfSigned : CertificateParams → KeyPair → Except String Bytes
  /-- `signed_by`, of the subject's key, the issuer and the issuer's key; signatures are drawn -/
  signedBy : CertificateParams → KeyPair → CertificateParams → KeyPair → ℕ → Except String Bytes
  pem : Bytes → String
  /-- `rustls_pemfile` -/
  certs : String → Except String (List Bytes)
  pkcs8PrivateKeys : String → Except String (List KeyPair)
  /-- `x509_parser`: the common names of the subject; `none` is one that is not a text -/
  commonNames : Bytes → Except String (List (Option String))
  subjectKey : Bytes → Option Bytes
  /-- `rustls`: `RootCertStore::add`, `with_single_cert`, and whether a certificate is that of a
  client of the root at the second -/
  addRoot : Bytes → Except String Unit
  withSingleCert : List Bytes → KeyPair → Except String Unit
  verifies : Bytes → Bytes → ℤ → Bool

/-- `DeploymentCa`. -/
structure DeploymentCa where
  certPem : String
  keyPem : String
  serverCertPem : String
  serverKeyPem : String
  dir : String

/-- What is drawn for a certificate: `KeyPair::generate`, and what the signature needs. -/
structure CertDraw where
  key : Except String KeyPair
  nonce : ℕ

/-! ### Certificates -/

/-- `DEFAULT_TTL_DAYS`. -/
def defaultTtlDays : ℕ := 30

/-- The second of a time in microseconds. -/
def unixSecond (t : Time) : ℤ := t / 1000000

/-- `expiry`, to the second. -/
def expiry (ttlDays : ℕ) (now : Time) : ℤ := unixSecond now + ttlDays * 86400

/-- `load_ca_cert`. -/
def loadCaCert (pki : Pki) (ca : DeploymentCa) : Except Error CertificateParams := do
  let key ← (pki.keyFromPem ca.keyPem).mapError .badRequest
  let params ← (pki.fromCaCertPem ca.certPem).mapError fun e =>
    .badRequest ("reload CA cert: " ++ e)
  let _ ← (pki.selfSigned params key).mapError .badRequest
  return params

/-- `sign_client_cert`, of the text of the id. -/
def signClientCert (pki : Pki) (ca : DeploymentCa) (agentId : String) (ttlDays : ℕ) (now : Time)
    (draw : CertDraw) : Except Error (String × String) := do
  let caCert ← loadCaCert pki ca
  let caKey ← (pki.keyFromPem ca.keyPem).mapError .badRequest
  let agentKey ← draw.key.mapError .badRequest
  let params ← (pki.certificateParams [agentId]).mapError .badRequest
  -- A name that is pushed takes the place of the default one.
  let params := { params with commonName := agentId, notAfter := expiry ttlDays now }
  let der ← (pki.signedBy params agentKey caCert caKey draw.nonce).mapError .badRequest
  return (pki.pem der, pki.serializePem agentKey)

/-- `pem_der`. -/
def pemDer (pki : Pki) (pem : String) : Except Error Bytes := do
  match ← (pki.certs pem).mapError fun e => .badRequest ("pem: " ++ e) with
  | der :: _ => return der
  | [] => throw (.badRequest "empty pem")

/-- `pem_key_der`. -/
def pemKeyDer (pki : Pki) (pem : String) : Except Error KeyPair := do
  match ← (pki.pkcs8PrivateKeys pem).mapError fun e => .badRequest ("key pem: " ++ e) with
  | key :: _ => return key
  | [] => throw (.badRequest "no pkcs8 key in pem")

/-- `ca_roots`. -/
def caRoots (pki : Pki) (caPem : String) : Except Error Bytes := do
  let root ← pemDer pki caPem
  (pki.addRoot root).mapError fun e => .badRequest ("CA root: " ++ e)
  return root

/-- `server_config`: the root of the clients' certificates. -/
def serverConfig (pki : Pki) (ca : DeploymentCa) : Except Error Bytes := do
  let root ← caRoots pki ca.certPem
  let chain := [← pemDer pki ca.serverCertPem, ← pemDer pki ca.certPem]
  let key ← pemKeyDer pki ca.serverKeyPem
  (pki.withSingleCert chain key).mapError fun e => .badRequest ("server cert: " ++ e)
  return root

/-- A handshake with the agent listener, of a client with a certificate and a key: the certificate
of the connection, if there is one. -/
def handshake (pki : Pki) (ca : DeploymentCa) (now : Time) (der : Bytes) (key : KeyPair) :
    Option Bytes :=
  match serverConfig pki ca with
  | .error _ => none
  | .ok root =>
    if pki.verifies root der (unixSecond now) ∧ pki.subjectKey der = some (pki.publicKey key) then
      some der
    else none

/-- `agent_id_from_cert_der`. -/
def agentIdFromCertDer (pki : Pki) (parseUuid : String → Option Uuid) (der : Bytes) :
    Except Error Uuid :=
  match pki.commonNames der with
  | .error e => .error (.unauthorized ("peer cert parse: " ++ e))
  | .ok names =>
    match names.findSome? fun name => name.bind parseUuid with
    | some id => .ok id
    | none => .error (.unauthorized "peer cert has no agent UUID CN")

/-! ### What is signed is read -/

/-- 1975, when certificates begin unless they are told. -/
def certificateStart : ℤ := 157766400

/-- What is known of the crates: what is printed is read; a certificate has the name and the key
that it was signed for; and it is one of a client of its issuer from its first to its last
second. -/
structure Pki.Lawful (pki : Pki) : Prop where
  certs_pem : ∀ der, pki.certs (pki.pem der) = .ok [der]
  keys_serializePem : ∀ key, pki.pkcs8PrivateKeys (pki.serializePem key) = .ok [key]
  notBefore_new : ∀ names params, pki.certificateParams names = .ok params →
    params.notBefore = certificateStart
  signed : ∀ params key issuer issuerKey nonce der,
    pki.signedBy params key issuer issuerKey nonce = .ok der →
      pki.commonNames der = .ok [some params.commonName] ∧
      pki.subjectKey der = some (pki.publicKey key)
  verified : ∀ caPem params key issuer issuerKey nonce root der second,
    pki.fromCaCertPem caPem = .ok issuer → pemDer pki caPem = .ok root →
      pki.subjectKey root = some (pki.publicKey issuerKey) →
      pki.signedBy params key issuer issuerKey nonce = .ok der →
      (pki.verifies root der second = true ↔ params.notBefore ≤ second ∧ second ≤ params.notAfter)

/-- The certificate of the CA is of its key, as where both were made in one start. -/
def DeploymentCa.Paired (pki : Pki) (ca : DeploymentCa) : Prop :=
  ∀ root key, pemDer pki ca.certPem = .ok root → pki.keyFromPem ca.keyPem = .ok key →
    pki.subjectKey root = some (pki.publicKey key)

section Signed

variable {pki : Pki} {ca : DeploymentCa} {agentId certPem keyPem : String} {ttlDays : ℕ}
  {now : Time} {draw : CertDraw}

/-- A step that has not failed. -/
theorem ok_of_bind {ε α β : Type} {x : Except ε α} {f : α → Except ε β} {b : β}
    (h : x >>= f = .ok b) : ∃ a, x = .ok a ∧ f a = .ok b := by
  cases x with
  | error e => cases h
  | ok a => exact ⟨a, rfl, h⟩

theorem ok_of_mapError {ε ε' α : Type} {x : Except ε α} {f : ε → ε'} {a : α}
    (h : x.mapError f = .ok a) : x = .ok a := by
  cases x with
  | error e => cases h
  | ok a' => exact congrArg Except.ok (Except.ok.inj h)

/-- What is signed. -/
theorem signClientCert_ok
    (h : signClientCert pki ca agentId ttlDays now draw = .ok (certPem, keyPem)) :
    ∃ issuer caKey key params der, pki.fromCaCertPem ca.certPem = .ok issuer ∧
      pki.keyFromPem ca.keyPem = .ok caKey ∧ draw.key = .ok key ∧
      pki.certificateParams [agentId] = .ok params ∧
      pki.signedBy { params with commonName := agentId, notAfter := expiry ttlDays now } key issuer
        caKey draw.nonce = .ok der ∧ certPem = pki.pem der ∧ keyPem = pki.serializePem key := by
  obtain ⟨issuer, hissuer, h⟩ := ok_of_bind h
  obtain ⟨caKey, hcaKey, h⟩ := ok_of_bind h
  obtain ⟨key, hkey, h⟩ := ok_of_bind h
  obtain ⟨params, hparams, h⟩ := ok_of_bind h
  obtain ⟨der, hder, h⟩ := ok_of_bind h
  obtain ⟨rfl, rfl⟩ := Prod.mk.inj (Except.ok.inj h)
  obtain ⟨_, -, hload⟩ := ok_of_bind hissuer
  obtain ⟨params', hparams', hload⟩ := ok_of_bind hload
  obtain ⟨_, -, hload⟩ := ok_of_bind hload
  obtain rfl := Except.ok.inj hload
  exact ⟨params', caKey, key, params, der, ok_of_mapError hparams', ok_of_mapError hcaKey,
    ok_of_mapError hkey, ok_of_mapError hparams, ok_of_mapError hder, rfl, rfl⟩

theorem pemDer_pem (hpki : pki.Lawful) (der : Bytes) : pemDer pki (pki.pem der) = .ok der := by
  rw [pemDer, hpki.certs_pem]
  rfl

theorem pemKeyDer_serializePem (hpki : pki.Lawful) (key : KeyPair) :
    pemKeyDer pki (pki.serializePem key) = .ok key := by
  rw [pemKeyDer, hpki.keys_serializePem]
  rfl

theorem serverConfig_root {root : Bytes} (h : serverConfig pki ca = .ok root) :
    pemDer pki ca.certPem = .ok root := by
  obtain ⟨root', hroot, h⟩ := ok_of_bind h
  obtain ⟨der, hder, hroot⟩ := ok_of_bind hroot
  obtain ⟨_, -, hroot⟩ := ok_of_bind hroot
  obtain rfl := Except.ok.inj hroot
  obtain ⟨_, -, h⟩ := ok_of_bind h
  obtain ⟨_, -, h⟩ := ok_of_bind h
  obtain ⟨_, -, h⟩ := ok_of_bind h
  obtain ⟨_, -, h⟩ := ok_of_bind h
  obtain rfl := Except.ok.inj h
  exact hder

/-- **The id that was signed for is the id that is read.** -/
theorem agentIdFromCertDer_signed (hpki : pki.Lawful) {showUuid : Uuid → String}
    {parseUuid : String → Option Uuid} (htext : ∀ u, parseUuid (showUuid u) = some u) {agent : Uuid}
    (h : signClientCert pki ca (showUuid agent) ttlDays now draw = .ok (certPem, keyPem)) :
    ∃ der, pemDer pki certPem = .ok der ∧ agentIdFromCertDer pki parseUuid der = .ok agent := by
  obtain ⟨issuer, caKey, key, params, der, -, -, -, -, hder, rfl, -⟩ := signClientCert_ok h
  refine ⟨der, pemDer_pem hpki der, ?_⟩
  rw [agentIdFromCertDer, (hpki.signed _ _ _ _ _ _ hder).1]
  dsimp only [List.findSome?_cons, Option.bind_some]
  rw [htext]

/-- **The certificate gets through until it expires**, and not later. -/
theorem handshake_signed (hpki : pki.Lawful) (hca : ca.Paired pki) {root : Bytes}
    (hlisten : serverConfig pki ca = .ok root)
    (h : signClientCert pki ca agentId ttlDays now draw = .ok (certPem, keyPem)) :
    ∃ der key, pemDer pki certPem = .ok der ∧ pemKeyDer pki keyPem = .ok key ∧
      ∀ later, handshake pki ca later der key =
        if certificateStart ≤ unixSecond later ∧ unixSecond later ≤ expiry ttlDays now then some der
        else none := by
  obtain ⟨issuer, caKey, key, params, der, hissuer, hcaKey, -, hparams, hder, rfl, rfl⟩ :=
    signClientCert_ok h
  refine ⟨der, key, pemDer_pem hpki der, pemKeyDer_serializePem hpki key, fun later => ?_⟩
  have hroot := serverConfig_root hlisten
  have hverified := hpki.verified _ _ _ _ _ _ _ _ (unixSecond later) hissuer hroot
    (hca root caKey hroot hcaKey) hder
  rw [hpki.notBefore_new _ _ hparams] at hverified
  rw [handshake, hlisten]
  exact if_congr ((and_iff_left (hpki.signed _ _ _ _ _ _ hder).2).trans hverified) rfl rfl

end Signed

/-! ### Crates that are lawful -/

/-- A certificate on paper: its name, its first and its last second, its key and that of its
signer. -/
abbrev PaperCert := String × ℤ × ℤ × Bytes × Bytes

theorem exists_paperDer : ∃ f : PaperCert → Bytes, Function.Injective f := by
  have hbyte : Function.Injective UInt8.toNat := fun _ _ => UInt8.toNat_inj.mp
  have hchar : Function.Injective Char.toNat := fun _ _ h => Char.ext (UInt32.toNat_inj.mp h)
  have htext : Function.Injective String.toList := fun _ _ => String.ext
  have := hbyte.countable
  have := hchar.countable
  have := htext.countable
  obtain ⟨g, hg⟩ := exists_injective_nat PaperCert
  refine ⟨fun c => List.replicate (g c) 0, fun c d h => hg ?_⟩
  have hlength := congrArg List.length h
  rwa [List.length_replicate, List.length_replicate] at hlength

/-- Some way to write certificates as bytes. -/
noncomputable def paperDer : PaperCert → Bytes := exists_paperDer.choose

noncomputable def readDer : Bytes → Option PaperCert := Function.partialInv paperDer

theorem readDer_paperDer (c : PaperCert) : readDer (paperDer c) = some c :=
  Function.partialInv_left exists_paperDer.choose_spec c

/-- Bytes as the characters of their numbers. -/
def latin (bytes : Bytes) : String := String.ofList (bytes.map fun b => Char.ofNat b.toNat)

def latinBytes (s : String) : Bytes := s.toList.map fun c => UInt8.ofNat c.toNat

theorem latinBytes_latin (bytes : Bytes) : latinBytes (latin bytes) = bytes := by
  have hbyte : ∀ b : UInt8, UInt8.ofNat (Char.ofNat b.toNat).toNat = b := by
    intro b
    have hlt := b.toNat_lt
    have hvalid : b.toNat.isValidChar := .inl (by omega)
    rw [Char.toNat_ofNat_of_valid hvalid, UInt8.ofNat_toNat]
  rw [latinBytes, latin, String.toList_ofList, List.map_map]
  exact (List.map_congr_left fun b _ => hbyte b).trans (List.map_id _)

/-- Crates that keep what is said of them; a pair of keys is one key. -/
noncomputable def Pki.paper : Pki where
  keyFromPem pem := .ok (latinBytes pem)
  serializePem := latin
  publicKey := id
  certificateParams names := .ok ⟨names, "rcgen self signed cert", certificateStart, 67090118400⟩
  fromCaCertPem _ := .ok ⟨["corpus-deployment-ca"], "Corpus Deployment CA", certificateStart, 67090118400⟩
  selfSigned params key :=
    .ok (paperDer (params.commonName, params.notBefore, params.notAfter, key, key))
  signedBy params key _ issuerKey _ :=
    .ok (paperDer (params.commonName, params.notBefore, params.notAfter, key, issuerKey))
  pem := latin
  certs pem := .ok [latinBytes pem]
  pkcs8PrivateKeys pem := .ok [latinBytes pem]
  commonNames der :=
    match readDer der with
    | some c => .ok [some c.1]
    | none => .error "Parsing Error"
  subjectKey der := (readDer der).map fun c => c.2.2.2.1
  addRoot _ := .ok ()
  withSingleCert _ _ := .ok ()
  verifies root der second :=
    match readDer root, readDer der with
    | some r, some c => c.2.2.2.2 = r.2.2.2.1 && (c.2.1 ≤ second && second ≤ c.2.2.1)
    | some _, none | none, _ => false

theorem lawful_paper : Pki.paper.Lawful where
  certs_pem der := congrArg (fun bytes => Except.ok [bytes]) (latinBytes_latin der)
  keys_serializePem key := congrArg (fun bytes => Except.ok [bytes]) (latinBytes_latin key)
  notBefore_new names params h := by
    obtain rfl := Except.ok.inj h
    rfl
  signed params key issuer issuerKey nonce der h := by
    obtain rfl := Except.ok.inj h
    simp [Pki.paper, readDer_paperDer]
  verified caPem params key issuer issuerKey nonce root der second _ _ hkey h := by
    obtain rfl := Except.ok.inj h
    obtain ⟨c, hc, hroot⟩ := Option.map_eq_some_iff.mp hkey
    obtain rfl : c.2.2.2.1 = issuerKey := hroot
    simp [Pki.paper, readDer_paperDer, hc]

/-- A CA made with these. -/
noncomputable def DeploymentCa.paper : DeploymentCa where
  certPem := latin (paperDer ("Corpus Deployment CA", certificateStart, 67090118400, [9], [9]))
  keyPem := latin [9]
  serverCertPem := latin (paperDer ("corpus-server", certificateStart, 31536000, [8], [9]))
  serverKeyPem := latin [8]
  dir := "/var/lib/corpus/ca"

theorem paired_paper : DeploymentCa.paper.Paired Pki.paper := by
  intro root key hroot hkey
  have hder : pemDer Pki.paper (Pki.paper.pem (paperDer
      ("Corpus Deployment CA", certificateStart, 67090118400, [9], [9]))) = .ok root := hroot
  rw [pemDer_pem lawful_paper] at hder
  obtain rfl := Except.ok.inj hder
  have hkey' : latinBytes (latin [9]) = key := Except.ok.inj hkey
  rw [← hkey', latinBytes_latin]
  simp [Pki.paper, readDer_paperDer]

theorem listens_paper : ∃ root, serverConfig Pki.paper DeploymentCa.paper = .ok root := ⟨_, rfl⟩

end Corpus
