/-
The deployment CA (`load_or_create_ca` of `mtls.rs`).

The first start makes a CA and a certificate for the server and writes four files, each emptied
and then filled; later starts read them.  Agents pin the CA, so starts must agree on it.

* `ca_stable` — whatever starts came before and wherever they stopped, all that return hand out
  the same CA, and its files are of one generation.

`Path::exists` answers no for a file that cannot be looked at; a start for which this happens makes
a new CA over the old one.
-/
import Corpus.FirstStart
import Corpus.FuzzyWords
import Corpus.Mtls

namespace Corpus

/-- The files of `CORPUS_CA_DIR`. -/
inductive CaFile where
  | cert
  | key
  | serverCert
  | serverKey
  deriving DecidableEq

/-- What is generated: the texts of the four files. -/
structure CaTexts where
  certPem : String
  keyPem : String
  serverCertPem : String
  serverKeyPem : String

/-- What the system does at an operation: whether it fails, whether a file can be looked at, and
what the key generator makes. -/
structure CaIo where
  fails : Option String
  hidden : Bool
  generated : Except String CaTexts

abbrev CaProg (ι : Type) := FileProg CaFile UInt8 ι Error

/-- The file's content. -/
def CaTexts.content (g : CaTexts) : CaFile → Bytes
  | .cert => Fuzzy.asBytes g.certPem
  | .key => Fuzzy.asBytes g.keyPem
  | .serverCert => Fuzzy.asBytes g.serverCertPem
  | .serverKey => Fuzzy.asBytes g.serverKeyPem

variable {ι : Type}

/-- `read_to_string`. -/
def readText (io : ι → CaIo) (p : CaFile) : CaProg ι String :=
  .exec (.read p) fun s i =>
    match (io i).fails, s p with
    | some msg, _ => .error (.io msg)
    | none, none => .error (.io "No such file or directory (os error 2)")
    | none, some bytes =>
      match Fuzzy.fromUtf8 bytes with
      | some text => .ok (text, s)
      | none => .error (.io "stream did not contain valid UTF-8")

/-- The four files, in the order in which they are written. -/
def caFiles : List CaFile := [.cert, .key, .serverCert, .serverKey]

/-- `load_or_create_ca`. -/
def loadOrCreateCa (io : ι → CaIo) (dir : String) : CaProg ι DeploymentCa := do
  let fails := fun i => (io i).fails.map Error.io
  fileOp fails .makeDir id
  let there ← probeAll (fun i => (io i).hidden) caFiles
  if there then do
    let certPem ← readText io .cert
    let keyPem ← readText io .key
    let serverCertPem ← readText io .serverCert
    let serverKeyPem ← readText io .serverKey
    return ⟨certPem, keyPem, serverCertPem, serverKeyPem, dir⟩
  else do
    let g ← .exec .draw fun s i =>
      match (io i).generated with
      | .ok g => .ok (g, s)
      | .error msg => .error (.badRequest msg)
    putAll fails g.content caFiles
    return ⟨g.certPem, g.keyPem, g.serverCertPem, g.serverKeyPem, dir⟩

/-! ### What the starts keep -/

/-- The files, and what the starts so far have returned. -/
def CaKept (io : ι → CaIo) (dir : String) (as : List DeploymentCa)
    (s : FileStore CaFile UInt8) : Prop :=
  s .serverKey = none ∧ as = [] ∨
    ∃ i g, (io i).generated = .ok g ∧ (∀ p ∈ [.cert, .key, .serverCert], s p = some (g.content p)) ∧
      ∃ w, s .serverKey = some w ∧ w <+: g.content .serverKey ∧
        ∀ a ∈ as, a.certPem = g.certPem ∧ a.keyPem = g.keyPem ∧ a.serverCertPem = g.serverCertPem ∧
          Fuzzy.asBytes a.serverKeyPem = w ∧ a.dir = dir

section Kept

variable {io : ι → CaIo} {dir : String} {as : List DeploymentCa} {s : FileStore CaFile UInt8}

theorem text_injective : Function.Injective Fuzzy.asBytes := by
  intro t u h
  apply String.toByteArray_inj.mp
  apply ByteArray.ext
  exact Array.toList_inj.mp h

/-- A text that is read is what the file holds. -/
theorem wp_readText {p : CaFile} {W : FilePt CaFile → FileStore CaFile UInt8 → Prop}
    {Q : Except Error String → FileStore CaFile UInt8 → Prop} (hw : W (.read p) s)
    (herr : ∀ e, Q (.error e) s) (hok : ∀ t, s p = some (Fuzzy.asBytes t) → Q (.ok t) s) :
    Prog.wp W Q (readText io p) s := by
  refine Prog.wp_exec.mpr ⟨hw, fun i => ?_⟩
  cases hfails : (io i).fails with
  | some msg => exact herr _
  | none =>
    cases hp : s p with
    | none => exact herr _
    | some bytes =>
      dsimp only
      cases ht : Fuzzy.fromUtf8 bytes with
      | none => exact herr _
      | some t => exact hok t (by rw [hp, Fuzzy.Words.asBytes_of_fromUtf8 ht])

/-- A start that finds the files. -/
theorem wp_readCa (h : CaKept io dir as s) (hthere : s .serverKey ≠ none) :
    Prog.wp (fun _ s' => CaKept io dir as s')
      (fun r s' => CaKept io dir as s' ∧ ∀ a, r = .ok a → CaKept io dir (as ++ [a]) s')
      (do
        let certPem ← readText io .cert
        let keyPem ← readText io .key
        let serverCertPem ← readText io .serverCert
        let serverKeyPem ← readText io .serverKey
        return ⟨certPem, keyPem, serverCertPem, serverKeyPem, dir⟩) s := by
  have hkept := h
  obtain ⟨hnone, -⟩ | ⟨i, g, hg, hfiles, w, hlast, hpart, has⟩ := h
  · exact absurd hnone hthere
  -- Nothing is written, so every text is one of the generation.
  have hread : ∀ {β : Type} (p : CaFile) (k : String → CaProg ι β)
      (Q : Except Error β → FileStore CaFile UInt8 → Prop), (∀ e, Q (.error e) s) →
      (∀ t, s p = some (Fuzzy.asBytes t) → Prog.wp (fun _ s' => CaKept io dir as s') Q (k t) s) →
      Prog.wp (fun _ s' => CaKept io dir as s') Q (readText io p >>= k) s := by
    intro β p k Q herr hok
    refine Prog.wp_bind (wp_readText hkept (fun e => herr e) fun t ht => hok t ht)
  have hinj : ∀ {t u : String} {p : CaFile}, s p = some (Fuzzy.asBytes t) →
      s p = some (Fuzzy.asBytes u) → t = u := by
    intro t u p ht hu
    exact text_injective (Option.some.inj (ht.symm.trans hu))
  refine hread .cert _ _ (fun e => ⟨hkept, nofun⟩) fun certPem hcert => ?_
  refine hread .key _ _ (fun e => ⟨hkept, nofun⟩) fun keyPem hkey => ?_
  refine hread .serverCert _ _ (fun e => ⟨hkept, nofun⟩) fun serverCertPem hserver => ?_
  refine hread .serverKey _ _ (fun e => ⟨hkept, nofun⟩) fun serverKeyPem hserverKey => ?_
  refine ⟨hkept, fun a ha => .inr ⟨i, g, hg, hfiles, w, hlast, hpart, fun b hb => ?_⟩⟩
  obtain rfl := Except.ok.inj ha
  rcases List.mem_append.mp hb with hb | hb
  · exact has b hb
  · obtain rfl := List.mem_singleton.mp hb
    exact ⟨hinj hcert (hfiles .cert (by simp)), hinj hkey (hfiles .key (by simp)),
      hinj hserver (hfiles .serverCert (by simp)),
      Option.some.inj (hserverKey.symm.trans hlast), rfl⟩

/-- A start that makes a CA. -/
theorem wp_writeCa (hlast : s .serverKey = none) :
    Prog.wp (fun _ s' => CaKept io dir [] s')
      (fun r s' => CaKept io dir [] s' ∧ ∀ a, r = .ok a → CaKept io dir [a] s')
      (do
        let g ← .exec .draw fun s i =>
          match (io i).generated with
          | .ok g => .ok (g, s)
          | .error msg => .error (.badRequest msg)
        putAll (fun i => (io i).fails.map Error.io) g.content caFiles
        return (⟨g.certPem, g.keyPem, g.serverCertPem, g.serverKeyPem, dir⟩ : DeploymentCa)) s := by
  refine Prog.wp_exec_bind.mpr ⟨.inl ⟨hlast, rfl⟩, fun i => ?_⟩
  cases hg : (io i).generated with
  | error msg => exact ⟨.inl ⟨hlast, rfl⟩, nofun⟩
  | ok g =>
    dsimp only
    have hkept : ∀ s', Turn g.content [.cert, .key, .serverCert] .serverKey s' →
        CaKept io dir [] s' := by
      rintro s' (hnone | ⟨hfiles, w, hw, hpart⟩)
      · exact .inl ⟨hnone, rfl⟩
      · exact .inr ⟨i, g, hg, hfiles, w, hw, hpart, nofun⟩
    have hwrite : Prog.wp (fun _ => Turn g.content [.cert, .key, .serverCert] .serverKey)
        (fun r s' => Turn g.content [.cert, .key, .serverCert] .serverKey s' ∧
          ∀ a, r = .ok a → ∀ p ∈ caFiles, s' p = some (g.content p))
        (putAll (fun i => (io i).fails.map Error.io) g.content caFiles) s :=
      wp_putAll g.content [.cert, .key, .serverCert] [] s (by decide) nofun hlast
    refine Prog.wp_bind (Prog.wp_mono (fun _ s' hs' => hkept s' hs') (fun r s' hs' => ?_) hwrite)
    cases r with
    | error e => exact ⟨hkept s' hs'.1, nofun⟩
    | ok u =>
      refine ⟨hkept s' hs'.1, fun a ha => ?_⟩
      obtain rfl := Except.ok.inj ha
      have hall := hs'.2 u rfl
      refine .inr ⟨i, g, hg, fun p hp => hall p (List.mem_append_left _ hp), _,
        hall .serverKey (by decide), List.prefix_rfl, fun b hb => ?_⟩
      obtain rfl := List.mem_singleton.mp hb
      exact ⟨rfl, rfl, rfl, rfl, rfl⟩

theorem wp_loadOrCreateCa (hhonest : ∀ i, (io i).hidden = false) (h : CaKept io dir as s) :
    Prog.wp (fun _ s' => CaKept io dir as s')
      (fun r s' => CaKept io dir as s' ∧ ∀ a, r = .ok a → CaKept io dir (as ++ [a]) s')
      (loadOrCreateCa io dir) s := by
  refine Prog.wp_seq (fun _ s' => s' = s) (wp_fileOp h (fun e => ⟨h, nofun⟩) rfl) fun _ s' hs' => ?_
  subst hs'
  refine Prog.wp_bind (Prog.wp_mono (fun _ s'' hs'' => hs'' ▸ h) (fun r s'' hs'' => ?_)
    (wp_probeAll hhonest caFiles))
  obtain ⟨rfl, rfl⟩ := hs''
  cases hall : caFiles.all fun p => (s'' p).isSome with
  | true =>
    have hthere : s'' .serverKey ≠ none := by
      have hsome := List.all_eq_true.mp hall .serverKey (by decide)
      exact Option.isSome_iff_ne_none.mp hsome
    exact wp_readCa h hthere
  | false =>
    -- Some file is missing, and then the last one is.
    have hfirst : s'' .serverKey = none ∧ as = [] := by
      obtain hfirst | ⟨i, g, hg, hfiles, w, hlast, -⟩ := h
      · exact hfirst
      · have hmem : ∀ p ∈ caFiles, (s'' p).isSome = true := by
          intro p hp
          cases p with
          | serverKey => rw [hlast]; rfl
          | cert => rw [hfiles .cert (by simp)]; rfl
          | key => rw [hfiles .key (by simp)]; rfl
          | serverCert => rw [hfiles .serverCert (by simp)]; rfl
        rw [List.all_eq_true.mpr hmem] at hall
        cases hall
    obtain ⟨hlast, rfl⟩ := hfirst
    exact wp_writeCa hlast

end Kept

/-- **The CA survives every crash.**  Let no server key be there at first.  However many starts
follow, each cut off anywhere or failing, and as long as files can be looked at, those that return
agree: on a CA, its key and a server certificate that one start generated together, and on the
server's key up to the end of it. -/
theorem ca_stable {io : ι → CaIo} (hhonest : ∀ i, (io i).hidden = false) {dir : String}
    {s₀ s : FileStore CaFile UInt8} (hfirst : s₀ .serverKey = none) {as : List DeploymentCa}
    (h : Prog.Boots (loadOrCreateCa io dir) s₀ as s) :
    ∀ a ∈ as, (∀ b ∈ as, b = a) ∧ ∃ i g, (io i).generated = .ok g ∧ a.certPem = g.certPem ∧
      a.keyPem = g.keyPem ∧ a.serverCertPem = g.serverCertPem ∧
      Fuzzy.asBytes a.serverKeyPem <+: Fuzzy.asBytes g.serverKeyPem := by
  have hkept : CaKept io dir as s :=
    Prog.Boots.invariant (I := CaKept io dir) (.inl ⟨hfirst, rfl⟩)
      (fun as s hs => wp_loadOrCreateCa hhonest hs) h
  intro a ha
  obtain ⟨-, rfl⟩ | ⟨i, g, hg, -, w, -, hpart, has⟩ := hkept
  · exact absurd ha List.not_mem_nil
  obtain ⟨h1, h2, h3, h4, h5⟩ := has a ha
  refine ⟨fun b hb => ?_, i, g, hg, h1, h2, h3, h4 ▸ hpart⟩
  obtain ⟨h1', h2', h3', h4', h5'⟩ := has b hb
  have hserverKey := text_injective (h4'.trans h4.symm)
  cases a
  cases b
  simp_all

/-- The system does as it is told, and every file can be looked at. -/
def openIo (i : Option String × Except String CaTexts) : CaIo := ⟨i.1, false, i.2⟩

/-- The first start is cut off in the server's certificate, the second makes another CA, the third
cannot read it, the fourth can. -/
def fourStarts : List (List (Option String × Except String CaTexts)) :=
  [.replicate 10 (none, .ok ⟨"a", "b", "c", "d"⟩), .replicate 20 (none, .ok ⟨"e", "f", "g", "hh"⟩),
    .replicate 7 (some "I/O error", .error ""), .replicate 9 (none, .error "no entropy")]

theorem ca_stable_cutOff : ∃ as s, Prog.Boots (loadOrCreateCa openIo "ca") (fun _ => none) as s ∧
    as.length = 2 ∧ ∀ a ∈ as, ∀ b ∈ as, b = a := by
  obtain ⟨as, s, h, hchk⟩ := Prog.exists_boots (loadOrCreateCa openIo "ca") (fun _ => none)
    fourStarts (fun as s => as.length = 2) (by decide +kernel)
  exact ⟨as, s, h, of_decide_eq_true hchk, fun a ha => (ca_stable (fun _ => rfl) rfl h a ha).1⟩

end Corpus
