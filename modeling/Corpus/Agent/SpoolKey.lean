/-
The key of the spool (`SpoolCipher::load_or_create` of `spool_crypto.rs`, where there is no
keychain).

The first start draws a key and writes it to a file; later starts read it.  What a start has
spooled is read by the uploads of later ones, which need the same key.

* `spool_readable` — whatever starts came before and wherever they stopped, a start that returns
  decrypts what any other that returned has encrypted; a key that was cut short in writing stops
  every later start.

A file that is there but cannot be read counts as missing, and its key is written over.
-/
import Corpus.FirstStart
import Corpus.Agent.SpoolFrames

namespace Corpus.Agent

/-- The bytes of a key. -/
abbrev SpoolKey := {bytes : Bytes // bytes.length = 32}

/-- What the system does at an operation: whether it fails, whether a file that is there can be
read, and what the random generator gives. -/
structure KeyIo where
  fails : Option String
  unreadable : Bool
  random : SpoolKey

/-- Programs over the one file `spool.key`. -/
abbrev KeyProg (ι : Type) := FileProg Unit UInt8 ι String

variable {ι : Type}

/-- `load_or_create_key_bytes`. -/
def loadOrCreateKeyBytes (io : ι → KeyIo) : KeyProg ι SpoolKey := do
  let existing ← .exec (.read ()) fun s i => .ok (if (io i).unreadable then none else s (), s)
  match existing with
  | some bytes =>
    if h : bytes.length = 32 then return ⟨bytes, h⟩ else .err "corrupt spool key file"
  | none => do
    let key ← .exec .draw fun s i => .ok ((io i).random, s)
    fileOp (fun i => (io i).fails) .makeDir id
    putFile (fun i => (io i).fails) () key.1
    return key

/-- `SpoolCipher::load_or_create`, with `XChaCha20Poly1305::new_from_slice`. -/
def SpoolCipher.loadOrCreate (io : ι → KeyIo) (newFromSlice : SpoolKey → SpoolCipher) :
    KeyProg ι SpoolCipher := do
  let key ← loadOrCreateKeyBytes io
  return newFromSlice key

section Starts

variable {io : ι → KeyIo} {newFromSlice : SpoolKey → SpoolCipher} {as : List SpoolCipher}
  {s s₀ : FileStore Unit UInt8}

/-- The file, and what the starts so far have returned. -/
def KeyKept (newFromSlice : SpoolKey → SpoolCipher) (as : List SpoolCipher)
    (s : FileStore Unit UInt8) : Prop :=
  as = [] ∨ ∃ key : SpoolKey, s () = some key.1 ∧ ∀ a ∈ as, a = newFromSlice key

/-- A start that finds the file. -/
theorem wp_keyBytes_there (hhonest : ∀ i, (io i).unreadable = false) {bytes : Bytes}
    (hfile : s () = some bytes) :
    Prog.wp (fun _ s' => s' = s) (fun r s' => s' = s ∧ ∀ key, r = .ok key → key.1 = bytes)
      (loadOrCreateKeyBytes io) s := by
  refine Prog.wp_exec_bind.mpr ⟨rfl, fun i => ?_⟩
  dsimp only
  rw [hhonest i, if_neg Bool.false_ne_true, hfile]
  dsimp only
  by_cases h : bytes.length = 32
  · rw [dif_pos h]
    exact ⟨rfl, fun key hkey => congrArg Subtype.val (Except.ok.inj hkey).symm⟩
  · rw [dif_neg h]
    exact ⟨rfl, nofun⟩

/-- A start that makes a key. -/
theorem wp_keyBytes_new (hfile : s () = none) :
    Prog.wp (fun _ _ => True) (fun r s' => ∀ key, r = .ok key → s' () = some key.1)
      (loadOrCreateKeyBytes io) s := by
  refine Prog.wp_exec_bind.mpr ⟨trivial, fun i => ?_⟩
  dsimp only
  rw [hfile, ite_self]
  refine Prog.wp_exec_bind.mpr ⟨trivial, fun j => ?_⟩
  refine Prog.wp_seq (fun _ _ => True) (wp_fileOp trivial (fun e => nofun) trivial) fun _ s' _ => ?_
  refine Prog.wp_bind (Prog.wp_mono (fun _ _ _ => trivial) (fun r s'' h => ?_)
    (wp_putFile () (io j).random.1))
  cases r with
  | error e => exact nofun
  | ok u => exact fun key hkey => Except.ok.inj hkey ▸ h.2 u rfl

/-- What holds of the key, of the cipher. -/
theorem wp_loadOrCreate_of_key {W : FilePt Unit → FileStore Unit UInt8 → Prop}
    {Q : FileStore Unit UInt8 → Prop} {R : SpoolKey → FileStore Unit UInt8 → Prop}
    (h : Prog.wp W (fun r s' => Q s' ∧ ∀ key, r = .ok key → R key s') (loadOrCreateKeyBytes io) s) :
    Prog.wp W (fun r s' => Q s' ∧ ∀ a, r = .ok a → ∃ key, a = newFromSlice key ∧ R key s')
      (SpoolCipher.loadOrCreate io newFromSlice) s := by
  refine Prog.wp_bind (Prog.wp_mono (fun _ _ h => h) (fun r s' hs' => ?_) h)
  cases r with
  | error e => exact ⟨hs'.1, nofun⟩
  | ok key => exact ⟨hs'.1, fun a ha => ⟨key, (Except.ok.inj ha).symm, hs'.2 key rfl⟩⟩

theorem wp_loadOrCreate (hhonest : ∀ i, (io i).unreadable = false)
    (h : KeyKept newFromSlice as s) :
    Prog.wp (fun _ s' => KeyKept newFromSlice as s')
      (fun r s' => KeyKept newFromSlice as s' ∧
        ∀ a, r = .ok a → KeyKept newFromSlice (as ++ [a]) s')
      (SpoolCipher.loadOrCreate io newFromSlice) s := by
  cases hfile : s () with
  | none =>
    -- Nothing has been returned, for there is no key.
    obtain rfl : as = [] := by
      obtain rfl | ⟨key, hkey, -⟩ := h
      · rfl
      · rw [hfile] at hkey
        cases hkey
    have hnew : Prog.wp (fun _ _ => True)
        (fun r s' => True ∧ ∀ key, r = .ok key → s' () = some key.1) (loadOrCreateKeyBytes io) s :=
      Prog.wp_mono (fun _ _ h => h) (fun _ _ h => ⟨trivial, h⟩) (wp_keyBytes_new hfile)
    refine Prog.wp_mono (fun _ _ _ => .inl rfl) (fun r s' hs' => ⟨.inl rfl, fun a ha => ?_⟩)
      (wp_loadOrCreate_of_key hnew)
    obtain ⟨key, rfl, hkey⟩ := hs'.2 a ha
    exact .inr ⟨key, hkey, fun b hb => List.mem_singleton.mp hb⟩
  | some bytes =>
    refine Prog.wp_mono (fun _ s' hs' => hs' ▸ h) (fun r s' hs' => ?_)
      (wp_loadOrCreate_of_key (wp_keyBytes_there hhonest hfile))
    obtain ⟨rfl, hret⟩ := hs'
    refine ⟨h, fun a ha => ?_⟩
    obtain ⟨key, rfl, rfl⟩ := hret a ha
    refine .inr ⟨key, hfile, fun b hb => ?_⟩
    rcases List.mem_append.mp hb with hb | hb
    · obtain rfl | ⟨key', hkey, has⟩ := h
      · exact absurd hb List.not_mem_nil
      · rw [has b hb]
        exact congrArg newFromSlice (Subtype.ext (Option.some.inj (hkey.symm.trans hfile)))
    · exact List.mem_singleton.mp hb

end Starts

/-- **The spool can be read after every crash.**  However many starts follow one another, each cut
off anywhere or failing, and as long as a key file that is there can be read: what one that
returns has encrypted, all others decrypt.  But if the file ends up with anything else than 32
bytes, then none has returned, and none ever will: the agent does not draw another key. -/
theorem spool_readable {io : ι → KeyIo} (hhonest : ∀ i, (io i).unreadable = false)
    {newFromSlice : SpoolKey → SpoolCipher}
    (hinverts : ∀ key q index chunk, (newFromSlice key).decryptChunk q index
      ((newFromSlice key).encryptChunk q index chunk) = some chunk)
    {s₀ s : FileStore Unit UInt8} {as : List SpoolCipher}
    (h : Prog.Boots (SpoolCipher.loadOrCreate io newFromSlice) s₀ as s) :
    (∀ a ∈ as, ∀ b ∈ as, ∀ p chunks, (∀ chunk ∈ chunks, chunk.length < 2 ^ 32) →
      decryptFile b (spoolBlob a p chunks) = .ok chunks.flatten) ∧
    ∀ bytes, s () = some bytes → bytes.length ≠ 32 → as = [] ∧
      ∀ as' s', Prog.Boots (SpoolCipher.loadOrCreate io newFromSlice) s as' s' →
        as' = [] ∧ s' = s := by
  have hkept : KeyKept newFromSlice as s :=
    Prog.Boots.invariant (I := KeyKept newFromSlice) (.inl rfl)
      (fun as s hs => wp_loadOrCreate hhonest hs) h
  constructor
  · intro a ha b hb p chunks hsmall
    obtain rfl | ⟨key, -, has⟩ := hkept
    · exact absurd ha List.not_mem_nil
    · rw [has a ha, has b hb]
      exact decryptFile_of_inverts (hinverts key) hsmall
  · intro bytes hfile hlen
    constructor
    · obtain rfl | ⟨key, hkey, -⟩ := hkept
      · rfl
      · have hbytes := Option.some.inj (hfile.symm.trans hkey)
        exact absurd (hbytes ▸ key.2) hlen
    · intro as' s' h'
      refine Prog.Boots.invariant (I := fun as' s' => as' = [] ∧ s' = s) ⟨rfl, rfl⟩ ?_ h'
      rintro as' s' ⟨rfl, rfl⟩
      refine Prog.wp_mono (fun _ t ht => ⟨rfl, ht⟩) (fun r t ht => ⟨⟨rfl, ht.1⟩, fun a ha => ?_⟩)
        (wp_loadOrCreate_of_key (wp_keyBytes_there hhonest hfile))
      obtain ⟨key, -, rfl⟩ := ht.2 a ha
      exact absurd key.2 hlen

/-- A cipher whose tag is the first half of the key. -/
def SpoolCipher.keyed (key : SpoolKey) : SpoolCipher where
  encryptChunk _ _ chunk := chunk ++ key.1.take 16
  decryptChunk _ _ ct :=
    let n := ct.length - 16
    if ct.drop n = key.1.take 16 then some (ct.take n) else none
  length_encryptChunk _ _ chunk := by
    rw [List.length_append, List.length_take, key.2]
    rfl

theorem keyed_inverts (key : SpoolKey) (q : Bytes) (index : ℕ) (chunk : Bytes) :
    (SpoolCipher.keyed key).decryptChunk q index
      ((SpoolCipher.keyed key).encryptChunk q index chunk) = some chunk := by
  have hlen : (chunk ++ key.1.take 16).length - 16 = chunk.length := by
    rw [List.length_append, List.length_take, key.2]
    omega
  show (if (chunk ++ key.1.take 16).drop ((chunk ++ key.1.take 16).length - 16) = key.1.take 16
    then some ((chunk ++ key.1.take 16).take ((chunk ++ key.1.take 16).length - 16)) else none) = _
  rw [hlen, List.drop_left, if_pos rfl, List.take_left]

/-- The generator gives the same byte 32 times. -/
def steadyIo (b : UInt8) : KeyIo := ⟨none, false, ⟨List.replicate 32 b, List.length_replicate⟩⟩

/-- A start makes a key, and another, which would have made a different one, reads what it has
spooled; or it is cut off after the third byte. -/
theorem spool_readable_starts : (∃ as s,
      Prog.Boots (SpoolCipher.loadOrCreate steadyIo .keyed) (fun _ => none) as s ∧ as.length = 2 ∧
        ∀ a ∈ as, ∀ b ∈ as, decryptFile b (spoolBlob a zeroPrefix twoChunks) = .ok [1, 2, 3]) ∧
    ∃ as s, Prog.Boots (SpoolCipher.loadOrCreate steadyIo .keyed) (fun _ => none) as s ∧
      s () = some [7, 7, 7] ∧ ∀ as' s',
        Prog.Boots (SpoolCipher.loadOrCreate steadyIo .keyed) s as' s' → as' = [] := by
  constructor
  · obtain ⟨as, s, h, hchk⟩ := Prog.exists_boots (SpoolCipher.loadOrCreate steadyIo .keyed)
      (fun _ => none) [.replicate 40 7, .replicate 40 8] (fun as _ => as.length = 2) (by decide)
    refine ⟨as, s, h, of_decide_eq_true hchk, fun a ha b hb => ?_⟩
    exact (spool_readable (fun _ => rfl) keyed_inverts h).1 a ha b hb zeroPrefix twoChunks (by decide)
  · obtain ⟨as, s, h, hchk⟩ := Prog.exists_boots (SpoolCipher.loadOrCreate steadyIo .keyed)
      (fun _ => none) [.replicate 7 7] (fun _ s => s () = some [7, 7, 7]) (by decide)
    have hfile := of_decide_eq_true hchk
    refine ⟨as, s, h, hfile, fun as' s' h' => ?_⟩
    have htorn := (spool_readable (fun _ => rfl) keyed_inverts h).2 [7, 7, 7] hfile (by decide)
    exact (htorn.2 as' s' h').1

end Corpus.Agent
