/-
Frames of the encrypted spool (`spool_crypto.rs`, and the writer in `stable_read.rs`).

`readOnce` writes a header and then a frame for every chunk it reads; `decryptFile` reads
frames until nothing is left.  The cipher is idealised: under a nonce it decrypts what was
encrypted under it, and nothing else.

* `decryptFileChecked_eq` — the reader never leaves the blob;
* `decrypts_iff` — the blobs with the header of a file that decrypt are those that hold its
  first chunks, any number of them;
* `readOnce_writes` — what a read that succeeds has written;
* `spooled_tamperproof`, `cut_spooled_rejected_iff` — both ends together.
-/
import Corpus.Agent.StableRead
import Corpus.Machine

namespace Corpus.Agent

open Checked

/-! ### Reading, with the operations that may panic -/

/-- The loop of `decrypt_file`, in so many rounds. -/
def decryptChunksChecked (m : Arith) (cipher : SpoolCipher) (noncePrefix : Bytes) :
    ℕ → ℕ → Bytes → Checked (Except String Bytes)
  | _, _, [] => return .ok []
  | 0, _, _ => return .error "truncated spool chunk"
  | fuel + 1, index, rest =>
    if rest.length < 4 then return .error "truncated spool chunk header"
    else do
      let head ← checkedRange rest 0 4
      let rest ← checkedRange rest 4 rest.length
      let ctLen ← m.add 64 (fromLe head) 16
      if rest.length < ctLen then return .error "truncated spool chunk"
      else do
        let ct ← checkedRange rest 0 ctLen
        let next ← checkedRange rest ctLen rest.length
        match cipher.decryptChunk noncePrefix index ct with
        | none => return .error "spool chunk failed AEAD verification (tampered or wrong key)"
        | some chunk => do
          let index ← m.add 64 index 1
          let r ← decryptChunksChecked m cipher noncePrefix fuel index next
          return r.map (chunk ++ ·)

/-- `decrypt_file`. -/
def decryptFileChecked (m : Arith) (cipher : SpoolCipher) (blob : Bytes) :
    Checked (Except String Bytes) :=
  if blob.length < 17 then return .error "spool blob too short for header"
  else do
    let version ← checkedIndex blob 0
    if version ≠ spoolFormatVersion then
      let v := version.toNat
      return .error
        s!"unsupported spool format version {v} (expected 2); stale spool must be discarded"
    else do
      let noncePrefix ← checkedRange blob 1 17
      let rest ← checkedRange blob 17 blob.length
      decryptChunksChecked m cipher noncePrefix blob.length 0 rest

section Checked

variable {m : Arith} {cipher : SpoolCipher}

theorem decryptChunksChecked_eq (noncePrefix : Bytes) (fuel : ℕ) : ∀ index rest,
    index + fuel < 2 ^ 64 → decryptChunksChecked m cipher noncePrefix fuel index rest =
      .ok (decryptChunks cipher noncePrefix fuel index rest) := by
  induction fuel with
  | zero =>
    intro index rest _
    cases rest with
    | nil => rfl
    | cons b rest => rfl
  | succ fuel ih =>
    intro index rest hindex
    cases rest with
    | nil => rfl
    | cons b bytes =>
      have hlen := fieldAt_lt (b :: bytes) 0 4
      rw [fieldAt, List.drop_zero] at hlen
      show (if (b :: bytes).length < 4 then _ else _) =
        Except.ok (if (b :: bytes).length < 4 then _ else _)
      split
      · rfl
      · next hhead =>
        have hrest : ((b :: bytes).take (b :: bytes).length).drop 4 = (b :: bytes).drop 4 := by
          rw [List.take_length]
        rw [checkedRange_of_le (Nat.zero_le _) (Nat.not_lt.mp hhead), ok_bind,
          checkedRange_of_le (Nat.not_lt.mp hhead) (Nat.le_refl _), ok_bind, hrest, List.drop_zero,
          Arith.add_of_lt (by omega), ok_bind]
        dsimp only
        by_cases hct : ((b :: bytes).drop 4).length < fromLe ((b :: bytes).take 4) + 16
        · rw [if_pos hct, if_pos hct]
          rfl
        · have hle := Nat.not_lt.mp hct
          rw [if_neg hct, if_neg hct, checkedRange_of_le (Nat.zero_le _) hle, ok_bind,
            checkedRange_of_le hle (Nat.le_refl _), ok_bind, List.drop_zero, List.take_length]
          cases cipher.decryptChunk noncePrefix index _ with
          | none => rfl
          | some chunk =>
            show (m.add 64 index 1 >>= _) = _
            rw [Arith.add_of_lt (by omega), ok_bind, ih (index + 1) _ (by omega)]
            rfl

/-- No index or sum of `decrypt_file` is out of bounds. -/
theorem decryptFileChecked_eq {blob : Bytes} (hblob : blob.length < 2 ^ 63) :
    decryptFileChecked m cipher blob = .ok (decryptFile cipher blob) := by
  unfold decryptFileChecked decryptFile
  split
  · rfl
  · next hlen =>
    have hlen := Nat.not_lt.mp hlen
    have hversion : blob.getD 0 0 = blob.headD 0 := by
      cases blob with
      | nil => rfl
      | cons b bytes => rfl
    have hprefix : (blob.take 17).drop 1 = (blob.drop 1).take 16 := by
      rw [List.drop_take]
    rw [checkedIndex_of_lt (by omega) 0, ok_bind, hversion]
    dsimp only
    split
    · rfl
    · rw [checkedRange_of_le (by decide) hlen, ok_bind, checkedRange_of_le hlen (Nat.le_refl _), ok_bind,
        hprefix, List.take_length]
      exact decryptChunksChecked_eq _ _ _ _ (by omega)

end Checked

/-! ### Frames -/

/-- The frames of chunks, from an index on. -/
def frames (c : SpoolCipher) (p : NoncePrefix) : ℕ → List Bytes → Bytes
  | _, [] => []
  | index, chunk :: chunks =>
    spoolChunk (some c) (some p) index chunk ++ frames c p (index + 1) chunks

/-- A spool file of chunks. -/
def spoolBlob (c : SpoolCipher) (p : NoncePrefix) (chunks : List Bytes) : Bytes :=
  spoolHeader p ++ frames c p 0 chunks

/-- The cipher under an idealised key: what it decrypts is what was produced under the nonce. -/
structure Idealised (c : SpoolCipher) (produced : Bytes → ℕ → Bytes → Prop) : Prop where
  decrypts : ∀ {p index chunk}, produced p index chunk →
    c.decryptChunk p index (c.encryptChunk p index chunk) = some chunk
  authentic : ∀ {p index ct chunk}, c.decryptChunk p index ct = some chunk →
    produced p index chunk ∧ ct = c.encryptChunk p index chunk

/-- The chunks that are produced under a prefix are those of the one file that has it. -/
def OnlyFile (produced : Bytes → ℕ → Bytes → Prop) (p : NoncePrefix) (chunks : List Bytes) : Prop :=
  ∀ index chunk, produced p.1 index chunk ↔ chunks[index]? = some chunk

section Frames

variable {c : SpoolCipher} {p : NoncePrefix} {chunks : List Bytes}
  {produced : Bytes → ℕ → Bytes → Prop}

theorem frames_append (chunks more : List Bytes) : ∀ index,
    frames c p index (chunks ++ more) =
      frames c p index chunks ++ frames c p (index + chunks.length) more := by
  induction chunks with
  | nil => exact fun index => rfl
  | cons chunk chunks ih =>
    intro index
    have hlen : index + 1 + chunks.length = index + (chunk :: chunks).length := by
      rw [List.length_cons]
      omega
    rw [List.cons_append, frames, frames, ih, hlen, List.append_assoc]

theorem length_frame (index : ℕ) (chunk : Bytes) :
    (spoolChunk (some c) (some p) index chunk).length = chunk.length + 20 := by
  show (toLe 4 chunk.length ++ c.encryptChunk p.1 index chunk).length = _
  rw [List.length_append, c.length_encryptChunk]
  show 4 + _ = _
  omega

theorem length_frames_ge (chunks : List Bytes) : ∀ index,
    chunks.length ≤ (frames c p index chunks).length := by
  induction chunks with
  | nil => exact fun index => Nat.le_refl 0
  | cons chunk chunks ih =>
    intro index
    have h := ih (index + 1)
    rw [frames, List.length_append, length_frame, List.length_cons]
    omega

/-- One round of `decrypt_file`. -/
theorem decryptChunks_succ (noncePrefix : Bytes) (fuel index : ℕ) {rest : Bytes} (h : rest ≠ []) :
    decryptChunks c noncePrefix (fuel + 1) index rest =
      if rest.length < 4 then .error "truncated spool chunk header"
      else if (rest.drop 4).length < fromLe (rest.take 4) + 16 then .error "truncated spool chunk"
      else match c.decryptChunk noncePrefix index
          ((rest.drop 4).take (fromLe (rest.take 4) + 16)) with
      | none => .error "spool chunk failed AEAD verification (tampered or wrong key)"
      | some chunk => (decryptChunks c noncePrefix fuel (index + 1)
          ((rest.drop 4).drop (fromLe (rest.take 4) + 16))).map (chunk ++ ·) := by
  obtain ⟨b, bytes, rfl⟩ := List.exists_cons_of_ne_nil h
  rfl

/-- What decrypts are the frames of chunks that were produced. -/
theorem decryptChunks_eq_ok (hideal : Idealised c produced) (fuel : ℕ) : ∀ index rest out,
    decryptChunks c p.1 fuel index rest = .ok out →
      ∃ chunks, rest = frames c p index chunks ∧ out = chunks.flatten ∧
        ∀ i chunk, chunks[i]? = some chunk → produced p.1 (index + i) chunk := by
  induction fuel with
  | zero =>
    intro index rest out h
    cases rest with
    | nil =>
      obtain rfl := Except.ok.inj h
      exact ⟨[], rfl, rfl, by simp⟩
    | cons b rest => cases h
  | succ fuel ih =>
    intro index rest out h
    cases rest with
    | nil =>
      obtain rfl := Except.ok.inj h
      exact ⟨[], rfl, rfl, by simp⟩
    | cons b bytes =>
      obtain ⟨rest, hrest⟩ : ∃ rest, rest = b :: bytes := ⟨_, rfl⟩
      rw [← hrest] at h ⊢
      rw [decryptChunks_succ p.1 fuel index (hrest ▸ List.cons_ne_nil _ _)] at h
      split at h
      · cases h
      · next hhead =>
        split at h
        · cases h
        · next hct =>
          have hhead := Nat.not_lt.mp hhead
          have hct := Nat.not_lt.mp hct
          cases hdec : c.decryptChunk p.1 index
              ((rest.drop 4).take (fromLe (rest.take 4) + 16)) with
          | none =>
            rw [hdec] at h
            cases h
          | some chunk =>
            rw [hdec] at h
            obtain ⟨hprod, hcipher⟩ := hideal.authentic hdec
            -- The length field is that of the chunk, since the cipher text is 16 bytes longer.
            have hlen : fromLe (rest.take 4) = chunk.length := by
              have heq := congrArg List.length hcipher
              rw [c.length_encryptChunk, List.length_take_of_le hct] at heq
              omega
            have hfield : toLe 4 chunk.length = rest.take 4 := by
              have hback := toLe_fromLe (rest.take 4)
              rwa [List.length_take_of_le hhead, hlen] at hback
            cases hnext : decryptChunks c p.1 fuel (index + 1)
                ((rest.drop 4).drop (fromLe (rest.take 4) + 16)) with
            | error e =>
              simp only [hnext] at h
              cases h
            | ok tail =>
              simp only [hnext] at h
              obtain rfl := Except.ok.inj h
              obtain ⟨chunks, hframes, rfl, hall⟩ := ih _ _ _ hnext
              refine ⟨chunk :: chunks, ?_, rfl, fun i m hm => ?_⟩
              · rw [frames, ← hframes]
                show rest = toLe 4 chunk.length ++ c.encryptChunk p.1 index chunk ++ _
                rw [hfield, ← hcipher, List.append_assoc, List.take_append_drop, List.take_append_drop]
              · cases i with
                | zero =>
                  obtain rfl := Option.some.inj hm
                  exact hprod
                | succ i =>
                  have hi : index + (i + 1) = index + 1 + i := by omega
                  rw [hi]
                  exact hall i m hm

/-- The frames of chunks that were produced decrypt to them. -/
theorem decryptChunks_frames
    (hdecrypts : ∀ {index chunk}, produced p.1 index chunk →
      c.decryptChunk p.1 index (c.encryptChunk p.1 index chunk) = some chunk)
    (hsmall : ∀ chunk ∈ chunks, chunk.length < 2 ^ 32) :
    ∀ fuel index, chunks.length ≤ fuel →
      (∀ i chunk, chunks[i]? = some chunk → produced p.1 (index + i) chunk) →
      decryptChunks c p.1 fuel index (frames c p index chunks) = .ok chunks.flatten := by
  induction chunks with
  | nil =>
    intro fuel index _ _
    cases fuel with
    | zero => rfl
    | succ fuel => rfl
  | cons chunk chunks ih =>
    intro fuel index hfuel hall
    cases fuel with
    | zero => exact absurd hfuel (Nat.not_succ_le_zero _)
    | succ fuel =>
      have hlen : (c.encryptChunk p.1 index chunk).length = chunk.length + 16 :=
        c.length_encryptChunk _ _ _
      have hbytes : frames c p index (chunk :: chunks) =
          toLe 4 chunk.length ++ (c.encryptChunk p.1 index chunk ++ frames c p (index + 1) chunks) :=
        List.append_assoc _ _ _
      have hne : frames c p index (chunk :: chunks) ≠ [] := by
        rw [hbytes]
        exact List.cons_ne_nil _ _
      have hhead : (frames c p index (chunk :: chunks)).take 4 = toLe 4 chunk.length := by
        rw [hbytes]
        exact List.take_left' rfl
      have htail : (frames c p index (chunk :: chunks)).drop 4 =
          c.encryptChunk p.1 index chunk ++ frames c p (index + 1) chunks := by
        rw [hbytes]
        exact List.drop_left' rfl
      have hroom : ¬ (frames c p index (chunk :: chunks)).length < 4 := by
        rw [hbytes, List.length_append]
        show ¬ 4 + _ < 4
        omega
      have hfits : ¬ (c.encryptChunk p.1 index chunk ++ frames c p (index + 1) chunks).length <
          chunk.length + 16 := by
        rw [List.length_append, hlen]
        omega
      have hrest := ih (fun x hx => hsmall x (List.mem_cons_of_mem _ hx)) fuel (index + 1)
        (Nat.le_of_succ_le_succ hfuel) fun i x hx => by
          have h := hall (i + 1) x hx
          rwa [← Nat.add_assoc, Nat.add_right_comm] at h
      have hprod : produced p.1 index chunk := hall 0 chunk rfl
      rw [decryptChunks_succ _ _ _ hne, hhead, fromLe_toLe (hsmall chunk List.mem_cons_self), htail,
        if_neg hroom, if_neg hfits, List.take_left' hlen, List.drop_left' hlen,
        hdecrypts hprod]
      show (decryptChunks c p.1 fuel (index + 1) (frames c p (index + 1) chunks)).map (chunk ++ ·) = _
      rw [hrest]
      rfl

/-! ### Spool files -/

theorem length_spoolHeader (p : NoncePrefix) : (spoolHeader p).length = 17 := by
  rw [spoolHeader, List.length_cons, p.2]

theorem spoolBlob_nil (p : NoncePrefix) : spoolBlob c p [] = spoolHeader p :=
  List.append_nil _

/-- A blob with the header of a file. -/
theorem decryptFile_header (p : NoncePrefix) (rest : Bytes) :
    decryptFile c (spoolHeader p ++ rest) =
      decryptChunks c p.1 (17 + rest.length) 0 rest := by
  have hheader := length_spoolHeader p
  have hlen : ¬ (spoolHeader p ++ rest).length < 17 := by
    rw [List.length_append]
    omega
  have hprefix : ((spoolHeader p ++ rest).drop 1).take 16 = p.1 := by
    show (p.1 ++ rest).take 16 = _
    exact List.take_left' p.2
  have hrest : (spoolHeader p ++ rest).drop 17 = rest := List.drop_left' hheader
  unfold decryptFile
  rw [if_neg hlen, hprefix, hrest, List.length_append, hheader]
  rfl

/-- A file decrypts to its chunks. -/
theorem decryptFile_spoolBlob (hideal : Idealised c produced) (honly : OnlyFile produced p chunks)
    (hsmall : ∀ chunk ∈ chunks, chunk.length < 2 ^ 32) :
    decryptFile c (spoolBlob c p chunks) = .ok chunks.flatten := by
  have hlen := length_frames_ge (c := c) (p := p) chunks 0
  rw [spoolBlob, decryptFile_header]
  refine decryptChunks_frames hideal.decrypts hsmall _ 0 (by omega) fun i chunk h => ?_
  rw [Nat.zero_add]
  exact (honly i chunk).mpr h

/-- So it does under a cipher that decrypts what it has encrypted. -/
theorem decryptFile_of_inverts
    (hinverts : ∀ q index chunk, c.decryptChunk q index (c.encryptChunk q index chunk) = some chunk)
    (hsmall : ∀ chunk ∈ chunks, chunk.length < 2 ^ 32) :
    decryptFile c (spoolBlob c p chunks) = .ok chunks.flatten := by
  have hlen := length_frames_ge (c := c) (p := p) chunks 0
  rw [spoolBlob, decryptFile_header]
  exact @decryptChunks_frames c p chunks (fun _ _ _ => True) (fun _ => hinverts _ _ _) hsmall _ 0
    (by omega) fun _ _ _ => trivial

theorem eq_take_of_getElem? {α : Type} {l l' : List α}
    (h : ∀ (i : ℕ) (a : α), l[i]? = some a → l'[i]? = some a) : l = l'.take l.length := by
  refine List.ext_getElem? fun i => ?_
  rw [List.getElem?_take]
  split
  · next hi => rw [h i l[i] (List.getElem?_eq_getElem hi), List.getElem?_eq_getElem hi]
  · next hi => exact List.getElem?_eq_none (Nat.not_lt.mp hi)

/-- The blobs with the header of a file that decrypt are those of its first chunks. -/
theorem decrypts_iff (hideal : Idealised c produced) (honly : OnlyFile produced p chunks)
    (hsmall : ∀ chunk ∈ chunks, chunk.length < 2 ^ 32) {blob out : Bytes}
    (hheader : blob.take 17 = spoolHeader p) :
    decryptFile c blob = .ok out ↔
      ∃ k, blob = spoolBlob c p (chunks.take k) ∧ out = (chunks.take k).flatten := by
  have hblob : blob = spoolHeader p ++ blob.drop 17 := by rw [← hheader, List.take_append_drop]
  constructor
  · intro h
    rw [hblob, decryptFile_header] at h
    obtain ⟨found, hframes, rfl, hall⟩ := decryptChunks_eq_ok hideal _ _ _ _ h
    have hfound : found = chunks.take found.length := by
      refine eq_take_of_getElem? fun i chunk hi => (honly i chunk).mp ?_
      have hprod := hall i chunk hi
      rwa [Nat.zero_add] at hprod
    refine ⟨found.length, ?_, congrArg List.flatten hfound⟩
    rw [← hfound, spoolBlob, ← hframes]
    exact hblob
  · rintro ⟨k, rfl, rfl⟩
    have hlen := length_frames_ge (c := c) (p := p) (chunks.take k) 0
    rw [spoolBlob, decryptFile_header]
    refine decryptChunks_frames hideal.decrypts (fun x hx => hsmall x (List.mem_of_mem_take hx)) _ 0
      (by omega)
      fun i chunk h => ?_
    rw [Nat.zero_add]
    refine (honly i chunk).mpr ?_
    rw [List.getElem?_take] at h
    split at h
    · exact h
    · cases h

end Frames

/-! ### What a read writes -/

/-- A copy after so many chunks: they are in the spool file, and are what was read. -/
structure Copying {S : Type} (c : SpoolCipher) (p : NoncePrefix) (content : Bytes) (r : Reading)
    (s : World S) (chunks : List Bytes) : Prop where
  source : (s.fs.objs r.obj).content = content
  noncePrefix : r.noncePrefix = some p
  chunkIndex : r.chunkIndex = chunks.length
  data : r.data = chunks.flatten
  seen : r.data = content.take r.data.length
  sizes : ∀ chunk ∈ chunks, 0 < chunk.length ∧ chunk.length ≤ 65536
  written : (s.spool.get r.name).map SpoolFile.bytes = some (spoolBlob c p chunks)

section Writer

variable {L S : Type} {rt : Runtime S} {lab : ReadPt → L} {path : String} {c : SpoolCipher}
  {p : NoncePrefix} {content : Bytes} {r : Reading} {s : World S} {chunks : List Bytes}

theorem get_append {d : Spool} {name : Uuid} {bytes : Bytes}
    (h : (d.get name).map SpoolFile.bytes = some bytes) (more : Bytes) :
    ((d.append name more).get name).map SpoolFile.bytes = some (bytes ++ more) := by
  obtain ⟨file, hget, rfl⟩ := Option.map_eq_some_iff.mp h
  rw [Spool.append, Table.get_updateWhere_of_some _ hget,
    if_pos (decide_eq_true (Table.mem_of_get hget).2)]
  rfl

theorem appendStep_of_none {i : Input} (hio : i.io = none) (r : Reading) (bytes : Bytes)
    (s : World S) :
    appendStep r bytes s i = { s with spool := s.spool.append r.name bytes } := by
  unfold appendStep
  rw [hio]

theorem readChunk_length (content : Bytes) (offset take : ℕ) :
    (readChunk content offset take).length ≤ 65536 := by
  unfold readChunk
  rw [List.length_take]
  omega

/-- A `read` returns nothing at the end of the file only. -/
theorem readChunk_eq_nil {content : Bytes} {offset take : ℕ} :
    readChunk content offset take = [] ↔ content.length ≤ offset := by
  unfold readChunk
  rw [List.take_eq_nil_iff, List.drop_eq_nil_iff]
  omega

/-- What a `read` returns continues what has been read. -/
theorem take_append_readChunk (content : Bytes) (offset take : ℕ) :
    content.take offset ++ readChunk content offset take =
      content.take (content.take offset ++ readChunk content offset take).length := by
  have hread : content.take offset ++ readChunk content offset take =
      content.take (offset + min (max take 1) 65536) := List.take_add.symm
  rw [hread, List.length_take, List.take_eq_take_iff]
  omega

/-- One round of the loop. -/
theorem Copying.step (hcipher : rt.cipher = some c) (h : Copying c p content r s chunks) (i : Input)
    (hio : i.io = none) {take : ℕ} (hne : readChunk content r.data.length take ≠ []) :
    Copying c p content
      { r with data := r.data ++ readChunk content r.data.length take, chunkIndex := r.chunkIndex + 1 }
      (appendStep { r with data := r.data ++ readChunk content r.data.length take }
        (spoolChunk rt.cipher r.noncePrefix r.chunkIndex (readChunk content r.data.length take)) s i)
      (chunks ++ [readChunk content r.data.length take]) := by
  rw [appendStep_of_none hio]
  refine ⟨h.source, h.noncePrefix, ?_, ?_, ?_, fun chunk hchunk => ?_, ?_⟩
  · show r.chunkIndex + 1 = _
    rw [h.chunkIndex, List.length_append, List.length_singleton]
  · show r.data ++ _ = _
    rw [List.flatten_append, ← h.data, List.flatten_singleton]
  · have hseen := take_append_readChunk content r.data.length take
    rwa [← h.seen] at hseen
  · rcases List.mem_append.mp hchunk with hold | hnew
    · exact h.sizes chunk hold
    · obtain rfl := List.mem_singleton.mp hnew
      exact ⟨List.length_pos_iff.mpr hne, readChunk_length _ _ _⟩
  · have hbytes := get_append h.written (spoolChunk rt.cipher r.noncePrefix r.chunkIndex
      (readChunk content r.data.length take))
    show Option.map SpoolFile.bytes ((s.spool.append r.name _).get r.name) = _
    rw [hbytes, hcipher, h.noncePrefix, h.chunkIndex, spoolBlob, spoolBlob, frames_append,
      Nat.zero_add, List.append_assoc, frames, frames, List.append_nil]

/-- The loop copies to the end of the file, or breaks with an error. -/
theorem copyLoop_frames (hcipher : rt.cipher = some c) (fuel : ℕ) : ∀ (r : Reading) (s : World S)
    (chunks : List Bytes), Copying c p content r s chunks →
      Prog.wp (fun _ _ => True)
        (fun q t => match q with
          | .ok q => q.2 = none → ∃ chunks, Copying c p content q.1 t chunks ∧ q.1.data = content
          | .error _ => True) (copyLoop rt lab fuel r) s := by
  induction fuel with
  | zero => exact fun r s chunks h hnone => absurd hnone (Option.some_ne_none _)
  | succ fuel ih =>
    intro r s chunks h
    refine ⟨trivial, fun i => ?_⟩
    dsimp only
    cases i.io with
    | some e => exact fun hnone => absurd hnone (Option.some_ne_none _)
    | none =>
      show Prog.wp _ _ (if readChunk (s.fs.objs r.obj).content r.data.length i.take = [] then _ else _) s
      rw [h.source]
      by_cases hend : readChunk content r.data.length i.take = []
      · rw [if_pos hend]
        refine fun _ => ⟨chunks, h, ?_⟩
        rw [h.seen, List.take_of_length_le (readChunk_eq_nil.mp hend)]
      · rw [if_neg hend]
        split
        · exact fun hnone => absurd hnone (Option.some_ne_none _)
        · refine ⟨trivial, fun j => ?_⟩
          dsimp only
          cases hj : j.io with
          | some e => exact fun hnone => absurd hnone (Option.some_ne_none _)
          | none => exact ih _ _ _ (h.step hcipher j hj hend)

/-- The spool file that a read names holds the content, in frames of at most 64 KiB. -/
def Wrote (c : SpoolCipher) (content : Bytes) (name : Uuid) (s : World S) : Prop :=
  ∃ p chunks, (s.spool.get name).map SpoolFile.bytes = some (spoolBlob c p chunks) ∧
    chunks.flatten = content ∧ ∀ chunk ∈ chunks, 0 < chunk.length ∧ chunk.length ≤ 65536

/-- What a read promises: nothing when it fails. -/
def Promised (c : SpoolCipher) (content : Bytes)
    (out : Except String (Except StableReadError StableReadResult)) (s : World S) : Prop :=
  ∀ res, out = .ok (.ok res) → Wrote c content res.spoolPath s

theorem promised_error (e : StableReadError) (s : World S) :
    Promised c content (.ok (.error e)) s := by
  intro res h
  cases h

theorem discard_promised (name : Uuid) (e : StableReadError) (s : World S) :
    Prog.wp (fun _ _ => True) (Promised c content) (discard lab name e) s :=
  ⟨trivial, fun _ => promised_error e _⟩

theorem finishRead_promised (broke : Option StableReadError)
    (h : broke = none → ∃ chunks, Copying c p content r s chunks ∧ r.data = content) :
    Prog.wp (fun _ _ => True) (Promised c content) (finishRead rt lab r broke) s := by
  cases broke with
  | some e => exact discard_promised r.name e s
  | none =>
    obtain ⟨chunks, hcopy, hdata⟩ := h rfl
    show Prog.wp _ _ (if _ then _ else _) s
    split
    · exact discard_promised r.name _ s
    · refine ⟨trivial, fun i => ?_⟩
      dsimp only
      cases i.io with
      | some e => exact promised_error _ s
      | none =>
        show Prog.wp _ _ (if _ then _ else _) s
        split
        · exact discard_promised r.name _ s
        · intro res hres
          obtain rfl := Except.ok.inj (Except.ok.inj hres)
          exact ⟨p, chunks, hcopy.written, hcopy.data ▸ hdata, hcopy.sizes⟩

theorem copy_promised (hcipher : rt.cipher = some c) (fuel : ℕ)
    (h : Copying c p content r s chunks) :
    Prog.wp (fun _ _ => True) (Promised c content)
      (copyLoop rt lab fuel r >>= fun q => finishRead rt lab q.1 q.2) s := by
  refine Prog.wp_seq
    (fun q t => q.2 = none → ∃ chunks, Copying c p content q.1 t chunks ∧ q.1.data = content)
    (Prog.wp_mono (fun _ _ h => h) ?_ (copyLoop_frames hcipher fuel r s chunks h))
    fun q t hq => finishRead_promised q.2 hq
  intro q t hq
  cases q with
  | ok q => exact hq
  | error e =>
    intro res hres
    cases hres

theorem copyToSpool_promised (hcipher : rt.cipher = some c) {obj : ℕ} (before : FileKey)
    (hobj : (s.fs.objs obj).content = content) :
    Prog.wp (fun _ _ => True) (Promised c content) (copyToSpool rt lab obj before) s := by
  refine ⟨trivial, fun i => ?_⟩
  dsimp only
  cases i.io with
  | some e => exact promised_error _ _
  | none =>
    dsimp only
    by_cases hname : (s.spool.get i.uuid).isSome
    · rw [if_pos hname]
      exact promised_error _ _
    · have hfresh : s.spool.get i.uuid = none := by simpa using hname
      rw [if_neg hname, hcipher]
      refine ⟨trivial, fun j => ?_⟩
      dsimp only
      cases hj : j.io with
      | some e => exact discard_promised _ _ _
      | none =>
        -- The header is all that has been written.
        refine copy_promised hcipher _
          (⟨?_, rfl, rfl, rfl, rfl, fun chunk h => ?_, ?_⟩ : Copying c i.noncePrefix content _ _ [])
        · rw [appendStep_of_none hj]
          exact hobj
        · cases h
        · have hempty : ((s.spool.insertNew ⟨i.uuid, []⟩).get i.uuid).map SpoolFile.bytes =
              some [] := by
            rw [Table.get_insertNew, if_pos rfl, hfresh]
            rfl
          rw [appendStep_of_none hj, spoolBlob_nil]
          exact get_append hempty (spoolHeader i.noncePrefix)

/-- **What a read that succeeds has written.** -/
theorem readOnce_writes (hcipher : rt.cipher = some c) {free : ℕ} {ls : List L}
    {res : StableReadResult} {t : World S}
    (hrun : (readOnce rt lab path free).Returns s ls (.ok res) t) :
    ∃ obj, s.fs.paths path = some obj ∧ Wrote c (s.fs.objs obj).content res.spoolPath t := by
  have hwp : Prog.wp (fun _ _ => True) (fun out t => ∀ res, out = .ok (.ok res) → ∃ obj,
      s.fs.paths path = some obj ∧ Wrote c (s.fs.objs obj).content res.spoolPath t)
      (readOnce rt lab path free) s := by
    refine ⟨trivial, fun i => ?_⟩
    dsimp only
    cases i.io with
    | some e =>
      intro res hres
      cases hres
    | none =>
      cases hpath : s.fs.paths path with
      | none =>
        intro res hres
        cases hres
      | some obj =>
        refine Prog.wp_mono (fun _ _ h => h)
          (fun out t (h : Promised c (s.fs.objs obj).content out t) res hres =>
            ⟨obj, rfl, h res hres⟩) ?_
        refine ⟨trivial, fun j => ?_⟩
        dsimp only
        cases j.io with
        | some e => exact promised_error _ _
        | none =>
          dsimp only
          split
          · exact promised_error _ _
          · split
            · exact promised_error _ _
            · exact copyToSpool_promised hcipher _ rfl
  exact Prog.wp_returns hrun hwp res rfl

end Writer

/-! ### Whole files -/

/-- `decrypt_file` returns an error. -/
def Rejected (m : Arith) (c : SpoolCipher) (blob : Bytes) : Prop :=
  ∃ e, decryptFileChecked m c blob = .ok (.error e)

/-- The file of these chunks decrypts to them, and no other blob with its header decrypts, but
for the file without its last chunks. -/
def Tamperproof (m : Arith) (c : SpoolCipher) (p : NoncePrefix) (chunks : List Bytes) : Prop :=
  ((spoolBlob c p chunks).length < 2 ^ 63 →
    decryptFileChecked m c (spoolBlob c p chunks) = .ok (.ok chunks.flatten)) ∧
  ∀ blob : Bytes, blob.length < 2 ^ 63 → blob.take 17 = spoolHeader p →
    (∀ k, blob ≠ spoolBlob c p (chunks.take k)) → Rejected m c blob

/-- Where a file of these chunks may be cut between frames. -/
def frameEnd (chunks : List Bytes) (k : ℕ) : ℕ :=
  17 + ((chunks.take k).map fun chunk => chunk.length + 20).sum

section Files

variable {m : Arith} {c : SpoolCipher} {p : NoncePrefix} {chunks : List Bytes}
  {produced : Bytes → ℕ → Bytes → Prop}

theorem rejected_iff {blob : Bytes} (hblob : blob.length < 2 ^ 63) :
    Rejected m c blob ↔ ∀ out, decryptFile c blob ≠ .ok out := by
  unfold Rejected
  rw [decryptFileChecked_eq hblob]
  constructor
  · rintro ⟨e, h⟩ out hout
    rw [Except.ok.inj h] at hout
    cases hout
  · intro h
    cases hdec : decryptFile c blob with
    | ok out => exact absurd hdec (h out)
    | error e => exact ⟨e, rfl⟩

theorem tamperproof (hideal : Idealised c produced) (honly : OnlyFile produced p chunks)
    (hsmall : ∀ chunk ∈ chunks, chunk.length < 2 ^ 32) : Tamperproof m c p chunks := by
  refine ⟨fun hlen => ?_, fun blob hlen hheader hother => ?_⟩
  · rw [decryptFileChecked_eq hlen, decryptFile_spoolBlob hideal honly hsmall]
  · refine (rejected_iff hlen).mpr fun out hout => ?_
    obtain ⟨k, hblob, -⟩ := (decrypts_iff hideal honly hsmall hheader).mp hout
    exact hother k hblob

theorem length_frames (chunks : List Bytes) : ∀ index,
    (frames c p index chunks).length = (chunks.map fun chunk => chunk.length + 20).sum := by
  induction chunks with
  | nil => exact fun index => rfl
  | cons chunk chunks ih =>
    intro index
    rw [frames, List.length_append, length_frame, ih, List.map_cons, List.sum_cons]

theorem length_spoolBlob_take (k : ℕ) :
    (spoolBlob c p (chunks.take k)).length = frameEnd chunks k := by
  rw [spoolBlob, List.length_append, length_spoolHeader, length_frames, frameEnd]

/-- The file of the first chunks is where the whole file is cut. -/
theorem take_spoolBlob (k : ℕ) :
    (spoolBlob c p chunks).take (frameEnd chunks k) = spoolBlob c p (chunks.take k) := by
  have hsplit : spoolBlob c p chunks = spoolBlob c p (chunks.take k) ++
      frames c p (0 + (chunks.take k).length) (chunks.drop k) := by
    rw [spoolBlob, spoolBlob, List.append_assoc, ← frames_append, List.take_append_drop]
  rw [hsplit]
  exact List.take_left' (length_spoolBlob_take k)

/-- A file that is cut short is rejected, unless it ends between two frames. -/
theorem cut_rejected_iff (hideal : Idealised c produced) (honly : OnlyFile produced p chunks)
    (hsmall : ∀ chunk ∈ chunks, chunk.length < 2 ^ 32)
    (hlen : (spoolBlob c p chunks).length < 2 ^ 63) {n : ℕ}
    (hn : n < (spoolBlob c p chunks).length) :
    Rejected m c ((spoolBlob c p chunks).take n) ↔ ∀ k, n ≠ frameEnd chunks k := by
  have hcut : ((spoolBlob c p chunks).take n).length = n := List.length_take_of_le hn.le
  rw [rejected_iff (by omega)]
  constructor
  · rintro h k rfl
    refine h (chunks.take k).flatten ?_
    rw [take_spoolBlob]
    refine (decrypts_iff hideal honly hsmall ?_).mpr ⟨k, rfl, rfl⟩
    exact List.take_left' (length_spoolHeader p)
  · intro h out hout
    by_cases hheader : n < 17
    · unfold decryptFile at hout
      rw [if_pos (by omega)] at hout
      cases hout
    · have htake : ((spoolBlob c p chunks).take n).take 17 = spoolHeader p := by
        rw [List.take_take, Nat.min_eq_left (by omega)]
        exact List.take_left' (length_spoolHeader p)
      obtain ⟨k, hk, -⟩ := (decrypts_iff hideal honly hsmall htake).mp hout
      refine h k ?_
      rw [← hcut, hk, length_spoolBlob_take]

theorem frameEnd_zero (chunks : List Bytes) : frameEnd chunks 0 = 17 := rfl

/-- Every file that is cut short is rejected only when there is nothing in it. -/
theorem cuts_rejected_iff (hideal : Idealised c produced) (honly : OnlyFile produced p chunks)
    (hsizes : ∀ chunk ∈ chunks, 0 < chunk.length ∧ chunk.length ≤ 65536)
    (hlen : (spoolBlob c p chunks).length < 2 ^ 63) :
    (∀ n < (spoolBlob c p chunks).length, Rejected m c ((spoolBlob c p chunks).take n)) ↔
      chunks.flatten = [] := by
  have hsmall : ∀ chunk ∈ chunks, chunk.length < 2 ^ 32 := fun chunk h => by
    have := (hsizes chunk h).2
    omega
  cases chunks with
  | nil =>
    refine iff_of_true (fun n hn => ?_) rfl
    refine (cut_rejected_iff hideal honly hsmall hlen hn).mpr fun k => ?_
    rw [spoolBlob_nil, length_spoolHeader] at hn
    rw [frameEnd]
    omega
  | cons chunk rest =>
    have hpos := (hsizes chunk List.mem_cons_self).1
    have hlong : 17 < (spoolBlob c p (chunk :: rest)).length := by
      rw [spoolBlob, List.length_append, length_spoolHeader, frames, List.length_append, length_frame]
      omega
    refine iff_of_false (fun h => ?_) fun h => ?_
    · exact (cut_rejected_iff hideal honly hsmall hlen hlong).mp (h 17 hlong) 0 (frameEnd_zero _).symm
    · rw [List.flatten_cons, List.append_eq_nil_iff] at h
      rw [h.1] at hpos
      exact absurd hpos (Nat.lt_irrefl 0)

end Files

/-! ### A file of three bytes, read two at a time -/

/-- A cipher that adds a tag, under which one file was encrypted. -/
def SpoolCipher.tagging (p : NoncePrefix) (chunks : List Bytes) : SpoolCipher where
  encryptChunk _ _ chunk := chunk ++ List.replicate 16 0
  decryptChunk q index ct :=
    if q = p.1 then chunks[index]?.filter fun chunk => chunk ++ List.replicate 16 0 = ct else none
  length_encryptChunk _ _ chunk := by rw [List.length_append, List.length_replicate]

/-- What was encrypted under it. -/
def producedFor (p : NoncePrefix) (chunks : List Bytes) (q : Bytes) (index : ℕ) (chunk : Bytes) :
    Prop :=
  q = p.1 ∧ chunks[index]? = some chunk

theorem tagging_ideal (p : NoncePrefix) (chunks : List Bytes) :
    Idealised (.tagging p chunks) (producedFor p chunks) where
  decrypts := by
    rintro q index chunk ⟨rfl, hchunk⟩
    show (if p.1 = p.1 then chunks[index]?.filter _ else none) = _
    rw [if_pos rfl, hchunk, Option.filter_some]
    exact if_pos (decide_eq_true rfl)
  authentic := by
    intro q index ct chunk h
    by_cases hq : q = p.1
    · have h' : chunks[index]?.filter (fun x => x ++ List.replicate 16 0 = ct) = some chunk := by
        rw [← h]
        exact (if_pos hq).symm
      obtain ⟨hchunk, hct⟩ := Option.filter_eq_some_iff.mp h'
      exact ⟨⟨hq, hchunk⟩, (of_decide_eq_true hct).symm⟩
    · have h' : none = some chunk := by
        rw [← h]
        exact (if_neg hq).symm
      cases h'

theorem tagging_only (p : NoncePrefix) (chunks : List Bytes) :
    OnlyFile (producedFor p chunks) p chunks :=
  fun _ _ => ⟨fun h => h.2, fun h => ⟨rfl, h⟩⟩

theorem length_zeros : (List.replicate 16 (0 : UInt8)).length = 16 := List.length_replicate

def zeroPrefix : NoncePrefix := ⟨List.replicate 16 0, length_zeros⟩

def twoChunks : List Bytes := [[1, 2], [3]]

/-- The cipher that encrypted the file. -/
def twoChunksCipher : SpoolCipher := .tagging zeroPrefix twoChunks

def twoChunksRead : Reader ReadPt Unit (Except StableReadError StableReadResult) :=
  readOnce (.small (.fixed (.error "") (.error "")) (some twoChunksCipher) 1) id "f" 100

/-- The file is read, and its frames are in the spool. -/
theorem twoChunks_returns : ∃ ls t, twoChunksRead.Returns (World.fresh (.holding [1, 2, 3]) ()) ls
    (.ok ⟨"010203", 3, 1⟩) t ∧
      (t.spool.get 1).map SpoolFile.bytes = some (spoolBlob twoChunksCipher zeroPrefix twoChunks) :=
  ⟨_, _, Prog.returns_of_run (List.replicate 10 (Input.fine 1 2 [])) rfl, rfl⟩

/-! ### Files that were read -/

section Runs

variable {L S : Type} {rt : Runtime S} {lab : ReadPt → L} {path : String} {c : SpoolCipher}
  {s t : World S} {free : ℕ} {ls : List L} {res : StableReadResult}

/-- **Spooled files decrypt to what was read, and changed ones do not decrypt.**  When the cipher
decrypts nothing else than the chunks of the file, in their places, the blobs with its header
that decrypt are the file and what is left when its last chunks are cut off. -/
theorem spooled_tamperproof (m : Arith) (hcipher : rt.cipher = some c)
    (hrun : (readOnce rt lab path free).Returns s ls (.ok res) t) :
    ∃ obj p chunks, s.fs.paths path = some obj ∧
      (t.spool.get res.spoolPath).map SpoolFile.bytes = some (spoolBlob c p chunks) ∧
      chunks.flatten = (s.fs.objs obj).content ∧
      (∀ chunk ∈ chunks, 0 < chunk.length ∧ chunk.length ≤ 65536) ∧
      ∀ produced, Idealised c produced → OnlyFile produced p chunks → Tamperproof m c p chunks := by
  obtain ⟨obj, hpath, p, chunks, hbytes, hcontent, hsizes⟩ := readOnce_writes hcipher hrun
  refine ⟨obj, p, chunks, hpath, hbytes, hcontent, hsizes, fun produced hideal honly => ?_⟩
  refine tamperproof hideal honly fun chunk h => ?_
  have hsize := (hsizes chunk h).2
  omega

theorem spooled_tamperproof_twoChunks :
    Idealised twoChunksCipher (producedFor zeroPrefix twoChunks) ∧
      OnlyFile (producedFor zeroPrefix twoChunks) zeroPrefix twoChunks ∧
      ∃ p chunks, spoolBlob twoChunksCipher p chunks = spoolBlob twoChunksCipher zeroPrefix twoChunks ∧
        chunks.flatten = [1, 2, 3] ∧
        ∀ produced, Idealised twoChunksCipher produced → OnlyFile produced p chunks →
          Tamperproof .checked twoChunksCipher p chunks := by
  obtain ⟨ls, t, hrun, hwritten⟩ := twoChunks_returns
  obtain ⟨obj, p, chunks, hpath, hbytes, hcontent, -, htamper⟩ :=
    spooled_tamperproof .checked rfl hrun
  have hblob := Option.some.inj (hbytes.symm.trans hwritten)
  exact ⟨tagging_ideal _ _, tagging_only _ _, p, chunks, hblob, hcontent, htamper⟩

/-- **Where a spooled file may be cut.**  A file that was cut short is rejected unless it ends
after its header or between two frames. -/
theorem cut_spooled_rejected_iff (m : Arith) (hcipher : rt.cipher = some c)
    (hrun : (readOnce rt lab path free).Returns s ls (.ok res) t) :
    ∃ obj p chunks, s.fs.paths path = some obj ∧
      (t.spool.get res.spoolPath).map SpoolFile.bytes = some (spoolBlob c p chunks) ∧
      chunks.flatten = (s.fs.objs obj).content ∧
      (∀ chunk ∈ chunks, 0 < chunk.length ∧ chunk.length ≤ 65536) ∧
      ∀ produced, Idealised c produced → OnlyFile produced p chunks →
        (spoolBlob c p chunks).length < 2 ^ 63 →
          (∀ n < (spoolBlob c p chunks).length,
            Rejected m c ((spoolBlob c p chunks).take n) ↔ ∀ k, n ≠ frameEnd chunks k) ∧
          ((∀ n < (spoolBlob c p chunks).length, Rejected m c ((spoolBlob c p chunks).take n)) ↔
            (s.fs.objs obj).content = []) := by
  obtain ⟨obj, hpath, p, chunks, hbytes, hcontent, hsizes⟩ := readOnce_writes hcipher hrun
  refine ⟨obj, p, chunks, hpath, hbytes, hcontent, hsizes, fun produced hideal honly hlen => ?_⟩
  refine ⟨fun n hn => cut_rejected_iff hideal honly (fun chunk h => ?_) hlen hn, ?_⟩
  · have hsize := (hsizes chunk h).2
    omega
  · rw [← hcontent]
    exact cuts_rejected_iff hideal honly hsizes hlen

theorem cut_spooled_rejected_iff_twoChunks : ∃ p chunks,
    chunks.flatten = [1, 2, 3] ∧
      ∀ produced, Idealised twoChunksCipher produced → OnlyFile produced p chunks →
        (spoolBlob twoChunksCipher p chunks).length < 2 ^ 63 →
          ∀ n < (spoolBlob twoChunksCipher p chunks).length,
            Rejected .checked twoChunksCipher ((spoolBlob twoChunksCipher p chunks).take n) ↔
              ∀ k, n ≠ frameEnd chunks k := by
  obtain ⟨ls, t, hrun, -⟩ := twoChunks_returns
  obtain ⟨obj, p, chunks, hpath, -, hcontent, -, hcuts⟩ := cut_spooled_rejected_iff .checked rfl hrun
  exact ⟨p, chunks, hcontent, fun produced hideal honly hlen =>
    (hcuts produced hideal honly hlen).1⟩

/-- The file of three bytes, cut after its first chunk, decrypts to two bytes. -/
theorem cut_spooled_decrypts : Idealised twoChunksCipher (producedFor zeroPrefix twoChunks) ∧
    OnlyFile (producedFor zeroPrefix twoChunks) zeroPrefix twoChunks ∧
    ∃ ls t blob, twoChunksRead.Returns (World.fresh (.holding [1, 2, 3]) ()) ls
        (.ok ⟨"010203", 3, 1⟩) t ∧
      (t.spool.get 1).map SpoolFile.bytes = some blob ∧ blob.length = 60 ∧
      ∀ m, decryptFileChecked m twoChunksCipher (blob.take 39) = .ok (.ok [1, 2]) ∧
        decryptFileChecked m twoChunksCipher (blob.take 17) = .ok (.ok []) := by
  obtain ⟨ls, t, hrun, hbytes⟩ := twoChunks_returns
  refine ⟨tagging_ideal _ _, tagging_only _ _, ls, t, _, hrun, hbytes, rfl, fun m => ⟨?_, ?_⟩⟩
  · rw [decryptFileChecked_eq (by decide)]
    rfl
  · rw [decryptFileChecked_eq (by decide)]
    rfl

end Runs

end Corpus.Agent
