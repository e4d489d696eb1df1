/-
Stable reads are snapshots (`stable_read.rs`).

While `stable_read` copies a file, the file may be written between any two of its steps, and
the path may come to name another one.  Every write gives the file a key that it has never had
before.  A copy is put together from many reads, at different moments; it is accepted when the
second stat finds the key of the first one and as many bytes were read as that key says.

* `Others` — what others may do: writes with fresh keys, nothing to the spool file of the read;
* `During` — the invariant of a pass: the file is still what the first stat saw and the bytes
  read are a prefix of it, or it has been written and its key is another one;
* `stable_read_snapshot` — what an accepted copy is, and that a pass without a write in it is
  never taken for a change.
-/
import Corpus.Agent.SpoolFrames
import Corpus.Amid

namespace Corpus.Agent

variable {S : Type}

/-! ### Others -/

/-- The file has had this key. -/
def Seen (past : Prog.Past ReadPt (World S)) (s : World S) (obj : ℕ) (k : FileKey) : Prop :=
  (s.fs.objs obj).key = k ∨
    ∃ e ∈ past, (e.before.fs.objs obj).key = k ∨ (e.after.fs.objs obj).key = k

/-- A statement of the read has created this spool file. -/
def Created (past : Prog.Past ReadPt (World S)) (name : Uuid) : Prop :=
  ∃ e ∈ past, e.stmt ≠ none ∧ e.before.spool.get name = none ∧ e.after.spool.get name ≠ none

/-- What others do in one step, after what has happened: a file keeps its content or gets a key
never seen before, and the spool file of the read is left alone. -/
structure Others (past : Prog.Past ReadPt (World S)) (s s' : World S) : Prop where
  fresh : ∀ obj, s'.fs.objs obj = s.fs.objs obj ∨ ¬ Seen past s obj (s'.fs.objs obj).key
  spool : ∀ name, Created past name → s'.spool.get name = s.spool.get name

/-- The step opens the file: a pass begins. -/
def opens (e : Prog.Event ReadPt (World S)) : Bool :=
  match e.stmt with
  | some .openFile => true
  | _ => false

/-- How many passes were begun. -/
def passes (past : Prog.Past ReadPt (World S)) : ℕ := past.countP opens

/-! ### Snapshots -/

/-- The bytes of a spool file are those of a plaintext: as they are, or in encrypted chunks, and
then they decrypt to it if the cipher decrypts what it encrypts. -/
def Spools (cipher : Option SpoolCipher) (bytes plaintext : Bytes) : Prop :=
  match cipher with
  | none => bytes = plaintext
  | some c => (∃ p chunks, bytes = spoolBlob c p chunks ∧ chunks.flatten = plaintext) ∧
      ((∀ q index chunk, c.decryptChunk q index (c.encryptChunk q index chunk) = some chunk) →
        decryptFile c bytes = .ok plaintext)

/-- The copy is the content that the file named by the path had at every moment from the first
stat of the last pass to the second one. -/
def IsSnapshot (rt : Runtime S) (path : String) (past : Prog.Past ReadPt (World S)) (s : World S)
    (res : StableReadResult) : Prop :=
  ∃ (content : Bytes) (obj : ℕ) (r : Reading) (earlier gap mid rest : Prog.Past ReadPt (World S))
    (v t u : World S),
    past = earlier ++ ⟨some .openFile, v, v⟩ :: gap ++ ⟨some (.stat obj), t, t⟩ :: mid ++
      ⟨some (.restat r), u, u⟩ :: rest ∧
    passes (gap ++ mid ++ rest) = 0 ∧
    v.fs.paths path = some obj ∧ r.obj = obj ∧
    (t.fs.objs obj).content = content ∧ (u.fs.objs obj).content = content ∧
    (∀ e ∈ mid, (e.before.fs.objs obj).content = content ∧
      (e.after.fs.objs obj).content = content) ∧
    res.size = content.length ∧ content.length ≤ rt.maxArtifactBytes ∧
    res.sha256 = hexEncode (rt.sha256 content) ∧
    ∃ bytes, (s.spool.get res.spoolPath).map SpoolFile.bytes = some bytes ∧
      Spools rt.cipher bytes content

/-- Somebody wrote the file of a pass after its first stat. -/
def WrittenDuring (pass : Prog.Past ReadPt (World S)) : Prop :=
  ∃ (obj : ℕ) (t : World S) (earlier mid : Prog.Past ReadPt (World S)),
    pass = earlier ++ ⟨some (.stat obj), t, t⟩ :: mid ∧
    ∃ e ∈ mid, e.stmt = none ∧ e.after.fs.objs obj ≠ e.before.fs.objs obj

/-! ### The invariant of a pass -/

/-- A pass has opened the file that the path names, and made its first stat. -/
def Statted (path : String) (earlier past : Prog.Past ReadPt (World S)) (obj : ℕ) (t : World S)
    (mid : Prog.Past ReadPt (World S)) : Prop :=
  ∃ before v gap, past = earlier ++ before ++ ⟨some .openFile, v, v⟩ :: gap ++
      ⟨some (.stat obj), t, t⟩ :: mid ∧
    passes (before ++ gap ++ mid) = 0 ∧ v.fs.paths path = some obj

/-- The file is what the first stat saw, and has been all the time. -/
def Unwritten (obj : ℕ) (t : World S) (mid : Prog.Past ReadPt (World S)) (s : World S) : Prop :=
  s.fs.objs obj = t.fs.objs obj ∧
    ∀ e ∈ mid, e.before.fs.objs obj = t.fs.objs obj ∧ e.after.fs.objs obj = t.fs.objs obj

/-- The file was written, and its key is not the one of the first stat. -/
def Rewritten (obj : ℕ) (before : FileKey) (mid : Prog.Past ReadPt (World S)) (s : World S) : Prop :=
  (s.fs.objs obj).key ≠ before ∧
    ∃ e ∈ mid, e.stmt = none ∧ e.after.fs.objs obj ≠ e.before.fs.objs obj

/-- Between the stats of a pass: the file is unwritten, and `I` holds of its content, or it is
rewritten. -/
def During (path : String) (earlier : Prog.Past ReadPt (World S)) (obj : ℕ) (before : FileKey)
    (I : Bytes → Prop) (past : Prog.Past ReadPt (World S)) (s : World S) : Prop :=
  ∃ t mid, Statted path earlier past obj t mid ∧ (t.fs.objs obj).key = before ∧
    ((Unwritten obj t mid s ∧ I (s.fs.objs obj).content) ∨ Rewritten obj before mid s)

section Invariant

variable {path : String} {earlier past : Prog.Past ReadPt (World S)} {obj : ℕ} {before : FileKey}
  {I J : Bytes → Prop} {s s' : World S}

theorem passes_append (past more : Prog.Past ReadPt (World S)) :
    passes (past ++ more) = passes past + passes more := List.countP_append

theorem passes_cons (e : Prog.Event ReadPt (World S)) (past : Prog.Past ReadPt (World S)) :
    passes (e :: past) = passes past + if opens e = true then 1 else 0 := List.countP_cons

theorem passes_snoc {e : Prog.Event ReadPt (World S)} (he : opens e = false)
    (past : Prog.Past ReadPt (World S)) : passes (past ++ [e]) = passes past := by
  rw [passes_append, passes, passes, List.countP_singleton, he]
  rfl

theorem Statted.snoc {t : World S} {mid : Prog.Past ReadPt (World S)}
    (h : Statted path earlier past obj t mid) {e : Prog.Event ReadPt (World S)}
    (he : opens e = false) : Statted path earlier (past ++ [e]) obj t (mid ++ [e]) := by
  obtain ⟨first, v, gap, rfl, hpasses, hpath⟩ := h
  refine ⟨first, v, gap, by simp, ?_, hpath⟩
  rw [← List.append_assoc, passes_snoc he]
  exact hpasses

/-- The key of the first stat has been seen. -/
theorem Statted.seen {t : World S} {mid : Prog.Past ReadPt (World S)}
    (h : Statted path earlier past obj t mid) (s : World S) : Seen past s obj (t.fs.objs obj).key := by
  obtain ⟨first, v, gap, rfl, -, -⟩ := h
  exact .inr ⟨⟨some (.stat obj), t, t⟩, by simp, .inl rfl⟩

/-- A statement that leaves the files alone, or a step of others. -/
theorem During.snoc (h : During path earlier obj before I past s) {stmt : Option ReadPt}
    (hopens : opens ⟨stmt, s, s'⟩ = false)
    (hstep : s'.fs.objs obj = s.fs.objs obj ∨
      (stmt = none ∧ ¬ Seen past s obj (s'.fs.objs obj).key)) :
    During path earlier obj before I (past ++ [⟨stmt, s, s'⟩]) s' := by
  obtain ⟨t, mid, hstat, hkey, hfile⟩ := h
  refine ⟨t, mid ++ [⟨stmt, s, s'⟩], hstat.snoc hopens, hkey, ?_⟩
  obtain hsame | ⟨hothers, hfresh⟩ := hstep
  · obtain ⟨⟨hnow, hall⟩, hI⟩ | ⟨hne, e, he, hwrite⟩ := hfile
    · refine .inl ⟨⟨hsame.trans hnow, fun e he => ?_⟩, hsame ▸ hI⟩
      obtain he | he := List.mem_append.mp he
      · exact hall e he
      · obtain rfl := List.mem_singleton.mp he
        exact ⟨hnow, hsame.trans hnow⟩
    · exact .inr ⟨hsame ▸ hne, e, List.mem_append_left _ he, hwrite⟩
  · -- A key never seen is not the one of the first stat.
    have hnew : (s'.fs.objs obj).key ≠ before := by
      intro heq
      refine hfresh ?_
      rw [heq, ← hkey]
      exact hstat.seen s
    obtain ⟨⟨hnow, -⟩, -⟩ | ⟨-, e, he, hwrite⟩ := hfile
    · refine .inr ⟨hnew, ⟨stmt, s, s'⟩, by simp, hothers, fun heq => hnew ?_⟩
      change s'.fs.objs obj = s.fs.objs obj at heq
      rw [heq, hnow, hkey]
    · exact .inr ⟨hnew, e, List.mem_append_left _ he, hwrite⟩

/-- A statement of the read leaves the files alone. -/
theorem During.own (h : During path earlier obj before I past s) (l : ReadPt)
    (hl : opens ⟨some l, s, s'⟩ = false) (hfs : s'.fs = s.fs) :
    During path earlier obj before I (past ++ [⟨some l, s, s'⟩]) s' :=
  h.snoc hl (.inl (congrArg (fun fs => fs.objs obj) hfs))

/-- While the file is unwritten, its content is there to be read. -/
theorem During.mono (h : During path earlier obj before I past s)
    (hIJ : (s.fs.objs obj).key = before → I (s.fs.objs obj).content → J (s.fs.objs obj).content) :
    During path earlier obj before J past s := by
  obtain ⟨t, mid, hstat, hkey, ⟨hsame, hI⟩ | hwritten⟩ := h
  · have hnow : (s.fs.objs obj).key = before := by rw [hsame.1, hkey]
    exact ⟨t, mid, hstat, hkey, .inl ⟨hsame, hIJ hnow hI⟩⟩
  · exact ⟨t, mid, hstat, hkey, .inr hwritten⟩

theorem opens_none (s s' : World S) :
    opens (⟨none, s, s'⟩ : Prog.Event ReadPt (World S)) = false := rfl

theorem stable_during : Prog.Stable Others (During path earlier obj before I) := by
  intro past s s' h hothers
  refine h.snoc (opens_none s s') ?_
  obtain hsame | hfresh := hothers.fresh obj
  · exact .inl hsame
  · exact .inr ⟨rfl, hfresh⟩

end Invariant

/-! ### The spool file of a pass -/

/-- The bytes of the spool file are those of what was read. -/
def Encodes (cipher : Option SpoolCipher) (r : Reading) (bytes : Bytes) : Prop :=
  match cipher, r.noncePrefix with
  | none, none => bytes = r.data
  | some c, some p => ∃ chunks, chunks.length = r.chunkIndex ∧ bytes = spoolBlob c p chunks ∧
      chunks.flatten = r.data ∧ ∀ chunk ∈ chunks, chunk.length ≤ 65536
  | _, _ => False

/-- The pass has created its spool file, and all that was read is in it. -/
def Filled (cipher : Option SpoolCipher) (r : Reading) (past : Prog.Past ReadPt (World S))
    (s : World S) : Prop :=
  Created past r.name ∧
    ∃ bytes, (s.spool.get r.name).map SpoolFile.bytes = some bytes ∧ Encodes cipher r bytes

section Spooled

variable {cipher : Option SpoolCipher} {r : Reading} {past : Prog.Past ReadPt (World S)}
  {s s' : World S} {bytes chunk : Bytes}

theorem Created.append {name : Uuid} (h : Created past name)
    (more : Prog.Past ReadPt (World S)) : Created (past ++ more) name := by
  obtain ⟨e, he, hcreated⟩ := h
  exact ⟨e, List.mem_append_left _ he, hcreated⟩

theorem stable_filled : Prog.Stable Others (Filled cipher r : _ → World S → Prop) := by
  intro past s s' ⟨hcreated, bytes, hbytes, hencodes⟩ hothers
  refine ⟨hcreated.append _, bytes, ?_, hencodes⟩
  rw [hothers.spool r.name hcreated]
  exact hbytes

/-- A statement that leaves the spool alone. -/
theorem Filled.snoc (h : Filled cipher r past s) (e : Prog.Event ReadPt (World S)) :
    Filled cipher r (past ++ [e]) s :=
  ⟨h.1.append _, h.2⟩

/-- A chunk is written behind what was read before. -/
theorem Encodes.append (h : Encodes cipher r bytes) (hchunk : chunk.length ≤ 65536) :
    Encodes cipher { r with data := r.data ++ chunk, chunkIndex := r.chunkIndex + 1 }
      (bytes ++ spoolChunk cipher r.noncePrefix r.chunkIndex chunk) := by
  unfold Encodes at h ⊢
  split at h
  · next hstart =>
    rw [hstart, h]
    rfl
  · next c p hstart =>
    obtain ⟨chunks, hindex, rfl, hflat, hsizes⟩ := h
    rw [hstart]
    refine ⟨chunks ++ [chunk], ?_, ?_, ?_, fun x hx => ?_⟩
    · rw [List.length_append, hindex]
      rfl
    · rw [spoolBlob, spoolBlob, frames_append, Nat.zero_add, List.append_assoc, hindex, frames,
        frames, List.append_nil]
    · rw [List.flatten_append, hflat, List.flatten_singleton]
    · obtain hx | hx := List.mem_append.mp hx
      · exact hsizes x hx
      · obtain rfl := List.mem_singleton.mp hx
        exact hchunk
  · exact h.elim

/-- The bytes of the file decode to what was read. -/
theorem Encodes.spools (h : Encodes cipher r bytes) : Spools cipher bytes r.data := by
  unfold Encodes at h
  split at h
  · exact h
  · next c p _ =>
    obtain ⟨chunks, -, rfl, hflat, hsizes⟩ := h
    refine ⟨⟨p, chunks, rfl, hflat⟩, fun hinverts => ?_⟩
    have hsmall : ∀ chunk ∈ chunks, chunk.length < 2 ^ 32 := by
      intro chunk hchunk
      have := hsizes chunk hchunk
      omega
    rw [decryptFile_of_inverts hinverts hsmall, hflat]
  · exact h.elim

end Spooled

/-! ### The end of a pass -/

/-- A pass has ended with an error; if it is that the file has changed, it was written. -/
def Ended (earlier : Prog.Past ReadPt (World S)) (e : StableReadError)
    (past : Prog.Past ReadPt (World S)) : Prop :=
  ∃ pass, past = earlier ++ pass ∧ passes pass ≤ 1 ∧
    (e = .changedDuringRead → WrittenDuring pass)

/-- What a pass gives. -/
def PassResult (rt : Runtime S) (path : String) (earlier : Prog.Past ReadPt (World S))
    (out : Except String (Except StableReadError StableReadResult))
    (past : Prog.Past ReadPt (World S)) (s : World S) : Prop :=
  match out with
  | .ok (.ok res) => (∃ pass, past = earlier ++ pass ∧ passes pass ≤ 1) ∧
      Created past res.spoolPath ∧ IsSnapshot rt path past s res
  | .ok (.error e) => Ended earlier e past
  | .error _ => True

section End

variable {rt : Runtime S} {path : String} {earlier past : Prog.Past ReadPt (World S)}
  {e : StableReadError} {s s' : World S} {r : Reading} {obj : ℕ} {before : FileKey}
  {I : Bytes → Prop}

theorem WrittenDuring.snoc {pass : Prog.Past ReadPt (World S)} (h : WrittenDuring pass)
    (x : Prog.Event ReadPt (World S)) : WrittenDuring (pass ++ [x]) := by
  obtain ⟨obj, t, first, mid, rfl, w, hw, hwrite⟩ := h
  exact ⟨obj, t, first, mid ++ [x], by simp, w, List.mem_append_left _ hw, hwrite⟩

theorem Ended.snoc (h : Ended earlier e past) {x : Prog.Event ReadPt (World S)}
    (hx : opens x = false) : Ended earlier e (past ++ [x]) := by
  obtain ⟨pass, rfl, hpasses, hwritten⟩ := h
  refine ⟨pass ++ [x], List.append_assoc _ _ _, ?_, fun he => (hwritten he).snoc x⟩
  rwa [passes_snoc hx]

theorem Statted.passes {t : World S} {mid : Prog.Past ReadPt (World S)}
    (h : Statted path earlier past obj t mid) :
    ∃ pass, past = earlier ++ pass ∧ Corpus.Agent.passes pass = 1 ∧
      ∃ first, pass = first ++ ⟨some (.stat obj), t, t⟩ :: mid := by
  obtain ⟨first, v, gap, rfl, hpasses, -⟩ := h
  refine ⟨first ++ ⟨some .openFile, v, v⟩ :: gap ++ ⟨some (.stat obj), t, t⟩ :: mid, by simp, ?_,
    first ++ ⟨some .openFile, v, v⟩ :: gap, by simp⟩
  simp only [passes_append, passes_cons, opens, if_true, Bool.false_eq_true, if_false] at hpasses ⊢
  omega

/-- A pass that breaks off for another reason than a change. -/
theorem During.ended (h : During path earlier obj before I past s) (he : e ≠ .changedDuringRead) :
    Ended earlier e past := by
  obtain ⟨t, mid, hstat, -⟩ := h
  obtain ⟨pass, hpast, hpasses, -⟩ := hstat.passes
  exact ⟨pass, hpast, hpasses.le, fun h => absurd h he⟩

/-- A pass that cannot be on an unwritten file. -/
theorem During.ended_changed (h : During path earlier obj before (fun _ => False) past s) :
    Ended earlier e past := by
  -- What is left is that it was rewritten.
  obtain ⟨t, mid, hstat, -, ⟨-, hfalse⟩ | ⟨-, hwritten⟩⟩ := h
  · exact hfalse.elim
  · obtain ⟨pass, hpast, hpasses, first, hpass⟩ := hstat.passes
    exact ⟨pass, hpast, hpasses.le, fun _ => ⟨obj, t, first, mid, hpass, hwritten⟩⟩

theorem stable_passResult (out : Except String (Except StableReadError StableReadResult)) :
    Prog.Stable Others (PassResult rt path earlier out) := by
  intro past s s' h hothers
  -- What others do comes behind the second stat, and leaves the spool file alone.
  match out with
  | .ok (.ok res) =>
    obtain ⟨⟨pass, hpast, hpasses⟩, hcreated, content, obj, r, first, gap, mid, rest, v, t, u, hsplit,
      hnone, hpath, hobj, ht, hu, hmid, hsize, hmax, hsha, bytes, hbytes, hspools⟩ := h
    refine ⟨⟨pass ++ [⟨none, s, s'⟩], ?_, ?_⟩, hcreated.append _, content, obj, r, first, gap, mid,
      rest ++ [⟨none, s, s'⟩], v, t, u, ?_, ?_, hpath, hobj, ht, hu, hmid, hsize, hmax, hsha, bytes,
      ?_, hspools⟩
    · rw [hpast, List.append_assoc]
    · rwa [passes_snoc (opens_none s s')]
    · rw [hsplit]
      simp
    · rw [← List.append_assoc, passes_snoc (opens_none s s')]
      exact hnone
    · rw [hothers.spool _ hcreated]
      exact hbytes
  | .ok (.error e) => exact Ended.snoc h (opens_none s s')
  | .error _ => trivial

end End

/-! ### The steps of a pass -/

section Pass

variable {rt : Runtime S} {path : String} {earlier past : Prog.Past ReadPt (World S)}
  {e : StableReadError} {s s' : World S} {r : Reading} {obj : ℕ} {before : FileKey}

/-- What the loop leaves: the copy of an unwritten file is complete, unless it broke off. -/
def Copied (rt : Runtime S) (path : String) (earlier : Prog.Past ReadPt (World S))
    (out : Except String (Reading × Option StableReadError)) (past : Prog.Past ReadPt (World S))
    (s : World S) : Prop :=
  match out with
  | .ok (r, none) => r.before.size ≤ rt.maxArtifactBytes ∧
      During path earlier r.obj r.before (fun content => r.data = content) past s ∧
      Filled rt.cipher r past s
  | .ok (r, some e) => e ≠ .changedDuringRead ∧
      During path earlier r.obj r.before (fun _ => True) past s
  | .error _ => True

theorem stable_copied (out : Except String (Reading × Option StableReadError)) :
    Prog.Stable Others (Copied rt path earlier out) := by
  intro past s s' h hothers
  match out with
  | .ok (r, none) =>
    exact ⟨h.1, stable_during _ _ _ h.2.1 hothers, stable_filled _ _ _ h.2.2 hothers⟩
  | .ok (r, some e) => exact ⟨h.1, stable_during _ _ _ h.2 hothers⟩
  | .error _ => trivial

theorem appendStep_fs (r : Reading) (bytes : Bytes) (s : World S) (i : Input) :
    (appendStep r bytes s i).fs = s.fs := by
  unfold appendStep
  split <;> rfl

/-- The loop reads a prefix of the file as long as it is not written. -/
theorem copyLoop_copied (fuel : ℕ) : ∀ {r : Reading} {past : Prog.Past ReadPt (World S)}
    {s : World S}, r.before.size ≤ rt.maxArtifactBytes →
      During path earlier r.obj r.before (fun content => r.data = content.take r.data.length) past s →
      Filled rt.cipher r past s →
      (copyLoop rt id fuel r).Amidst Others (Copied rt path earlier) past s := by
  -- The invariant: what was read is a prefix of the content that an unwritten file has.
  induction fuel with
  | zero =>
    intro r past s hmax hduring _
    exact Prog.amidst_ret (stable_copied _)
      ⟨StableReadError.noConfusion, hduring.mono fun _ _ => trivial⟩
  | succ fuel ih =>
    intro r past s hmax hduring hfilled
    refine Prog.amidst_stmt (stable_during.and stable_filled) ⟨hduring, hfilled⟩ ?_
    rintro past s i ⟨hduring, hfilled⟩
    have hduring : During path earlier r.obj r.before _ _ s := hduring.own (.read r) rfl rfl
    have hfilled := hfilled.snoc ⟨some (.read r), s, s⟩
    dsimp only [id]
    split
    · next e _ =>
      exact Prog.amidst_ret (stable_copied _)
        ⟨mapOpenErr_ne_changed e, hduring.mono fun _ _ => trivial⟩
    · split
      · next hend =>
        -- Nothing is left of the file that is there now.
        refine Prog.amidst_ret (stable_copied _) ⟨hmax, hduring.mono fun _ hdata => ?_, hfilled⟩
        rw [hdata, List.take_of_length_le (readChunk_eq_nil.mp hend)]
      · -- The chunk continues the prefix.
        have hnext := hduring.mono (J := fun content =>
            r.data ++ readChunk (s.fs.objs r.obj).content r.data.length i.take =
              content.take (r.data ++ readChunk (s.fs.objs r.obj).content r.data.length
                i.take).length) fun _ hdata => by
          have hstart := take_append_readChunk (s.fs.objs r.obj).content r.data.length i.take
          rwa [← hdata] at hstart
        have hlength := readChunk_length (s.fs.objs r.obj).content r.data.length i.take
        generalize readChunk (s.fs.objs r.obj).content r.data.length i.take = chunk at hnext hlength ⊢
        split
        · exact Prog.amidst_ret (stable_copied _)
            ⟨StableReadError.noConfusion, hnext.mono fun _ _ => trivial⟩
        · refine Prog.amidst_stmt (stable_during.and stable_filled) ⟨hnext, hfilled⟩ ?_
          rintro past s j ⟨hnext, hfilled⟩
          have hnext := hnext.own (.write { r with data := r.data ++ chunk } chunk) rfl
            (appendStep_fs { r with data := r.data ++ chunk }
              (spoolChunk rt.cipher r.noncePrefix r.chunkIndex chunk) s j)
          split
          · exact Prog.amidst_ret (stable_copied _)
              ⟨StableReadError.noConfusion, hnext.mono fun _ _ => trivial⟩
          · next hio =>
            -- The chunk is in the spool file too.
            refine ih hmax hnext ?_
            obtain ⟨hcreated, bytes, hbytes, hencodes⟩ := hfilled
            refine ⟨hcreated.append _, _, ?_, hencodes.append hlength⟩
            rw [appendStep_of_none hio]
            exact get_append hbytes _

theorem stable_ended :
    Prog.Stable Others fun (past : Prog.Past ReadPt (World S)) _ => Ended earlier e past :=
  fun _ s s' h _ => h.snoc (opens_none s s')

/-- A pass that has ended with an error. -/
theorem Ended.ret (h : Ended earlier e past) :
    (.ret (.error e) : Reader ReadPt S (Except StableReadError StableReadResult)).Amidst Others
      (PassResult rt path earlier) past s :=
  Prog.amidst_ret (stable_passResult _) h

theorem Ended.discard (h : Ended earlier e past) (name : Uuid) :
    (discard id name e : Reader ReadPt S _).Amidst Others (PassResult rt path earlier) past s := by
  refine Prog.amidst_stmt stable_ended h fun past s i h => ?_
  exact Ended.ret (h.snoc rfl)

/-- The key of the first stat is there at the second one: the copy is a snapshot. -/
theorem During.snapshot (hmax : r.before.size ≤ rt.maxArtifactBytes)
    (h : During path earlier r.obj r.before (fun content => r.data = content) past s)
    (hfilled : Filled rt.cipher r past s) (hkey : (s.fs.objs r.obj).key = r.before)
    (hlength : r.data.length = r.before.size) :
    PassResult rt path earlier (.ok (.ok ⟨hexEncode (rt.sha256 r.data), r.data.length, r.name⟩))
      (past ++ [⟨some (.restat r), s, s⟩]) s := by
  obtain ⟨t, mid, hstat, -, ⟨⟨hnow, hmid⟩, hdata⟩ | ⟨hne, -⟩⟩ := h
  · obtain ⟨hcreated, bytes, hbytes, hencodes⟩ := hfilled
    -- The content at the first stat is the one that is there now, and that was read.
    have hcontent : (t.fs.objs r.obj).content = r.data := by rw [← hnow, hdata]
    have hspools := hencodes.spools
    obtain ⟨pass, hpast, hpasses, -⟩ := hstat.passes
    obtain ⟨first, v, gap, rfl, hnone, hpath⟩ := hstat
    refine ⟨⟨pass ++ [⟨some (.restat r), s, s⟩], ?_, ?_⟩, hcreated.append _, r.data, r.obj, r,
      earlier ++ first, gap, mid, [], v, t, s, rfl, ?_, hpath, rfl, hcontent, hdata.symm,
      fun e he => ?_, rfl, hlength ▸ hmax, rfl, bytes, hbytes, hspools⟩
    · rw [hpast, List.append_assoc]
    · rw [passes_snoc rfl, hpasses]
    · simp only [passes_append] at hnone ⊢
      have hnil : passes ([] : Prog.Past ReadPt (World S)) = 0 := rfl
      omega
    · rw [(hmid e he).1, (hmid e he).2]
      exact ⟨hcontent, hcontent⟩
  · exact absurd hkey hne

/-- The second stat: the key of the first one means that the file was not written. -/
theorem finishRead_result {r : Reading} {broke : Option StableReadError}
    (h : Copied rt path earlier (.ok (r, broke)) past s) :
    (finishRead rt id r broke).Amidst Others (PassResult rt path earlier) past s := by
  cases broke with
  | some e => exact (h.2.ended h.1).discard r.name
  | none =>
    obtain ⟨hmax, hduring, hfilled⟩ := h
    show (if _ then _ else _ : Reader ReadPt S _).Amidst _ _ _ _
    split
    · next hlength =>
      -- An unwritten file would have been read to the size of its key.
      refine Ended.discard (During.ended_changed (hduring.mono fun hkey hdata => hlength ?_)) r.name
      rw [hdata, ← hkey]
      rfl
    · next hlength =>
      refine Prog.amidst_stmt (stable_during.and stable_filled) ⟨hduring, hfilled⟩ ?_
      rintro past s i ⟨hduring, hfilled⟩
      have hafter : During path earlier r.obj r.before _ _ s := hduring.own (.restat r) rfl rfl
      dsimp only [id]
      split
      · next e _ => exact (hafter.ended (mapOpenErr_ne_changed e)).ret
      · split
        · next hkey =>
          exact Ended.discard (During.ended_changed (hafter.mono fun hsame _ => hkey hsame)) r.name
        · next hkey =>
          exact Prog.amidst_ret (stable_passResult _)
            (hduring.snapshot hmax hfilled (not_not.mp hkey) (not_not.mp hlength))

/-- The copy, once the spool file is there. -/
theorem copy_result (fuel : ℕ) {r : Reading} (hmax : r.before.size ≤ rt.maxArtifactBytes)
    (hduring : During path earlier r.obj r.before (fun content => r.data = content.take r.data.length)
      past s) (hfilled : Filled rt.cipher r past s) :
    (copyLoop rt id fuel r >>= fun q => finishRead rt id q.1 q.2).Amidst Others
      (PassResult rt path earlier) past s := by
  refine Prog.amidst_bind (Prog.Amidst.mono ?_ (copyLoop_copied fuel hmax hduring hfilled))
  intro out past s h
  match out with
  | .ok (r, broke) => exact finishRead_result h
  | .error _ => trivial

/-- From the first stat on: the spool file is created. -/
theorem copyToSpool_result (hmax : before.size ≤ rt.maxArtifactBytes)
    (hduring : During path earlier obj before (fun _ => True) past s) :
    (copyToSpool rt id obj before).Amidst Others (PassResult rt path earlier) past s := by
  refine Prog.amidst_stmt stable_during hduring fun past s i hduring => ?_
  cases hio : i.io with
  | some e =>
    exact ((hduring.own (.create obj before) rfl rfl).ended StableReadError.noConfusion).ret
  | none =>
    have hduring : During path earlier obj before _ _
        { s with spool := s.spool.insertNew ⟨i.uuid, []⟩ } :=
      hduring.own (.create obj before) rfl rfl
    dsimp only [id]
    by_cases hname : (s.spool.get i.uuid).isSome
    · rw [if_pos hname]
      exact (hduring.ended StableReadError.noConfusion).ret
    · rw [if_neg hname]
      have hgone : s.spool.get i.uuid = none := by simpa using hname
      -- The new file is empty.
      have hnew : (s.spool.insertNew ⟨i.uuid, []⟩).get i.uuid = some ⟨i.uuid, []⟩ := by
        rw [Table.get_insertNew, if_pos rfl, hgone]
        rfl
      have hempty : Filled none ⟨obj, before, i.uuid, none, 0, []⟩
          (past ++ [⟨some (.create obj before), s, { s with spool := s.spool.insertNew ⟨i.uuid, []⟩ }⟩])
          { s with spool := s.spool.insertNew ⟨i.uuid, []⟩ } := by
        refine ⟨⟨_, List.mem_append_right _ (List.mem_singleton_self _), Option.some_ne_none _, hgone,
          ?_⟩, [], ?_, rfl⟩
        · rw [hnew]
          exact Option.some_ne_none _
        · rw [hnew]
          rfl
      cases hcipher : rt.cipher with
      | none =>
        refine copy_result _ hmax (hduring.mono fun _ _ => rfl) ?_
        rw [hcipher]
        exact hempty
      | some c =>
        refine Prog.amidst_stmt (stable_during.and stable_filled) ⟨hduring, hempty⟩ ?_
        rintro past s j ⟨hduring, hempty⟩
        have hafter := hduring.own (.header ⟨obj, before, i.uuid, some i.noncePrefix, 0, []⟩) rfl
          (appendStep_fs ⟨obj, before, i.uuid, some i.noncePrefix, 0, []⟩
            (spoolHeader i.noncePrefix) s j)
        split
        · exact Ended.discard (hafter.ended StableReadError.noConfusion) _
        · next hio =>
          refine copy_result _ hmax (hafter.mono fun _ _ => rfl) ?_
          obtain ⟨hcreated, bytes, hbytes, rfl⟩ := hempty
          rw [hcipher]
          refine ⟨hcreated.append _, spoolHeader i.noncePrefix, ?_, [], rfl, (spoolBlob_nil _).symm,
            rfl, fun chunk h => absurd h List.not_mem_nil⟩
          rw [appendStep_of_none hio]
          exact get_append hbytes _

/-- A pass has opened the file that the path names. -/
def Opened (path : String) (earlier : Prog.Past ReadPt (World S)) (obj : ℕ)
    (past : Prog.Past ReadPt (World S)) : Prop :=
  ∃ first v gap, past = earlier ++ first ++ ⟨some .openFile, v, v⟩ :: gap ∧
    passes (first ++ gap) = 0 ∧ v.fs.paths path = some obj

theorem Opened.snoc (h : Opened path earlier obj past) {x : Prog.Event ReadPt (World S)}
    (hx : opens x = false) : Opened path earlier obj (past ++ [x]) := by
  obtain ⟨first, v, gap, rfl, hnone, hpath⟩ := h
  refine ⟨first, v, gap ++ [x], by simp, ?_, hpath⟩
  rwa [← List.append_assoc, passes_snoc hx]

theorem Opened.ended (h : Opened path earlier obj past) (he : e ≠ .changedDuringRead) :
    Ended earlier e past := by
  obtain ⟨first, v, gap, rfl, hnone, -⟩ := h
  refine ⟨first ++ ⟨some .openFile, v, v⟩ :: gap, List.append_assoc _ _ _, ?_, fun h => absurd h he⟩
  simp only [passes_append, passes_cons, opens, if_true] at hnone ⊢
  omega

/-- The first stat. -/
theorem Opened.during (h : Opened path earlier obj past) :
    During path earlier obj (s.fs.objs obj).key (fun _ => True)
      (past ++ [⟨some (.stat obj), s, s⟩]) s := by
  obtain ⟨first, v, gap, rfl, hnone, hpath⟩ := h
  refine ⟨s, [], ⟨first, v, gap, rfl, ?_, hpath⟩, rfl, .inl ⟨⟨rfl, fun e he => ?_⟩, trivial⟩⟩
  · rwa [List.append_nil]
  · exact absurd he List.not_mem_nil

/-- A pass, whatever has happened before. -/
theorem readOnce_result (free : ℕ) (earlier : Prog.Past ReadPt (World S)) (s : World S) :
    (readOnce rt id path free).Amidst Others (PassResult rt path earlier) earlier s := by
  -- Before the file is opened, no pass of this call has begun.
  have hwaiting : Prog.Stable Others fun (past : Prog.Past ReadPt (World S)) _ =>
      ∃ first, past = earlier ++ first ∧ passes first = 0 := by
    rintro past s s' ⟨first, rfl, hnone⟩ -
    exact ⟨first ++ [⟨none, s, s'⟩], List.append_assoc _ _ _, by rwa [passes_snoc (opens_none s s')]⟩
  refine Prog.amidst_stmt hwaiting ⟨[], (List.append_nil _).symm, rfl⟩ ?_
  rintro past s i ⟨first, rfl, hnone⟩
  have hended (e : StableReadError) (he : e ≠ .changedDuringRead) :
      Ended earlier e (earlier ++ first ++ [⟨some .openFile, s, s⟩]) := by
    refine ⟨first ++ [⟨some .openFile, s, s⟩], List.append_assoc _ _ _, ?_, fun h => absurd h he⟩
    rw [passes_append, hnone]
    exact le_rfl
  dsimp only [id]
  split
  · next e _ => exact (hended _ (mapOpenErr_ne_changed e)).ret
  · exact (hended _ StableReadError.noConfusion).ret
  · next obj _ hpath =>
    have hopened : Opened path earlier obj (earlier ++ first ++ [⟨some .openFile, s, s⟩]) :=
      ⟨first, s, [], rfl, by rwa [List.append_nil], hpath⟩
    have hstable : Prog.Stable Others fun (past : Prog.Past ReadPt (World S)) _ =>
        Opened path earlier obj past := fun past s s' h _ => h.snoc (opens_none s s')
    refine Prog.amidst_stmt hstable hopened fun past s i hopened => ?_
    split
    · next e _ =>
      exact ((hopened.snoc (x := ⟨some (.stat obj), s, s⟩) rfl).ended
        (mapOpenErr_ne_changed e)).ret
    · split
      · exact ((hopened.snoc (x := ⟨some (.stat obj), s, s⟩) rfl).ended
          StableReadError.noConfusion).ret
      · next hmax =>
        split
        · exact ((hopened.snoc (x := ⟨some (.stat obj), s, s⟩) rfl).ended
            StableReadError.noConfusion).ret
        · exact copyToSpool_result (Nat.le_of_not_lt hmax) hopened.during

/-- `stable_read`: the last pass gives the result. -/
theorem stableRead_result (free : ℕ) (retries : ℕ) : ∀ (past : Prog.Past ReadPt (World S))
    (s : World S), (stableRead rt id path free retries).Amidst Others (fun out past' s =>
      ∀ res, out = .ok (.ok res) → IsSnapshot rt path past' s res ∧
        ∃ more, past' = past ++ more ∧ passes more ≤ retries + 1) past s := by
  induction retries with
  | zero =>
    intro past s
    refine Prog.Amidst.mono ?_ (readOnce_result free past s)
    rintro out past' s h res rfl
    exact ⟨h.2.2, h.1⟩
  | succ retries ih =>
    intro past s
    refine Prog.amidst_bind (Prog.Amidst.mono ?_ (readOnce_result free past s))
    intro out past' s h
    match out with
    | .ok (.ok res) =>
      intro past₂ t hrun res' hres
      obtain rfl := Except.ok.inj (Except.ok.inj hres)
      obtain ⟨⟨more, hpast, hpasses⟩, -, hsnapshot⟩ := (stable_passResult _).aside hrun h
      exact ⟨hsnapshot, more, hpast, by omega⟩
    | .ok (.error e) =>
      cases e with
      | changedDuringRead =>
        -- The pass before adds its opening to those of the rest.
        obtain ⟨pass, rfl, hpasses, -⟩ := h
        refine (ih (past ++ pass) s).mono fun out past₂ t h res hres => ?_
        obtain ⟨hsnapshot, more, hpast, hmore⟩ := h res hres
        refine ⟨hsnapshot, pass ++ more, by rw [hpast, List.append_assoc], ?_⟩
        rw [passes_append]
        omega
      | _ =>
        intro past₂ t hrun res hres
        cases Except.ok.inj hres
    | .error _ =>
      intro res hres
      cases hres

end Pass

/-- **Stable reads are snapshots.**  Whatever others do between the steps: an accepted copy is
the content of the file at every moment between the stats of its pass, after at most one pass
more than there are retries; and a pass in which nobody writes the file is not taken for a
change. -/
theorem stable_read_snapshot (rt : Runtime S) (path : String) (free retries : ℕ) :
    (∀ (s t : World S) (past : Prog.Past ReadPt (World S)) (res : StableReadResult),
      Prog.Amid Others (stableRead rt id path free retries) [] s (.ret (.ok res)) past t →
        IsSnapshot rt path past t res ∧ passes past ≤ retries + 1) ∧
    (∀ (s t : World S) (earlier past : Prog.Past ReadPt (World S)),
      Prog.Amid Others (readOnce rt id path free) earlier s (.ret (.error .changedDuringRead)) past t →
        ∃ pass, past = earlier ++ pass ∧ WrittenDuring pass) := by
  constructor
  · intro s t past res hrun
    obtain ⟨hsnapshot, more, hpast, hmore⟩ := hrun.sound (stableRead_result free retries [] s) res rfl
    exact ⟨hsnapshot, hpast ▸ hmore⟩
  · intro s t earlier past hrun
    obtain ⟨pass, hpast, -, hwritten⟩ := hrun.sound (readOnce_result free earlier s)
    exact ⟨pass, hpast, hwritten rfl⟩

/-! ### A file rewritten once -/

/-- A host with one file of three bytes. -/
def hostBefore : World Unit := World.fresh (.holding [1, 2, 3]) ()

/-- An agent without a cipher. -/
def plainAgent : Runtime Unit :=
  Runtime.small (Server.fixed (.error "offline") (.error "offline")) none 1

/-- Open, stat, create, read two bytes, write them. -/
def firstInputs : List Input :=
  [.fine 0 0 [], .fine 0 0 [], .fine 5 0 [], .fine 0 2 [], .fine 0 0 []]

/-- The rest of that pass. -/
def restInputs : List Input := [.fine 0 8 [], .fine 0 0 []]

/-- A pass over a file that fits into one read. -/
def secondInputs : List Input :=
  [.fine 0 0 [], .fine 0 0 [], .fine 6 0 [], .fine 0 8 [], .fine 0 0 [], .fine 0 8 [], .fine 0 0 []]

/-- The events up to the write. -/
def pastBefore : Prog.Past ReadPt (World Unit) :=
  ((readOnce plainAgent id "a" 100).alone firstInputs [] hostBefore).2.1

/-- The host then. -/
def hostCopying : World Unit :=
  ((readOnce plainAgent id "a" 100).alone firstInputs [] hostBefore).2.2

/-- The file is rewritten. -/
def hostAfter : World Unit :=
  { hostCopying with fs := ⟨fun _ => some 0, fun _ => ⟨0, 7, [1, 9], 1, 1⟩⟩ }

theorem rewritten_by_others : Others pastBefore hostCopying hostAfter := by
  refine ⟨fun obj => .inr ?_, fun _ _ => rfl⟩
  have hsame : ∀ e ∈ pastBefore, e.before.fs = hostBefore.fs ∧ e.after.fs = hostBefore.fs :=
    List.forall_iff_forall_mem.mp
      ⟨⟨rfl, rfl⟩, ⟨rfl, rfl⟩, ⟨rfl, rfl⟩, ⟨rfl, rfl⟩, rfl, rfl⟩
  have hold : (hostBefore.fs.objs obj).key ≠ (hostAfter.fs.objs obj).key := by
    intro h
    have hsize : 3 = 2 := congrArg FileKey.size h
    omega
  rintro (h | ⟨e, he, h | h⟩)
  · exact hold h
  · rw [(hsame e he).1] at h
    exact hold h
  · rw [(hsame e he).2] at h
    exact hold h

/-- The first pass sees a change, the second one gives the new content. -/
theorem stable_read_snapshot_rewritten :
    (∃ past t, IsSnapshot plainAgent "a" past t ⟨hexEncode [1, 9], 2, 6⟩ ∧ passes past ≤ 2) ∧
    ∃ pass, WrittenDuring (pass : Prog.Past ReadPt (World Unit)) := by
  have hfirst := Prog.amid_alone Others firstInputs (readOnce plainAgent id "a" 100) [] hostBefore
    (.others rewritten_by_others (Prog.amid_alone Others restInputs _ _ hostAfter (.refl _ _ _)))
  have hboth := Prog.amid_alone Others firstInputs (stableRead plainAgent id "a" 100 1) [] hostBefore
    (.others rewritten_by_others
      (Prog.amid_alone Others (restInputs ++ secondInputs) _ _ hostAfter (.refl _ _ _)))
  obtain ⟨pass, -, hwritten⟩ := (stable_read_snapshot plainAgent "a" 100 1).2 _ _ _ _ hfirst
  exact ⟨⟨_, _, (stable_read_snapshot plainAgent "a" 100 1).1 _ _ _ _ hboth⟩, pass, hwritten⟩

end Corpus.Agent
