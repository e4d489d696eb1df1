/-
Content addresses.

A committed artifact is trusted by its digest: later announcements of the digest
upload nothing, hunts read the object its row names.  `Intact` says that the
object is there and hashes to the row's digest.

`finalize` verifies the bytes it has read and commits whatever is staged when the
commit runs.  `Staged` says what a finalize call may rely on between the two; the
one statement that can break it is a `stage_upload` of other bytes on the same
upload id.  The commit is one step; where it has to copy, the step may leave the
first bytes of the object (`CasIo.Tears`).

Main results:
* `content_address_integrity` — along every history in which no upload lands on
  a finalize call between its read and its commit, and no copy stops in the middle,
  committed artifacts are intact;
* `upload_between_verify_and_commit` — a history where one does.
-/
import Corpus.Frames
import Corpus.ServerMoves

namespace Corpus

variable {cfg : Config}

/-- Every committed artifact has an object whose bytes hash to its digest and
have its size. -/
def Intact (cfg : Config) (d : IngestDb) : Prop :=
  ∀ a ∈ d.artifacts.rows, a.storageState = .committed → ∃ bytes,
    d.cas.objects a.objectKey = some bytes ∧ cfg.sha256 bytes = a.sha256 ∧
      (bytes.length : ℤ) = a.sizeBytes

/-- Every object is named by the digest of its bytes. -/
def NamedByDigest (cfg : Config) (d : IngestDb) : Prop :=
  ∀ k bytes, d.cas.objects k = some bytes → k.sha256Hex = hexEncode (cfg.sha256 bytes)

/-- The condition on a step: a staged upload is overwritten only while no finalize
call that has verified other bytes of it is about to create their object. -/
def UploadApart (cfg : Config) (s : Db) (pts : ℕ → Ctl Pt Reply) : Act Call Env → Prop
  | .exec n _ => ∀ t u bytes, pts n = .at (.ingest (.stageWrite t u bytes)) →
      ∀ m t' req bytes' scope, pts m = .at (.ingest (.finCommit t' req u bytes' scope)) →
        bytes' = bytes ∨ (s.ingest.cas.objects ⟨t', hexEncode (cfg.sha256 bytes')⟩).isSome
  | _ => True

/-- The condition on a commit: it leaves no part of an object. -/
def CommitsWhole (cfg : Config) (s : Db) (pts : ℕ → Ctl Pt Reply) : Act Call Env → Prop
  | .exec n env => ∀ t req key bytes scope staged,
      pts n = .at (.ingest (.finCommit t req key bytes scope)) →
      s.ingest.cas.objects ⟨t, hexEncode (cfg.sha256 bytes)⟩ = none →
      s.ingest.cas.staging key = some staged → ¬ env.cas.Tears staged
  | _ => True

/-! ### What a finalize call relies on -/

/-- The object of these bytes is there. -/
def IngestDb.Holds (cfg : Config) (d : IngestDb) (t : Uuid) (bytes : Bytes) : Prop :=
  (d.cas.objects ⟨t, hexEncode (cfg.sha256 bytes)⟩).isSome

/-- What a call knows at its point: after the checks the size agrees, and the bytes
are still what is staged or have their object; after the commit they have it. -/
def Staged (cfg : Config) : Ctl Pt Reply → Db → Prop
  | .at (.ingest (.finCommit t req key bytes _)), s =>
    (bytes.length : ℤ) = req.sizeBytes ∧ (s.ingest.cas.staging key = none ∨
      s.ingest.cas.staging key = some bytes ∨ s.ingest.Holds cfg t bytes)
  | .at (.ingest (.finNextval t req bytes _)), s
  | .at (.ingest (.finInsert t req bytes _ _)), s =>
    (bytes.length : ℤ) = req.sizeBytes ∧ s.ingest.Holds cfg t bytes
  | _, _ => True

theorem staged_of_not_ingest {c : Ctl Pt Reply} (h : ∀ p, c ≠ .at (.ingest p)) (s : Db) :
    Staged cfg c s := by
  unfold Staged
  split
  · exact absurd rfl (h _)
  · exact absurd rfl (h _)
  · exact absurd rfl (h _)
  · trivial

/-- What a call relies on survives when no object disappears and its own staged
bytes are kept, dropped, or not needed any more. -/
theorem Staged.mono {c : Ctl Pt Reply} {s s' : Db} (h : Staged cfg c s)
    (hobj : ∀ k, (s.ingest.cas.objects k).isSome → (s'.ingest.cas.objects k).isSome)
    (hstage : ∀ {t req key bytes scope}, c = .at (.ingest (.finCommit t req key bytes scope)) →
      s'.ingest.cas.staging key = s.ingest.cas.staging key ∨ s'.ingest.cas.staging key = none ∨
        s'.ingest.cas.staging key = some bytes ∨ s'.ingest.Holds cfg t bytes) :
    Staged cfg c s' := by
  unfold Staged at h ⊢
  split at h
  · refine ⟨h.1, ?_⟩
    rcases hstage rfl with heq | hnone | hsame | hobject
    · rw [heq]
      exact h.2.imp_right (.imp_right (hobj _))
    · exact .inl hnone
    · exact .inr (.inl hsame)
    · exact .inr (.inr hobject)
  · exact ⟨h.1, hobj _ h.2⟩
  · exact ⟨h.1, hobj _ h.2⟩
  · trivial

/-! ### Files -/

/-- What a commit does to the objects: none is new, or one is and holds the staged bytes, or
the first of them where the copy is torn. -/
theorem Cas.commit_objects (c : Cas) (io : CasIo) (key : Uuid) (object : ObjectKey) :
    (c.commit io key object).2.objects = c.objects ∨
      c.objects object = none ∧ ∃ bytes part, c.staging key = some bytes ∧
        (c.commit io key object).2.objects = Function.update c.objects object (some part) ∧
        (part = bytes ∨ io.Tears bytes) := by
  rcases c.commit_cases io key object with ⟨_, h⟩ | ⟨_, _, e, h⟩ | ⟨hnone, _, bytes, hb, h⟩ |
    ⟨hnone, _, _, bytes, part, e, hb, hpart, h⟩
  · rw [h]
    rcases c.discardStaging_cases io key with hd | hd <;> exact .inl (by rw [hd])
  · exact .inl (by rw [h])
  · exact .inr ⟨hnone, bytes, bytes, hb, by rw [h]; rfl, .inl rfl⟩
  · exact .inr ⟨hnone, bytes, part, hb, by rw [h]; rfl, hpart⟩

/-- What a commit does to the staged bytes. -/
theorem Cas.commit_staging (c : Cas) (io : CasIo) (key : Uuid) (object : ObjectKey) :
    (c.commit io key object).2.staging = c.staging ∨
      (c.commit io key object).2.staging = Function.update c.staging key none := by
  rcases c.commit_cases io key object with ⟨_, h⟩ | ⟨_, _, e, h⟩ | ⟨_, _, bytes, _, h⟩ |
    ⟨_, _, _, bytes, part, e, _, _, h⟩
  · rw [h]
    rcases c.discardStaging_cases io key with hd | hd
    · exact .inl (by rw [hd])
    · exact .inr (by rw [hd])
  · exact .inl (by rw [h])
  · exact .inr (by rw [h]; rfl)
  · exact .inl (by rw [h]; rfl)

/-- After a commit that succeeds the object is there. -/
theorem Cas.commit_ok {c c' : Cas} {io : CasIo} {key : Uuid} {object : ObjectKey}
    (h : c.commit io key object = (.ok (), c')) : (c'.objects object).isSome := by
  rcases c.commit_cases io key object with ⟨hsome, h'⟩ | ⟨_, _, e, h'⟩ | ⟨_, _, bytes, _, h'⟩ |
    ⟨_, _, _, bytes, part, e, _, _, h'⟩ <;> obtain ⟨hr, rfl⟩ := Prod.ext_iff.mp (h.symm.trans h')
  · rcases c.discardStaging_cases io key with hd | hd <;> rwa [hd]
  · cases hr
  · exact Option.isSome_iff_exists.mpr ⟨bytes, Function.update_self ..⟩
  · cases hr

/-! ### What a commit draws -/

/-- A commit leaves the files as `Cas.commit` does on the answers its statement draws. -/
def CommitDraws (cfg : Config) (l : Pt) (env : Env) (s s' : Db) : Prop :=
  ∀ {t req key bytes scope}, l = .ingest (.finCommit t req key bytes scope) →
    s'.ingest.cas = (s.ingest.cas.commit env.cas key ⟨t, hexEncode (cfg.sha256 bytes)⟩).2

/-- A call that may still come to its commit. -/
def BeforeCommit : Ctl Pt Reply → Prop
  | .at (.ingest (.finSession ..)) | .at (.ingest (.finRead ..))
  | .at (.ingest (.finCommit ..)) => True
  | _ => False

theorem beforeCommit_of_not_ingest {c : Ctl Pt Reply} (h : ∀ p, c ≠ .at (.ingest p)) :
    ¬ BeforeCommit c := by
  unfold BeforeCommit
  split
  · exact absurd rfl (h _)
  · exact absurd rfl (h _)
  · exact absurd rfl (h _)
  · exact id

theorem IngestMove.not_beforeCommit {p : IngestPt} {s s' : Db} {c : Ctl Pt Reply}
    (h : IngestMove cfg p s s' c) (hp : ¬ BeforeCommit (.at (.ingest p))) : ¬ BeforeCommit c := by
  cases h with
  | finSession | finSize | finMismatch | finScope | finVerified | finCommit | finCommitFailed =>
    exact absurd trivial hp
  | _ => exact id

/-- Away from its commit a call does not come to one. -/
theorem commitDraws_off {l : Pt} {env : Env} {s s' : Db} {c : Ctl Pt Reply}
    (hl : ¬ BeforeCommit (.at l)) (h : Move cfg l s s' c) :
    CommitDraws cfg l env s s' ∧ ¬ BeforeCommit c := by
  refine ⟨?_, ?_⟩
  · rintro t req key bytes scope rfl
    exact absurd trivial hl
  · rcases h.ingest_cases with ⟨p, rfl, hm⟩ | ⟨_, hnot⟩
    · exact hm.not_beforeCommit hl
    · exact beforeCommit_of_not_ingest hnot

theorem takes_off {p : Srv Reply} (hp : p.Follows (Move cfg)) (hoff : ¬ BeforeCommit p.ctl) :
    p.Takes fun l env s s' _ => CommitDraws cfg l env s s' :=
  hp.takes_off (P := fun c => ¬ BeforeCommit c) commitDraws_off hoff

theorem verifyAndCommit_takes (t : Uuid) (req : FinalizeRequest) (key : Uuid) (bytes : Bytes) :
    (verifyAndCommit cfg t req key bytes >>= fun r => Prog.ret (Reply.finalized r)).Takes
      fun l env s s' _ => CommitDraws cfg l env s s' := by
  have hfollows := (verifyAndCommit_follows (t := t) cfg req key bytes).2
  unfold verifyAndCommit at hfollows ⊢
  dsimp only at hfollows ⊢
  split
  · next hsize =>
    rw [if_pos hsize] at hfollows
    exact takes_off hfollows id
  next hsize =>
  rw [if_neg hsize] at hfollows
  cases hverify : verifyUpload cfg.sha256 bytes req.sha256 with
  | error e =>
    rw [hverify] at hfollows
    exact takes_off hfollows id
  | ok raw =>
    rw [hverify] at hfollows
    cases hscope : parseScope (req.scope.getD "endpoint") with
    | none =>
      rw [hscope] at hfollows
      exact takes_off hfollows id
    | some scope =>
      rw [hscope] at hfollows
      -- the commit itself draws its answers, and what follows it is behind it
      refine fun s env => ⟨?_, ?_⟩
      · rintro t' req' key' bytes' scope' heq
        cases heq
        rfl
      · refine takes_off (hfollows s env).2 ?_
        dsimp only
        cases (s.ingest.cas.commit env.cas key ⟨t, hexEncode (cfg.sha256 bytes)⟩).1 with
        | error e => exact id
        | ok u => exact id

theorem finalize_takes (t : Uuid) (req : FinalizeRequest) :
    (finalize cfg t req >>= fun r => Prog.ret (Reply.finalized r)).Takes
      fun l env s s' _ => CommitDraws cfg l env s s' := by
  unfold finalize
  simp only [Prog.query_bind, Prog.stmt_bind, Prog.takes_stmt]
  refine fun s env => ⟨fun heq => (by cases heq), ?_⟩
  cases s.ingest.sessionOf t req.uploadId with
  | none => trivial
  | some session =>
    dsimp only
    split
    · trivial
    · simp only [Prog.stmt_bind, Prog.takes_stmt]
      refine fun s env => ⟨fun heq => (by cases heq), ?_⟩
      cases s.ingest.cas.staging session.stagingKey with
      | none => trivial
      | some bytes => exact verifyAndCommit_takes t req session.stagingKey bytes

theorem serve_draws (cfg : Config) (c : Call) :
    (serve cfg c).Takes fun l env s s' _ => CommitDraws cfg l env s s' := by
  have hoff : ∀ {x}, Entry x → (∀ t req, x ≠ .at (.ingest (.finSession t req))) →
      ¬ BeforeCommit x := by
    intro x hx hne
    cases hx with
    | finalize t req => exact absurd rfl (hne t req)
    | _ => exact id
  cases c with
  | finalize t req => exact finalize_takes t req
  | announce t req =>
    refine takes_off (serve_follows cfg _) (hoff (serve_entry cfg _) ?_)
    simp only [serve, announce]
    cases hexToRaw req.sha256 <;> exact fun _ _ heq => by cases heq
  | publish t ids activate =>
    refine takes_off (serve_follows cfg _) (hoff (serve_entry cfg _) ?_)
    cases ids <;> exact fun _ _ heq => by cases heq
  | _ => exact takes_off (serve_follows cfg _) (hoff (serve_entry cfg _) fun _ _ heq => by cases heq)

/-- Objects are never removed or overwritten. -/
theorem IngestMove.objects_mono {p : IngestPt} {s s' : Db} {c : Ctl Pt Reply}
    (h : IngestMove cfg p s s' c) {k : ObjectKey} {bytes : Bytes}
    (hk : s.ingest.cas.objects k = some bytes) : s'.ingest.cas.objects k = some bytes := by
  rcases h.cas_cases with heq | ⟨io, key, heq⟩ | ⟨t, u, b, _, heq⟩ |
    ⟨t, req, key, b, scope, io, _, hc⟩
  · rw [heq]
    exact hk
  · rcases s.ingest.cas.discardStaging_cases io key with hd | hd <;> rwa [heq, hd]
  · rw [heq]
    exact hk
  · rw [hc]
    rcases s.ingest.cas.commit_objects io key ⟨t, hexEncode (cfg.sha256 b)⟩ with
      heq | ⟨hnone, b', part, _, heq, _⟩
    · rw [heq]
      exact hk
    · rw [heq, Function.update_of_ne]
      · exact hk
      · rintro rfl
        rw [hnone] at hk
        cases hk

theorem IngestMove.isSome_mono {p : IngestPt} {s s' : Db} {c : Ctl Pt Reply}
    (h : IngestMove cfg p s s' c) (k : ObjectKey) (hk : (s.ingest.cas.objects k).isSome) :
    (s'.ingest.cas.objects k).isSome := by
  obtain ⟨bytes, hb⟩ := Option.isSome_iff_exists.mp hk
  rw [h.objects_mono hb]
  rfl

/-! ### One step -/

theorem IngestMove.namedByDigest {p : IngestPt} {s s' : Db} {c : Ctl Pt Reply} {env : Env}
    (h : IngestMove cfg p s s' c) (hdraws : CommitDraws cfg (.ingest p) env s s')
    (hwhole : ∀ t req key bytes scope staged, p = .finCommit t req key bytes scope →
      s.ingest.cas.objects ⟨t, hexEncode (cfg.sha256 bytes)⟩ = none →
      s.ingest.cas.staging key = some staged → ¬ env.cas.Tears staged)
    (hnamed : NamedByDigest cfg s.ingest) (hp : Staged cfg (.at (.ingest p)) s) :
    NamedByDigest cfg s'.ingest := by
  intro k bytes hk
  rcases h.cas_cases with heq | ⟨io, key, heq⟩ | ⟨t, u, b, _, heq⟩ |
    ⟨t, req, key, b, scope, io, rfl, _⟩
  · rw [heq] at hk
    exact hnamed k bytes hk
  · rcases s.ingest.cas.discardStaging_cases io key with hd | hd
    · rw [heq, hd] at hk
      exact hnamed k bytes hk
    · rw [heq, hd] at hk
      exact hnamed k bytes hk
  · rw [heq] at hk
    exact hnamed k bytes hk
  · rw [hdraws rfl] at hk
    rcases s.ingest.cas.commit_objects env.cas key ⟨t, hexEncode (cfg.sha256 b)⟩ with
      heq | ⟨hnone, staged, part, hstaged, heq, hpart⟩
    · rw [heq] at hk
      exact hnamed k bytes hk
    · rw [heq] at hk
      by_cases hkey : k = ⟨t, hexEncode (cfg.sha256 b)⟩
      · subst hkey
        rw [Function.update_self] at hk
        obtain rfl : part = bytes := Option.some.inj hk
        obtain rfl : part = staged :=
          hpart.resolve_right (hwhole _ _ _ _ _ _ rfl hnone hstaged)
        -- the object did not exist, so the staged bytes are the verified ones
        rcases hp.2 with hgone | hsame | hthere
        · rw [hgone] at hstaged
          cases hstaged
        · rw [hsame] at hstaged
          obtain rfl : b = part := Option.some.inj hstaged
          rfl
        · rw [IngestDb.Holds, hnone] at hthere
          cases hthere
      · rw [Function.update_of_ne hkey] at hk
        exact hnamed k bytes hk

theorem IngestMove.intact {p : IngestPt} {s s' : Db} {c : Ctl Pt Reply}
    (hinj : Function.Injective cfg.sha256) (h : IngestMove cfg p s s' c)
    (hintact : Intact cfg s.ingest) (hnamed : NamedByDigest cfg s.ingest)
    (hp : Staged cfg (.at (.ingest p)) s) : Intact cfg s'.ingest := by
  have hkeep : ∀ a ∈ s.ingest.artifacts.rows, a.storageState = .committed → ∃ bytes,
      s'.ingest.cas.objects a.objectKey = some bytes ∧ cfg.sha256 bytes = a.sha256 ∧
        (bytes.length : ℤ) = a.sizeBytes := by
    intro a ha hst
    obtain ⟨bytes, hobj, hrest⟩ := hintact a ha hst
    exact ⟨bytes, h.objects_mono hobj, hrest⟩
  intro a ha hst
  rcases h.artifacts_cases with heq | ⟨t, req, bytes, scope, seq, id, now, rfl, _, _, heq⟩
  · rw [heq] at ha
    exact hkeep a ha hst
  · rw [heq, IngestDb.recordCapture_artifacts] at ha
    rcases Table.mem_insertNew ha with hold | rfl
    · exact hkeep a hold hst
    · -- the new row names the object the call has committed or found
      obtain ⟨hsize, hthere⟩ := hp
      obtain ⟨found, hfound⟩ := Option.isSome_iff_exists.mp hthere
      have hsame : found = bytes :=
        hinj (hexEncode_injective (hnamed _ _ hfound)).symm
      subst hsame
      exact ⟨found, h.objects_mono hfound, rfl, hsize⟩

/-- A move leaves its own call with what it relies on from there. -/
theorem IngestMove.staged {p : IngestPt} {s s' : Db} {c : Ctl Pt Reply}
    (h : IngestMove cfg p s s' c) (hp : Staged cfg (.at (.ingest p)) s) : Staged cfg c s' := by
  cases h with
  | finVerified hstaging hsize => exact ⟨hsize, .inr (.inl hstaging)⟩
  | finCommit hc => exact ⟨hp.1, Cas.commit_ok hc⟩
  | finNextval => exact hp
  | _ => trivial

/-- A move breaks nothing another call relies on, if it meets the condition. -/
theorem IngestMove.staged_other {p : IngestPt} {s s' : Db} {c : Ctl Pt Reply}
    {pts : ℕ → Ctl Pt Reply} {n m : ℕ} {env : Env} (h : IngestMove cfg p s s' c)
    (hn : pts n = .at (.ingest p)) (hok : UploadApart cfg s pts (.exec n env))
    (hm : Staged cfg (pts m) s) : Staged cfg (pts m) s' := by
  refine hm.mono h.isSome_mono fun {t req key bytes scope} hat => ?_
  have hgone : ∀ (c' : Cas) (key' : Uuid), s'.ingest.cas.staging = c'.staging →
      (c'.staging = s.ingest.cas.staging ∨
        c'.staging = Function.update s.ingest.cas.staging key' none) →
      s'.ingest.cas.staging key = s.ingest.cas.staging key ∨ s'.ingest.cas.staging key = none := by
    intro c' key' heq hcases
    rcases hcases with hsame | hupd
    · exact .inl (by rw [heq, hsame])
    · rw [heq, hupd]
      by_cases hkey : key = key'
      · exact .inr (by rw [hkey]; exact Function.update_self ..)
      · exact .inl (Function.update_of_ne hkey ..)
  rcases h.cas_cases with heq | ⟨io, key', heq⟩ | ⟨t', u, b, rfl, heq⟩ |
    ⟨t', req', key', b, scope', io, _, hc⟩
  · exact .inl (by rw [heq])
  · refine (hgone (s.ingest.cas.discardStaging io key') key' (by rw [heq]) ?_).imp_right .inl
    rcases s.ingest.cas.discardStaging_cases io key' with hd | hd
    · exact .inl (by rw [hd])
    · exact .inr (by rw [hd])
  · by_cases hkey : key = u
    · subst hkey
      rcases hok _ _ _ hn _ _ _ _ _ hat with rfl | hthere
      · exact .inr (.inr (.inl (by rw [heq]; exact Function.update_self ..)))
      · exact .inr (.inr (.inr (h.isSome_mono _ hthere)))
    · exact .inl (by rw [heq]; exact Function.update_of_ne hkey ..)
  · exact (hgone _ _ (by rw [hc]) (s.ingest.cas.commit_staging io key' _)).imp_right .inl

/-! ### Every history -/

/-- **Content-address integrity.**  From any store whose artifacts are intact and
whose objects are named by their digests, along every interleaving of server calls
and crashes in which no upload lands between the read and the commit of a finalize
call and no commit leaves a part of an object, every committed artifact has an object
that hashes to its digest. -/
theorem content_address_integrity (hinj : Function.Injective cfg.sha256) {s₀ : Db}
    (hintact : Intact cfg s₀.ingest) (hnamed : NamedByDigest cfg s₀.ingest)
    {h : Pool.Hist Call Pt Db Env Error Reply} {p : Pool Call Pt Db Env Error Reply}
    (hr : Pool.Reach (serve cfg) s₀ h p)
    (hok : ∀ e ∈ h, UploadApart cfg e.1.store e.1.ctl e.2)
    (hwhole : ∀ e ∈ h, CommitsWhole cfg e.1.store e.1.ctl e.2) : Intact cfg p.store.ingest := by
  have hentry : ∀ {c} s, Entry c → Staged cfg c s := by
    intro c s hc
    cases hc <;> trivial
  refine (Pool.Reach.outline (fun c => (serve_takes cfg c).and (serve_draws cfg c))
    (fun s pts a => UploadApart cfg s pts a ∧ CommitsWhole cfg s pts a)
    (fun s => Intact cfg s.ingest ∧ NamedByDigest cfg s.ingest) (Staged cfg) ⟨hintact, hnamed⟩
    (fun _ => trivial) (fun _ => trivial) (fun c s => hentry s (serve_entry cfg c)) ?_ hr
    fun e he => ⟨hok e he, hwhole e he⟩).1.1
  intro s s' pts n l c env hG hA hn hmove hstep
  rcases hmove.1.ingest_cases with ⟨q, rfl, hm⟩ | ⟨hsame, hnot⟩
  · have hq : Staged cfg (.at (.ingest q)) s := hn ▸ hA n
    have hparts : ∀ t req key bytes scope staged, q = .finCommit t req key bytes scope →
        s.ingest.cas.objects ⟨t, hexEncode (cfg.sha256 bytes)⟩ = none →
        s.ingest.cas.staging key = some staged → ¬ env.cas.Tears staged := by
      rintro t req key bytes scope staged rfl
      exact hstep.2 t req key bytes scope staged hn
    exact ⟨⟨hm.intact hinj hG.1 hG.2 hq, hm.namedByDigest hmove.2 hparts hG.2 hq⟩, hm.staged hq,
      fun m _ => hm.staged_other hn hstep.1 (hA m)⟩
  · refine ⟨by rwa [hsame], staged_of_not_ingest hnot s', fun m _ => (hA m).mono ?_ ?_⟩
    · intro k hk
      rwa [hsame]
    · exact fun _ => .inl (by rw [hsame])

/-- A check that suffices for `UploadApart`: nobody is about to commit when bytes
are staged. -/
def stagesAlone (p : Pool Call Pt Db Env Error Reply) : Act Call Env → Bool
  | .exec n _ => match p.ctl n with
    | .at (.ingest (.stageWrite ..)) => !p.anyAt fun
      | .ingest (.finCommit ..) => true
      | _ => false
    | _ => true
  | _ => true

theorem uploadApart_of_all {h : Pool.Hist Call Pt Db Env Error Reply}
    (hall : (h.all fun e => stagesAlone e.1 e.2) = true) :
    ∀ e ∈ h, UploadApart cfg e.1.store e.1.ctl e.2 := by
  intro e he
  have halone := List.all_eq_true.mp hall e he
  obtain ⟨p, a⟩ := e
  cases a with
  | exec n env =>
    intro t u bytes hn m t' req bytes' scope hm
    simp only [stagesAlone, hn, Bool.not_eq_true'] at halone
    cases Pool.not_of_anyAt halone hm
  | spawn c => trivial
  | kill n => trivial

/-- A check that suffices for `CommitsWhole`: whatever is staged can be renamed. -/
def renamesAll : Act Call Env → Bool
  | .exec _ env => env.cas.renames
  | _ => true

theorem commitsWhole_of_all {h : Pool.Hist Call Pt Db Env Error Reply}
    (hall : (h.all fun e => renamesAll e.2) = true) :
    ∀ e ∈ h, CommitsWhole cfg e.1.store e.1.ctl e.2 := by
  intro e he
  have hrename := List.all_eq_true.mp hall e he
  obtain ⟨p, a⟩ := e
  cases a with
  | exec n env =>
    intro t req key bytes scope staged _ _ _ htears
    exact absurd (htears.1.symm.trans hrename) Bool.false_ne_true
  | spawn c => trivial
  | kill n => trivial

theorem content_address_integrity_alone :
    ∃ h p, Pool.Reach (serve Config.plain) Db.empty h p ∧
      (∃ a ∈ p.store.ingest.artifacts.rows, a.sha256 = [1]) ∧
      Intact Config.plain p.store.ingest := by
  obtain ⟨h, p, hreach, hchk⟩ := Pool.exists_reach (serve Config.plain) Db.empty
    (importByte 0 5 9 1 none none)
    (fun h p => (h.all fun e => stagesAlone e.1 e.2) && (h.all fun e => renamesAll e.2) &&
      p.store.ingest.artifacts.rows.any fun a => a.sha256 = [1]) (by decide)
  simp only [Bool.and_eq_true, List.any_eq_true, decide_eq_true_eq] at hchk
  obtain ⟨⟨halone, hrename⟩, hrow⟩ := hchk
  refine ⟨h, p, hreach, hrow, ?_⟩
  refine content_address_integrity (fun _ _ h => h) ?_ ?_ hreach (uploadApart_of_all halone)
    (commitsWhole_of_all hrename)
  · exact fun a ha => absurd ha List.not_mem_nil
  · exact fun k bytes hk => by cases hk

/-- Other bytes are staged on the same upload id after the finalize call has
verified the first ones: it commits the second and records the first. -/
theorem upload_between_verify_and_commit :
    Function.Injective Config.plain.sha256 ∧
    ∃ h p, Pool.Reach (serve Config.plain) Db.empty h p ∧ ¬ Intact Config.plain p.store.ingest := by
  refine ⟨fun _ _ h => h, ?_⟩
  obtain ⟨h, p, hreach, hchk⟩ := Pool.exists_reach (serve Config.plain) Db.empty
    (uploadByte 0 5 1 none ++ finalizeByte 5 1 none none :: steps 2 2 9 ++
      .spawn (.stageUpload 0 5 [2]) :: steps 3 2 9 ++ steps 2 3 9)
    (fun _ p => p.store.ingest.artifacts.rows.any fun a =>
      decide (a.storageState = .committed ∧ a.sha256 = [1]) &&
        p.store.ingest.cas.objects a.objectKey == some [2]) (by decide)
  simp only [List.any_eq_true, Bool.and_eq_true, decide_eq_true_eq, beq_iff_eq] at hchk
  obtain ⟨a, ha, ⟨hst, hsha⟩, hobj⟩ := hchk
  refine ⟨h, p, hreach, fun hintact => ?_⟩
  obtain ⟨bytes, hbytes, hdigest, _⟩ := hintact a ha hst
  rw [hobj] at hbytes
  obtain rfl : [2] = bytes := Option.some.inj hbytes
  rw [hsha] at hdigest
  cases hdigest

end Corpus
