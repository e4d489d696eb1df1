/-
What becomes of the last version of a watched file.

A change that a scan has seen is kept if the scan is about to enqueue the path, or
an active candidate will still read the version or holds its bytes, or the version
has been announced, or a gap has been recorded since it appeared (`Kept`).

`enqueue` does nothing for a path that has an active candidate.  If that candidate
has opened the file before the version appeared, the scan has marked the change as
seen and nobody reads it: `Unmissed` is the condition that this does not happen.

* `Told` — a candidate that is `COMPLETE` has been announced;
* `Kept` is kept by every step, and `last_version_kept` says what is left of it when
  the path has no active candidate.
-/
import Corpus.Agent.Versions

namespace Corpus.Agent

variable {S : Type} {rt : Runtime S} {path : String}

/-! ### Events of a capture -/

/-- A stable read of the path for the candidate `k` has returned these bytes. -/
def ReadOf (path : String) (h : Trace S) (k : ℕ) (content : Bytes) : Prop :=
  ∃ e ∈ h, ∃ n i t r, e.2 = .exec n i ∧ e.1.pts n = .at (.proc t (.stable (.restat r))) ∧
    t.cand.id = k ∧ t.cand.path = path ∧ i.io = none ∧
    (e.1.store.fs.objs r.obj).key = r.before ∧ r.data = content

/-- An announce of this digest for the candidate `k` has been answered. -/
def AnnouncedBy (rt : Runtime S) (h : Trace S) (k : ℕ) (sha : String) : Prop :=
  ∃ e ∈ h, ∃ n i t seq ann, e.2 = .exec n i ∧ e.1.pts n = .at (.proc t (.announce seq)) ∧
    t.cand.id = k ∧ t.cand.sha256 = some sha ∧
    i.answer (rt.server.announce (announceRequest rt t sha seq e.1.store) i.envs
      e.1.store.server).1 = .ok ann

/-- A gap has been recorded for the path while it had this version. -/
def GapSince (rt : Runtime S) (path : String) (h : Trace S) (ver : ℕ × FileObj) : Prop :=
  ∃ e ∈ h, ∃ k row, Inserts rt e k row ∧ row.path = some path ∧
    version path e.1.store = some ver

/-- The digest of a version. -/
def digest (rt : Runtime S) (ver : ℕ × FileObj) : String := hexEncode (rt.sha256 ver.2.content)

section Mono

variable {h : Trace S} (e : View Pt (World S) Unit × Act Call Input)

theorem ReadOf.mono {k : ℕ} {content : Bytes} (hr : ReadOf path h k content) :
    ReadOf path (h ++ [e]) k content := by
  obtain ⟨e', he', hrest⟩ := hr
  exact ⟨e', List.mem_append_left _ he', hrest⟩

theorem AnnouncedBy.mono {k : ℕ} {sha : String} (ha : AnnouncedBy rt h k sha) :
    AnnouncedBy rt (h ++ [e]) k sha := by
  obtain ⟨e', he', hrest⟩ := ha
  exact ⟨e', List.mem_append_left _ he', hrest⟩

theorem GapSince.mono {ver : ℕ × FileObj} (hg : GapSince rt path h ver) :
    GapSince rt path (h ++ [e]) ver := by
  obtain ⟨e', he', hrest⟩ := hg
  exact ⟨e', List.mem_append_left _ he', hrest⟩

end Mono

/-! ### Candidates that have been announced -/

/-- A task at this step has had its announce answered. -/
def ProcPt.told : ProcPt → Bool
  | toAnnounced _ | toDedupHit | toUploadRequired _ | setUploadId _ | toUploading _ | readSpool ..
  | upload .. | toFinalizing _ | finalizeSeq _ | finalize .. | finQueued => true
  | _ => false

/-- Candidates whose row or task says that they have been announced have been. -/
structure Told (rt : Runtime S) (h : Trace S) (s : World S) (pts : ℕ → Ctl Pt Unit) : Prop where
  rows : ∀ {k r}, s.db.get k = some r → r.state.stage = .queued ∨ r.state.stage = .complete →
    ∃ sha, r.sha256 = some sha ∧ AnnouncedBy rt h k sha
  tasks : ∀ {m t p}, pts m = .at (.proc t p) → p.told = true →
    ∃ sha, t.cand.sha256 = some sha ∧ AnnouncedBy rt h t.cand.id sha

theorem FailNext.not_told {t t' : Task} {p' : ProcPt} (h : FailNext rt t (.at (.proc t' p'))) :
    p'.told = false := by
  cases h <;> rfl

theorem AfterRead.not_told {t t' : Task} {p' : ProcPt}
    {r : Except StableReadError StableReadResult} (h : AfterRead rt t r (.at (.proc t' p'))) :
    p'.told = false := by
  cases h <;> rfl

theorem RemoveNext.not_told {t t' : Task} {p' : ProcPt} (h : RemoveNext t (.at (.proc t' p'))) :
    p'.told = false := by
  cases h; rfl

/-- A task comes to such a step from another, or by an answered announce. -/
theorem ProcMove.to_told {t t' : Task} {p p' : ProcPt} {i : Input} {s s' : World S}
    (h : ProcMove rt t p i s s' (.at (.proc t' p'))) (hp' : p'.told = true) : t' = t ∧
      (p.told = true ∨ ∃ seq sha ann, p = .announce seq ∧ t.cand.sha256 = some sha ∧
        i.answer (rt.server.announce (announceRequest rt t sha seq s) i.envs s.server).1 = .ok ann) := by
  have hfail : FailNext rt t (.at (.proc t' p')) → False := fun hf => by
    rw [hf.not_told] at hp'
    cases hp'
  have hremove : RemoveNext t (.at (.proc t' p')) → False := fun hf => by
    rw [hf.not_told] at hp'
    cases hp'
  generalize hc : (Ctl.at (.proc t' p') : Ctl Pt Unit) = c at h
  cases h with
  | announce hsha ha =>
    cases hc
    exact ⟨rfl, .inr ⟨_, _, _, rfl, hsha, ha⟩⟩
  | announceErr _ _ hf =>
    subst hc
    exact (hfail hf).elim
  | uploadErr _ _ hf =>
    subst hc
    exact (hfail hf).elim
  | finalizeErr _ _ hf =>
    subst hc
    exact (hfail hf).elim
  | countPresent _ hf =>
    subst hc
    exact (hremove hf).elim
  | lastUpload _ hf =>
    subst hc
    exact (hremove hf).elim
  | stableDone _ hf =>
    subst hc
    rw [hf.not_told] at hp'
    cases hp'
  | row _ _ _ hn =>
    cases hn with
    | resumeComplete hr =>
      subst hc
      exact (hremove hr).elim
    | noUploadId hf =>
      subst hc
      exact (hfail hf).elim
    | noSpool _ hf =>
      subst hc
      exact (hfail hf).elim
    | _ =>
      cases hc <;> first
        | exact ⟨rfl, .inl rfl⟩
        | cases hp'
  | _ =>
    cases hc <;> first
      | exact ⟨rfl, .inl rfl⟩
      | cases hp'

/-- A row that has become `queued` or `complete` was so before, or its task had been
told; its digest is the one it had. -/
theorem Knows.told_write {t : Task} {p : ProcPt} {r : Candidate} (h : Knows t p r) {now : Time}
    {w : RowWrite} (hw : p.rowWrite t now = some w)
    (hs : (w.apply r).state.stage = .queued ∨ (w.apply r).state.stage = .complete) :
    (w.apply r).sha256 = r.sha256 ∧
      (r.state.stage = .queued ∨ p.told = true ∧ r.sha256 = t.cand.sha256) := by
  have hst := h.stage
  cases p <;> simp only [ProcPt.stages, List.mem_cons, List.not_mem_nil, or_false] at hst <;>
    first
      | (cases hw; done)
      | (cases hw; exact ⟨rfl, .inl hst⟩)
      | (cases hw; exact ⟨rfl, .inr ⟨rfl, (h.copy (by simp)).1⟩⟩)
      | (cases hw; rcases hs with hs | hs <;> cases hs)
      | (cases hw; rcases hs with hs | hs <;> exact absurd (hst.symm.trans hs) (by simp))

section Step

variable {h : Trace S} {v : View Pt (World S) Unit} {n : ℕ} {l : Pt} {i : Input} {s' : World S}
  {c : Ctl Pt Unit}

theorem Told.exec (hi : Told rt h v.store v.pts) (hown : Owned v.store v.pts)
    (hn : v.pts n = .at l) (hm : Move rt l i v.store s' c) :
    Told rt (h ++ [(v, .exec n i)]) s' (Function.update v.pts n c) where
  rows {k r} hr hs := by
    have hmono : ∀ {r₀ : Candidate}, v.store.db.get k = some r₀ →
        r₀.state.stage = .queued ∨ r₀.state.stage = .complete →
        ∃ sha, r₀.sha256 = some sha ∧ AnnouncedBy rt (h ++ [(v, .exec n i)]) k sha := by
      intro r₀ hr₀ hs₀
      obtain ⟨sha, hsha, ha⟩ := hi.rows hr₀ hs₀
      exact ⟨sha, hsha, ha.mono _⟩
    have hstep := hm.row_step k
    rw [hr] at hstep
    generalize hg : v.store.db.get k = o at hstep
    cases hstep with
    | same => exact hmono hg hs
    | due ha _ =>
      rw [ha] at hs
      obtain ⟨sha, hsha, hann⟩ := hmono hg hs
      rw [ha]
      exact ⟨sha, hsha, hann⟩
    | @new _ _ _ debouncing _ => cases debouncing <;> rcases hs with hs | hs <;> cases hs
    | retry _ =>
      obtain ⟨sha, hsha, hann⟩ := hmono hg hs
      exact ⟨sha, hsha, hann⟩
    | @write t p w r₀ hl hid hw =>
      subst hl hid
      obtain ⟨r₁, hr₁, hk⟩ := hown.knows hn
      obtain rfl : r₀ = r₁ := Option.some.inj (hg.symm.trans hr₁)
      obtain ⟨hsha, hq | ⟨htold, hcopy⟩⟩ := hk.told_write hw hs
      · rw [hsha]
        exact hmono hg (.inl hq)
      · rw [hsha, hcopy]
        obtain ⟨sha, hsha, ha⟩ := hi.tasks hn htold
        exact ⟨sha, hsha, ha.mono _⟩
  tasks {m t p} hat htold := by
    rcases View.at_update hat with ⟨rfl, rfl⟩ | ⟨-, hat'⟩
    · rcases hm.to_proc with ⟨boot, x, rfl, hs⟩ | ⟨t₀, p₀, rfl, hp⟩
      · cases hs <;> cases htold
      · obtain ⟨rfl, htold₀ | ⟨seq, sha, ann, rfl, hsha, ha⟩⟩ := hp.to_told htold
        · obtain ⟨sha, hsha, ha⟩ := hi.tasks hn htold₀
          exact ⟨sha, hsha, ha.mono _⟩
        · exact ⟨sha, hsha, _, List.mem_append_right _ (List.mem_singleton_self _), m, i, t, seq, ann,
            rfl, hn, rfl, hsha, ha⟩
    · obtain ⟨sha, hsha, ha⟩ := hi.tasks hat' htold
      exact ⟨sha, hsha, ha.mono _⟩

theorem Told.idle (hi : Told rt h v.store v.pts) (a : Act Call Input)
    (hc : ∀ l, c = .at l → l.holds = none) :
    Told rt (h ++ [(v, a)]) v.store (Function.update v.pts n c) where
  rows hr hs := by
    obtain ⟨sha, hsha, ha⟩ := hi.rows hr hs
    exact ⟨sha, hsha, ha.mono _⟩
  tasks hat htold := by
    rcases View.at_update hat with ⟨-, he⟩ | ⟨-, hat'⟩
    · cases hc _ he
    · obtain ⟨sha, hsha, ha⟩ := hi.tasks hat' htold
      exact ⟨sha, hsha, ha.mono _⟩

end Step

/-! ### Reads of a version -/

/-- A stable read at this step reads the version, or will be discarded: the handle is
the file the path names, and unless the file has changed since it was opened, what
has been read is what the version begins with. -/
def ReadPt.covers (ver : ℕ × FileObj) : ReadPt → Prop
  | openFile | discard .. => True
  | stat obj | create obj _ => obj = ver.1
  | header r | read r | write r _ =>
    r.obj = ver.1 ∧ (r.before = ver.2.key → r.data = ver.2.content.take r.data.length)
  | restat r => r.obj = ver.1 ∧ (r.before = ver.2.key → r.data = ver.2.content)

theorem take_readChunk (content : Bytes) (n take : ℕ) :
    content.take n ++ readChunk content n take =
      content.take (n + (readChunk content n take).length) := by
  unfold readChunk
  generalize min (max take 1) 65536 = k
  rw [List.length_take, List.length_drop, List.take_add]
  congr 1
  rcases Nat.le_total k (content.length - n) with hk | hk
  · rw [Nat.min_eq_left hk]
  · rw [Nat.min_eq_right hk, List.take_of_length_le (by simpa using hk),
      List.take_of_length_le (by simp)]

section Read

variable {p : ReadPt} {i : Input} {s s' : World S} {ver : ℕ × FileObj}

/-- A read that covers the version keeps doing so. -/
theorem ReadMove.covers {q : ReadPt} (h : ReadMove rt path p i s s' (.at q))
    (hver : version path s = some ver) (hp : p.covers ver) : q.covers ver := by
  obtain ⟨obj, hobj, rfl⟩ := Option.map_eq_some_iff.mp hver
  generalize hc : (Ctl.at q : Ctl ReadPt (Except StableReadError StableReadResult)) = c at h
  cases h with
  | openFile _ hpath =>
    cases hc
    exact Option.some.inj (hpath.symm.trans hobj)
  | stat _ =>
    cases hc
    exact hp
  | create =>
    cases hc
    exact ⟨hp, fun _ => rfl⟩
  | createHeader =>
    cases hc
    exact ⟨hp, fun _ => rfl⟩
  | header =>
    cases hc
    exact hp
  | @readEnd _ _ r _ hlen _ =>
    cases hc
    refine ⟨hp.1, fun hkey => ?_⟩
    have hfull : r.data.length = (s.fs.objs obj).content.length := by
      rw [hlen, hkey]
      rfl
    rw [hp.2 hkey, hfull, List.take_length]
  | @read _ _ r chunk _ hchunk _ =>
    cases hc
    refine ⟨hp.1, fun hkey => ?_⟩
    have hdata : r.data = (s.fs.objs obj).content.take r.data.length := hp.2 hkey
    have hobj' : r.obj = obj := hp.1
    show r.data ++ chunk = (s.fs.objs obj).content.take (r.data ++ chunk).length
    rw [List.length_append, ← hchunk, hobj', ← take_readChunk, ← hdata]
  | write =>
    cases hc
    exact hp
  | _ => cases hc <;> trivial

/-- A read that covers the version and succeeds has read it. -/
theorem ReadMove.covers_done {res : StableReadResult}
    (h : ReadMove rt path p i s s' (.done (.ok res))) (hver : version path s = some ver)
    (hp : p.covers ver) : ∃ r, p = .restat r ∧ i.io = none ∧ (s.fs.objs r.obj).key = r.before ∧
      r.data = ver.2.content ∧ res.sha256 = digest rt ver := by
  obtain ⟨obj, hobj, rfl⟩ := Option.map_eq_some_iff.mp hver
  cases h with
  | @restat _ _ r hio hkey =>
    have hdata : r.data = (s.fs.objs obj).content := by
      refine hp.2 ?_
      rw [← hkey, show r.obj = obj from hp.1]
    exact ⟨r, rfl, hio, hkey, hdata, by rw [digest, ← hdata]⟩

end Read

/-! ### Candidates that cover a version -/

/-- A task at this step will read the version, holds it or has recorded a gap since
it appeared. -/
def ProcPt.covers (rt : Runtime S) (path : String) (h : Trace S) (k : ℕ) (ver : ℕ × FileObj) :
    ProcPt → Prop
  | stable q => q.covers ver
  | setHashed r => ReadOf path h k ver.2.content ∧ r.sha256 = digest rt ver
  | gapCount _ | finishGap _ => GapSince rt path h ver
  | _ => True

/-- The row is of the path, and is active; its bytes are the version's if it has any. -/
structure RowCovers (rt : Runtime S) (path : String) (h : Trace S) (ver : ℕ × FileObj) (k : ℕ)
    (r : Candidate) : Prop where
  names : r.path = path
  active : r.state.active = true
  content : r.state.stage = .early ∨
    ReadOf path h k ver.2.content ∧ r.sha256 = some (digest rt ver)

/-- The candidate `k` covers the version. -/
structure Covers (rt : Runtime S) (path : String) (h : Trace S) (s : World S)
    (pts : ℕ → Ctl Pt Unit) (ver : ℕ × FileObj) (k : ℕ) (r : Candidate) : Prop where
  get : s.db.get k = some r
  row : RowCovers rt path h ver k r
  task : ∀ {m t p}, pts m = .at (.proc t p) → t.cand.id = k → p.covers rt path h k ver

/-- The version has been read and announced for some candidate, or a gap has been
recorded since it appeared. -/
def Reported (rt : Runtime S) (path : String) (h : Trace S) (ver : ℕ × FileObj) : Prop :=
  (∃ k, ReadOf path h k ver.2.content ∧ AnnouncedBy rt h k (digest rt ver)) ∨
    GapSince rt path h ver

section Mono

variable {h : Trace S} (e : View Pt (World S) Unit × Act Call Input) {k : ℕ} {ver : ℕ × FileObj}

theorem ProcPt.covers_mono {p : ProcPt} (hp : p.covers rt path h k ver) :
    p.covers rt path (h ++ [e]) k ver := by
  cases p with
  | stable q => exact hp
  | setHashed r => exact ⟨hp.1.mono e, hp.2⟩
  | gapCount g => exact GapSince.mono e hp
  | finishGap g => exact GapSince.mono e hp
  | _ => trivial

theorem RowCovers.mono {r : Candidate} (hr : RowCovers rt path h ver k r) :
    RowCovers rt path (h ++ [e]) ver k r :=
  ⟨hr.names, hr.active, hr.content.imp_right fun hc => ⟨hc.1.mono e, hc.2⟩⟩

theorem RowCovers.alike {r r' : Candidate} (hr : RowCovers rt path h ver k r) (ha : Alike r' r) :
    RowCovers rt path h ver k r' := by
  rw [ha]
  exact ⟨hr.names, hr.active, hr.content⟩

theorem Reported.mono (hr : Reported rt path h ver) : Reported rt path (h ++ [e]) ver := by
  rcases hr with ⟨k, hread, ha⟩ | hg
  · exact .inl ⟨k, hread.mono e, ha.mono e⟩
  · exact .inr (hg.mono e)

end Mono

/-! ### Steps of the task that holds the candidate -/

section Holder

variable {h : Trace S} {v : View Pt (World S) Unit} {n : ℕ} {i : Input} {s' : World S}
  {c : Ctl Pt Unit} {t : Task} {p : ProcPt} {ver : ℕ × FileObj} {r : Candidate}

/-- What the task does to the row: it still covers the version, or that is done. -/
theorem RowCovers.write (hrow : RowCovers rt path h ver t.cand.id r) (hk : Knows t p r)
    (hp : p.covers rt path h t.cand.id ver) (htold : Told rt h v.store v.pts)
    (hr : v.store.db.get t.cand.id = some r) {now : Time} {w : RowWrite}
    (hw : p.rowWrite t now = some w) :
    RowCovers rt path h ver t.cand.id (w.apply r) ∨ Reported rt path h ver := by
  have hst := hk.stage
  -- a row past its read has the version's bytes
  have hheld : r.state.stage = .late ∨ r.state.stage = .queued →
      ReadOf path h t.cand.id ver.2.content ∧ r.sha256 = some (digest rt ver) := by
    rintro hs
    refine hrow.content.resolve_left fun he => ?_
    rcases hs with hs | hs <;> exact absurd (he.symm.trans hs) (by simp)
  -- the three updates that end a capture
  have hend : r.state.stage = .queued → Reported rt path h ver := by
    intro hs
    obtain ⟨hread, hsha⟩ := hheld (.inr hs)
    obtain ⟨sha, hsha', ha⟩ := htold.rows hr (.inl hs)
    obtain rfl : digest rt ver = sha := Option.some.inj (hsha.symm.trans hsha')
    exact .inl ⟨_, hread, ha⟩
  have hnames : ∀ w : RowWrite, (w.apply r).path = path :=
    fun w => (w.apply_path r).trans hrow.names
  cases p <;> simp only [ProcPt.stages, List.mem_cons, List.not_mem_nil, or_false] at hst <;>
    first
      | (cases hw; done)
      | exact .inr (hend hst)
      | exact .inr (.inr hp)
      | (cases hw; exact .inl ⟨hnames _, rfl, .inl rfl⟩)
      | (cases hw; exact .inl ⟨hnames _, rfl, .inr ⟨hp.1, congrArg some hp.2⟩⟩)
      | (cases hw; exact .inl ⟨hnames _, rfl, .inr (hheld (.inl hst))⟩)
      | (cases hw; exact .inl ⟨hnames _, hrow.active, hrow.content⟩)

/-- The next step of the task covers the version again. -/
theorem ProcMove.next_covers (hm : ProcMove rt t p i v.store s' c)
    (hn : v.pts n = .at (.proc t p)) (hpath : t.cand.path = path)
    (hver : version path v.store = some ver) (hp : p.covers rt path h t.cand.id ver)
    (hgap : ∀ g, p = .gapRow g → i.dbFails = false) {t' : Task} {p' : ProcPt}
    (hc : c = .at (.proc t' p')) :
    p'.covers rt path (h ++ [(v, .exec n i)]) t.cand.id ver := by
  cases hm with
  | stableAt hx =>
    cases hc
    rw [hpath] at hx
    exact hx.covers hver hp
  | stableDone hx ha =>
    rw [hpath] at hx
    cases ha with
    | ok =>
      cases hc
      obtain ⟨x, rfl, hio, hkey, hdata, hsha⟩ := hx.covers_done hver hp
      exact ⟨⟨_, List.mem_append_right _ (List.mem_singleton_self _), n, i, t, x, rfl, hn, rfl,
        hpath, hio, hkey, hdata⟩, hsha⟩
    | _ =>
      cases hc
      trivial
  | gapRow hdb =>
    cases hc
    exact ⟨_, List.mem_append_right _ (List.mem_singleton_self _), t.cand.id, _,
      ⟨n, i, t, _, rfl, hn, hdb, rfl, rfl⟩, congrArg some hpath, hver⟩
  | gapRowErr hdb =>
    rw [hgap _ rfl] at hdb
    cases hdb
  | gapCount _ =>
    cases hc
    exact GapSince.mono _ hp
  | row _ _ _ hx =>
    cases hx with
    | resumeComplete hx => cases hx <;> cases hc; trivial
    | noUploadId hx => cases hx <;> cases hc <;> trivial
    | noSpool _ hx => cases hx <;> cases hc <;> trivial
    | _ => cases hc <;> trivial
  | announceErr _ _ hx => cases hx <;> cases hc <;> trivial
  | uploadErr _ _ hx => cases hx <;> cases hc <;> trivial
  | finalizeErr _ _ hx => cases hx <;> cases hc <;> trivial
  | countPresent _ hx => cases hx <;> cases hc; trivial
  | lastUpload _ hx => cases hx <;> cases hc; trivial
  | _ => cases hc <;> trivial

end Holder

/-! ### Steps of everybody -/

/-- No gap row of the path fails to be inserted. -/
def GapKept (path : String) (pts : ℕ → Ctl Pt Unit) (a : Act Call Input) : Prop :=
  ∀ n i t g, a = .exec n i → pts n = .at (.proc t (.gapRow g)) → t.cand.path = path →
    i.dbFails = false

section Step

variable {h : Trace S} {v : View Pt (World S) Unit} {n : ℕ} {l : Pt} {i : Input} {s' : World S}
  {c : Ctl Pt Unit} {ver : ℕ × FileObj} {k : ℕ} {r : Candidate}

/-- A step of the holder. -/
theorem Covers.exec_holder {t : Task} {p : ProcPt} (hcov : Covers rt path h v.store v.pts ver k r)
    (hown : Owned v.store v.pts) (htold : Told rt h v.store v.pts)
    (hn : v.pts n = .at (.proc t p)) (hid : t.cand.id = k)
    (hm : Move rt (.proc t p) i v.store s' c) (hver : version path v.store = some ver)
    (hgap : GapKept path v.pts (.exec n i)) :
    (∃ r', Covers rt path (h ++ [(v, .exec n i)]) s' (Function.update v.pts n c) ver k r') ∨
      Reported rt path (h ++ [(v, .exec n i)]) ver := by
  subst hid
  obtain ⟨r₀, hr₀, hk⟩ := hown.knows hn
  obtain rfl : r = r₀ := Option.some.inj (hcov.get.symm.trans hr₀)
  have hpath : t.cand.path = path := hk.path.symm.trans hcov.row.names
  have hp := hcov.task hn rfl
  cases hm with
  | @proc _ _ _ _ _ c₀ hx =>
    have htask : ∀ {m t' p'}, Function.update v.pts n (Ctl.afterProcess t c₀) m =
        .at (.proc t' p') → t'.cand.id = t.cand.id →
        p'.covers rt path (h ++ [(v, .exec n i)]) t.cand.id ver := by
      intro m t' p' hat hid
      rcases View.at_update hat with ⟨rfl, he⟩ | ⟨hne, hat'⟩
      · have hc : c₀ = .at (.proc t' p') := by
          cases c₀ with
          | «at» l => exact he
          | idle => cases he
          | done u => cases he
          | failed => cases he
        refine hx.next_covers hn hpath hver hp (fun g hg => ?_) hc
        subst hg
        exact hgap m i t g rfl hn hpath
      · exact absurd (hown.once hat' hn (congrArg some hid) rfl) hne
    rcases hx.candidates with hsame | ⟨-, w, hw, hcs, -⟩
    · refine .inl ⟨r, ?_, hcov.row.mono _, htask⟩
      rw [StateDb.get, hsame]
      exact hcov.get
    · rcases hcov.row.write hk hp htold hr₀ hw with hrow | hrep
      · exact .inl ⟨_, Candidates.get_write_self hcs hr₀, hrow.mono _, htask⟩
      · exact .inr (hrep.mono _)

/-- A step of anybody else. -/
theorem Covers.exec_other (hcov : Covers rt path h v.store v.pts ver k r)
    (hl : ∀ t p, l = .proc t p → t.cand.id ≠ k) (hm : Move rt l i v.store s' c) :
    ∃ r', Covers rt path (h ++ [(v, .exec n i)]) s' (Function.update v.pts n c) ver k r' := by
  have hrow : ∃ r', s'.db.get k = some r' ∧
      RowCovers rt path (h ++ [(v, .exec n i)]) ver k r' := by
    have hstep := hm.row_step k
    rw [hcov.get] at hstep
    generalize s'.db.get k = o at hstep
    cases hstep with
    | same => exact ⟨r, rfl, hcov.row.mono _⟩
    | due ha _ => exact ⟨_, rfl, (hcov.row.alike ha).mono _⟩
    | retry _ => exact ⟨_, rfl, ⟨hcov.row.names, hcov.row.active, (hcov.row.mono _).content⟩⟩
    | write heq hid _ => exact absurd hid (hl _ _ heq)
  obtain ⟨r', hr', hcovers⟩ := hrow
  refine ⟨r', hr', hcovers, fun {m t p} hat hid => ?_⟩
  rcases View.at_update hat with ⟨rfl, rfl⟩ | ⟨-, hat'⟩
  · rcases hm.to_proc with ⟨boot, x, rfl, hs⟩ | ⟨t₀, p₀, rfl, hx⟩
    · -- a task that has just started has not opened the file
      cases hs <;> trivial
    · obtain ⟨t₁, p₁, ⟨⟩, hsame⟩ := hx.next
      exact absurd (hsame.id.symm.trans hid) (hl t₀ p₀ rfl)
  · exact ProcPt.covers_mono _ (hcov.task hat' hid)

theorem Covers.exec (hcov : Covers rt path h v.store v.pts ver k r) (hown : Owned v.store v.pts)
    (htold : Told rt h v.store v.pts) (hn : v.pts n = .at l) (hm : Move rt l i v.store s' c)
    (hver : version path v.store = some ver) (hgap : GapKept path v.pts (.exec n i)) :
    (∃ r', Covers rt path (h ++ [(v, .exec n i)]) s' (Function.update v.pts n c) ver k r') ∨
      Reported rt path (h ++ [(v, .exec n i)]) ver := by
  by_cases hl : ∃ t p, l = .proc t p ∧ t.cand.id = k
  · obtain ⟨t, p, rfl, hid⟩ := hl
    exact hcov.exec_holder hown htold hn hid hm hver hgap
  · exact .inl (hcov.exec_other (fun t p hl' hid => hl ⟨t, p, hl', hid⟩) hm)

/-- A call that starts, or is cut off. -/
theorem Covers.idle (hcov : Covers rt path h v.store v.pts ver k r) (a : Act Call Input)
    (hc : ∀ l, c = .at l → l.holds = none) :
    Covers rt path (h ++ [(v, a)]) v.store (Function.update v.pts n c) ver k r := by
  refine ⟨hcov.get, hcov.row.mono _, fun {m t p} hat hid => ?_⟩
  rcases View.at_update hat with ⟨-, he⟩ | ⟨-, hat'⟩
  · cases hc _ he
  · exact ProcPt.covers_mono _ (hcov.task hat' hid)

end Step

/-! ### Changes that have been seen -/

/-- A change of the path that has been marked as seen is enqueued. -/
def EnqueueKept (path : String) (pts : ℕ → Ctl Pt Unit) (a : Act Call Input) : Prop :=
  ∀ n rest, pts n = .at (.scanEnqueue path rest) →
    a ≠ .kill n ∧ ∀ i, a = .exec n i → i.dbFails = false

/-- When a scan has seen the present version and its enqueue meets an active
candidate, that candidate covers the version, or it has been reported. -/
def Unmissed (rt : Runtime S) (path : String) (h : Trace S) (v : View Pt (World S) Unit)
    (a : Act Call Input) : Prop :=
  ∀ n i rest k r ver, a = .exec n i → v.pts n = .at (.scanEnqueue path rest) →
    v.store.db.get k = some r → r.path = path → r.state.active = true →
    version path v.store = some ver → Visited path h ver.2.key.seenKey →
    Covers rt path h v.store v.pts ver k r ∨ Reported rt path h ver

/-- Where a version that has been seen is kept. -/
inductive Kept (rt : Runtime S) (path : String) (h : Trace S) (s : World S) (pts : ℕ → Ctl Pt Unit)
    (ver : ℕ × FileObj) : Prop where
  | pending {n rest} : pts n = .at (.scanEnqueue path rest) → Kept rt path h s pts ver
  | covered {k r} : Covers rt path h s pts ver k r → Kept rt path h s pts ver
  | reported : Reported rt path h ver → Kept rt path h s pts ver

/-- `enqueue` of a path without an active candidate adds one. -/
theorem get_insert_new {t : Candidates} {priority : ℤ} {reason : String} {debouncing : Bool}
    {due : Time} (hp : path ∉ activePaths t.table.rows) :
    (t.insert path priority reason debouncing due).1.get (t.lastId + 1) =
      some (t.newRow path priority reason debouncing due) := by
  have hfresh : t.table.get (t.lastId + 1) = none := by
    cases hg : t.table.get (t.lastId + 1) with
    | none => rfl
    | some x =>
      have := Candidates.get_le (t := t) hg
      omega
  rw [Candidates.insert, dif_neg hp]
  show Table.get _ (t.lastId + 1) = _
  rw [Table.get_insertNew, hfresh, Option.none_or]
  exact if_pos rfl

section Step

variable {h : Trace S} {v : View Pt (World S) Unit} {n : ℕ} {l : Pt} {i : Input} {s' : World S}
  {c : Ctl Pt Unit} {ver : ℕ × FileObj}

/-- The enqueue of a scan keeps the version it has seen. -/
theorem kept_of_enqueue {rest : List String} (hown : Owned v.store v.pts)
    (hn : v.pts n = .at (.scanEnqueue path rest))
    (hm : Move rt (.scanEnqueue path rest) i v.store s' c)
    (hver : version path v.store = some ver) (hvis : Visited path h ver.2.key.seenKey)
    (henq : EnqueueKept path v.pts (.exec n i)) (hmiss : Unmissed rt path h v (.exec n i)) :
    Kept rt path (h ++ [(v, .exec n i)]) s' (Function.update v.pts n c) ver := by
  have hother : ∀ t p, Pt.scanEnqueue path rest = .proc t p → ∀ {k : ℕ}, t.cand.id ≠ k := by
    rintro t p ⟨⟩
  by_cases hact : path ∈ activePaths v.store.db.candidates.table.rows
  · -- the candidate that is there covers the version
    obtain ⟨r, hr, hpath⟩ := List.mem_map.mp hact
    obtain ⟨hmem, hactive⟩ := List.mem_filter.mp hr
    rcases hmiss n i rest r.id r ver rfl hn (Table.mem_rows_iff.mp hmem) hpath hactive hver hvis with
      hcov | hrep
    · obtain ⟨r', hcov'⟩ := hcov.exec_other (n := n) (fun t p hl => hother t p hl) hm
      exact .covered hcov'
    · exact .reported (hrep.mono _)
  · cases hm with
    | scanEnqueueErr hdb =>
      rw [(henq n rest hn).2 i rfl] at hdb
      cases hdb
    | scanEnqueue _ hnext =>
      have hnew : ∀ debouncing : Bool,
          (if debouncing then CaptureState.debouncing else .observed).active = true ∧
            (if debouncing then CaptureState.debouncing else .observed).stage = .early := by
        intro debouncing
        cases debouncing <;> exact ⟨rfl, rfl⟩
      refine .covered (k := v.store.db.candidates.lastId + 1) ⟨get_insert_new hact,
        ⟨rfl, (hnew _).1, .inl (hnew _).2⟩, fun {m t p} hat hid => ?_⟩
      rcases View.at_update hat with ⟨-, rfl⟩ | ⟨-, hat'⟩
      · cases hnext
      · -- no task holds a row that is new
        obtain ⟨r, hr, -⟩ := hown.knows hat'
        have := Candidates.get_le hr
        omega

theorem Kept.exec (hkept : Kept rt path h v.store v.pts ver) (hown : Owned v.store v.pts)
    (htold : Told rt h v.store v.pts) (hn : v.pts n = .at l) (hm : Move rt l i v.store s' c)
    (hver : version path v.store = some ver) (hvis : Visited path h ver.2.key.seenKey)
    (hgap : GapKept path v.pts (.exec n i)) (henq : EnqueueKept path v.pts (.exec n i))
    (hmiss : Unmissed rt path h v (.exec n i)) :
    Kept rt path (h ++ [(v, .exec n i)]) s' (Function.update v.pts n c) ver := by
  cases hkept with
  | @pending m rest hat =>
    by_cases hmn : m = n
    · subst hmn
      obtain rfl : l = .scanEnqueue path rest := by simpa [hn] using hat
      exact kept_of_enqueue hown hn hm hver hvis henq hmiss
    · exact .pending ((Function.update_of_ne hmn ..).trans hat)
  | covered hcov =>
    rcases hcov.exec hown htold hn hm hver hgap with ⟨r', hcov'⟩ | hrep
    · exact .covered hcov'
    · exact .reported hrep
  | reported hrep => exact .reported (hrep.mono _)

/-- A call that starts, or is cut off elsewhere than before an enqueue of the path. -/
theorem Kept.idle (hkept : Kept rt path h v.store v.pts ver) (a : Act Call Input)
    (hc : ∀ l, c = .at l → l.holds = none)
    (hn : ∀ rest, v.pts n ≠ .at (.scanEnqueue path rest)) :
    Kept rt path (h ++ [(v, a)]) v.store (Function.update v.pts n c) ver := by
  cases hkept with
  | @pending m rest hat =>
    have hmn : m ≠ n := by
      rintro rfl
      exact hn rest hat
    exact .pending ((Function.update_of_ne hmn ..).trans hat)
  | covered hcov => exact .covered (hcov.idle a hc)
  | reported hrep => exact .reported (hrep.mono _)

end Step

/-! ### Along histories -/

/-- Nothing goes wrong at the step: a candidate that is leased is not held, a write
gives the path a new key, the stat of a scan succeeds, a change marked as seen is
enqueued, and gaps are stored. -/
structure Calm (path : String) (h : Trace S) (v : View Pt (World S) Unit) (a : Act Call Input) :
    Prop where
  free : LeaseFree v.store v.pts a
  distinct : Distinct path h v a
  stat : StatOk path v.pts a
  enqueue : EnqueueKept path v.pts a
  gap : GapKept path v.pts a

/-- What every step has to satisfy: it is calm, and misses no change. -/
structure Orderly (rt : Runtime S) (path : String) (h : Trace S) (v : View Pt (World S) Unit)
    (a : Act Call Input) : Prop extends Calm path h v a where
  unmissed : Unmissed rt path h v a

/-- What is known of a watched path after a history. -/
structure Followed (rt : Runtime S) (path : String) (h : Trace S) (v : View Pt (World S) Unit) :
    Prop where
  owned : Owned v.store v.pts
  told : Told rt h v.store v.pts
  sighted : Sighted path h v
  sweeps : Sweeps rt path h v
  kept : ∀ {ver}, version path v.store = some ver → Visited path h ver.2.key.seenKey →
    Kept rt path h v.store v.pts ver

theorem Followed.start {s₀ : World S} (hrows : s₀.db.candidates.table.rows = [])
    (hseen : s₀.db.seen path = none) : Followed rt path [] (View.start s₀) := by
  have hno : ∀ {key}, ¬ Visited path ([] : Trace S) key := by
    rintro key ⟨e, he, -⟩
    exact List.not_mem_nil he
  have hget : ∀ {k r}, s₀.db.get k = some r → False := by
    intro k r hr
    have hm : r ∈ s₀.db.candidates.table.rows := (Table.mem_of_get hr).1
    rw [hrows] at hm
    cases hm
  refine ⟨Owned.start hrows, ⟨fun hr => (hget hr).elim, fun hat => ?_⟩,
    ⟨fun hat => ?_, fun hv => (hno hv).elim, fun hs => ?_⟩, ⟨fun hw => ?_, fun hs => ?_⟩,
    fun _ hv => (hno hv).elim⟩
  · cases hat
  · cases hat
  · have hs' : s₀.db.seen path = some _ := hs
    rw [hseen] at hs'
    cases hs'
  · cases hw
  · obtain ⟨w, entries, hw, -⟩ := hs
    cases hw

section Step

variable {h : Trace S} {v : View Pt (World S) Unit} {n : ℕ} {l : Pt} {i : Input} {s' : World S}
  {c : Ctl Pt Unit}

theorem Followed.exec (hi : Followed rt path h v) (hn : v.pts n = .at l)
    (hm : Move rt l i v.store s' c) (hok : Orderly rt path h v (.exec n i)) :
    Followed rt path (h ++ [(v, .exec n i)]) ⟨s', Function.update v.pts n c, v.size⟩ where
  owned := hi.owned.exec hn hm hok.free
  told := hi.told.exec hi.owned hn hm
  sighted := hi.sighted.exec hn hm
  sweeps := hi.sweeps.exec hi.sighted hn hm hok.distinct hok.stat
  kept {ver} hver hvis := by
    rcases hm.version_step hn hok.distinct hver with hsame | ⟨⟨q, obj, file, rfl⟩, hnew⟩
    · have hkept : Visited path h ver.2.key.seenKey →
          Kept rt path (h ++ [(v, .exec n i)]) s' (Function.update v.pts n c) ver := fun hv =>
        (hi.kept hsame hv).exec hi.owned hi.told hn hm hsame hv hok.gap hok.enqueue hok.unmissed
      rcases visited_append hvis with hv | ⟨n', i', k, rest, ha, hat, hdb, hk⟩
      · exact hkept hv
      · -- this step is the first to see the version
        cases ha
        obtain rfl : l = .scanSeen path k rest := by simpa [hn] using hat
        cases hm with
        | scanSeenErr hdb' =>
          rw [hdb] at hdb'
          cases hdb'
        | scanSame hseen _ =>
          rw [hk] at hseen
          exact hkept (hi.sighted.seen hseen)
        | scanChanged _ _ => exact .pending (Function.update_self ..)
    · -- a new version has not been seen
      rcases visited_append hvis with hv | ⟨n', i', k, rest, ha, hat, -⟩
      · exact absurd (hi.sighted.visits hv) hnew
      · cases ha
        rw [hn] at hat
        cases hat

theorem Followed.spawn (hi : Followed rt path h v) (call : Call)
    (hidle : v.pts v.size = .idle) :
    Followed rt path (h ++ [(v, .spawn call)])
      ⟨v.store, Function.update v.pts v.size (agent rt call).ctl, v.size + 1⟩ where
  owned := hi.owned.idle fun l hl => agent_entry rt call hl
  told := hi.told.idle _ fun l hl => agent_entry rt call hl
  sighted := hi.sighted.idle (by simp) fun k rest hl => by cases agent_entryAt rt call hl
  sweeps := hi.sweeps.spawn call
  kept {ver} hver hvis := by
    rcases visited_append hvis with hv | ⟨n', i', k, rest, ha, -⟩
    · refine (hi.kept hver hv).idle _ (fun l hl => agent_entry rt call hl) fun rest hat => ?_
      rw [hidle] at hat
      cases hat
    · cases ha

theorem Followed.kill (hi : Followed rt path h v) (hok : Orderly rt path h v (.kill n)) :
    Followed rt path (h ++ [(v, .kill n)]) ⟨v.store, Function.update v.pts n .failed, v.size⟩ where
  owned := hi.owned.idle fun l hl => by cases hl
  told := hi.told.idle _ fun l hl => by cases hl
  sighted := hi.sighted.idle (by simp) fun k rest hl => by cases hl
  sweeps := hi.sweeps.kill
  kept {ver} hver hvis := by
    rcases visited_append hvis with hv | ⟨n', i', k, rest, ha, -⟩
    · exact (hi.kept hver hv).idle _ (fun l hl => by cases hl) fun rest hat =>
        (hok.enqueue n rest hat).1 rfl
    · cases ha

end Step

theorem followed_of_history {s₀ : World S} (hrows : s₀.db.candidates.table.rows = [])
    (hseen : s₀.db.seen path = none) {h : Trace S} {v : View Pt (World S) Unit}
    (hr : View.VReach (Move rt) (fun c => (agent rt c).ctl) s₀ h v)
    (hok : View.AtEach (Orderly rt path) h) : Followed rt path h v := by
  refine View.VReach.invariant_each (Orderly rt path) (Followed rt path)
    (Followed.start hrows hseen) ?_ ?_ ?_ hr hok
  · intro h v call hi hidle _
    exact hi.spawn call hidle
  · intro h v n l c s' i hi hn hm hok
    exact hi.exec hn hm hok
  · intro h v n l hi _ hok
    exact hi.kill hok

/-- **No capture is lost**, in every history whose steps are `Orderly`: when a scan
that started under the last version has ended, no scan is about to enqueue the path
and the path has no active candidate, that version has been read and announced, or a
gap has been recorded for the path since it appeared. -/
theorem last_version_kept {s₀ : World S} (hrows : s₀.db.candidates.table.rows = [])
    (hseen : s₀.db.seen path = none) {h : Pool.Hist Call Pt (World S) Input String Unit}
    {p : Pool Call Pt (World S) Input String Unit} (hr : Pool.Reach (agent rt) s₀ h p)
    (hok : View.AtEach (Orderly rt path) (trace h)) {ver : ℕ × FileObj}
    (hver : version path p.store = some ver) {n : ℕ} (hscan : Started rt path (trace h) p.view n)
    (hdone : p.ctl n = .done ()) (hquiet : ∀ m rest, p.ctl m ≠ .at (.scanEnqueue path rest))
    (hnone : ∀ k r, p.store.db.get k = some r → r.path = path → r.state.active = false) :
    (∃ k, ReadOf path (trace h) k ver.2.content ∧
      AnnouncedBy rt (trace h) k (digest rt ver)) ∨ GapSince rt path (trace h) ver := by
  have hfol := followed_of_history hrows hseen (hr.view (agent_takes rt)) hok
  have hsweep := hfol.sweeps.scans hscan hver
  rw [show p.view.pts n = .done () from hdone] at hsweep
  cases hfol.kept hver hsweep with
  | pending hat => exact absurd hat (hquiet _ _)
  | covered hcov =>
    have hact := hcov.row.active
    rw [hnone _ _ hcov.get hcov.row.names] at hact
    cases hact
  | reported hrep => exact hrep

/-! ### Histories to run -/

section Check

variable {p : Pool Call Pt (World S) Input String Unit}

/-- Calls are not cut off, and no step fails; a write gives the path a new key and a
lease takes a free candidate.  Computed. -/
def calm (path : String) (h : Pool.Hist Call Pt (World S) Input String Unit)
    (p : Pool Call Pt (World S) Input String Unit) : Act Call Input → Bool
  | .spawn _ => true
  | .kill _ => false
  | .exec n i => !i.dbFails && i.io.isNone && leaseFree p (.exec n i) && match p.ctl n with
    | .at (.put q obj file) => match version path (p.store.put q obj file) with
      | none => true
      | some ver => (p :: h.map Prod.fst).all fun w =>
        (version path w.store).all fun old => decide (old.2.key.seenKey ≠ ver.2.key.seenKey)
    | _ => true

theorem calm_sound {h : Pool.Hist Call Pt (World S) Input String Unit} {a : Act Call Input}
    (hc : calm path h p a = true) : Calm path (trace h) p.view a := by
  cases a with
  | spawn c => exact ⟨by rintro n i _ _ _ ⟨⟩, by rintro n i _ _ _ _ ⟨⟩, by rintro n i _ ⟨⟩,
      fun n rest _ => ⟨by simp, by simp⟩, by rintro n i _ _ ⟨⟩⟩
  | kill n => cases hc
  | exec n i =>
    simp only [calm, Bool.and_eq_true, Bool.not_eq_true', Option.isNone_iff_eq_none] at hc
    obtain ⟨⟨⟨hdb, hio⟩, hfree⟩, hput⟩ := hc
    refine ⟨leaseFree_sound hfree, ?_, ?_, ?_, ?_⟩
    · rintro n' i' q obj file ver ⟨⟩ hat hver
      rw [show p.ctl n = .at (.put q obj file) from hat] at hput
      dsimp only at hput
      rw [show version path (p.store.put q obj file) = some ver from hver] at hput
      right
      rintro ⟨w, hw, old, hold, hkey⟩
      have hall := List.all_eq_true.mp hput
      have hne : ∀ q' ∈ p :: h.map Prod.fst, q'.view = w → False := by
        rintro q' hq' rfl
        have := hall q' hq'
        rw [show version path q'.store = some old from hold] at this
        rw [Option.all_some] at this
        exact of_decide_eq_true this hkey
      rcases hw with rfl | ⟨a, ha⟩
      · exact hne p (List.mem_cons_self ..) rfl
      · obtain ⟨e, he, heq⟩ := List.mem_map.mp ha
        exact hne e.1 (List.mem_cons_of_mem _ (List.mem_map_of_mem he)) (Prod.mk.inj heq).1
    · rintro n' i' rest ⟨⟩ -
      exact hio
    · refine fun n' rest _ => ⟨by simp, ?_⟩
      rintro i' ⟨⟩
      exact hdb
    · rintro n' i' t g ⟨⟩ - -
      exact hdb

/-- No enqueue of a scan meets an active candidate of the path, computed. -/
def unmet (path : String) (p : Pool Call Pt (World S) Input String Unit) : Act Call Input → Bool
  | .exec n _ => match p.ctl n with
    | .at (.scanEnqueue _ _) =>
      p.store.db.candidates.table.rows.all fun r => decide (r.path ≠ path) || !r.state.active
    | _ => true
  | _ => true

theorem unmet_sound {h : Trace S} {a : Act Call Input} (hc : unmet path p a = true) :
    Unmissed rt path h p.view a := by
  rintro n i rest k r ver rfl hat hr hpath hact - -
  rw [unmet, show p.ctl n = .at (.scanEnqueue path rest) from hat] at hc
  have hno := List.all_eq_true.mp hc r (Table.mem_of_get hr).1
  simp [hpath, hact] at hno

/-- A check of every action of a history, with what came before. -/
def eachAction (chk : Pool.Hist Call Pt (World S) Input String Unit →
    Pool Call Pt (World S) Input String Unit → Act Call Input → Bool) :
    Pool.Hist Call Pt (World S) Input String Unit →
    Pool.Hist Call Pt (World S) Input String Unit → Bool
  | _, [] => true
  | h, e :: rest => chk h e.1 e.2 && eachAction chk (h ++ [e]) rest

theorem atEach_of_check {Ok : Trace S → View Pt (World S) Unit → Act Call Input → Prop}
    {chk : Pool.Hist Call Pt (World S) Input String Unit →
      Pool Call Pt (World S) Input String Unit → Act Call Input → Bool}
    (hchk : ∀ {h p a}, chk h p a = true → Ok (trace h) p.view a) :
    ∀ (rest h : Pool.Hist Call Pt (World S) Input String Unit), eachAction chk h rest = true →
      ∀ h₁ v a h₂, trace rest = h₁ ++ (v, a) :: h₂ → Ok (trace h ++ h₁) v a := by
  intro rest
  induction rest with
  | nil =>
    intro h _ h₁ v a h₂ heq
    simp [trace] at heq
  | cons e rest ih =>
    intro h hall h₁ v a h₂ heq
    obtain ⟨hhead, htail⟩ := (Bool.and_eq_true _ _).mp hall
    cases h₁ with
    | nil =>
      obtain ⟨h1, -⟩ := List.cons.inj heq
      obtain ⟨rfl, rfl⟩ := Prod.mk.inj h1
      rw [List.append_nil]
      exact hchk hhead
    | cons x h₁ =>
      obtain ⟨rfl, h2⟩ := List.cons.inj heq
      have := ih (h ++ [e]) htail h₁ v a h₂ h2
      rwa [show trace (h ++ [e]) = trace h ++ [(e.1.view, e.2)] from List.map_append,
        List.append_assoc] at this

/-- The call `n` is a scan over the path that started under its present version,
computed. -/
def startedNow (rt : Runtime S) (path : String) (h : Pool.Hist Call Pt (World S) Input String Unit)
    (p : Pool Call Pt (World S) Input String Unit) (n : ℕ) : Bool :=
  h.any fun e => match e.2 with
    | .spawn (.reconcile entries) => decide (e.1.procs.length = n) &&
      decide (version path e.1.store = version path p.store) && decide (path ∈ entries) &&
      !matchesExclusion rt.exclusions path
    | _ => false

theorem startedNow_sound {h : Pool.Hist Call Pt (World S) Input String Unit} {n : ℕ}
    (hs : startedNow rt path h p n = true) : Started rt path (trace h) p.view n := by
  obtain ⟨⟨q, a⟩, he, hchk⟩ := List.any_eq_true.mp hs
  dsimp only at hchk
  split at hchk
  · next entries =>
    simp only [Bool.and_eq_true, decide_eq_true_eq, Bool.not_eq_true'] at hchk
    obtain ⟨⟨⟨hsize, hver⟩, hp⟩, hex⟩ := hchk
    exact ⟨q.view, entries, List.mem_map.mpr ⟨_, he, rfl⟩, hsize, hver, hp, hex⟩
  · cases hchk

/-- The call `n` has returned, computed. -/
def doneNow (p : Pool Call Pt (World S) Input String Unit) (n : ℕ) : Bool :=
  match p.ctl n with
  | .done () => true
  | _ => false

theorem doneNow_sound {n : ℕ} (hs : doneNow p n = true) : p.ctl n = .done () := by
  unfold doneNow at hs
  split at hs
  · assumption
  · cases hs

/-- The step reads no file with these bytes, and reports no gap. -/
def misses (data : Bytes) (p : Pool Call Pt (World S) Input String Unit) : Act Call Input → Bool
  | .exec n _ => match p.ctl n with
    | .at (.proc _ (.stable (.restat r))) => decide (r.data ≠ data)
    | .at (.proc _ (.gapRow _)) => false
    | _ => true
  | _ => true

theorem misses_read {data : Bytes} {n : ℕ} {i : Input} {t : Task} {r : Reading}
    (hm : misses data p (.exec n i) = true) (hat : p.ctl n = .at (.proc t (.stable (.restat r)))) :
    r.data ≠ data := by
  simpa [misses, hat] using hm

theorem misses_gap {data : Bytes} {n : ℕ} {i : Input} {t : Task} {g : GapInfo}
    (hm : misses data p (.exec n i) = true) : p.ctl n ≠ .at (.proc t (.gapRow g)) := by
  intro hat
  simp [misses, hat] at hm

/-- No scan is about to enqueue, and no candidate is active, computed. -/
def settledNow (p : Pool Call Pt (World S) Input String Unit) : Bool :=
  !(p.anyAt fun
    | .scanEnqueue _ _ => true
    | _ => false) && p.store.db.candidates.table.rows.all fun r => !r.state.active

theorem settledNow_sound (hs : settledNow p = true) :
    (∀ m rest, p.ctl m ≠ .at (.scanEnqueue path rest)) ∧
      ∀ k r, p.store.db.get k = some r → r.path = path → r.state.active = false := by
  simp only [settledNow, Bool.and_eq_true, Bool.not_eq_true'] at hs
  refine ⟨fun m rest hat => ?_, fun k r hr _ => ?_⟩
  · cases Pool.not_of_anyAt hs.1 hat
  · simpa using List.all_eq_true.mp hs.2 r (Table.mem_of_get hr).1

end Check

/-- An agent whose server has every artifact, to run. -/
def presentAgent : Runtime Unit :=
  .small (.fixed (.ok ⟨.alreadyPresent, none, some 1⟩) (.ok ())) none 8

/-- The file is rewritten, a scan enqueues it, and a worker captures it. -/
theorem last_version_kept_captured :
    ∃ h p ver, Pool.Reach (agent presentAgent) (.fresh (.holding [1]) ()) h p ∧
      version "/a" p.store = some ver ∧ Reported presentAgent "/a" (trace h) ver := by
  obtain ⟨h, p, hreach, hchk⟩ := Pool.exists_reach (agent presentAgent)
    (.fresh (.holding [1]) ())
    (.spawn (.put "/a" 0 (.holding [2, 2])) :: fineSteps 0 1 0 ++
      .spawn (.reconcile ["/a"]) :: fineSteps 1 3 0 ++ .spawn (.worker 3) :: fineSteps 2 23 9)
    (fun h p => eachAction (fun h p a => calm "/a" h p a && unmet "/a" p a) [] h &&
      decide (version "/a" p.store = some (0, FileObj.holding [2, 2])) &&
      startedNow presentAgent "/a" h p 1 && doneNow p 1 && settledNow p) (by decide)
  simp only [Bool.and_eq_true, decide_eq_true_eq] at hchk
  obtain ⟨⟨⟨⟨hall, hver⟩, hscan⟩, hdone⟩, hset⟩ := hchk
  have horderly : ∀ {h p a}, (calm "/a" h p a && unmet "/a" p a) = true →
      Orderly presentAgent "/a" (trace h) p.view a := by
    intro h p a hc
    obtain ⟨hcalm, hunmet⟩ := (Bool.and_eq_true _ _).mp hc
    exact ⟨calm_sound hcalm, unmet_sound hunmet⟩
  have hok : View.AtEach (Orderly presentAgent "/a") (trace h) :=
    atEach_of_check horderly h [] hall
  exact ⟨h, p, _, hreach, hver, last_version_kept rfl rfl hreach hok hver
    (startedNow_sound hscan) (doneNow_sound hdone) (settledNow_sound hset).1 (settledNow_sound hset).2⟩

/-- The file is rewritten between the stable read and the end of its capture: the
scan marks the change as seen, its enqueue is dropped, and nobody reads the last
version. -/
theorem rewritten_file_missed :
    ∃ h p ver n, Pool.Reach (agent presentAgent) (.fresh (.holding [1]) ()) h p ∧
      View.AtEach (Calm "/a") (trace h) ∧ version "/a" p.store = some ver ∧
      Started presentAgent "/a" (trace h) p.view n ∧ p.ctl n = .done () ∧
      (∀ m rest, p.ctl m ≠ .at (.scanEnqueue "/a" rest)) ∧
      (∀ k r, p.store.db.get k = some r → r.path = "/a" → r.state.active = false) ∧
      ¬ Reported presentAgent "/a" (trace h) ver := by
  obtain ⟨h, p, hreach, hchk⟩ := Pool.exists_reach (agent presentAgent)
    (.fresh (.holding [1]) ())
    (.spawn (.enqueue "/a" 5 "sensor") :: fineSteps 0 1 0 ++
      .spawn (.worker 3) :: fineSteps 1 12 9 ++
      .spawn (.put "/a" 0 (.holding [2, 2])) :: fineSteps 2 1 0 ++
      .spawn (.reconcile ["/a"]) :: fineSteps 3 3 0 ++ fineSteps 1 11 9)
    (fun h p => eachAction (calm "/a") [] h &&
      decide (version "/a" p.store = some (0, FileObj.holding [2, 2])) &&
      startedNow presentAgent "/a" h p 3 && doneNow p 3 && settledNow p &&
      h.all fun e => misses [2, 2] e.1 e.2) (by decide)
  simp only [Bool.and_eq_true, decide_eq_true_eq] at hchk
  obtain ⟨⟨⟨⟨⟨hall, hver⟩, hscan⟩, hdone⟩, hset⟩, hnever⟩ := hchk
  have hno : ∀ {q : Pool Call Pt (World Unit) Input String Unit} {n : ℕ} {i : Input},
      (q, .exec n i) ∈ h → misses [2, 2] q (.exec n i) = true :=
    fun hmem => List.all_eq_true.mp hnever _ hmem
  refine ⟨h, p, _, 3, hreach, atEach_of_check calm_sound h [] hall, hver, startedNow_sound hscan,
    doneNow_sound hdone, (settledNow_sound hset).1, (settledNow_sound hset).2, ?_⟩
  rintro (⟨k, ⟨e, he, n, i, t, r, ha, hat, -, -, -, -, hdata⟩, -⟩ |
    ⟨e, he, k, row, ⟨n, i, t, g, ha, hat, -⟩, -⟩)
  · obtain ⟨⟨q, a⟩, he', rfl⟩ := List.mem_map.mp he
    obtain rfl : a = .exec n i := ha
    exact misses_read (hno he') hat hdata
  · obtain ⟨⟨q, a⟩, he', rfl⟩ := List.mem_map.mp he
    obtain rfl : a = .exec n i := ha
    exact misses_gap (hno he') hat

end Corpus.Agent
