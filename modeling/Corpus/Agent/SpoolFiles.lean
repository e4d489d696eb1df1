/-
Who owns a spool file.

A spool file belongs to the read that is writing it, then to the active candidate
that `set_hashed` published it for, then to the task that completed the candidate
and is about to remove it.  A file falls out of this chain when a task is cut off
while the file is its own, when the removal or the second stat of a read fails, or
when a candidate whose bytes are spooled ends in a gap: no gap path removes the
file.

`no_spool_leak`: along every history without such a step, when no capture is in
progress every file of the spool is the spool path of an active candidate, and an
empty queue leaves an empty spool.
-/
import Corpus.Agent.Rows

namespace Corpus.Agent

variable {S : Type} {rt : Runtime S}

/-! ### Files of the spool -/

/-- The spool has a file of this name. -/
def Spool.Has (d : Spool) (name : Uuid) : Prop := d.get name ≠ none

theorem Spool.has_append {d : Spool} {n name : Uuid} {bytes : Bytes} :
    Spool.Has (d.append n bytes) name ↔ Spool.Has d name := by
  unfold Spool.Has Spool.append
  rw [Table.get_updateWhere]
  simp

theorem Spool.has_remove {d : Spool} {n name : Uuid} (h : Spool.Has (d.remove n) name) :
    Spool.Has d name ∧ name ≠ n := by
  unfold Spool.Has Spool.remove at h
  rw [Table.get_deleteWhere] at h
  unfold Spool.Has
  cases hg : d.get name with
  | none => rw [hg] at h; exact absurd rfl h
  | some f =>
    refine ⟨by simp, ?_⟩
    rintro rfl
    have hf : f.name = name := (Table.mem_of_get hg).2
    rw [hg, Option.filter_some, if_neg (by simp [hf])] at h
    exact h rfl

theorem Spool.has_insertNew {d : Spool} {n name : Uuid}
    (h : Spool.Has (d.insertNew ⟨n, []⟩) name) : Spool.Has d name ∨ name = n := by
  unfold Spool.Has at h ⊢
  rw [Table.get_insertNew] at h
  by_cases hn : n = name
  · exact .inr hn.symm
  · rw [if_neg hn, Option.or_none] at h
    exact .inl h

/-! ### Owners -/

/-- The file a step of a stable read is writing. -/
def ReadPt.owns : ReadPt → Option Uuid
  | header r | read r | write r _ | restat r => some r.name
  | discard name _ => some name
  | _ => none

/-- The file that belongs to a task alone. -/
def ProcPt.owns (t : Task) : ProcPt → Option Uuid
  | stable p => p.owns
  | setHashed r => some r.spoolPath
  | removeSpool name => some name
  | countPresent | countCaptured | lastUpload => t.cand.spoolPath
  | _ => none

def Pt.owns : Pt → Option Uuid
  | proc t p => p.owns t
  | _ => none

/-- A step of a read that keeps its file, or removes it. -/
def ReadPt.Keeps (i : Input) : ReadPt → Prop
  | discard .. | restat _ => i.io = none
  | _ => True

/-- A step that keeps the file of its task, or hands it on. -/
def ProcPt.Keeps (t : Task) (i : Input) : ProcPt → Prop
  | stable p => p.Keeps i
  | removeSpool _ => i.io = none
  | setHashed _ | countPresent | countCaptured | lastUpload => i.dbFails = false
  | finishGap _ => t.cand.spoolPath = none ∨ i.dbFails = true
  | _ => True

/-- No step loses a spool file: leases are free, a task that owns a file is not cut
off, its removals, its second stat and its calls to the state database succeed, and
no candidate with a spool path ends in a gap. -/
def SpoolKept (s : World S) (pts : ℕ → Ctl Pt Unit) (a : Act Call Input) : Prop :=
  LeaseFree s pts a ∧ match a with
    | .spawn _ => True
    | .kill n => ∀ l, pts n = .at l → l.owns = none
    | .exec n i => ∀ t p, pts n = .at (.proc t p) → p.Keeps t i

/-- The file is the spool path of an active candidate. -/
def Covered (s : World S) (name : Uuid) : Prop :=
  ∃ k r, s.db.get k = some r ∧ r.spoolPath = some name ∧ r.state.active = true

/-- Every spool file has an owner. -/
def Spooled (s : World S) (pts : ℕ → Ctl Pt Unit) : Prop :=
  ∀ name, s.spool.Has name → Covered s name ∨ ∃ m l, pts m = .at l ∧ l.owns = some name

/-! ### One step of a task -/

/-- A step of a stable read brings no file but its own, and hands that on. -/
theorem ReadMove.files {path : String} {p : ReadPt} {i : Input} {s s' : World S}
    {c : Ctl ReadPt (Except StableReadError StableReadResult)} (h : ReadMove rt path p i s s' c)
    (hkeep : p.Keeps i) {name : Uuid} (hs : s'.spool.Has name) :
    (s.spool.Has name ∧ p.owns ≠ some name) ∨ (∃ q, c = .at q ∧ q.owns = some name) ∨
      ∃ r, c = .done (.ok r) ∧ r.spoolPath = name := by
  -- a step that goes on with the file of its read
  have hon : ∀ {n : Uuid} {q : ReadPt}, c = .at q → q.owns = some n → p.owns = some n →
      s.spool.Has name → (s.spool.Has name ∧ p.owns ≠ some name) ∨
        (∃ q, c = .at q ∧ q.owns = some name) ∨ ∃ r, c = .done (.ok r) ∧ r.spoolPath = name := by
    intro n q hc hq hp hs
    by_cases hn : n = name
    · exact .inr (.inl ⟨q, hc, hn ▸ hq⟩)
    · exact .inl ⟨hs, by rw [hp]; exact fun h => hn (Option.some.inj h)⟩
  cases h with
  | createErr => exact .inl ⟨hs, by simp [ReadPt.owns]⟩
  | create hi hg hc =>
    rcases Spool.has_insertNew hs with hs | rfl
    · exact .inl ⟨hs, by simp [ReadPt.owns]⟩
    · exact .inr (.inl ⟨_, rfl, rfl⟩)
  | createHeader hi hg hc =>
    rcases Spool.has_insertNew hs with hs | rfl
    · exact .inl ⟨hs, by simp [ReadPt.owns]⟩
    · exact .inr (.inl ⟨_, rfl, rfl⟩)
  | headerErr => exact hon rfl rfl rfl (Spool.has_append.mp hs)
  | header => exact hon rfl rfl rfl (Spool.has_append.mp hs)
  | writeErr => exact hon rfl rfl rfl (Spool.has_append.mp hs)
  | write => exact hon rfl rfl rfl (Spool.has_append.mp hs)
  | readErr => exact hon rfl rfl rfl hs
  | readLarge => exact hon rfl rfl rfl hs
  | readShort => exact hon rfl rfl rfl hs
  | readEnd => exact hon rfl rfl rfl hs
  | read => exact hon rfl rfl rfl hs
  | restatChanged => exact hon rfl rfl rfl hs
  | discard hd =>
    have hnone : i.io = none := hkeep
    rcases hd with ⟨-, hne⟩ | rfl
    · exact absurd hnone hne
    · obtain ⟨hs, hne⟩ := Spool.has_remove hs
      exact .inl ⟨hs, fun h => hne (Option.some.inj h).symm⟩
  | again hd =>
    have hnone : i.io = none := hkeep
    rcases hd with ⟨-, hne⟩ | rfl
    · exact absurd hnone hne
    · obtain ⟨hs, hne⟩ := Spool.has_remove hs
      exact .inl ⟨hs, fun h => hne (Option.some.inj h).symm⟩
  | restatErr he =>
    have hnone : i.io = none := hkeep
    rw [hnone] at he
    cases he
  | @restat _ _ r _ _ =>
    by_cases hn : r.name = name
    · exact .inr (.inr ⟨_, rfl, hn⟩)
    · exact .inl ⟨hs, fun h => hn (Option.some.inj h)⟩
  | _ => exact .inl ⟨hs, by simp [ReadPt.owns]⟩

/-- The file is with the task at `c`, or with its candidate. -/
def HandedOn (s : World S) (id : ℕ) (c : Ctl Pt Unit) (name : Uuid) : Prop :=
  (∃ t p, c = .at (.proc t p) ∧ p.owns t = some name) ∨
    ∃ r, s.db.get id = some r ∧ r.spoolPath = some name ∧ r.state.active = true

section Step

variable {t : Task} {p : ProcPt} {i : Input} {s s' : World S} {c : Ctl Pt Unit} {r : Candidate}

theorem RemoveNext.handedOn (h : RemoveNext t c) {name : Uuid} (hname : t.cand.spoolPath = some name)
    {id : ℕ} : HandedOn s id c name := by
  cases h with
  | nothing hn =>
    rw [hname] at hn
    cases hn
  | file hn =>
    rw [hname] at hn
    exact .inl ⟨_, _, rfl, hn.symm⟩

/-- A step of a task brings no file but its own, and hands that on. -/
theorem ProcMove.files (hm : ProcMove rt t p i s s' c) (hr : s.db.get t.cand.id = some r)
    (hk : Knows t p r) (hkeep : p.Keeps t i) {name : Uuid} (hs : s'.spool.Has name) :
    (s.spool.Has name ∧ p.owns t ≠ some name) ∨ HandedOn s' t.cand.id c name := by
  cases hm with
  | stableAt hx =>
    rcases hx.files hkeep hs with h | ⟨q, hq, ho⟩ | ⟨x, hx, -⟩
    · exact .inl h
    · cases hq
      exact .inr (.inl ⟨_, _, rfl, ho⟩)
    · cases hx
  | stableDone hx ha =>
    rcases hx.files hkeep hs with h | ⟨q, hq, ho⟩ | ⟨x, hx, hn⟩
    · exact .inl h
    · cases hq
    · cases hx
      cases ha
      exact .inr (.inl ⟨_, _, rfl, congrArg some hn⟩)
  | row hw hdb hd hn =>
    by_cases hown : p.owns t = some name
    · -- the only update made by the owner of a file is its publication
      right
      cases hn with
      | setHashed =>
        cases hw
        obtain ⟨cs, hcs, rfl⟩ := StateDb.write_some hd
        exact .inr ⟨_, Candidates.get_write_self hcs hr, hown, rfl⟩
      | _ => cases hown
    · exact .inl ⟨hs, hown⟩
  | rowErr hw herr =>
    by_cases hown : p.owns t = some name
    · exfalso
      cases p with
      | setHashed x =>
        rcases herr with herr | herr
        · rw [show i.dbFails = false from hkeep] at herr
          cases herr
        · exact hk.write hr hw herr
      | stable q => cases hw
      | removeSpool n => cases hw
      | countPresent => cases hw
      | countCaptured => cases hw
      | lastUpload => cases hw
      | _ => cases hown
    · exact .inl ⟨hs, hown⟩
  | removeSpool hd =>
    rcases hd with ⟨-, hne⟩ | rfl
    · exact absurd hkeep hne
    · obtain ⟨hs, hne⟩ := Spool.has_remove hs
      exact .inl ⟨hs, fun h => hne (Option.some.inj h).symm⟩
  | countPresent _ hrem =>
    by_cases hown : t.cand.spoolPath = some name
    · exact .inr (hrem.handedOn hown)
    · exact .inl ⟨hs, hown⟩
  | lastUpload _ hrem =>
    by_cases hown : t.cand.spoolPath = some name
    · exact .inr (hrem.handedOn hown)
    · exact .inl ⟨hs, hown⟩
  | countCaptured _ =>
    by_cases hown : t.cand.spoolPath = some name
    · exact .inr (.inl ⟨_, _, rfl, hown⟩)
    · exact .inl ⟨hs, hown⟩
  | countPresentErr he =>
    rw [show i.dbFails = false from hkeep] at he
    cases he
  | countCapturedErr he =>
    rw [show i.dbFails = false from hkeep] at he
    cases he
  | lastUploadErr he =>
    rw [show i.dbFails = false from hkeep] at he
    cases he
  | gapCount hd => rcases hd with rfl | rfl <;> exact .inl ⟨hs, by simp [ProcPt.owns]⟩
  | announceSeqErr _ hd => rcases hd with rfl | rfl <;> exact .inl ⟨hs, by simp [ProcPt.owns]⟩
  | finalizeSeqErr _ hd => rcases hd with rfl | rfl <;> exact .inl ⟨hs, by simp [ProcPt.owns]⟩
  | uploadErr _ hd _ =>
    subst hd
    exact .inl ⟨hs, by simp [ProcPt.owns]⟩
  | upload _ hd =>
    subst hd
    exact .inl ⟨hs, by simp [ProcPt.owns]⟩
  | _ => exact .inl ⟨hs, by simp [ProcPt.owns]⟩

/-- A file covered by the candidate of a task stays covered, or goes to the task. -/
theorem ProcMove.covers (hm : ProcMove rt t p i s s' c) (hr : s.db.get t.cand.id = some r)
    (hok : RowOk r) (hk : Knows t p r) (hkeep : p.Keeps t i) {name : Uuid}
    (hname : r.spoolPath = some name) (hact : r.state.active = true) :
    HandedOn s' t.cand.id c name := by
  rcases hm.candidates with hdb | ⟨hdb, w, hw, hcs, hn⟩
  · refine .inr ⟨r, ?_, hname, hact⟩
    rw [StateDb.get, hdb]
    exact hr
  · have hrow : s'.db.get t.cand.id = some (w.apply r) := Candidates.get_write_self hcs hr
    -- the row is still active, or has just been completed by its task
    cases hn with
    | finishGap =>
      rcases hkeep with hnone | hfail
      · rw [(hk.copy (by simp)).2, hnone] at hname
        cases hname
      · rw [hdb] at hfail
        cases hfail
    | setHashed =>
      -- an early row has no spool path
      have hnone : r.spoolPath = none := (hok.1 (List.mem_singleton.mp hk.stage)).2
      rw [hnone] at hname
      cases hname
    | resumeComplete hrem => exact hrem.handedOn ((hk.copy (by simp)).2.symm.trans hname)
    | dedupComplete => exact .inl ⟨_, _, rfl, (hk.copy (by simp)).2.symm.trans hname⟩
    | finComplete => exact .inl ⟨_, _, rfl, (hk.copy (by simp)).2.symm.trans hname⟩
    | _ =>
      cases hw
      exact .inr ⟨_, hrow, hname, by first | rfl | exact hact⟩

end Step

/-! ### Histories -/

/-- A step of anything but the task of a candidate keeps what the candidate covers. -/
theorem Move.covered {l : Pt} {i : Input} {s s' : World S} {c : Ctl Pt Unit}
    (hm : Move rt l i s s' c) {k : ℕ} {r : Candidate} {name : Uuid}
    (hl : ∀ t p, l = .proc t p → t.cand.id ≠ k) (hr : s.db.get k = some r)
    (hname : r.spoolPath = some name) (hact : r.state.active = true) : Covered s' name := by
  have hstep := hm.row_step k
  rw [hr] at hstep
  generalize hg : s'.db.get k = o at hstep
  cases hstep with
  | same => exact ⟨k, r, hg, hname, hact⟩
  | due ha _ =>
    refine ⟨k, _, hg, ?_, ?_⟩
    · rw [ha]
      exact hname
    · rw [ha]
      exact hact
  | write hp hid _ => exact absurd hid (hl _ _ hp)
  | retry _ => exact ⟨k, _, hg, hname, hact⟩

section Histories

variable {s s' : World S} {pts : ℕ → Ctl Pt Unit} {n : ℕ} {l : Pt} {i : Input} {c : Ctl Pt Unit}

/-- An owner keeps its file while another call moves. -/
theorem owner_update {m : ℕ} {l' : Pt} {name : Uuid} (hne : m ≠ n) (hat : pts m = .at l')
    (ho : l'.owns = some name) :
    ∃ m l, Function.update pts n c m = .at l ∧ l.owns = some name :=
  ⟨m, l', by rw [Function.update_of_ne hne]; exact hat, ho⟩

theorem HandedOn.spooled {t : Task} {c : Ctl Pt Unit} {k : ℕ} {name : Uuid}
    (h : HandedOn s k c name) : Covered s name ∨
      ∃ m l, Function.update pts n (Ctl.afterProcess t c) m = .at l ∧ l.owns = some name := by
  rcases h with ⟨t', p', rfl, ho⟩ | ⟨r, hr, hname, hact⟩
  · exact .inr ⟨n, .proc t' p', Function.update_self .., ho⟩
  · exact .inl ⟨k, r, hr, hname, hact⟩

theorem Spooled.exec (h : Spooled s pts) (hown : Owned s pts) (hn : pts n = .at l)
    (hm : Move rt l i s s' c) (hkept : SpoolKept s pts (.exec n i)) :
    Spooled s' (Function.update pts n c) := by
  intro name hs
  by_cases hproc : ∃ t p, l = .proc t p
  · obtain ⟨t, p, rfl⟩ := hproc
    have hkeep : p.Keeps t i := hkept.2 t p hn
    obtain ⟨r, hr, hk⟩ := hown.knows hn
    have hmove := hm
    cases hm with
    | proc hp =>
      rcases hp.files hr hk hkeep hs with ⟨hs, hne⟩ | hnext
      · rcases h name hs with ⟨k, r', hr', hname, hact⟩ | ⟨m, l', hat, ho⟩
        · by_cases hid : t.cand.id = k
          · subst hid
            obtain rfl : r' = r := Option.some.inj (hr'.symm.trans hr)
            exact (hp.covers hr (hown.rowOk hr) hk hkeep hname hact).spooled
          · refine .inl (hmove.covered ?_ hr' hname hact)
            rintro t' p' ⟨⟩
            exact hid
        · right
          rcases eq_or_ne m n with rfl | hmn
          · rw [hn] at hat
            cases hat
            exact absurd ho hne
          · exact owner_update hmn hat ho
      · exact hnext.spooled
  · have hl : ∀ t p, l ≠ .proc t p := fun t p h => hproc ⟨t, p, h⟩
    rw [hm.spool_same hl] at hs
    rcases h name hs with ⟨k, r, hr, hname, hact⟩ | ⟨m, l', hat, ho⟩
    · exact .inl (hm.covered (fun t p h => absurd h (hl t p)) hr hname hact)
    · right
      rcases eq_or_ne m n with rfl | hmn
      · rw [hn] at hat
        cases hat
        cases l with
        | proc t p => exact absurd rfl (hl t p)
        | _ => cases ho
      · exact owner_update hmn hat ho

/-- A call that starts owns no file, and only such a call is cut off. -/
theorem Spooled.idle (h : Spooled s pts) (hn : ∀ l, pts n = .at l → l.owns = none) :
    Spooled s (Function.update pts n c) := by
  intro name hs
  rcases h name hs with hcov | ⟨m, l', hat, ho⟩
  · exact .inl hcov
  · right
    refine owner_update ?_ hat ho
    rintro rfl
    rw [hn _ hat] at ho
    cases ho

/-- **Every spool file has an owner**, along every history that loses none. -/
theorem spooled_of_history {s₀ : World S} (hrows : s₀.db.candidates.table.rows = [])
    (hspool : s₀.spool.rows = []) {h : List (View Pt (World S) Unit × Act Call Input)}
    {v : View Pt (World S) Unit}
    (hr : View.VReach (Move rt) (fun c => (agent rt c).ctl) s₀ h v)
    (hok : ∀ e ∈ h, SpoolKept e.1.store e.1.pts e.2) :
    Owned v.store v.pts ∧ Spooled v.store v.pts := by
  refine View.VReach.invariant (fun v a => SpoolKept v.store v.pts a)
    (fun _ v => Owned v.store v.pts ∧ Spooled v.store v.pts) ⟨Owned.start hrows, ?_⟩ ?_ ?_ ?_ hr hok
  · intro name hs
    refine absurd ?_ hs
    show s₀.spool.get name = none
    rw [Table.get, hspool]
    rfl
  · rintro h v c ⟨hown, hi⟩ hidle -
    refine ⟨hown.idle fun l hl => agent_entry rt c hl, hi.idle fun l hl => ?_⟩
    rw [hidle] at hl
    cases hl
  · rintro h v n l c s' i ⟨hown, hi⟩ hn hm hkept
    exact ⟨hown.exec hn hm hkept.1, hi.exec hown hn hm hkept⟩
  · rintro h v n l ⟨hown, hi⟩ _ hkept
    exact ⟨hown.idle (fun l hl => by cases hl), hi.idle hkept.2⟩

end Histories

/-- **No spool file leaks** along a history that loses none: when no capture is in
progress, every file of the spool is the spool path of an active candidate, and an
empty queue leaves an empty spool. -/
theorem no_spool_leak {s₀ : World S} (hrows : s₀.db.candidates.table.rows = [])
    (hspool : s₀.spool.rows = []) {h : Pool.Hist Call Pt (World S) Input String Unit}
    {p : Pool Call Pt (World S) Input String Unit} (hr : Pool.Reach (agent rt) s₀ h p)
    (hok : ∀ e ∈ h, SpoolKept e.1.store e.1.ctl e.2)
    (hidle : ∀ n t q, p.ctl n ≠ .at (.proc t q)) :
    (∀ name, p.store.spool.Has name → Covered p.store name) ∧
      ((∀ k r, p.store.db.get k = some r → r.state.active = false) → p.store.spool.used = 0) := by
  have hcov : ∀ name, p.store.spool.Has name → Covered p.store name := by
    intro name hs
    have hview := spooled_of_history hrows hspool (hr.view (agent_takes rt))
      (Pool.forall_view SpoolKept hok)
    rcases hview.2 name hs with hcov | ⟨m, l, hat, ho⟩
    · exact hcov
    · cases l with
      | proc t q => exact absurd hat (hidle m t q)
      | _ => cases ho
  refine ⟨hcov, fun hterm => ?_⟩
  cases hfiles : p.store.spool.rows with
  | nil => simp [Spool.used, hfiles]
  | cons f fs =>
    have hmem : f ∈ p.store.spool.rows := by
      rw [hfiles]
      exact List.mem_cons_self ..
    obtain ⟨k, r, hr, -, hact⟩ := hcov f.name (by
      rw [Spool.Has, Table.mem_rows_iff.mp hmem]
      simp)
    rw [hterm k r hr] at hact
    cases hact

/-- Enough for `SpoolKept`, computed: nothing fails but requests, and no candidate
ends in a gap. -/
def keepsFiles (p : Pool Call Pt (World S) Input String Unit) (a : Act Call Input) : Bool :=
  leaseFree p a && match a with
    | .spawn _ => true
    | .kill _ => false
    | .exec n i => i.io.isNone && !i.dbFails && match p.ctl n with
      | .at (.proc _ (.finishGap _)) => false
      | _ => true

theorem keepsFiles_sound {p : Pool Call Pt (World S) Input String Unit} {a : Act Call Input}
    (h : keepsFiles p a = true) : SpoolKept p.store p.ctl a := by
  unfold keepsFiles at h
  rw [Bool.and_eq_true] at h
  refine ⟨leaseFree_sound h.1, ?_⟩
  cases a with
  | spawn c => trivial
  | kill n => cases h.2
  | exec n i =>
    intro t q hn
    have h := h.2
    simp only [hn, Bool.and_eq_true, Option.isNone_iff_eq_none, Bool.not_eq_true'] at h
    obtain ⟨⟨hio, hdb⟩, hgap⟩ := h
    cases q with
    | stable r => cases r <;> first | exact hio | trivial
    | finishGap g => cases hgap
    | removeSpool name => exact hio
    | setHashed r => exact hdb
    | countPresent => exact hdb
    | countCaptured => exact hdb
    | lastUpload => exact hdb
    | _ => trivial

/-- One file, captured up to its announce, which does not reach the server. -/
def refusedAnnounce : List (Act Call Input) :=
  .spawn (.enqueue "/a" 5 "sensor") :: fineSteps 0 1 0 ++ .spawn (.worker 3) ::
    fineSteps 1 15 9 ++ [refusedStep 1]

theorem no_spool_leak_retried :
    ∃ h p, Pool.Reach (agent (.small (.fixed (.error "") (.ok ())) none 8))
      (.fresh (.holding [1]) ()) h p ∧ p.store.spool.Has 9 ∧ Covered p.store 9 := by
  obtain ⟨h, p, hreach, hchk⟩ := Pool.exists_reach
    (agent (.small (.fixed (.error "") (.ok ())) none 8)) (.fresh (.holding [1]) ())
    (refusedAnnounce ++ fineSteps 1 2 0)
    (fun h p => (h.all fun e => keepsFiles e.1 e.2) && (!p.anyAt fun _ => true) &&
      (p.store.spool.get 9).isSome) (by decide)
  simp only [Bool.and_eq_true, Bool.not_eq_true', List.all_eq_true] at hchk
  obtain ⟨⟨hall, hnone⟩, hfile⟩ := hchk
  have hhas : p.store.spool.Has 9 := by
    intro hg
    rw [hg] at hfile
    cases hfile
  refine ⟨h, p, hreach, hhas, (no_spool_leak rfl rfl hreach (fun e he => keepsFiles_sound (hall e he))
    ?_).1 9 hhas⟩
  intro n t q hat
  cases Pool.not_of_anyAt hnone hat

/-- With one attempt allowed, a candidate whose announce is refused ends in a gap,
and nothing refers to its spool file any more. -/
theorem gap_leaves_spool_file :
    ∃ h p, Pool.Reach (agent (.small (.fixed (.error "") (.ok ())) none 0))
      (.fresh (.holding [1]) ()) h p ∧ (∀ n t q, p.ctl n ≠ .at (.proc t q)) ∧
      p.store.spool.Has 9 ∧ ¬ Covered p.store 9 ∧ p.store.spool.used ≠ 0 := by
  obtain ⟨h, p, hreach, hchk⟩ := Pool.exists_reach
    (agent (.small (.fixed (.error "") (.ok ())) none 0)) (.fresh (.holding [1]) ())
    (refusedAnnounce ++ fineSteps 1 4 0)
    (fun _ p => (!p.anyAt fun _ => true) && (p.store.spool.get 9).isSome &&
      (p.store.db.candidates.table.rows.all fun r => !r.state.active) &&
      decide (p.store.spool.used ≠ 0)) (by decide)
  simp only [Bool.and_eq_true, Bool.not_eq_true', List.all_eq_true, decide_eq_true_eq] at hchk
  obtain ⟨⟨⟨hnone, hfile⟩, hrows⟩, hused⟩ := hchk
  refine ⟨h, p, hreach, ?_, ?_, ?_, hused⟩
  · intro n t q hat
    cases Pool.not_of_anyAt hnone hat
  · intro hg
    rw [hg] at hfile
    cases hfile
  · rintro ⟨k, r, hr, -, hact⟩
    rw [hrows r (Table.mem_of_get hr).1] at hact
    cases hact

end Corpus.Agent
