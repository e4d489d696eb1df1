/-
Every program of the agent makes only the moves of `Move` (`agent_takes`).

One lemma for each function of `Capture.lean`, in the order of the calls; each is
a walk through the function, with `takes_dbWrite` for its calls to the state
database.
-/
import Corpus.Agent.Moves

namespace Corpus.Agent

variable {S : Type} {rt : Runtime S}

/-! ### Stable reads -/

section Read

variable {L : Type} (lab : ReadPt → L) {path : String}

/-- A stable read seen through the names `lab` gives its steps. -/
def ReadLift (rt : Runtime S) (path : String) (l : L) (i : Input) (s s' : World S)
    (c : Ctl L (Except StableReadError StableReadResult)) : Prop :=
  ∃ p c', l = lab p ∧ ReadMove rt path p i s s' c' ∧ c = match c' with
    | .idle => .idle
    | .at q => .at (lab q)
    | .done r => .done r
    | .failed => .failed

variable {lab}

theorem ReadLift.at {p q : ReadPt} {i : Input} {s s' : World S}
    (h : ReadMove rt path p i s s' (.at q)) : ReadLift lab rt path (lab p) i s s' (.at (lab q)) :=
  ⟨p, .at q, rfl, h, rfl⟩

theorem ReadLift.done {p : ReadPt} {i : Input} {s s' : World S}
    {r : Except StableReadError StableReadResult}
    (h : ReadMove rt path p i s s' (.done r)) : ReadLift lab rt path (lab p) i s s' (.done r) :=
  ⟨p, .done r, rfl, h, rfl⟩

theorem discard_takes (name : Uuid) (e : StableReadError) :
    (discard lab name e : Reader L S _).Takes (ReadLift lab rt path) := by
  intro s i
  refine ⟨.done (.discard ?_), trivial⟩
  dsimp only
  cases hio : i.io with
  | none => exact .inr rfl
  | some e => exact .inl ⟨rfl, by simp⟩

theorem finishRead_takes (r : Reading) (broke : Option StableReadError) :
    (finishRead rt lab r broke : Reader L S _).Takes (ReadLift lab rt path) := by
  unfold finishRead
  split
  · exact discard_takes _ _
  · split
    · exact discard_takes _ _
    · intro s i
      dsimp only
      cases hio : i.io with
      | some e => exact ⟨.done (.restatErr hio), trivial⟩
      | none =>
        by_cases hk : (s.fs.objs r.obj).key = r.before
        · simp only [hk, ne_eq, not_true, if_false]
          exact ⟨.done (.restat hio hk), trivial⟩
        · simp only [ne_eq, hk, not_false_iff, if_true]
          exact ⟨.at (.restatChanged hio hk), discard_takes _ _⟩

/-- The copy loop and what follows.  Every turn reads at least one byte, so the
bound on the turns outlasts the bound on the bytes. -/
theorem copyLoop_takes : ∀ (fuel : ℕ) (r : Reading),
    rt.maxArtifactBytes < fuel + r.data.length →
    (copyLoop rt lab fuel r >>= fun q => finishRead rt lab q.1 q.2 : Reader L S _).Takes
      (ReadLift lab rt path) := by
  have hret : ∀ r e, ((Prog.ret (r, e) : Reader L S _) >>= fun q =>
      finishRead rt lab q.1 q.2).Takes (ReadLift lab rt path) := fun r e => finishRead_takes r e
  intro fuel
  induction fuel with
  | zero => exact fun r _ => hret _ _
  | succ fuel ih =>
    intro r hfuel s i
    dsimp only
    cases hio : i.io with
    | some e => exact ⟨.at (.readErr hio), hret _ _⟩
    | none =>
      generalize hchunk : readChunk (s.fs.objs r.obj).content r.data.length i.take = chunk
      by_cases hend : chunk = []
      · simp only [hend, if_true]
        refine ⟨?_, hret _ _⟩
        show ReadLift lab rt path _ i s s (finishRead rt lab r none).ctl
        unfold finishRead
        by_cases hsize : r.data.length = r.before.size
        · simp only [hsize, ne_eq, not_true, if_false]
          exact .at (.readEnd hio hsize (hchunk.trans hend))
        · simp only [ne_eq, hsize, not_false_iff, if_true]
          exact .at (.readShort hio hsize)
      · simp only [hend, if_false]
        split
        · exact ⟨.at .readLarge, hret _ _⟩
        · next hle =>
          have hpos : 0 < chunk.length := List.length_pos_iff.mpr hend
          have hlen : (r.data ++ chunk).length = r.data.length + chunk.length :=
            List.length_append
          refine ⟨.at (.read hio hchunk hend), fun s j => ?_⟩
          simp only [appendStep]
          cases hjo : j.io with
          | some e => exact ⟨.at (.writeErr hjo), hret _ _⟩
          | none =>
            have hnext := ih { r with data := r.data ++ chunk, chunkIndex := r.chunkIndex + 1 }
              (by simp only [hlen]; omega)
            refine ⟨?_, hnext⟩
            cases fuel with
            | zero => simp only [hlen] at hle; omega
            | succ fuel =>
              exact .at (.write (r := { r with data := r.data ++ chunk }) hjo)

theorem copyToSpool_takes (obj : ℕ) (before : FileKey) :
    (copyToSpool rt lab obj before : Reader L S _).Takes (ReadLift lab rt path) := by
  intro s i
  dsimp only
  cases hio : i.io with
  | some e => exact ⟨.done .createErr, trivial⟩
  | none =>
    cases hget : s.spool.get i.uuid with
    | some f =>
      have hsame : s.spool.insertNew ⟨i.uuid, []⟩ = s.spool := Table.rows_insertNew_of_get hget
      simp only [hsame, Option.isSome_some, if_true]
      exact ⟨.done .createErr, trivial⟩
    | none =>
      simp only [Option.isSome_none, Bool.false_eq_true, if_false]
      have hloop : ∀ r : Reading, (copyLoop rt lab (rt.maxArtifactBytes + 1) r >>= fun q =>
          finishRead rt lab q.1 q.2 : Reader L S _).Takes (ReadLift lab rt path) :=
        fun r => copyLoop_takes _ r (by omega)
      cases hc : rt.cipher with
      | none =>
        simp only [Option.isSome_none, Bool.false_eq_true, if_false]
        exact ⟨.at (.create hio hget hc), hloop _⟩
      | some c =>
        simp only [Option.isSome_some, if_true]
        refine ⟨.at (.createHeader hio hget hc), fun s j => ?_⟩
        simp only [appendStep]
        cases hjo : j.io with
        | some e => exact ⟨.at (.headerErr rfl hjo), discard_takes _ _⟩
        | none => exact ⟨.at (.header rfl hjo), hloop _⟩

theorem readOnce_takes (free : ℕ) :
    (readOnce rt lab path free : Reader L S _).Takes (ReadLift lab rt path) := by
  intro s i
  dsimp only
  cases hio : i.io with
  | some e => exact ⟨.done (.openErr hio), trivial⟩
  | none =>
    cases hp : s.fs.paths path with
    | none => exact ⟨.done (.openGone hio hp), trivial⟩
    | some obj =>
      refine ⟨.at (.openFile hio hp), fun s j => ?_⟩
      dsimp only
      cases hjo : j.io with
      | some e => exact ⟨.done (.statErr hjo), trivial⟩
      | none =>
        dsimp only
        split
        · exact ⟨.done .statLarge, trivial⟩
        · split
          · exact ⟨.done .statFull, trivial⟩
          · exact ⟨.at (.stat hjo), copyToSpool_takes _ _⟩

/-- Only the removal of a partial copy ends a read with `ChangedDuringRead`, and a
read that is retried goes back to the start from there. -/
theorem ReadMove.retried {p : ReadPt} {i : Input} {s s' : World S}
    {r : Except StableReadError StableReadResult} (h : ReadMove rt path p i s s' (.done r))
    (hr : r = .error .changedDuringRead) : ReadMove rt path p i s s' (.at .openFile) := by
  cases h with
  | openErr _ => exact absurd (Except.error.inj hr) (mapOpenErr_ne_changed _)
  | statErr _ => exact absurd (Except.error.inj hr) (mapOpenErr_ne_changed _)
  | restatErr _ => exact absurd (Except.error.inj hr) (mapOpenErr_ne_changed _)
  | discard hs =>
    cases hr
    exact .again hs
  | _ => cases hr

theorem stableRead_takes (free : ℕ) : ∀ retries : ℕ,
    (stableRead rt lab path free retries : Reader L S _).Takes (ReadLift lab rt path)
  | 0 => readOnce_takes free
  | retries + 1 => by
    refine Prog.takes_bind ((readOnce_takes free).mono ?_) fun r => ?_
    · rintro l i s s' c ⟨p, c', rfl, hm, rfl⟩
      cases c' with
      | idle => exact ⟨p, .idle, rfl, hm, rfl⟩
      | «at» q => exact ⟨p, .at q, rfl, hm, rfl⟩
      | failed => exact ⟨p, .failed, rfl, hm, rfl⟩
      | done r =>
        dsimp only [Ctl.cont]
        split
        · cases retries <;> exact .at (hm.retried rfl)
        · exact .done hm
    · split
      · exact stableRead_takes free retries
      · trivial

end Read

/-! ### Calls to the state database and to the server -/

section Calls

variable {α : Type} {T : Pt → Input → World S → World S → Ctl Pt α → Prop}

theorem takes_dbWrite {l : Pt} {f : World S → Option StateDb} {k : Unit → Agt S α}
    (hok : ∀ s i d, i.dbFails = false → f s = some d → T l i s { s with db := d } (k ()).ctl)
    (herr : ∀ s i, i.dbFails = true ∨ f s = none → T l i s s .failed)
    (hk : (k ()).Takes T) : (dbWrite l f >>= k).Takes T := by
  refine Prog.takes_exec_bind fun s i => ?_
  cases hdb : i.dbFails with
  | true => exact herr s i (.inl hdb)
  | false =>
    simp only [Bool.false_eq_true, if_false]
    cases hf : f s with
    | none => exact herr s i (.inr hf)
    | some d => exact ⟨hok s i d hdb hf, hk⟩

theorem takes_dbWrite_last {T : Pt → Input → World S → World S → Ctl Pt Unit → Prop} {l : Pt}
    {f : World S → Option StateDb}
    (hok : ∀ s i d, i.dbFails = false → f s = some d → T l i s { s with db := d } (.done ()))
    (herr : ∀ s i, i.dbFails = true ∨ f s = none → T l i s s .failed) :
    (dbWrite l f).Takes T := by
  refine Prog.takes_exec fun s i => ?_
  cases hdb : i.dbFails with
  | true => exact herr s i (.inl hdb)
  | false =>
    simp only [Bool.false_eq_true, if_false]
    cases hf : f s with
    | none => exact herr s i (.inr hf)
    | some d => exact hok s i d hdb hf

theorem takes_request {β : Type} {l : Pt}
    {call : World S → List Env → S → Except String β × S} {k : Except String β → Agt S α}
    (h : ∀ s i r, i.answer (call s i.envs s.server).1 = r →
      T l i s { s with server := i.reached s.server (call s i.envs s.server).2 } (k r).ctl)
    (hk : ∀ r, (k r).Takes T) : (request l call >>= k).Takes T := by
  intro s i
  have := h s i _ rfl
  dsimp only
  unfold Input.answer Input.reached at this
  cases hn : i.net with
  | refused msg =>
    rw [hn] at this
    exact ⟨this, hk _⟩
  | lost msg =>
    rw [hn] at this
    exact ⟨this, hk _⟩
  | answered =>
    rw [hn] at this
    exact ⟨this, hk _⟩

theorem takes_nextSequence {l : Pt} {k : ℕ → Agt S α}
    (hok : ∀ s i, i.dbFails = false →
      T l i s { s with db := s.db.nextSequence.2 } (k s.db.nextSequence.1).ctl)
    (herr : ∀ s s' i, i.dbFails = true → s' = s ∨ s' = { s with db := s.db.nextSequence.2 } →
      T l i s s' .failed)
    (hk : ∀ n, (k n).Takes T) : (nextSequence l >>= k).Takes T := by
  intro s i
  dsimp only
  cases hdb : i.dbFails with
  | true =>
    refine ⟨herr _ _ _ hdb ?_, trivial⟩
    cases i.late with
    | true => exact .inr rfl
    | false => exact .inl rfl
  | false => exact ⟨hok s i hdb, hk _⟩

end Calls

/-! ### `process_candidate` -/

section Process

/-- The moves of the task with the renewal task `h` and the candidate `id`. -/
def ProcLift (rt : Runtime S) (h id : ℕ) (l : Pt) (i : Input) (s s' : World S)
    (c : Ctl Pt Unit) : Prop :=
  ∃ t p, l = .proc t p ∧ t.handle = h ∧ t.cand.id = id ∧ ProcMove rt t p i s s' c

variable {t : Task}

theorem ProcLift.of {p : ProcPt} {i : Input} {s s' : World S} {c : Ctl Pt Unit}
    (h : ProcMove rt t p i s s' c) : ProcLift rt t.handle t.cand.id (.proc t p) i s s' c :=
  ⟨t, p, rfl, rfl, rfl, h⟩

/-- An update of the row that is not the last step. -/
theorem takes_row {p : ProcPt} {w : World S → RowWrite} {k : Unit → Agt S Unit}
    (hw : ∀ s : World S, p.rowWrite t s.clock = some (w s)) (hn : RowNext rt t p (k ()).ctl)
    (hk : (k ()).Takes (ProcLift rt t.handle t.cand.id)) :
    (dbWrite (.proc t p) (fun s => s.db.write t.cand.id (w s)) >>= k).Takes
      (ProcLift rt t.handle t.cand.id) :=
  takes_dbWrite (fun s _ _ hdb hd => .of (.row (hw s) hdb hd hn))
    (fun s _ herr => .of (.rowErr (hw s) herr)) hk

/-- An update of the row as the last step. -/
theorem takes_row_last {p : ProcPt} {w : World S → RowWrite}
    (hw : ∀ s : World S, p.rowWrite t s.clock = some (w s)) (hn : RowNext rt t p (.done ())) :
    (dbWrite (.proc t p) (fun s => s.db.write t.cand.id (w s))).Takes
      (ProcLift rt t.handle t.cand.id) :=
  takes_dbWrite_last (fun s _ _ hdb hd => .of (.row (hw s) hdb hd hn))
    fun s _ herr => .of (.rowErr (hw s) herr)

theorem takes_toState {p : ProcPt} {new : CaptureState} {k : Unit → Agt S Unit}
    (hw : ∀ now, p.rowWrite t now = some (.transition new)) (hn : RowNext rt t p (k ()).ctl)
    (hk : (k ()).Takes (ProcLift rt t.handle t.cand.id)) :
    (toState t p new >>= k).Takes (ProcLift rt t.handle t.cand.id) :=
  takes_row (fun s => hw s.clock) hn hk

theorem endWithGap_takes (g : GapInfo) :
    (endWithGap rt t g).Takes (ProcLift rt t.handle t.cand.id) := by
  have hend : (dbWrite (.proc t (.finishGap g)) fun s : World S =>
      s.db.finishGap t.cand.id g.outcome).Takes (ProcLift rt t.handle t.cand.id) :=
    takes_row_last (fun _ => rfl) .finishGap
  -- both statements of `record_gap` go on, whether or not they succeed
  intro s i
  dsimp only
  cases hdb : i.dbFails with
  | true => exact ⟨.of (.gapRowErr hdb), hend⟩
  | false =>
    refine ⟨.of (.gapRow hdb), fun s j => ?_⟩
    dsimp only
    cases hj : j.dbFails with
    | true => exact ⟨.of (.gapCount (.inl rfl)), hend⟩
    | false => exact ⟨.of (.gapCount (.inr rfl)), hend⟩

theorem retryOrFail_next (why : String) : FailNext rt t (retryOrFail rt t why).ctl := by
  unfold retryOrFail
  split
  · next h => exact .gap h
  · next h => exact .retry (Nat.lt_of_not_le h)

theorem retryOrFail_takes (why : String) :
    (retryOrFail rt t why).Takes (ProcLift rt t.handle t.cand.id) := by
  unfold retryOrFail
  split
  · exact endWithGap_takes _
  · exact takes_row_last (fun _ => rfl) .failRetry

theorem removeSpool_next : RemoveNext t (removeSpool t : Agt S Unit).ctl := by
  unfold removeSpool
  split
  · next h => exact .nothing h
  · next h => exact .file h

theorem removeSpool_takes : (removeSpool t : Agt S Unit).Takes (ProcLift rt t.handle t.cand.id) := by
  unfold removeSpool
  split
  · trivial
  · intro s i
    refine ⟨.of (.removeSpool ?_), trivial⟩
    dsimp only
    cases hio : i.io with
    | none => exact .inr rfl
    | some e => exact .inl ⟨rfl, by simp⟩

theorem finalizePhase_takes {sha : String} (hsha : t.cand.sha256 = some sha) (upload : Uuid) :
    (finalizePhase rt t sha upload).Takes (ProcLift rt t.handle t.cand.id) := by
  refine takes_toState (fun _ => rfl) .toFinalizing (takes_nextSequence
    (fun s i hdb => .of (.finalizeSeq hdb)) (fun s s' i hdb hs => .of (.finalizeSeqErr hdb hs))
    fun seq => takes_request (fun s i r hr => ?_) fun r => ?_)
  · cases r with
    | ok u => exact .of (.finalize hsha hr)
    | error e => exact .of (.finalizeErr hsha hr (retryOrFail_next _))
  · cases r with
    | error e => exact retryOrFail_takes _
    | ok u =>
      refine takes_toState (fun _ => rfl) .finQueued (takes_toState (fun _ => rfl) .finComplete
        (takes_dbWrite (fun s i d hdb hd => ?_) (fun s i herr => ?_)
          (takes_dbWrite (fun s i d hdb hd => ?_) (fun s i herr => ?_) removeSpool_takes)))
      · cases hd
        exact .of (.countCaptured hdb)
      · exact .of (.countCapturedErr (herr.resolve_right (by simp)))
      · cases hd
        exact .of (.lastUpload hdb removeSpool_next)
      · exact .of (.lastUploadErr (herr.resolve_right (by simp)))

/-- The upload, and what follows its answer. -/
theorem upload_takes {sha : String} (hsha : t.cand.sha256 = some sha) (upload : Uuid) (bytes : Bytes)
    {k : Except String Unit → Agt S Unit}
    (herr : ∀ e, k (.error e) = retryOrFail rt t ("upload: " ++ e))
    (hok : ∀ u, k (.ok u) = finalizePhase rt t sha upload) :
    (request (.proc t (.upload upload bytes)) (fun _ => rt.server.upload upload bytes) >>= k).Takes
      (ProcLift rt t.handle t.cand.id) := by
  refine takes_request (fun s i r hr => ?_) fun r => ?_
  · cases r with
    | error e =>
      rw [herr]
      exact .of (.uploadErr hr rfl (retryOrFail_next _))
    | ok u =>
      rw [hok]
      exact .of (.upload hr rfl)
  · cases r with
    | error e =>
      rw [herr]
      exact retryOrFail_takes _
    | ok u =>
      rw [hok]
      exact finalizePhase_takes hsha upload

theorem uploadPhase_takes {sha : String} (hsha : t.cand.sha256 = some sha) (ann : AnnounceResponse) :
    (uploadPhase rt t sha ann).Takes (ProcLift rt t.handle t.cand.id) := by
  cases hup : ann.uploadId with
  | none =>
    refine takes_toState (fun _ => rfl) ?_ ?_
    · simp only [hup]
      exact .noUploadId (retryOrFail_next _)
    · simp only [hup]
      exact retryOrFail_takes _
  | some upload =>
    refine takes_toState (fun _ => rfl) ?_ ?_
    · simp only [hup]
      exact .uploadId
    simp only [hup]
    refine takes_dbWrite (fun s i d hdb hd => ?_) (fun s i herr => ?_) ?_
    · cases hd
      exact .of (.setUploadId hdb)
    · exact .of (.setUploadIdErr (herr.resolve_right (by simp)))
    cases hspool : t.cand.spoolPath with
    | none =>
      exact takes_toState (fun _ => rfl) (.noSpool hspool (retryOrFail_next _)) (retryOrFail_takes _)
    | some name =>
      refine takes_toState (fun _ => rfl) (.spool hspool) (Prog.takes_exec_bind fun s i => ?_)
      cases hio : i.io with
      | some e => exact .of (.readSpoolErr (.inl (by simp [hio])))
      | none =>
        cases hget : s.spool.get name with
        | none => exact .of (.readSpoolErr (.inr (.inl hget)))
        | some f =>
          cases hc : rt.cipher with
          | none => exact ⟨.of .readSpool, upload_takes hsha _ _ (fun _ => rfl) fun _ => rfl⟩
          | some c =>
            dsimp only
            cases hd : decryptFile c f.bytes with
            | error e => exact .of (.readSpoolErr (.inr (.inr ⟨f, c, e, hget, hc, hd⟩)))
            | ok bytes =>
              exact ⟨.of .readSpool, upload_takes hsha _ _ (fun _ => rfl) fun _ => rfl⟩

theorem announced_takes {sha : String} (hsha : t.cand.sha256 = some sha) (ann : AnnounceResponse) :
    (announced rt t sha ann).Takes (ProcLift rt t.handle t.cand.id) := by
  unfold announced
  cases hd : ann.disposition with
  | alreadyPresent =>
    refine takes_toState (fun _ => rfl) (.present hd) (takes_toState (fun _ => rfl) .toDedupHit
      (takes_toState (fun _ => rfl) .dedupQueued (takes_toState (fun _ => rfl) .dedupComplete
        (takes_dbWrite (fun s i d hdb hd => ?_) (fun s i herr => ?_) removeSpool_takes))))
    · cases hd
      exact .of (.countPresent hdb removeSpool_next)
    · exact .of (.countPresentErr (herr.resolve_right (by simp)))
  | uploadRequired => exact takes_toState (fun _ => rfl) (.required hd) (uploadPhase_takes hsha ann)
  | metadataOnlyAccepted =>
    exact takes_toState (fun _ => rfl) (.otherDisposition (by simp [hd]) (by simp [hd]))
      (endWithGap_takes _)
  | rejectedPolicy =>
    exact takes_toState (fun _ => rfl) (.otherDisposition (by simp [hd]) (by simp [hd]))
      (endWithGap_takes _)
  | rejectedQuota =>
    exact takes_toState (fun _ => rfl) (.otherDisposition (by simp [hd]) (by simp [hd]))
      (endWithGap_takes _)
  | retryLater =>
    exact takes_toState (fun _ => rfl) (.otherDisposition (by simp [hd]) (by simp [hd]))
      (endWithGap_takes _)

theorem announcePhase_takes {sha : String} (hsha : t.cand.sha256 = some sha) :
    (announcePhase rt t sha).Takes (ProcLift rt t.handle t.cand.id) := by
  refine takes_nextSequence (fun s i hdb => .of (.announceSeq hdb))
    (fun s s' i hdb hs => .of (.announceSeqErr hdb hs))
    fun seq => takes_request (fun s i r hr => ?_) fun r => ?_
  · cases r with
    | error e => exact .of (.announceErr hsha hr (retryOrFail_next _))
    | ok ann => exact .of (.announce hsha hr)
  · cases r with
    | error e => exact retryOrFail_takes _
    | ok ann => exact announced_takes hsha ann

theorem resume_takes : (resume rt t).Takes (ProcLift rt t.handle t.cand.id) := by
  refine Prog.takes_exec_bind fun s i => ?_
  cases hdb : i.dbFails with
  | true => exact .of (.reloadErr hdb)
  | false =>
    simp only [Bool.false_eq_true, if_false]
    cases hget : s.db.get t.cand.id with
    | none => exact ⟨.of (.reloadGone hget), trivial⟩
    | some r =>
      -- the reloaded row has the id it was looked up with
      have hid : r.id = t.cand.id := Candidates.get_id hget
      have hlift : ∀ l i s s' c, ProcLift rt t.handle r.id l i s s' c →
          ProcLift rt t.handle t.cand.id l i s s' c := by
        rw [hid]
        exact fun _ _ _ _ _ h => h
      dsimp only
      by_cases hq : r.state = .dedupHit ∨ r.state = .occurrenceQueued
      · rw [if_pos hq]
        refine ⟨.of (.reloadQueued hget hq), Prog.Takes.mono hlift ?_⟩
        exact takes_toState (t := { t with cand := r }) (fun _ => rfl)
          (.resumeComplete removeSpool_next) removeSpool_takes
      · rw [if_neg hq]
        cases hsha : r.sha256 with
        | none => exact ⟨.of (.reloadNoSha hget hsha hq), trivial⟩
        | some sha =>
          dsimp only
          cases ha : r.state.announces with
          | true =>
            exact ⟨.of (.reloadAnnounce hget hsha ha),
              Prog.Takes.mono hlift (announcePhase_takes (t := { t with cand := r }) hsha)⟩
          | false => exact ⟨.of (.reloadEnd hget hsha hq ha), trivial⟩

theorem afterRead_next (r : Except StableReadError StableReadResult) :
    AfterRead rt t r (afterRead rt t r).ctl := by
  unfold afterRead
  split
  · exact .ok
  · exact .full
  · split
    · next h => exact .ioGap h
    · next h => exact .ioRetry (Nat.lt_of_not_le h)
  · next e h1 h2 => exact .gap (fun h => h1 h) fun msg h => h2 msg h

theorem afterRead_takes (r : Except StableReadError StableReadResult) :
    (afterRead rt t r).Takes (ProcLift rt t.handle t.cand.id) := by
  unfold afterRead
  split
  · exact takes_row (fun _ => rfl) .setHashed resume_takes
  · exact takes_row_last (fun _ => rfl) .deferFull
  · split
    · exact endWithGap_takes _
    · exact takes_row_last (fun _ => rfl) .ioRetry
  · exact endWithGap_takes _

theorem readPhase_takes : (readPhase rt t).Takes (ProcLift rt t.handle t.cand.id) := by
  intro s i
  refine ⟨.of .spoolUsed, ?_⟩
  refine takes_toState (fun _ => rfl) ?_ (Prog.takes_bind ((stableRead_takes _ _).mono ?_)
    afterRead_takes)
  · cases rt.stableReadRetries <;> exact .toCopying
  · rintro l i s s' c ⟨p, c', rfl, hm, rfl⟩
    cases c' with
    | idle => cases hm
    | failed => cases hm
    | «at» q => exact .of (.stableAt hm)
    | done r => exact .of (.stableDone hm (afterRead_next r))

theorem processCandidate_takes : (processCandidate rt t).Takes (ProcLift rt t.handle t.cand.id) := by
  unfold processCandidate
  split
  · exact takes_toState (fun _ => rfl) .toOpening readPhase_takes
  · split
    · exact readPhase_takes
    · exact resume_takes

theorem processCandidate_start : StartAt t (processCandidate rt t).ctl := by
  unfold processCandidate
  split
  · next h => exact .fresh h
  · next h =>
    split
    · next h' => exact .reread h'
    · next h' =>
      rw [not_or] at h h'
      exact .resume h.1 h.2 h'.1 h'.2

end Process

/-! ### The agent -/

/-- A task in the loop: `process_candidate`, then the end of the renewal task, and
on an error the retry. -/
theorem runTask_takes (boot : Uuid) (c : Candidate) : (runTask rt boot c).Takes (Move rt) := by
  intro s i
  have hstart : StartAt ⟨boot, s.nextHandle, c⟩ (processCandidate rt ⟨boot, s.nextHandle, c⟩).ctl :=
    processCandidate_start
  constructor
  · show Move rt _ i s _ ((processCandidate rt ⟨boot, s.nextHandle, c⟩).attempt >>= _).ctl
    rw [Prog.ctl_attempt_bind]
    generalize (processCandidate rt ⟨boot, s.nextHandle, c⟩).ctl = k at hstart
    cases hstart with
    | fresh h => exact .acquire (.fresh h)
    | reread h => exact .acquire (.reread h)
    | resume h1 h2 h3 h4 => exact .acquire (.resume h1 h2 h3 h4)
  · refine Prog.takes_attempt_bind ((processCandidate_takes).mono ?_) fun r => ?_
    · rintro l i s' s'' k ⟨t, p, rfl, hh, hid, hm⟩
      have hmove := Move.proc hm
      rw [Ctl.afterProcess, hh, hid] at hmove
      exact hmove
    · cases r with
      | some u => exact fun s i => ⟨.abort, trivial⟩
      | none =>
        refine fun s i => ⟨.abort, fun s j => ?_⟩
        dsimp only
        cases hdb : j.dbFails with
        | true => exact ⟨.errRetryErr (.inl hdb), trivial⟩
        | false =>
          simp only [Bool.false_eq_true, if_false]
          cases hd : s.db.setRetry c.id (s.clock + 30) with
          | none => exact ⟨.errRetryErr (.inr hd), trivial⟩
          | some d => exact ⟨.errRetry hd, trivial⟩

theorem workerTurn_takes (boot : Uuid) : (workerTurn rt boot).Takes (Move rt) := by
  intro s i
  dsimp only
  cases hdb : i.dbFails with
  | true => exact ⟨.leaseNone (.inl hdb), trivial⟩
  | false =>
    simp only [Bool.false_eq_true, if_false]
    cases hl : s.db.leaseNextDue s.clock 120 with
    | none => exact ⟨.leaseNone (.inr (by simp [hl])), trivial⟩
    | some r =>
      obtain ⟨c, d⟩ := r
      cases c with
      | some c => exact ⟨.lease hdb hl, runTask_takes boot c⟩
      | none =>
        -- nothing was due, and the database is as it was
        have hd : s.db = d := by
          unfold StateDb.leaseNextDue at hl
          split at hl
          · exact (Prod.mk.inj (Option.some.inj hl)).2
          · obtain ⟨_, _, heq⟩ := Option.map_eq_some_iff.mp hl
            cases heq
        subst hd
        exact ⟨.leaseNone (.inr (by simp [hl])), trivial⟩

theorem reconcileScan_next (entries : List String) :
    ScanNext rt entries (reconcileScan rt entries).ctl := by
  induction entries with
  | nil => exact .done fun p hp => absurd hp List.not_mem_nil
  | cons path rest ih =>
    unfold reconcileScan
    split
    · next hex =>
      generalize (reconcileScan rt rest).ctl = c at ih
      have hcons : ∀ {ps : List String}, (∀ p ∈ ps, matchesExclusion rt.exclusions p = true) →
          ∀ p ∈ path :: ps, matchesExclusion rt.exclusions p = true := by
        intro ps hps p hp
        rcases List.mem_cons.mp hp with rfl | hp
        · exact hex
        · exact hps p hp
      cases ih with
      | done h => exact .done (hcons h)
      | next h hskip => exact .next (by rw [h, List.cons_append]) (hcons hskip)
    · exact .next (List.nil_append _).symm fun p hp => absurd hp List.not_mem_nil

theorem reconcileScan_takes (entries : List String) :
    (reconcileScan rt entries).Takes (Move rt) := by
  induction entries with
  | nil => trivial
  | cons path rest ih =>
    unfold reconcileScan
    split
    · exact ih
    · intro s i
      dsimp only
      cases hio : i.io with
      | some e => exact ⟨.scanSkip (.inl (by simp [hio])) (reconcileScan_next rest), ih⟩
      | none =>
        cases hp : s.fs.paths path with
        | none => exact ⟨.scanSkip (.inr hp) (reconcileScan_next rest), ih⟩
        | some obj =>
          refine ⟨.scanStat hp, Prog.takes_exec_bind fun s j => ?_⟩
          cases hj : j.dbFails with
          | true => exact .scanSeenErr hj
          | false =>
            simp only [Bool.false_eq_true, if_false, StateDb.seenCheckAndUpdate]
            split
            · next hseen => exact ⟨.scanSame hseen (reconcileScan_next rest), ih⟩
            · next hseen =>
              refine ⟨.scanChanged hj hseen, ?_⟩
              simp only [if_true]
              refine takes_dbWrite (fun s i d hdb hd => ?_) (fun s i herr => ?_) ih
              · cases hd
                exact .scanEnqueue hdb (reconcileScan_next rest)
              · exact .scanEnqueueErr (herr.resolve_right (by simp))

theorem deleteGaps_takes (gaps : List PendingGap) :
    (deleteGaps gaps : Agt S Unit).Takes (Move rt) := by
  induction gaps with
  | nil => trivial
  | cons g rest ih =>
    refine takes_dbWrite (fun s i d hdb hd => ?_) (fun s i herr => ?_) ih
    · cases hd
      cases rest with
      | nil => exact .flushDeleteLast
      | cons g' rest => exact .flushDelete
    · exact .flushDeleteErr (herr.resolve_right (by simp))

theorem flushTurn_takes : (flushTurn rt).Takes (Move rt) := by
  refine Prog.takes_exec_bind fun s i => ?_
  cases hdb : i.dbFails with
  | true => exact .flushErr hdb
  | false =>
    simp only [Bool.false_eq_true, if_false]
    cases hg : (s.db.pendingGaps 100).filter fun g => (gapEvent rt g).isSome with
    | nil => exact ⟨.flushNone, trivial⟩
    | cons g rest =>
      simp only [List.isEmpty_cons, Bool.false_eq_true, if_false]
      refine ⟨?_, takes_request (fun s j r hr => ?_) fun r => ?_⟩
      · have hread : Move rt .flushRead i s s (.at (.flushSend
            ((s.db.pendingGaps 100).filter fun g => (gapEvent rt g).isSome))) := .flushRead
        rw [hg] at hread
        exact hread
      · cases r with
        | error e => exact .flushSendErr rfl
        | ok u => exact .flushSend hr rfl
      · cases r with
        | error e => trivial
        | ok u => exact deleteGaps_takes _

/-- **Every call makes the moves of the agent.** -/
theorem agent_takes (rt : Runtime S) (c : Call) : (agent rt c).Takes (Move rt) := by
  cases c with
  | worker boot => exact workerTurn_takes boot
  | renew handle => exact fun s i => ⟨.renew, trivial⟩
  | enqueue path priority reason =>
    unfold agent
    refine takes_dbWrite_last (fun s i d hdb hd => ?_) fun s i herr => ?_
    · cases hd
      exact .enqueue hdb
    · exact .enqueueErr (herr.resolve_right (by simp))
  | reconcile entries => exact reconcileScan_takes entries
  | flush => exact flushTurn_takes
  | put path obj file => exact fun s i => ⟨.put, trivial⟩
  | remove path => exact fun s i => ⟨.remove, trivial⟩
  | tick secs => exact fun s i => ⟨.tick, trivial⟩
  | restart => exact fun s i => ⟨.restart, trivial⟩

end Corpus.Agent
