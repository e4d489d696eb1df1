/-
The spool budget.

`process_candidate` compares the size of a file with the free space of the spool
once, before it reads: with the size at the first stat, without what encryption
adds to it, and without what the other captures in progress have yet to write.

A read is given a reservation (`ReadPt.reserve`), the bytes it has yet to write if
the file keeps its size.  `budget_respected`: if every spool file is created within
the budget, reservations counted, and the file does not grow while it is read, the
spool never holds more than `max_spool_bytes`.
-/
import Corpus.Agent.Rows
import Mathlib.Algebra.BigOperators.Group.Finset.Basic
import Mathlib.Algebra.Order.BigOperators.Group.Finset

namespace Corpus.Agent

variable {S : Type} {rt : Runtime S}

/-! ### Sizes -/

namespace Spool

theorem used_append_le (d : Spool) (name : Uuid) (bytes : Bytes) :
    (d.append name bytes).used ≤ d.used + bytes.length := by
  obtain ⟨rows, hnodup⟩ := d
  -- at most one file has the name
  have hrows : ∀ rows : List SpoolFile, (rows.map SpoolFile.name).Nodup →
      ((rows.map fun f => if decide (f.name = name) then { f with bytes := f.bytes ++ bytes } else f).map
        fun f => f.bytes.length).sum ≤ (rows.map fun f => f.bytes.length).sum + bytes.length := by
    intro rows
    induction rows with
    | nil => intro _; simp
    | cons f rows ih =>
      intro hn
      obtain ⟨hf, hn⟩ := List.nodup_cons.mp hn
      by_cases hname : f.name = name
      · have hrest : (rows.map fun f => if decide (f.name = name)
            then { f with bytes := f.bytes ++ bytes } else f) = rows := by
          refine (List.map_congr_left fun g hg => ?_).trans (List.map_id _)
          have hne : g.name ≠ name := by
            rintro rfl
            exact hf (hname ▸ List.mem_map_of_mem hg)
          simp [hne]
        rw [List.map_cons, hrest]
        simp only [hname, decide_true, if_true, List.map_cons, List.sum_cons, List.length_append]
        omega
      · simp only [List.map_cons, List.sum_cons, hname, decide_false, Bool.false_eq_true, if_false]
        have := ih hn
        omega
  exact hrows rows hnodup

theorem used_remove_le (d : Spool) (name : Uuid) : (d.remove name).used ≤ d.used :=
  ((List.filter_sublist).map _).sum_le_sum fun _ _ => Nat.zero_le _

theorem used_insertNew (d : Spool) (name : Uuid) : Spool.used (d.insertNew ⟨name, []⟩) = d.used := by
  unfold Table.insertNew
  split
  · rfl
  · simp [used]

end Spool

/-- The bytes a chunk of `n` bytes takes in the spool. -/
def chunkLength (cipher : Option SpoolCipher) (n : ℕ) : ℕ :=
  match cipher with
  | none => n
  | some _ => n + 20

/-- The bytes that `n` bytes take in the spool, in chunks of 64 KiB. -/
def chunksLength (cipher : Option SpoolCipher) (n : ℕ) : ℕ :=
  match cipher with
  | none => n
  | some _ => n + 20 * ((n + 65535) / 65536)

/-- The size of the spool file of `n` bytes. -/
def spoolLength (cipher : Option SpoolCipher) (n : ℕ) : ℕ :=
  (match cipher with
    | none => 0
    | some _ => 17) + chunksLength cipher n

theorem length_spoolChunk_le (cipher : Option SpoolCipher) (noncePrefix : Option NoncePrefix) (k : ℕ)
    (chunk : Bytes) :
    (spoolChunk cipher noncePrefix k chunk).length ≤ chunkLength cipher chunk.length := by
  cases cipher with
  | none => exact Nat.le_refl _
  | some c =>
    cases noncePrefix with
    | none => exact Nat.le_add_right ..
    | some p =>
      simp only [spoolChunk, chunkLength, List.length_append, c.length_encryptChunk,
        length_toLe]
      omega

/-- One chunk, and what then remains of `n` bytes. -/
theorem chunkLength_add_le (cipher : Option SpoolCipher) {n k : ℕ} (hk : 0 < k) (hkn : k ≤ n)
    (hfull : cipher = none ∨ k = 65536 ∨ k = n) :
    chunkLength cipher k + chunksLength cipher (n - k) ≤ chunksLength cipher n := by
  cases cipher with
  | none =>
    simp only [chunkLength, chunksLength]
    omega
  | some c =>
    simp only [chunkLength, chunksLength]
    rcases hfull with hc | rfl | rfl
    · cases hc
    · omega
    · omega

/-! ### Reservations -/

/-- What a read has yet to write, if the file keeps the size of the first stat. -/
def ReadPt.reserve (cipher : Option SpoolCipher) : ReadPt → ℕ
  | header r => 17 + chunksLength cipher (r.before.size - r.data.length)
  | read r => chunksLength cipher (r.before.size - r.data.length)
  | write r chunk =>
    chunkLength cipher chunk.length + chunksLength cipher (r.before.size - r.data.length)
  | _ => 0

def Ctl.readReserve {α : Type} (cipher : Option SpoolCipher) : Ctl ReadPt α → ℕ
  | .at q => q.reserve cipher
  | _ => 0

/-- The reservation of a call. -/
def reserve (rt : Runtime S) : Ctl Pt Unit → ℕ
  | .at (.proc _ (.stable p)) => p.reserve rt.cipher
  | _ => 0

/-- The file has not grown since the first stat, and a read of an encrypted copy
fills its buffer or reaches the end of the file. -/
def ReadFits (rt : Runtime S) (s : World S) (i : Input) (r : Reading) : Prop :=
  let k := (readChunk (s.fs.objs r.obj).content r.data.length i.take).length
  k = 0 ∨ r.data.length + k ≤ r.before.size ∧
    (rt.cipher = none ∨ k = 65536 ∨ r.data.length + k = r.before.size)

/-- Within the budget: a spool file is created only if there is room for all of it
beside the files and the reservations of the captures in progress, and no file
grows while it is read. -/
def WithinBudget (rt : Runtime S) (s : World S) (pts : ℕ → Ctl Pt Unit) (a : Act Call Input) : Prop :=
  ∀ n i t p, a = .exec n i → pts n = .at (.proc t (.stable p)) →
    (∀ obj before, p = .create obj before → ∀ calls : Finset ℕ,
      s.spool.used + (∑ m ∈ calls, reserve rt (pts m)) + spoolLength rt.cipher before.size ≤
        rt.maxSpoolBytes) ∧
    ∀ r, p = .read r → ReadFits rt s i r

/-! ### One step -/

/-- A step of a read writes no more than it gives up of its reservation. -/
theorem ReadMove.reserve_le {path : String} {p : ReadPt} {i : Input} {s s' : World S}
    {c : Ctl ReadPt (Except StableReadError StableReadResult)} (h : ReadMove rt path p i s s' c)
    (hnew : ∀ obj before, p ≠ .create obj before) (hfits : ∀ r, p = .read r → ReadFits rt s i r) :
    s'.spool.used + Ctl.readReserve rt.cipher c ≤ s.spool.used + p.reserve rt.cipher := by
  cases h with
  | create => exact absurd rfl (hnew _ _)
  | createHeader => exact absurd rfl (hnew _ _)
  | createErr => exact absurd rfl (hnew _ _)
  | @headerErr _ _ r q _ hp he =>
    have hle := Spool.used_append_le s.spool r.name ((spoolHeader q).take i.take)
    have hlen : ((spoolHeader q).take i.take).length ≤ 17 := by
      rw [List.length_take, spoolHeader, List.length_cons, q.2]
      omega
    simp only [Ctl.readReserve, ReadPt.reserve]
    omega
  | @header _ _ r q hp he =>
    have hle := Spool.used_append_le s.spool r.name (spoolHeader q)
    have hlen : (spoolHeader q).length = 17 := by rw [spoolHeader, List.length_cons, q.2]
    simp only [Ctl.readReserve, ReadPt.reserve]
    omega
  | @read _ _ r chunk hio hchunk hne =>
    have hpos : 0 < chunk.length := List.length_pos_iff.mpr hne
    have hr := hfits r rfl
    simp only [ReadFits, hchunk] at hr
    rcases hr with hz | ⟨hle, hfull⟩
    · omega
    · have hcost := chunkLength_add_le rt.cipher hpos
        (show chunk.length ≤ r.before.size - r.data.length by omega)
        (hfull.imp_right fun h => h.imp_right fun h => by omega)
      simp only [Ctl.readReserve, ReadPt.reserve, List.length_append]
      rw [← Nat.sub_sub]
      omega
  | @writeErr _ _ r chunk _ he =>
    have hle := Spool.used_append_le s.spool r.name
      ((spoolChunk rt.cipher r.noncePrefix r.chunkIndex chunk).take i.take)
    have hlen := length_spoolChunk_le rt.cipher r.noncePrefix r.chunkIndex chunk
    rw [List.length_take] at hle
    simp only [Ctl.readReserve, ReadPt.reserve]
    omega
  | @write _ _ r chunk he =>
    have hle := Spool.used_append_le s.spool r.name
      (spoolChunk rt.cipher r.noncePrefix r.chunkIndex chunk)
    have hlen := length_spoolChunk_le rt.cipher r.noncePrefix r.chunkIndex chunk
    simp only [Ctl.readReserve, ReadPt.reserve]
    omega
  | @discard _ _ _ name _ hs =>
    have hle := Spool.used_remove_le s.spool name
    rcases hs with ⟨rfl, -⟩ | rfl <;> simp only [Ctl.readReserve, ReadPt.reserve] <;> omega
  | @again _ _ _ name hs =>
    have hle := Spool.used_remove_le s.spool name
    rcases hs with ⟨rfl, -⟩ | rfl <;> simp only [Ctl.readReserve, ReadPt.reserve] <;> omega
  | _ => simp only [Ctl.readReserve, ReadPt.reserve]; omega

/-- A read that starts to write has the whole file reserved. -/
theorem ReadMove.create_reserve {path : String} {obj : ℕ} {before : FileKey} {i : Input}
    {s s' : World S} {c : Ctl ReadPt (Except StableReadError StableReadResult)}
    (h : ReadMove rt path (.create obj before) i s s' c) :
    s'.spool.used + Ctl.readReserve rt.cipher c ≤ s.spool.used + spoolLength rt.cipher before.size := by
  cases h with
  | createErr => exact Nat.le_add_right ..
  | create hio hg hc =>
    have hu := Spool.used_insertNew s.spool i.uuid
    simp only [Ctl.readReserve, ReadPt.reserve, spoolLength, hc, List.length_nil, Nat.sub_zero] at hu ⊢
    omega
  | createHeader hio hg hc =>
    have hu := Spool.used_insertNew s.spool i.uuid
    simp only [Ctl.readReserve, ReadPt.reserve, spoolLength, hc, List.length_nil, Nat.sub_zero] at hu ⊢
    omega

/-- Where a finished read goes, nothing is reserved. -/
theorem AfterRead.reserve {t : Task} {x : Except StableReadError StableReadResult}
    {c : Ctl Pt Unit} (h : AfterRead rt t x c) : Agent.reserve rt (Ctl.afterProcess t c) = 0 := by
  cases h <;> rfl

theorem RemoveNext.reserve {t : Task} {c : Ctl Pt Unit} (h : RemoveNext t c) :
    Agent.reserve rt (Ctl.afterProcess t c) = 0 := by
  cases h <;> rfl

theorem FailNext.reserve {t : Task} {c : Ctl Pt Unit} (h : FailNext rt t c) :
    Agent.reserve rt (Ctl.afterProcess t c) = 0 := by
  cases h <;> rfl

theorem RowNext.reserve {t : Task} {p : ProcPt} {c : Ctl Pt Unit} (h : RowNext rt t p c) :
    Agent.reserve rt (Ctl.afterProcess t c) = 0 := by
  cases h with
  | resumeComplete h => exact h.reserve
  | noUploadId h => exact h.reserve
  | noSpool _ h => exact h.reserve
  | _ => rfl

/-- Outside of its read a task writes nothing to the spool. -/
theorem ProcMove.reserve_le {t : Task} {p : ProcPt} {i : Input} {s s' : World S} {c : Ctl Pt Unit}
    (h : ProcMove rt t p i s s' c) (hp : ∀ q, p ≠ .stable q) :
    s'.spool.used + reserve rt (Ctl.afterProcess t c) ≤ s.spool.used := by
  -- it may remove a file
  have hsame : s'.spool = s.spool → reserve rt (Ctl.afterProcess t c) = 0 →
      s'.spool.used + reserve rt (Ctl.afterProcess t c) ≤ s.spool.used := by
    intro hs hz
    rw [hs, hz]
    exact Nat.le_refl _
  cases h with
  | stableAt _ => exact absurd rfl (hp _)
  | stableDone _ _ => exact absurd rfl (hp _)
  | row _ _ _ hn => exact hsame rfl hn.reserve
  | removeSpool hs =>
    rcases hs with ⟨rfl, -⟩ | rfl
    · exact hsame rfl rfl
    · exact Spool.used_remove_le ..
  | gapCount hs => rcases hs with rfl | rfl <;> exact hsame rfl rfl
  | announceSeqErr _ hs => rcases hs with rfl | rfl <;> exact hsame rfl rfl
  | finalizeSeqErr _ hs => rcases hs with rfl | rfl <;> exact hsame rfl rfl
  | announceErr _ _ hf => exact hsame rfl hf.reserve
  | finalizeErr _ _ hf => exact hsame rfl hf.reserve
  | uploadErr _ hs hf =>
    subst hs
    exact hsame rfl hf.reserve
  | upload _ hs =>
    subst hs
    exact hsame rfl rfl
  | countPresent _ hr => exact hsame rfl hr.reserve
  | lastUpload _ hr => exact hsame rfl hr.reserve
  | _ => exact hsame rfl rfl

/-- What a read does to the reservation of its task. -/
theorem ReadMove.task_reserve {t : Task} {p : ReadPt} {i : Input} {s s' : World S}
    {c : Ctl Pt Unit} {bound : ℕ} (h : ProcMove rt t (.stable p) i s s' c)
    (hread : ∀ {path c'}, ReadMove rt path p i s s' c' →
      s'.spool.used + Ctl.readReserve rt.cipher c' ≤ bound) :
    s'.spool.used + reserve rt (Ctl.afterProcess t c) ≤ bound := by
  cases h with
  | stableAt hx => exact hread hx
  | stableDone hx ha =>
    rw [ha.reserve]
    exact hread hx
  | row hw => cases hw
  | rowErr hw => cases hw

/-- Nothing but a capture reserves. -/
theorem Move.reserve_zero {l : Pt} {i : Input} {s s' : World S} {c : Ctl Pt Unit}
    (hm : Move rt l i s s' c) (hl : ∀ t p, l ≠ .proc t p) : reserve rt c = 0 := by
  cases hm with
  | proc _ => exact absurd rfl (hl _ _)
  | acquire hs => cases hs <;> rfl
  | @abort _ _ failed => cases failed <;> rfl
  | scanSkip _ hn => cases hn <;> rfl
  | scanSame _ hn => cases hn <;> rfl
  | scanEnqueue _ hn => cases hn <;> rfl
  | _ => rfl

/-- The file a read is about to create, in the spool's terms. -/
def newFile (rt : Runtime S) : Pt → ℕ
  | .proc _ (.stable (.create _ before)) => spoolLength rt.cipher before.size
  | _ => 0

/-- **A step writes no more than it had reserved**, or reserves for a new file. -/
theorem Move.reserve_le {l : Pt} {i : Input} {s s' : World S} {c : Ctl Pt Unit}
    (hm : Move rt l i s s' c)
    (hfits : ∀ t r, l = .proc t (.stable (.read r)) → ReadFits rt s i r) :
    s'.spool.used + reserve rt c ≤ s.spool.used + reserve rt (.at l) + newFile rt l := by
  by_cases hproc : ∃ t p, l = .proc t p
  · obtain ⟨t, p, rfl⟩ := hproc
    cases hm with
    | proc hp =>
      cases p with
      | stable q =>
        refine (ReadMove.task_reserve hp ?_).trans (Nat.le_refl _)
        intro path c' hx
        cases q with
        | create obj before => exact hx.create_reserve
        | _ => exact hx.reserve_le (by simp) fun r hr => hfits t r (by rw [hr])
      | _ => exact hp.reserve_le (by simp)
  · have hl : ∀ t p, l ≠ .proc t p := fun t p h => hproc ⟨t, p, h⟩
    rw [hm.spool_same hl, hm.reserve_zero hl]
    omega

/-! ### Histories -/

/-- The files and any set of reservations fit the budget. -/
def Fits (rt : Runtime S) (s : World S) (pts : ℕ → Ctl Pt Unit) : Prop :=
  ∀ calls : Finset ℕ, s.spool.used + ∑ m ∈ calls, reserve rt (pts m) ≤ rt.maxSpoolBytes

/-- The reservations of some calls after one of them has moved. -/
theorem sum_reserve_update (rt : Runtime S) (pts : ℕ → Ctl Pt Unit) (n : ℕ) (c : Ctl Pt Unit)
    (calls : Finset ℕ) :
    ∑ m ∈ calls, reserve rt (Function.update pts n c m) ≤
      reserve rt c + ∑ m ∈ calls.erase n, reserve rt (pts m) := by
  have hrest : ∑ m ∈ calls.erase n, reserve rt (Function.update pts n c m) =
      ∑ m ∈ calls.erase n, reserve rt (pts m) := by
    refine Finset.sum_congr rfl fun m hm => ?_
    rw [Function.update_of_ne (Finset.ne_of_mem_erase hm)]
  by_cases hn : n ∈ calls
  · rw [← Finset.add_sum_erase _ _ hn, hrest, Function.update_self]
  · rw [← hrest, Finset.erase_eq_of_notMem hn]
    omega

theorem Fits.exec {s s' : World S} {pts : ℕ → Ctl Pt Unit} {n : ℕ} {l : Pt} {i : Input}
    {c : Ctl Pt Unit} (h : Fits rt s pts) (hn : pts n = .at l) (hm : Move rt l i s s' c)
    (hok : WithinBudget rt s pts (.exec n i)) : Fits rt s' (Function.update pts n c) := by
  intro calls
  have hsum := sum_reserve_update rt pts n c calls
  have hmove := hm.reserve_le fun t r hl => (hok n i t _ rfl (hl ▸ hn)).2 r rfl
  -- the others, and the call that moves
  have hall := h (insert n (calls.erase n))
  rw [Finset.sum_insert (Finset.notMem_erase n calls), hn] at hall
  by_cases hnew : ∃ t obj before, l = .proc t (.stable (.create obj before))
  · obtain ⟨t, obj, before, rfl⟩ := hnew
    have hroom := (hok n i t _ rfl hn).1 obj before rfl (calls.erase n)
    have hz : reserve rt (.at (.proc t (.stable (.create obj before)))) = 0 := rfl
    have hfile : newFile rt (.proc t (.stable (.create obj before))) =
      spoolLength rt.cipher before.size := rfl
    omega
  · have hz : newFile rt l = 0 := by
      unfold newFile
      split
      · exact absurd ⟨_, _, _, rfl⟩ hnew
      · rfl
    omega

/-- A call that starts reserves nothing, and one that is cut off gives its
reservation up. -/
theorem Fits.idle {s : World S} {pts : ℕ → Ctl Pt Unit} {n : ℕ} {c : Ctl Pt Unit}
    (h : Fits rt s pts) (hc : reserve rt c = 0) : Fits rt s (Function.update pts n c) := by
  intro calls
  have hsum := sum_reserve_update rt pts n c calls
  have hall := h (calls.erase n)
  omega

theorem entry_reserve (c : Call) : reserve rt (agent rt c).ctl = 0 := by
  cases hc : (agent rt c).ctl with
  | «at» l =>
    have hnone := agent_entry rt c hc
    cases l with
    | proc t p => cases hnone
    | _ => rfl
  | _ => rfl

/-- **The spool budget is respected** along every history within the budget. -/
theorem budget_respected {s₀ : World S} (hstart : s₀.spool.used ≤ rt.maxSpoolBytes)
    {h : Pool.Hist Call Pt (World S) Input String Unit}
    {p : Pool Call Pt (World S) Input String Unit} (hr : Pool.Reach (agent rt) s₀ h p)
    (hok : ∀ e ∈ h, WithinBudget rt e.1.store e.1.ctl e.2) :
    p.store.spool.used ≤ rt.maxSpoolBytes := by
  have hfits : Fits rt p.store p.ctl := by
    refine View.VReach.invariant (fun v a => WithinBudget rt v.store v.pts a)
      (fun _ v => Fits rt v.store v.pts) ?_ ?_ ?_ ?_ (hr.view (agent_takes rt))
      (Pool.forall_view (WithinBudget rt) hok)
    · intro calls
      refine (Nat.add_le_add_left (Nat.le_of_eq (Finset.sum_eq_zero fun m _ => rfl)) _).trans ?_
      exact hstart
    · intro h v c hi _ _
      exact hi.idle (entry_reserve c)
    · intro h v n l c s' i hi hn hm hok
      exact hi.exec hn hm hok
    · intro h v n l hi _ _
      exact hi.idle rfl
  simpa using hfits ∅

/-- `WithinBudget`, computed, for steps during which no other call has a reservation. -/
def withinBudget (rt : Runtime S) (p : Pool Call Pt (World S) Input String Unit) :
    Act Call Input → Bool
  | .exec n i =>
    match p.ctl n with
    | .at (.proc _ (.stable (.create _ before))) =>
      (!p.anyAt fun l => decide (reserve rt (.at l) ≠ 0)) &&
        decide (p.store.spool.used + spoolLength rt.cipher before.size ≤ rt.maxSpoolBytes)
    | .at (.proc _ (.stable (.read r))) =>
      let k := (readChunk (p.store.fs.objs r.obj).content r.data.length i.take).length
      decide (k = 0 ∨ r.data.length + k = r.before.size)
    | _ => true
  | _ => true

theorem withinBudget_sound {p : Pool Call Pt (World S) Input String Unit} {a : Act Call Input}
    (h : withinBudget rt p a = true) : WithinBudget rt p.store p.ctl a := by
  rintro n i t q rfl hn
  simp only [withinBudget, hn] at h
  refine ⟨?_, ?_⟩
  · rintro obj before rfl calls
    simp only [Bool.and_eq_true, Bool.not_eq_true', decide_eq_true_eq] at h
    have hz : ∑ m ∈ calls, reserve rt (p.ctl m) = 0 := by
      refine Finset.sum_eq_zero fun m _ => ?_
      cases hm : p.ctl m with
      | «at» l => simpa using Pool.not_of_anyAt h.1 hm
      | _ => rfl
    rw [hz]
    exact h.2
  · rintro r rfl
    simp only [decide_eq_true_eq] at h
    exact h.imp_right fun h => ⟨h.le, .inr (.inr h)⟩

/-- Two captures of a file of 50 bytes, one after the other: the spool is full. -/
theorem budget_respected_twice :
    ∃ h p, Pool.Reach (agent (.small (.fixed (.error "") (.ok ())) none 8))
      (.fresh (.holding (List.replicate 50 1)) ()) h p ∧ p.store.spool.used = 100 ∧
      p.store.spool.used ≤ 100 := by
  obtain ⟨h, p, hreach, hchk⟩ := Pool.exists_reach
    (agent (.small (.fixed (.error "") (.ok ())) none 8))
    (.fresh (.holding (List.replicate 50 1)) ())
    (.spawn (.enqueue "/a" 5 "sensor") :: fineSteps 0 1 0 ++
      .spawn (.enqueue "/b" 5 "sensor") :: fineSteps 1 1 0 ++
      .spawn (.worker 3) :: fineSteps 2 12 8 ++ .spawn (.worker 3) :: fineSteps 3 12 9)
    (fun h p => (h.all fun e =>
      withinBudget (.small (.fixed (.error "") (.ok ())) none 8) e.1 e.2) &&
      decide (p.store.spool.used = 100)) (by decide)
  simp only [Bool.and_eq_true, List.all_eq_true, decide_eq_true_eq] at hchk
  exact ⟨h, p, hreach, hchk.2, budget_respected (Nat.zero_le _) hreach
    fun e he => withinBudget_sound (hchk.1 e he)⟩

/-- Three captures compute their free space before any of them writes: each file of
50 bytes fits the 100 that are free, and together they take 150. -/
theorem concurrent_captures_overrun :
    ∃ h p, Pool.Reach (agent (.small (.fixed (.error "") (.ok ())) none 8))
      (.fresh (.holding (List.replicate 50 1)) ()) h p ∧ 100 < p.store.spool.used := by
  obtain ⟨h, p, hreach, hchk⟩ := Pool.exists_reach
    (agent (.small (.fixed (.error "") (.ok ())) none 8))
    (.fresh (.holding (List.replicate 50 1)) ())
    (.spawn (.enqueue "/a" 5 "sensor") :: fineSteps 0 1 0 ++
      .spawn (.enqueue "/b" 5 "sensor") :: fineSteps 1 1 0 ++
      .spawn (.enqueue "/c" 5 "sensor") :: fineSteps 2 1 0 ++
      .spawn (.worker 3) :: fineSteps 3 4 0 ++ .spawn (.worker 3) :: fineSteps 4 4 0 ++
      .spawn (.worker 3) :: fineSteps 5 4 0 ++
      fineSteps 3 8 7 ++ fineSteps 4 8 8 ++ fineSteps 5 8 9)
    (fun _ p => decide (100 < p.store.spool.used)) (by decide)
  exact ⟨h, p, hreach, of_decide_eq_true hchk⟩

end Corpus.Agent
