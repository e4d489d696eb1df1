/-
Versions of a watched file, and the scans that see them.

A path names an object and the object holds a file; the pair is the version of the
path.  `reconcile_scan` keeps the key of the last version it saw (`seen`) and takes a
file for changed when the key differs.

* `Sighted` — where the keys in the snapshot and in the hands of a scan come from,
  when every write gives the path a key it never had (`Distinct`);
* `Sweeps` — a scan that starts under a version comes by the path, and sees that
  version.
-/
import Corpus.Agent.GapLedger

namespace Corpus.Agent

variable {S : Type} {rt : Runtime S} {path : String}

/-! ### Versions -/

/-- The object the path names, and the file it holds. -/
def version (path : String) (s : World S) : Option (ℕ × FileObj) :=
  (s.fs.paths path).map fun obj => (obj, s.fs.objs obj)

/-- The world after a write. -/
def World.put (s : World S) (path : String) (obj : ℕ) (file : FileObj) : World S :=
  { s with fs :=
    ⟨Function.update s.fs.paths path (some obj), Function.update s.fs.objs obj file⟩ }

/-- The path has, or had when something happened, a version of this key. -/
def Had (path : String) (h : Trace S) (v : View Pt (World S) Unit) (key : SeenKey) : Prop :=
  ∃ w, (w = v ∨ ∃ a, (w, a) ∈ h) ∧ ∃ ver, version path w.store = some ver ∧
    ver.2.key.seenKey = key

/-- A write that changes the version gives the path a key it never had. -/
def Distinct (path : String) (h : Trace S) (v : View Pt (World S) Unit) (a : Act Call Input) :
    Prop :=
  ∀ n i q obj file ver, a = .exec n i → v.pts n = .at (.put q obj file) →
    version path (v.store.put q obj file) = some ver →
    version path v.store = some ver ∨ ¬ Had path h v ver.2.key.seenKey

theorem Had.now {h : Trace S} {v : View Pt (World S) Unit} {ver : ℕ × FileObj}
    (hv : version path v.store = some ver) : Had path h v ver.2.key.seenKey :=
  ⟨v, .inl rfl, ver, hv, rfl⟩

theorem Had.mono {h : Trace S} {v : View Pt (World S) Unit} {key : SeenKey}
    (hh : Had path h v key) (a : Act Call Input) (v' : View Pt (World S) Unit) :
    Had path (h ++ [(v, a)]) v' key := by
  obtain ⟨w, hw, hver⟩ := hh
  refine ⟨w, .inr ?_, hver⟩
  rcases hw with rfl | ⟨b, hb⟩
  · exact ⟨a, List.mem_append_right _ (List.mem_singleton_self _)⟩
  · exact ⟨b, List.mem_append_left _ hb⟩

/-! ### What a step does to files and snapshot -/

theorem ProcMove.watch_frame {t : Task} {p : ProcPt} {i : Input} {s s' : World S} {c : Ctl Pt Unit}
    (h : ProcMove rt t p i s s' c) : s'.fs = s.fs ∧ s'.db.seen = s.db.seen := by
  cases h with
  | row _ _ hd _ =>
    obtain ⟨cs, -, rfl⟩ := StateDb.write_some hd
    exact ⟨rfl, rfl⟩
  | stableAt hx =>
    rw [hx.spool_only]
    exact ⟨rfl, rfl⟩
  | stableDone hx _ =>
    rw [hx.spool_only]
    exact ⟨rfl, rfl⟩
  | gapCount hs => rcases hs with rfl | rfl <;> exact ⟨rfl, rfl⟩
  | removeSpool hs => rcases hs with ⟨rfl, -⟩ | rfl <;> exact ⟨rfl, rfl⟩
  | announceSeqErr _ hs => rcases hs with rfl | rfl <;> exact ⟨rfl, rfl⟩
  | finalizeSeqErr _ hs => rcases hs with rfl | rfl <;> exact ⟨rfl, rfl⟩
  | uploadErr _ hs _ =>
    subst hs
    exact ⟨rfl, rfl⟩
  | upload _ hs =>
    subst hs
    exact ⟨rfl, rfl⟩
  | _ => exact ⟨rfl, rfl⟩

theorem renewed_watch_frame (s : World S) (i : Input) (handle : ℕ) :
    (renewed s i handle).fs = s.fs ∧ (renewed s i handle).db.seen = s.db.seen := by
  unfold renewed
  split
  · exact ⟨rfl, rfl⟩
  · split
    · exact ⟨rfl, rfl⟩
    · dsimp only
      split
      · exact ⟨rfl, rfl⟩
      · split
        · exact ⟨rfl, rfl⟩
        · next d hd =>
          obtain ⟨cs, -, rfl⟩ := StateDb.write_some hd
          exact ⟨rfl, rfl⟩

/-- What a step does to the version of a path and to its entry in the snapshot. -/
inductive WatchStep (path : String) (l : Pt) (i : Input) (s s' : World S) : Prop where
  | same : s'.fs = s.fs → s'.db.seen path = s.db.seen path →
      (∀ k rest, l = .scanSeen path k rest → i.dbFails = true ∨ s.db.seen path = some k.seenKey) →
      WatchStep path l i s s'
  | put {q obj file} : l = .put q obj file → s' = s.put q obj file → WatchStep path l i s s'
  | remove {q} : l = .remove q → s'.db = s.db →
      (version path s' = version path s ∨ version path s' = none) → WatchStep path l i s s'
  | seen {k rest} : l = .scanSeen path k rest → i.dbFails = false → s'.fs = s.fs →
      s'.db.seen path = some k.seenKey → WatchStep path l i s s'

theorem Move.watch_step {l : Pt} {i : Input} {s s' : World S} {c : Ctl Pt Unit}
    (h : Move rt l i s s' c) (path : String) : WatchStep path l i s s' := by
  have hsame : s'.fs = s.fs → s'.db.seen = s.db.seen → (∀ k rest, l ≠ .scanSeen path k rest) →
      WatchStep path l i s s' :=
    fun hfs hseen hl => .same hfs (by rw [hseen]) fun k rest heq => absurd heq (hl k rest)
  cases h with
  | proc hp => exact hsame hp.watch_frame.1 hp.watch_frame.2 (by simp)
  | renew => exact hsame (renewed_watch_frame ..).1 (renewed_watch_frame ..).2 (by simp)
  | lease _ hl =>
    obtain ⟨r, -, -, -, -, hw⟩ := StateDb.leaseNextDue_some hl
    obtain ⟨cs, -, rfl⟩ := StateDb.write_some hw
    exact hsame rfl rfl (by simp)
  | errRetry hd =>
    obtain ⟨cs, -, rfl⟩ := StateDb.write_some hd
    exact hsame rfl rfl (by simp)
  | flushSendErr hs =>
    subst hs
    exact hsame rfl rfl (by simp)
  | flushSend _ hs =>
    subst hs
    exact hsame rfl rfl (by simp)
  | put => exact .put rfl rfl
  | @remove q _ _ =>
    refine .remove rfl rfl ?_
    by_cases hq : path = q
    · subst hq
      right
      simp [version]
    · left
      simp [version, Function.update_of_ne hq]
  | scanSeenErr hdb =>
    exact .same rfl rfl fun k rest heq => .inl hdb
  | scanSame hseen _ =>
    refine .same rfl rfl fun k rest heq => .inr ?_
    cases heq
    exact hseen
  | @scanChanged q key rest _ _ hdb _ =>
    by_cases hq : path = q
    · subst hq
      exact .seen rfl hdb rfl (Function.update_self ..)
    · refine .same rfl (Function.update_of_ne hq ..) fun k rest heq => ?_
      cases heq
      exact absurd rfl hq
  | _ => exact hsame rfl rfl (by simp)

/-- A scan comes to its check of the snapshot with the key of a version of the path. -/
theorem Move.to_scanSeen {l : Pt} {i : Input} {s s' : World S} {k : FileKey} {rest : List String}
    (h : Move rt l i s s' (.at (.scanSeen path k rest))) :
    s' = s ∧ ∃ ver, version path s = some ver ∧ ver.2.key = k := by
  cases h.goes with
  | @scanSeen _ obj _ hp hs => exact ⟨hs, (obj, s.fs.objs obj), by rw [version, hp]; rfl, rfl⟩

/-- After a step, the path has the version it had, or a write has given it a new key. -/
theorem Move.version_step {h : Trace S} {v : View Pt (World S) Unit} {n : ℕ} {l : Pt} {i : Input}
    {s' : World S} {c : Ctl Pt Unit} (hm : Move rt l i v.store s' c) (hn : v.pts n = .at l)
    (hd : Distinct path h v (.exec n i)) {ver : ℕ × FileObj} (hver : version path s' = some ver) :
    version path v.store = some ver ∨
      (∃ q obj file, l = .put q obj file) ∧ ¬ Had path h v ver.2.key.seenKey := by
  have hfs : s'.fs = v.store.fs → version path v.store = some ver := by
    intro heq
    rw [← hver, version, version, heq]
  cases hm.watch_step path with
  | same heq _ _ => exact .inl (hfs heq)
  | @put q obj file hl hs =>
    subst hs
    rw [hl] at hn
    exact (hd n i q obj file ver rfl hn hver).imp_right fun hno => ⟨⟨q, obj, file, hl⟩, hno⟩
  | remove _ _ hv =>
    rcases hv with hv | hv
    · exact .inl (hv ▸ hver)
    · rw [hv] at hver
      cases hver
  | seen _ _ heq _ => exact .inl (hfs heq)

/-! ### Sightings -/

/-- A scan has checked the snapshot with this key. -/
def Visited (path : String) (h : Trace S) (key : SeenKey) : Prop :=
  ∃ e ∈ h, ∃ n i k rest, e.2 = .exec n i ∧ e.1.pts n = .at (.scanSeen path k rest) ∧
    i.dbFails = false ∧ k.seenKey = key

theorem Visited.mono {h : Trace S} {key : SeenKey} (hv : Visited path h key)
    (e : View Pt (World S) Unit × Act Call Input) : Visited path (h ++ [e]) key := by
  obtain ⟨e', he', hrest⟩ := hv
  exact ⟨e', List.mem_append_left _ he', hrest⟩

theorem visited_append {h : Trace S} {key : SeenKey} {e : View Pt (World S) Unit × Act Call Input}
    (hv : Visited path (h ++ [e]) key) : Visited path h key ∨
      ∃ n i k rest, e.2 = .exec n i ∧ e.1.pts n = .at (.scanSeen path k rest) ∧
        i.dbFails = false ∧ k.seenKey = key := by
  obtain ⟨e', he', hrest⟩ := hv
  rcases List.mem_append.mp he' with he' | he'
  · exact .inl ⟨e', he', hrest⟩
  · rw [List.mem_singleton.mp he'] at hrest
    exact .inr hrest

/-- Where the keys come from that scans have in hand, have checked, or left in the
snapshot. -/
structure Sighted (path : String) (h : Trace S) (v : View Pt (World S) Unit) : Prop where
  stat : ∀ {n k rest}, v.pts n = .at (.scanSeen path k rest) → Had path h v k.seenKey
  visits : ∀ {key}, Visited path h key → Had path h v key
  seen : ∀ {key}, v.store.db.seen path = some key → Visited path h key

section Step

variable {h : Trace S} {v : View Pt (World S) Unit} {n : ℕ} {l : Pt} {i : Input} {s' : World S}
  {c : Ctl Pt Unit} {m : ℕ}

theorem Sighted.exec (hi : Sighted path h v) (hn : v.pts n = .at l)
    (hm : Move rt l i v.store s' c) :
    Sighted path (h ++ [(v, .exec n i)]) ⟨s', Function.update v.pts n c, m⟩ where
  stat {n' k rest} hat := by
    rcases View.at_update hat with ⟨rfl, rfl⟩ | ⟨-, hat'⟩
    · obtain ⟨rfl, ver, hver, rfl⟩ := hm.to_scanSeen
      exact (Had.now hver).mono _ _
    · exact (hi.stat hat').mono _ _
  visits {key} hv := by
    rcases visited_append hv with hv | ⟨n', i', k, rest, ha, hat, -, rfl⟩
    · exact (hi.visits hv).mono _ _
    · cases ha
      exact (hi.stat hat).mono _ _
  seen {key} hseen := by
    have hold : v.store.db.seen path = some key → Visited path (h ++ [(v, .exec n i)]) key :=
      fun hs => (hi.seen hs).mono _
    cases hm.watch_step path with
    | same _ heq _ => exact hold (heq ▸ hseen)
    | put _ hs =>
      subst hs
      exact hold hseen
    | remove _ heq _ =>
      rw [heq] at hseen
      exact hold hseen
    | @seen k rest hl hdb _ hk =>
      subst hl
      obtain rfl : k.seenKey = key := Option.some.inj (hk.symm.trans hseen)
      exact ⟨_, List.mem_append_right _ (List.mem_singleton_self _), n, i, k, rest, rfl, hn, hdb, rfl⟩

/-- A call that starts has no key in hand, nor has one that is cut off. -/
theorem Sighted.idle (hi : Sighted path h v) {a : Act Call Input} (ha : ∀ n i, a ≠ .exec n i)
    (hc : ∀ k rest, c ≠ .at (.scanSeen path k rest)) :
    Sighted path (h ++ [(v, a)]) ⟨v.store, Function.update v.pts n c, m⟩ where
  stat {n' k rest} hat := by
    rcases View.at_update hat with ⟨-, he⟩ | ⟨-, hat'⟩
    · exact absurd he (hc k rest)
    · exact (hi.stat hat').mono _ _
  visits {key} hv := by
    rcases visited_append hv with hv | ⟨n', i', k, rest, heq, -⟩
    · exact (hi.visits hv).mono _ _
    · exact absurd heq (ha n' i')
  seen hseen := (hi.seen hseen).mono _

end Step

/-! ### Scans -/

/-- The call `n` is a scan over the path that started under its present version. -/
def Started (rt : Runtime S) (path : String) (h : Trace S) (v : View Pt (World S) Unit) (n : ℕ) :
    Prop :=
  ∃ w entries, (w, .spawn (.reconcile entries)) ∈ h ∧ w.size = n ∧
    version path w.store = version path v.store ∧ path ∈ entries ∧
    matchesExclusion rt.exclusions path = false

/-- The stat of a scan at the path does not fail. -/
def StatOk (path : String) (pts : ℕ → Ctl Pt Unit) (a : Act Call Input) : Prop :=
  ∀ n i rest, a = .exec n i → pts n = .at (.scanStat path rest) → i.io = none

/-- A scan has the path before it, or the version of this key has been seen. -/
def Sweeping (path : String) (h : Trace S) (key : SeenKey) : Ctl Pt Unit → Prop
  | .at (.scanStat p rest) => Visited path h key ∨ path ∈ p :: rest
  | .at (.scanSeen p k rest) => Visited path h key ∨ path ∈ rest ∨ (p = path ∧ k.seenKey = key)
  | .at (.scanEnqueue _ rest) => Visited path h key ∨ path ∈ rest
  | .done () => Visited path h key
  | .failed => True
  | _ => False

theorem Sweeping.mono {h : Trace S} {key : SeenKey} {c : Ctl Pt Unit} (hs : Sweeping path h key c)
    (e : View Pt (World S) Unit × Act Call Input) : Sweeping path (h ++ [e]) key c := by
  unfold Sweeping at hs ⊢
  split <;> simp only at hs ⊢
  · exact hs.imp_left fun hv => hv.mono e
  · exact hs.imp_left fun hv => hv.mono e
  · exact hs.imp_left fun hv => hv.mono e
  · exact hs.mono e

/-- Where a scan goes that still has the path before it, or has seen the version. -/
theorem ScanNext.sweeping {h : Trace S} {key : SeenKey} {rest : List String} {c : Ctl Pt Unit}
    (hn : ScanNext rt rest c) (hex : matchesExclusion rt.exclusions path = false)
    (hr : Visited path h key ∨ path ∈ rest) : Sweeping path h key c := by
  have hno : ∀ {ps : List String}, (∀ p ∈ ps, matchesExclusion rt.exclusions p = true) →
      path ∉ ps := by
    intro ps hps hp
    rw [hps path hp] at hex
    cases hex
  cases hn with
  | done hall => exact hr.resolve_right (hno hall)
  | next hrest hskip =>
    refine hr.imp_right fun hp => ?_
    rw [hrest] at hp
    exact (List.mem_append.mp hp).resolve_left (hno hskip)

/-- A step of a scan, under the version `ver` of the path. -/
theorem Sweeping.exec {h : Trace S} {v : View Pt (World S) Unit} {n : ℕ} {l : Pt} {i : Input}
    {s' : World S} {c : Ctl Pt Unit} {ver : ℕ × FileObj}
    (hs : Sweeping path h ver.2.key.seenKey (.at l)) (hsight : Sighted path h v)
    (hn : v.pts n = .at l) (hm : Move rt l i v.store s' c)
    (hver : version path v.store = some ver) (hex : matchesExclusion rt.exclusions path = false)
    (hok : StatOk path v.pts (.exec n i)) :
    Sweeping path (h ++ [(v, .exec n i)]) ver.2.key.seenKey c := by
  cases hm with
  | @scanSkip p rest _ _ _ hskip hnext =>
    refine hnext.sweeping hex (hs.imp (fun hv => hv.mono _) fun hp => ?_)
    rcases List.mem_cons.mp hp with rfl | hp
    · -- the path has a version, so only a failing stat skips it
      rcases hskip with hio | hnone
      · exact absurd (hok n i rest rfl hn) hio
      · rw [version, hnone] at hver
        cases hver
    · exact hp
  | @scanStat p rest _ _ obj hobj =>
    rcases hs with hs | hp
    · exact .inl (hs.mono _)
    · rcases List.mem_cons.mp hp with rfl | hp
      · rw [version, hobj] at hver
        obtain rfl := Option.some.inj hver
        exact .inr (.inr ⟨rfl, rfl⟩)
      · exact .inr (.inl hp)
  | scanSeenErr _ => trivial
  | scanSame hseen hnext =>
    refine hnext.sweeping hex ?_
    rcases hs with hs | hp | ⟨rfl, hk⟩
    · exact .inl (hs.mono _)
    · exact .inr hp
    · rw [hk] at hseen
      exact .inl ((hsight.seen hseen).mono _)
  | @scanChanged p k rest _ _ hdb _ =>
    rcases hs with hs | hp | ⟨rfl, hk⟩
    · exact .inl (hs.mono _)
    · exact .inr hp
    · exact .inl ⟨_, List.mem_append_right _ (List.mem_singleton_self _), n, i, k, rest, rfl, hn,
        hdb, hk⟩
  | scanEnqueueErr _ => trivial
  | scanEnqueue _ hnext => exact hnext.sweeping hex (hs.imp_left fun hv => hv.mono _)
  | _ => exact hs.elim

/-- Scans that started under the present version come by the path. -/
structure Sweeps (rt : Runtime S) (path : String) (h : Trace S) (v : View Pt (World S) Unit) :
    Prop where
  older : ∀ {w call}, (w, .spawn call) ∈ h → w.size < v.size
  scans : ∀ {n ver}, Started rt path h v n → version path v.store = some ver →
    Sweeping path h ver.2.key.seenKey (v.pts n)

section Step

variable {h : Trace S} {v : View Pt (World S) Unit} {n : ℕ} {l : Pt} {i : Input} {s' : World S}
  {c : Ctl Pt Unit}

theorem mem_of_append {a : Act Call Input} {w : View Pt (World S) Unit} {call : Call}
    (hm : (w, .spawn call) ∈ h ++ [(v, a)]) : (w, .spawn call) ∈ h ∨ w = v ∧ a = .spawn call := by
  rcases List.mem_append.mp hm with hm | hm
  · exact .inl hm
  · cases List.mem_singleton.mp hm
    exact .inr ⟨rfl, rfl⟩

theorem Sweeps.exec (hi : Sweeps rt path h v) (hsight : Sighted path h v) (hn : v.pts n = .at l)
    (hm : Move rt l i v.store s' c) (hd : Distinct path h v (.exec n i))
    (hok : StatOk path v.pts (.exec n i)) :
    Sweeps rt path (h ++ [(v, .exec n i)]) ⟨s', Function.update v.pts n c, v.size⟩ where
  older hw := by
    rcases mem_of_append hw with hw | ⟨-, ha⟩
    · exact hi.older hw
    · cases ha
  scans {m ver} hst hver := by
    obtain ⟨w, entries, hw, hsize, hwver, hp, hex⟩ := hst
    have hw' : (w, .spawn (.reconcile entries)) ∈ h := by
      rcases mem_of_append hw with hw | ⟨-, ha⟩
      · exact hw
      · cases ha
    rcases hm.version_step hn hd hver with hsame | ⟨-, hnew⟩
    · have hsweep := hi.scans ⟨w, entries, hw', hsize, hwver.trans (hver.trans hsame.symm), hp, hex⟩
        hsame
      show Sweeping path _ _ (Function.update v.pts n c m)
      by_cases hmn : m = n
      · subst hmn
        rw [hn] at hsweep
        rw [Function.update_self]
        exact hsweep.exec hsight hn hm hsame hex hok
      · rw [Function.update_of_ne hmn]
        exact hsweep.mono _
    · exact absurd ⟨w, .inr ⟨_, hw'⟩, ver, hwver.trans hver, rfl⟩ hnew

theorem Sweeps.spawn (hi : Sweeps rt path h v) (call : Call) :
    Sweeps rt path (h ++ [(v, .spawn call)])
      ⟨v.store, Function.update v.pts v.size (agent rt call).ctl, v.size + 1⟩ where
  older {w call'} hw := by
    show w.size < v.size + 1
    rcases mem_of_append hw with hw | ⟨rfl, -⟩
    · have := hi.older hw
      omega
    · omega
  scans {m ver} hst hver := by
    obtain ⟨w, entries, hw, hsize, hwver, hp, hex⟩ := hst
    show Sweeping path _ _ (Function.update v.pts v.size (agent rt call).ctl m)
    rcases mem_of_append hw with hw | ⟨rfl, ha⟩
    · have hne : m ≠ v.size := by
        have := hi.older hw
        omega
      rw [Function.update_of_ne hne]
      exact (hi.scans ⟨w, entries, hw, hsize, hwver, hp, hex⟩ hver).mono _
    · cases ha
      subst hsize
      rw [Function.update_self]
      exact (reconcileScan_next entries).sweeping hex (.inr hp)

theorem Sweeps.kill (hi : Sweeps rt path h v) :
    Sweeps rt path (h ++ [(v, .kill n)]) ⟨v.store, Function.update v.pts n .failed, v.size⟩ where
  older hw := by
    rcases mem_of_append hw with hw | ⟨-, ha⟩
    · exact hi.older hw
    · cases ha
  scans {m ver} hst hver := by
    obtain ⟨w, entries, hw, hsize, hwver, hp, hex⟩ := hst
    show Sweeping path _ _ (Function.update v.pts n .failed m)
    rcases mem_of_append hw with hw | ⟨-, ha⟩
    · by_cases hmn : m = n
      · subst hmn
        rw [Function.update_self]
        trivial
      · rw [Function.update_of_ne hmn]
        exact (hi.scans ⟨w, entries, hw, hsize, hwver, hp, hex⟩ hver).mono _
    · cases ha

end Step

end Corpus.Agent
