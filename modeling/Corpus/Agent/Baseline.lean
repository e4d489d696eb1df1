/-
The baseline walk (`baseline.rs`) and its checkpoints (`state.rs`).

`run_baseline` walks the entries of its roots, enqueues the regular files below each, and marks
the entry as done; a run that is started again passes over the marked entries.

* `Node`, `walkTop`, `topEntries` — a file tree, and what the walk finds in it;
* `runBaseline` — the function of the source, one statement for each call to the database;
* `ResumesCompletely` — however often runs are cut off, one that ends has left no file out,
  and no later run enqueues files below a marked entry;
* `baseline_resumes` — that is so when the entries share neither keys nor files.
-/
import Corpus.Agent.Capture
import Corpus.Restarts

namespace Corpus.Agent

/-! ### File trees -/

mutual

/-- What a path names; `link` is a symbolic link, with what it leads to. -/
inductive Node (N : Type) where
  | file
  | other
  | link (target : Node N)
  | dir (entries : Entries N)

/-- The entries of a directory, by name. -/
inductive Entries (N : Type) where
  | nil
  | cons (name : N) (node : Node N) (rest : Entries N)

end

def Entries.toList {N : Type} : Entries N → List (N × Node N)
  | .nil => []
  | .cons name node rest => (name, node) :: rest.toList

/-- Paths `P` and file names `N` of a platform. -/
structure PathOps (P N : Type) where
  join : P → N → P
  toStringLossy : P → String
  le : P → P → Bool

section Walk

variable {P N : Type} (ops : PathOps P N)

mutual

/-- The regular files that `WalkDir` finds below a path, without following links. -/
def walkNode : P → Node N → List P
  | p, .file => [p]
  | p, .dir entries => walkEntries p entries
  | _, .other => []
  | _, .link _ => []

def walkEntries : P → Entries N → List P
  | _, .nil => []
  | p, .cons name node rest => walkNode (ops.join p name) node ++ walkEntries p rest

end

/-- `WalkDir::new(path)`: a link to a directory is followed where the walk starts. -/
def walkTop (p : P) : Node N → List P
  | .link (.dir entries) => walkEntries ops p entries
  | node => walkNode ops p node

/-- `read_dir`, of a root that `is_dir`. -/
def readRoot : Node N → Option (Entries N)
  | .dir entries => some entries
  | .link (.dir entries) => some entries
  | _ => none

/-- A top-level entry, with the files that its walk finds. -/
structure Top (P : Type) where
  path : P
  files : List P

/-- The entries of one root, sorted. -/
def rootEntries (root : P × Node N) : List (Top P) :=
  match readRoot root.2 with
  | none => []
  | some entries =>
    (entries.toList.map fun e =>
      (⟨ops.join root.1 e.1, walkTop ops (ops.join root.1 e.1) e.2⟩ : Top P)).insertionSort
      fun a b => ops.le a.path b.path = true

def topEntries (roots : List (P × Node N)) : List (Top P) := roots.flatMap (rootEntries ops)

/-- `entry.to_string_lossy()`. -/
def Top.key (t : Top P) : String := ops.toStringLossy t.path

/-- The paths that the walk of an entry enqueues. -/
def Top.captured (exclusions : List String) (t : Top P) : List String :=
  (t.files.map ops.toStringLossy).filter fun s => !matchesExclusion exclusions s

end Walk

/-! ### The program -/

/-- The tables that the baseline uses. -/
structure BaselineDb where
  queue : StateDb
  dirs : String → Option Bool
  baselineState : Option String

namespace BaselineDb

/-- `baseline_dir_done`. -/
def baselineDirDone (d : BaselineDb) (key : String) : Bool := d.dirs key = some true

/-- `mark_baseline_dir`. -/
def markBaselineDir (d : BaselineDb) (key : String) (done : Bool) : BaselineDb :=
  { d with dirs := Function.update d.dirs key (some done) }

/-- `set_identity("baseline_state", …)`. -/
def setBaselineState (d : BaselineDb) (value : String) : BaselineDb :=
  { d with baselineState := some value }

/-- `enqueue` at time `now`. -/
def enqueue (d : BaselineDb) (now : Time) (path : String) (priority : ℤ) (reason : String)
    (debounceMs : ℕ) : Option ℕ × BaselineDb :=
  let r := d.queue.enqueue now path priority reason debounceMs
  (r.2, { d with queue := r.1 })

end BaselineDb

/-- The calls to the database. -/
inductive BaselineCall where
  | done (key : String)
  | enqueue (path : String)
  | mark (key : String)
  | setState (value : String)
  deriving DecidableEq

/-- Whether a call fails, and the time of it. -/
structure DbInput where
  fails : Bool
  now : Time

abbrev BaselineProg := Prog BaselineCall BaselineDb DbInput String

/-- A call that fails leaves the database as it is. -/
def dbCall {α : Type} (c : BaselineCall) (f : BaselineDb → Time → α × BaselineDb) :
    BaselineProg α :=
  Prog.exec c fun d i => if i.fails then .error "state db error" else .ok (f d i.now)

/-- `BaselineReport`. -/
structure BaselineReport where
  dirsCompleted : ℕ
  dirsTotal : ℕ
  candidatesEnqueued : ℕ

section Program

variable {P N : Type} (ops : PathOps P N) (exclusions : List String) (debounceMs : ℕ)

/-- `enqueue_tree` on the files of its walk, with `n` enqueued so far. -/
def enqueueTree : List P → ℕ → BaselineProg ℕ
  | [], n => return n
  | f :: files, n =>
    if matchesExclusion exclusions (ops.toStringLossy f) then enqueueTree files n
    else do
      let r ← dbCall (.enqueue (ops.toStringLossy f)) fun d now =>
        d.enqueue now (ops.toStringLossy f) 5 "baseline" debounceMs
      enqueueTree files (if r.isSome then n + 1 else n)

/-- The loop of `run_baseline` over the top-level entries, and what follows it. -/
def walkTops (stopAfterDirs : Option ℕ) : List (Top P) → ℕ → ℕ → ℕ → BaselineProg BaselineReport
  | [], completed, total, enqueued => do
    dbCall (.setState (if completed = total then "complete" else "incomplete")) fun d _ =>
      ((), d.setBaselineState (if completed = total then "complete" else "incomplete"))
    return ⟨completed, total, enqueued⟩
  | t :: tops, completed, total, enqueued => do
    let done ← dbCall (.done (t.key ops)) fun d _ => (d.baselineDirDone (t.key ops), d)
    if done then walkTops stopAfterDirs tops (completed + 1) (total + 1) enqueued
    else if stopAfterDirs.any fun limit => limit ≤ completed then
      return ⟨completed, total + 1, enqueued⟩
    else do
      let n ← enqueueTree ops exclusions debounceMs t.files 0
      dbCall (.mark (t.key ops)) fun d _ => ((), d.markBaselineDir (t.key ops) true)
      walkTops stopAfterDirs tops (completed + 1) (total + 1) (enqueued + n)

/-- `run_baseline`. -/
def runBaseline (roots : List (P × Node N)) (stopAfterDirs : Option ℕ) :
    BaselineProg BaselineReport :=
  walkTops ops exclusions debounceMs stopAfterDirs (topEntries ops roots) 0 0 0

end Program

/-! ### What a baseline is for -/

section Spec

variable {P N : Type} (ops : PathOps P N)

/-- A regular file in the tree at a path, behind directories only. -/
inductive FileAt : P → Node N → P → Prop where
  | file {p : P} : FileAt p .file p
  | dir {p f : P} {entries : Entries N} {name : N} {node : Node N} :
      (name, node) ∈ entries.toList → FileAt (ops.join p name) node f →
      FileAt p (.dir entries) f

/-- A regular file below a root. -/
def RegularBelow (root : P × Node N) (f : P) : Prop :=
  ∃ entries, readRoot root.2 = some entries ∧
    ∃ e ∈ entries.toList, FileAt ops (ops.join root.1 e.1) e.2 f

/-- The path was enqueued, or an active candidate was there. -/
def Queued (r : Prog.Record BaselineCall BaselineDb) (path : String) : Prop :=
  ∃ d, (BaselineCall.enqueue path, d) ∈ r ∧ path ∈ activePaths d.queue.candidates.table.rows

/-- What other tasks do to the database: anything but to the checkpoints and their state. -/
def OtherTasks (d d' : BaselineDb) : Prop :=
  d'.dirs = d.dirs ∧ d'.baselineState = d.baselineState

/-- A crash and a start of the agent: the checkpoints are as they were. -/
def Reboot (d d' : BaselineDb) : Prop := d'.dirs = d.dirs

/-- The histories of baselines, from a database and a record on. -/
abbrev Baselines (exclusions : List String) (debounceMs : ℕ) (roots : List (P × Node N)) :=
  Prog.Attempts (runBaseline ops exclusions debounceMs roots none) OtherTasks Reboot

/-- However often runs are cut off and started again: when one has come to its end the state is
`complete`, and every regular file that is not excluded has been enqueued or was; and once an
entry is marked, no later run enqueues a file that its walk finds. -/
def ResumesCompletely (exclusions : List String) (debounceMs : ℕ) (roots : List (P × Node N)) :
    Prop :=
  ∀ d₀ : BaselineDb, (∀ key, d₀.dirs key = none) → ∀ p d r,
    Baselines ops exclusions debounceMs roots d₀ [] p d r →
      (∀ report, p = .ret report → d.baselineState = some "complete" ∧
        ∀ root ∈ roots, ∀ f, RegularBelow ops root f →
          matchesExclusion exclusions (ops.toStringLossy f) = false →
            Queued r (ops.toStringLossy f)) ∧
      ∀ t ∈ topEntries ops roots, d.baselineDirDone (t.key ops) = true →
        ∀ d₁, Reboot d d₁ → ∀ p' d' r', Baselines ops exclusions debounceMs roots d₁ r p' d' r' →
          ∀ f ∈ t.files, ∀ d'', (BaselineCall.enqueue (ops.toStringLossy f), d'') ∉ r'.drop r.length

/-- No earlier entry has the key of this one: it is the one that is walked. -/
def FirstOfKey (tops : List (Top P)) (j : ℕ) (t : Top P) : Prop :=
  tops[j]? = some t ∧ ∀ i < j, ∀ t', tops[i]? = some t' → t'.key ops ≠ t.key ops

/-- The entries can be told apart by their keys: what an entry would enqueue is enqueued by one
that is walked, and no later one of these enqueues it again under another key. -/
structure KeysSeparate (exclusions : List String) (tops : List (Top P)) : Prop where
  covered : ∀ t ∈ tops, ∀ path ∈ t.captured ops exclusions,
    ∃ j w, FirstOfKey ops tops j w ∧ path ∈ w.captured ops exclusions
  apart : ∀ t ∈ tops, ∀ i v j w, FirstOfKey ops tops i v → v.key ops = t.key ops →
    FirstOfKey ops tops j w → i < j →
      ∀ path ∈ t.captured ops exclusions, path ∉ w.captured ops exclusions

/-- The entries before an index are marked. -/
def MarkedBefore (tops : List (Top P)) (k : ℕ) (d : BaselineDb) : Prop :=
  ∀ i < k, ∀ t, tops[i]? = some t → d.baselineDirDone (t.key ops) = true

/-- What holds of the database and the record in histories in which the first `k` entries are
marked when the record has length `n`. -/
structure Linked (exclusions : List String) (tops : List (Top P)) (k n : ℕ)
    (x : BaselineDb × Prog.Record BaselineCall BaselineDb) : Prop where
  marked : ∀ key, x.1.baselineDirDone key = true → ∃ j t, FirstOfKey ops tops j t ∧
    t.key ops = key ∧ MarkedBefore ops tops j x.1 ∧
      ∀ path ∈ t.captured ops exclusions, Queued x.2 path
  passed : MarkedBefore ops tops k x.1
  later : ∀ path d, (BaselineCall.enqueue path, d) ∈ x.2.drop n → ∃ j t, k ≤ j ∧
    FirstOfKey ops tops j t ∧ path ∈ t.captured ops exclusions
  long : n ≤ x.2.length

/-- How the database and the record move. -/
structure Advances (exclusions : List String) (tops : List (Top P)) (k n : ℕ)
    (x y : BaselineDb × Prog.Record BaselineCall BaselineDb) : Prop where
  linked : Linked ops exclusions tops k n x → Linked ops exclusions tops k n y
  done : ∀ key, x.1.baselineDirDone key = true → y.1.baselineDirDone key = true
  queued : ∀ path, Queued x.2 path → Queued y.2 path
  complete : x.1.baselineState = some "complete" → y.1.baselineState = some "complete"

/-- Where a run is when it has come to an entry: the entries before it are marked, and some
paths have been enqueued. -/
structure Here (exclusions : List String) (tops : List (Top P)) (k n j : ℕ) (paths : List String)
    (x : BaselineDb × Prog.Record BaselineCall BaselineDb) : Prop where
  linked : Linked ops exclusions tops k n x
  before : MarkedBefore ops tops j x.1
  queued : ∀ path ∈ paths, Queued x.2 path

/-! ### The walk finds the files -/

variable {ops}

theorem mem_walkEntries {p f : P} {name : N} {node : Node N} : ∀ {entries : Entries N},
    (name, node) ∈ entries.toList → f ∈ walkNode ops (ops.join p name) node →
      f ∈ walkEntries ops p entries
  | .nil, h, _ => absurd h List.not_mem_nil
  | .cons name' node' rest, h, hf => by
    show f ∈ walkNode ops (ops.join p name') node' ++ walkEntries ops p rest
    rcases List.mem_cons.mp h with heq | hrest
    · obtain ⟨rfl, rfl⟩ := Prod.mk.inj heq
      exact List.mem_append_left _ hf
    · exact List.mem_append_right _ (mem_walkEntries hrest hf)

theorem mem_walkNode {p f : P} {node : Node N} (h : FileAt ops p node f) :
    f ∈ walkNode ops p node := by
  induction h with
  | file => exact List.mem_singleton_self _
  | dir hmem _ ih => exact mem_walkEntries hmem ih

theorem mem_walkTop {p f : P} {node : Node N} (h : FileAt ops p node f) :
    f ∈ walkTop ops p node := by
  have hwalk := mem_walkNode h
  cases h with
  | file => exact hwalk
  | dir hmem hrest => exact hwalk

/-- A regular file below a root is found in one of the entries. -/
theorem RegularBelow.captured {exclusions : List String} {roots : List (P × Node N)}
    {root : P × Node N} (hroot : root ∈ roots) {f : P} (h : RegularBelow ops root f)
    (hkept : matchesExclusion exclusions (ops.toStringLossy f) = false) :
    ∃ t ∈ topEntries ops roots, ops.toStringLossy f ∈ t.captured ops exclusions := by
  obtain ⟨entries, hread, e, he, hat⟩ := h
  refine ⟨⟨ops.join root.1 e.1, walkTop ops (ops.join root.1 e.1) e.2⟩, ?_, ?_⟩
  · refine List.mem_flatMap.mpr ⟨root, hroot, ?_⟩
    unfold rootEntries
    rw [hread]
    exact (List.mem_insertionSort _).mpr (List.mem_map_of_mem he)
  · refine List.mem_filter.mpr ⟨List.mem_map_of_mem (mem_walkTop hat), ?_⟩
    rw [hkept]
    rfl

/-! ### Checkpoints and what was enqueued -/

section Linking

variable {exclusions : List String} {tops : List (Top P)} {k n j : ℕ} {t : Top P}
  {x y z : BaselineDb × Prog.Record BaselineCall BaselineDb}
  {d d' : BaselineDb} {r : Prog.Record BaselineCall BaselineDb} {c : BaselineCall} {path : String}

theorem Advances.refl : Advances ops exclusions tops k n x x := ⟨id, fun _ => id, fun _ => id, id⟩

theorem Advances.trans (h : Advances ops exclusions tops k n x y)
    (h' : Advances ops exclusions tops k n y z) : Advances ops exclusions tops k n x z :=
  ⟨fun hx => h'.linked (h.linked hx), fun key hx => h'.done key (h.done key hx),
    fun path hx => h'.queued path (h.queued path hx), fun hx => h'.complete (h.complete hx)⟩

theorem MarkedBefore.moved (h : Advances ops exclusions tops k n x y)
    (hx : MarkedBefore ops tops j x.1) : MarkedBefore ops tops j y.1 :=
  fun i hi t ht => h.done _ (hx i hi t ht)

theorem baselineDirDone_congr (h : d'.dirs = d.dirs) (key : String) :
    d'.baselineDirDone key = d.baselineDirDone key := by
  unfold BaselineDb.baselineDirDone
  rw [h]

theorem MarkedBefore.congr (h : d'.dirs = d.dirs) (hd : MarkedBefore ops tops j d) :
    MarkedBefore ops tops j d' :=
  fun i hi t ht => (baselineDirDone_congr h _).trans (hd i hi t ht)

theorem Queued.append (h : Queued r path) (e : Prog.Record BaselineCall BaselineDb) :
    Queued (r ++ e) path := by
  obtain ⟨d, hmem, hactive⟩ := h
  exact ⟨d, List.mem_append_left _ hmem, hactive⟩

/-- The first entry of a key is one only. -/
theorem FirstOfKey.unique {i : ℕ} {t' : Top P} (h : FirstOfKey ops tops i t)
    (h' : FirstOfKey ops tops j t') (hkey : t.key ops = t'.key ops) : i = j ∧ t = t' := by
  rcases Nat.lt_trichotomy i j with hlt | rfl | hlt
  · exact absurd hkey (h'.2 i hlt t h.1)
  · exact ⟨rfl, Option.some.inj (h.1.symm.trans h'.1)⟩
  · exact absurd hkey.symm (h.2 j hlt t' h'.1)

/-- Of the database, the checkpoints alone matter. -/
theorem Linked.congr (h : d'.dirs = d.dirs) (hx : Linked ops exclusions tops k n (d, r)) :
    Linked ops exclusions tops k n (d', r) where
  marked key hkey := by
    obtain ⟨j, t, hfirst, hk, hbefore, hqueued⟩ :=
      hx.marked key ((baselineDirDone_congr h key).symm.trans hkey)
    exact ⟨j, t, hfirst, hk, hbefore.congr h, hqueued⟩
  passed := hx.passed.congr h
  later := hx.later
  long := hx.long

/-- One more call in the record, which enqueues nothing but what an entry may. -/
theorem Linked.record (hx : Linked ops exclusions tops k n (d, r))
    (hc : ∀ path, c = .enqueue path → ∃ j t, k ≤ j ∧ FirstOfKey ops tops j t ∧
      path ∈ t.captured ops exclusions) :
    Linked ops exclusions tops k n (d, r ++ [(c, d')]) where
  marked key hkey := by
    obtain ⟨j, t, hfirst, hk, hbefore, hqueued⟩ := hx.marked key hkey
    exact ⟨j, t, hfirst, hk, hbefore, fun path hpath => (hqueued path hpath).append _⟩
  passed := hx.passed
  later path e he := by
    rw [List.drop_append_of_le_length hx.long] at he
    rcases List.mem_append.mp he with hold | hnew
    · exact hx.later path e hold
    · obtain ⟨rfl, -⟩ := Prod.mk.inj (List.mem_singleton.mp hnew)
      exact hc path rfl
  long := by
    have hlong : n ≤ r.length := hx.long
    rw [List.length_append]
    omega

/-- A call that leaves the checkpoints alone. -/
theorem advances_call (hdirs : d'.dirs = d.dirs)
    (hstate : d.baselineState = some "complete" → d'.baselineState = some "complete")
    (hc : ∀ path, c = .enqueue path → ∃ j t, k ≤ j ∧ FirstOfKey ops tops j t ∧
      path ∈ t.captured ops exclusions) :
    Advances ops exclusions tops k n (d, r) (d', r ++ [(c, d')]) where
  linked hx := (hx.congr hdirs).record hc
  done key hkey := (baselineDirDone_congr hdirs key).trans hkey
  queued _ hpath := hpath.append _
  complete := hstate

theorem advances_otherTasks (h : OtherTasks d d') :
    Advances ops exclusions tops k n (d, r) (d', r) where
  linked hx := hx.congr h.1
  done key hkey := (baselineDirDone_congr h.1 key).trans hkey
  queued _ := id
  complete hx := h.2.trans hx

theorem baselineDirDone_mark {key key' : String} :
    (d.markBaselineDir key true).baselineDirDone key' = true ↔
      key' = key ∨ d.baselineDirDone key' = true := by
  unfold BaselineDb.markBaselineDir BaselineDb.baselineDirDone
  by_cases h : key' = key
  · subst h
    simp
  · simp [h]

/-- Marking the first entry of a key, all of whose files have been enqueued, after the entries
before it. -/
theorem advances_mark (hfirst : FirstOfKey ops tops j t) (hbefore : MarkedBefore ops tops j d)
    (hqueued : ∀ path ∈ t.captured ops exclusions, Queued r path) :
    Advances ops exclusions tops k n (d, r) (d.markBaselineDir (t.key ops) true,
      r ++ [(.mark (t.key ops), d.markBaselineDir (t.key ops) true)]) := by
  have hgrows (key : String) (h : d.baselineDirDone key = true) :
      (d.markBaselineDir (t.key ops) true).baselineDirDone key = true :=
    baselineDirDone_mark.mpr (.inr h)
  refine ⟨fun hx => ?_, hgrows, fun _ hpath => hpath.append _, id⟩
  have hrecord : Linked ops exclusions tops k n
      (d, r ++ [(.mark (t.key ops), d.markBaselineDir (t.key ops) true)]) :=
    hx.record fun _ h => by cases h
  refine ⟨fun key hkey => ?_, fun i hi t' ht' => hgrows _ (hrecord.passed i hi t' ht'),
    hrecord.later, hrecord.long⟩
  rcases baselineDirDone_mark.mp hkey with rfl | hold
  · exact ⟨j, t, hfirst, rfl, fun i hi t' ht' => hgrows _ (hbefore i hi t' ht'),
      fun path hpath => (hqueued path hpath).append _⟩
  · obtain ⟨i, v, hv, hk, hb, hq⟩ := hrecord.marked key hold
    exact ⟨i, v, hv, hk, fun m hm t' ht' => hgrows _ (hb m hm t' ht'), hq⟩

/-! ### What the runs keep -/

/-- After an insertion, or a conflict, there is an active candidate. -/
theorem mem_activePaths_insert (q : Candidates) (path : String) (priority : ℤ) (reason : String)
    (debouncing : Bool) (due : Time) :
    path ∈ activePaths (q.insert path priority reason debouncing due).1.table.rows := by
  unfold Candidates.insert
  split
  · next h => exact h
  · have hfresh : q.table.get (q.lastId + 1) = none := by
      refine Table.get_eq_none.mpr fun hid => ?_
      obtain ⟨row, hrow, heq⟩ := List.mem_map.mp hid
      have hle := q.issued row hrow
      omega
    have hrow : q.newRow path priority reason debouncing due ∈
        (q.table.insertNew (q.newRow path priority reason debouncing due)).rows :=
      (Table.mem_insertNew_of_none hfresh).mpr (.inr rfl)
    refine List.mem_map.mpr ⟨_, List.mem_filter.mpr ⟨hrow, ?_⟩, rfl⟩
    cases debouncing <;> rfl

variable {paths : List String}

theorem Here.moved (h : Advances ops exclusions tops k n x y)
    (hx : Here ops exclusions tops k n j paths x) :
    Here ops exclusions tops k n j paths y :=
  ⟨h.linked hx.linked, hx.before.moved h, fun path hpath => h.queued path (hx.queued path hpath)⟩

theorem Here.next (hx : Here ops exclusions tops k n j [] x) (hat : tops[j]? = some t)
    (hdone : x.1.baselineDirDone (t.key ops) = true) : Here ops exclusions tops k n (j + 1) [] x where
  linked := hx.linked
  before i hi t' ht' := by
    rcases Nat.lt_succ_iff_lt_or_eq.mp hi with hlt | rfl
    · exact hx.before i hlt t' ht'
    · obtain rfl := Option.some.inj (hat.symm.trans ht')
      exact hdone
  queued := hx.queued

/-- A call that may be made, failed or not. -/
theorem dbCall_keeps {α : Type} {f : BaselineDb → Time → α × BaselineDb}
    {Q : α → BaselineDb × Prog.Record BaselineCall BaselineDb → Prop}
    (hc : ∀ path, c = .enqueue path → ∃ j t, k ≤ j ∧ FirstOfKey ops tops j t ∧
      path ∈ t.captured ops exclusions)
    (hok : ∀ y now, Advances ops exclusions tops k n x y →
      Advances ops exclusions tops k n y ((f y.1 now).2, y.2 ++ [(c, (f y.1 now).2)]) ∧
        Q (f y.1 now).1 ((f y.1 now).2, y.2 ++ [(c, (f y.1 now).2)])) :
    (dbCall c f).recorded.Keeps (Advances ops exclusions tops k n) (fun _ _ _ => True) Q x := by
  refine Prog.keeps_recorded_exec (fun y _ => advances_call rfl id hc) fun y hy i a d hrun => ?_
  split at hrun
  · cases hrun
  · obtain ⟨rfl, rfl⟩ := Prod.mk.inj (Except.ok.inj hrun)
    exact hok y i.now hy

/-- An entry that is not done is the first of its key, and lies behind the first `k`. -/
theorem done_keeps (hx : Here ops exclusions tops k n j [] x) (hat : tops[j]? = some t) :
    (dbCall (.done (t.key ops)) fun d _ => (d.baselineDirDone (t.key ops), d)).recorded.Keeps
      (Advances ops exclusions tops k n) (fun _ _ _ => True)
      (fun done y => Here ops exclusions tops k n j [] y ∧
        (done = false → FirstOfKey ops tops j t ∧ k ≤ j) ∧
        (done = true → y.1.baselineDirDone (t.key ops) = true)) x := by
  refine dbCall_keeps (fun path h => by cases h) fun y now hy => ?_
  have hmove : Advances ops exclusions tops k n y (y.1, y.2 ++ [(.done (t.key ops), y.1)]) :=
    advances_call rfl id fun path h => by cases h
  have hy' := hx.moved hy
  refine ⟨hmove, hy'.moved hmove, fun hfalse => ⟨⟨hat, fun i hi t' ht' heq => ?_⟩, ?_⟩, id⟩
  · -- An earlier entry of the key would be marked.
    have hmarked := hy'.before i hi t' ht'
    rw [heq] at hmarked
    exact absurd (hmarked.symm.trans hfalse) (by decide)
  · by_contra hlt
    have hmarked := hy'.linked.passed j (Nat.not_le.mp hlt) t hat
    exact absurd (hmarked.symm.trans hfalse) (by decide)

/-- The checkpoint, once the files of the entry have been enqueued. -/
theorem mark_keeps (hfirst : FirstOfKey ops tops j t)
    (hx : Here ops exclusions tops k n j (t.captured ops exclusions) x) :
    (dbCall (.mark (t.key ops)) fun d _ => ((), d.markBaselineDir (t.key ops) true)).recorded.Keeps
      (Advances ops exclusions tops k n) (fun _ _ _ => True)
      (fun _ y => Here ops exclusions tops k n j [] y ∧
        y.1.baselineDirDone (t.key ops) = true) x := by
  refine dbCall_keeps (fun path h => by cases h) fun y now hy => ?_
  have hy' := hx.moved hy
  have hmove := advances_mark (k := k) (n := n) hfirst hy'.before hy'.queued
  have hthere := hy'.moved hmove
  exact ⟨hmove, ⟨hthere.linked, hthere.before, fun path h => absurd h List.not_mem_nil⟩,
    baselineDirDone_mark.mpr (.inl rfl)⟩

theorem setComplete_keeps (hx : Here ops exclusions tops k n j [] x) :
    (dbCall (.setState "complete") fun d _ => ((), d.setBaselineState "complete")).recorded.Keeps
      (Advances ops exclusions tops k n) (fun _ _ _ => True)
      (fun _ y => Here ops exclusions tops k n j [] y ∧
        y.1.baselineState = some "complete") x := by
  refine dbCall_keeps (fun path h => by cases h) fun y now hy => ?_
  have hmove : Advances ops exclusions tops k n y (y.1.setBaselineState "complete",
      y.2 ++ [(.setState "complete", y.1.setBaselineState "complete")]) :=
    advances_call rfl (fun _ => rfl) fun path h => by cases h
  exact ⟨hmove, (hx.moved hy).moved hmove, rfl⟩

theorem enqueueTree_keeps {debounceMs : ℕ} (hfirst : FirstOfKey ops tops j t) (hk : k ≤ j)
    {files : List P} : ∀ (paths : List String) (m : ℕ) (x : _), (∀ f ∈ files, f ∈ t.files) →
      Here ops exclusions tops k n j paths x →
        (enqueueTree ops exclusions debounceMs files m).recorded.Keeps
          (Advances ops exclusions tops k n) (fun _ _ _ => True)
          (fun _ y => Here ops exclusions tops k n j
            (paths ++ (files.map ops.toStringLossy).filter fun s => !matchesExclusion exclusions s) y)
          x := by
  induction files with
  | nil =>
    intro paths m x _ hx
    rw [List.map_nil, List.filter_nil, List.append_nil]
    exact hx
  | cons f files ih =>
    intro paths m x hfiles hx
    have hrest := fun f' hf' => hfiles f' (List.mem_cons_of_mem f hf')
    rw [enqueueTree, List.map_cons]
    by_cases hexcl : matchesExclusion exclusions (ops.toStringLossy f) = true
    · rw [if_pos hexcl, List.filter_cons, if_neg (by simp [hexcl])]
      exact ih paths m x hrest hx
    · have hkept : (!matchesExclusion exclusions (ops.toStringLossy f)) = true := by
        simpa using hexcl
      have hcaptured : ops.toStringLossy f ∈ t.captured ops exclusions :=
        List.mem_filter.mpr ⟨List.mem_map_of_mem (hfiles f List.mem_cons_self), hkept⟩
      have hcall (path : String) (hpath : BaselineCall.enqueue (ops.toStringLossy f) = .enqueue path) :
          ∃ j t, k ≤ j ∧ FirstOfKey ops tops j t ∧ path ∈ t.captured ops exclusions := by
        obtain rfl := BaselineCall.enqueue.inj hpath
        exact ⟨j, t, hk, hfirst, hcaptured⟩
      rw [if_neg hexcl, List.filter_cons, if_pos hkept, Prog.recorded_bind, List.append_cons]
      refine Prog.keeps_bind (Q := fun _ y => Here ops exclusions tops k n j
        (paths ++ [ops.toStringLossy f]) y) ?_ fun a y hy => ih _ _ y hrest hy
      refine dbCall_keeps hcall fun y now hy => ?_
      have hmove : Advances ops exclusions tops k n y
          ((y.1.enqueue now (ops.toStringLossy f) 5 "baseline" debounceMs).2, y.2 ++
            [(.enqueue (ops.toStringLossy f),
              (y.1.enqueue now (ops.toStringLossy f) 5 "baseline" debounceMs).2)]) :=
        advances_call rfl id hcall
      have hthere := (hx.moved hy).moved hmove
      refine ⟨hmove, hthere.linked, hthere.before, fun path hpath => ?_⟩
      rcases List.mem_append.mp hpath with hold | hnew
      · exact hthere.queued path hold
      · obtain rfl := List.mem_singleton.mp hnew
        exact ⟨_, List.mem_append_right _ (List.mem_singleton_self _),
          mem_activePaths_insert _ _ _ _ _ _⟩

/-- The rest of a run, from an entry on. -/
theorem walkTops_keeps {debounceMs : ℕ} (rest : List (Top P)) : ∀ (before : List (Top P)) (m e : ℕ)
    (x : _), tops = before ++ rest → Here ops exclusions tops k n before.length [] x →
      (walkTops ops exclusions debounceMs none rest m m e).recorded.Keeps
        (Advances ops exclusions tops k n) (fun _ _ _ => True)
        (fun _ y => Here ops exclusions tops k n tops.length [] y ∧
          y.1.baselineState = some "complete") x := by
  induction rest with
  | nil =>
    intro before m e x htops hx
    rw [List.append_nil] at htops
    subst htops
    rw [walkTops, if_pos rfl, Prog.recorded_bind]
    exact Prog.keeps_bind (setComplete_keeps hx) fun a y hy => hy
  | cons t rest ih =>
    intro before m e x htops hx
    have hat : tops[before.length]? = some t := by
      rw [htops, List.getElem?_append_right (Nat.le_refl _), Nat.sub_self]
      rfl
    have hsplit : tops = (before ++ [t]) ++ rest := by rw [htops, List.append_assoc]; rfl
    have hlength : (before ++ [t]).length = before.length + 1 := List.length_append
    -- The next entry, once this one is marked.
    have hnext (m e : ℕ) (y : BaselineDb × Prog.Record BaselineCall BaselineDb)
        (hy : Here ops exclusions tops k n before.length [] y)
        (hdone : y.1.baselineDirDone (t.key ops) = true) :
        (walkTops ops exclusions debounceMs none rest m m e).recorded.Keeps
          (Advances ops exclusions tops k n) (fun _ _ _ => True)
          (fun _ y => Here ops exclusions tops k n tops.length [] y ∧
            y.1.baselineState = some "complete") y :=
      ih (before ++ [t]) m e y hsplit (hlength ▸ hy.next hat hdone)
    rw [walkTops, Prog.recorded_bind]
    refine Prog.keeps_bind (done_keeps hx hat) fun done y hy => ?_
    cases done with
    | true => exact hnext _ _ y hy.1 (hy.2.2 rfl)
    | false =>
      obtain ⟨hfirst, hk⟩ := hy.2.1 rfl
      show (Prog.recorded (enqueueTree ops exclusions debounceMs t.files 0 >>= _)).Keeps _ _ _ y
      rw [Prog.recorded_bind]
      refine Prog.keeps_bind
        (enqueueTree_keeps hfirst hk [] 0 y (fun f hf => hf) hy.1) fun q z hz => ?_
      rw [Prog.recorded_bind]
      exact Prog.keeps_bind (mark_keeps hfirst hz) fun _ z hz => hnext _ _ z hz.1 hz.2

end Linking

/-- What holds through every history of baselines. -/
theorem baselines_linked {exclusions : List String} {debounceMs k n : ℕ} {roots : List (P × Node N)}
    {d₀ d : BaselineDb} {r₀ r : Prog.Record BaselineCall BaselineDb}
    {p : BaselineProg BaselineReport}
    (h : Baselines ops exclusions debounceMs roots d₀ r₀ p d r)
    (h₀ : Linked ops exclusions (topEntries ops roots) k n (d₀, r₀)) :
    Linked ops exclusions (topEntries ops roots) k n (d, r) ∧
      p.recorded.Keeps (Advances ops exclusions (topEntries ops roots) k n) (fun _ _ _ => True)
        (fun _ y => Here ops exclusions (topEntries ops roots) k n (topEntries ops roots).length [] y ∧
          y.1.baselineState = some "complete") (d, r) := by
  refine h.kept (I := Linked ops exclusions (topEntries ops roots) k n)
    (R := Advances ops exclusions (topEntries ops roots) k n) (fun _ => .refl)
    (fun _ _ _ => .trans) (fun _ _ _ hmove hx => ⟨hx.1.moved hmove, hmove.complete hx.2⟩)
    (fun _ _ hmove => hmove.linked) (fun x hx => ?_) (fun _ _ _ => advances_otherTasks)
    (fun _ _ _ hboot hx => hx.congr hboot) h₀
  exact walkTops_keeps (topEntries ops roots) [] 0 0 x rfl
    ⟨hx, fun i hi => absurd hi (Nat.not_lt_zero i), fun path h => absurd h List.not_mem_nil⟩

/-- **Baselines resume completely** when their entries can be told apart by their keys. -/
theorem baseline_resumes {exclusions : List String} (debounceMs : ℕ) {roots : List (P × Node N)}
    (hkeys : KeysSeparate ops exclusions (topEntries ops roots)) :
    ResumesCompletely ops exclusions debounceMs roots := by
  intro d₀ hempty p d r hrun
  have hstart : Linked ops exclusions (topEntries ops roots) 0 0 (d₀, []) := by
    refine ⟨fun key hkey => ?_, fun i hi => absurd hi (Nat.not_lt_zero i),
      fun path d h => absurd h List.not_mem_nil, Nat.le_refl 0⟩
    have hdone : d₀.dirs key = some true := of_decide_eq_true hkey
    rw [hempty key] at hdone
    cases hdone
  obtain ⟨hlinked, hkeeps⟩ := baselines_linked hrun hstart
  refine ⟨?_, fun t ht hdone d₁ hboot p' d' r' hrun' f hf e he => ?_⟩
  · rintro report rfl
    obtain ⟨hhere, hcomplete⟩ := hkeeps
    refine ⟨hcomplete, fun root hroot f hf hkept => ?_⟩
    obtain ⟨t, ht, hpath⟩ := hf.captured hroot hkept
    obtain ⟨j, w, hw, hcaptured⟩ := hkeys.covered t ht _ hpath
    obtain ⟨i, v, hv, hkey, -, hqueued⟩ := hlinked.marked (w.key ops)
      (hhere.before j (List.getElem?_eq_some_iff.mp hw.1).1 w hw.1)
    obtain ⟨-, rfl⟩ := hv.unique hw hkey
    exact hqueued _ hcaptured
  · obtain ⟨i, v, hv, hkey, hbefore, -⟩ := hlinked.marked (t.key ops) hdone
    -- From here on, the entries up to the first one of the key are marked.
    have hagain : Linked ops exclusions (topEntries ops roots) (i + 1) r.length (d₁, r) := by
      have hlinked₁ := hlinked.congr hboot
      refine ⟨hlinked₁.marked, fun m hm t' ht' => ?_, fun path e he => ?_, Nat.le_refl _⟩
      · rcases Nat.lt_succ_iff_lt_or_eq.mp hm with hlt | rfl
        · exact hbefore.congr hboot m hlt t' ht'
        · obtain rfl := Option.some.inj (hv.1.symm.trans ht')
          rw [hkey]
          exact (baselineDirDone_congr hboot _).trans hdone
      · rw [List.drop_length] at he
        cases he
    obtain ⟨j, w, hij, hw, hcaptured⟩ := (baselines_linked hrun' hagain).1.later _ e he
    have hpath : ops.toStringLossy f ∈ t.captured ops exclusions :=
      List.mem_filter.mpr ⟨List.mem_map_of_mem hf, (List.mem_filter.mp hcaptured).2⟩
    exact hkeys.apart t ht i v j w hv hkey hw (by omega) _ hpath hcaptured

/-- Entries with keys and files of their own. -/
theorem keysSeparate_of_nodup {exclusions : List String} {tops : List (Top P)}
    (hkeys : (tops.map (Top.key ops)).Nodup)
    (hfiles : tops.Pairwise fun t w => ∀ path ∈ t.captured ops exclusions,
      path ∉ w.captured ops exclusions) : KeysSeparate ops exclusions tops := by
  have hfirst {j : ℕ} {w : Top P} (hw : tops[j]? = some w) : FirstOfKey ops tops j w := by
    refine ⟨hw, fun i hi t ht hkey => ?_⟩
    have hkeyi : (tops.map (Top.key ops))[i]? = some (t.key ops) := by
      rw [List.getElem?_map, ht]
      rfl
    have hkeyj : (tops.map (Top.key ops))[j]? = some (t.key ops) := by
      rw [List.getElem?_map, hw, hkey]
      rfl
    have hlt := (List.getElem?_eq_some_iff.mp hkeyi).1
    exact absurd ((List.getElem?_inj hlt hkeys).mp (hkeyi.trans hkeyj.symm)) (Nat.ne_of_lt hi)
  refine ⟨fun t ht path hpath => ?_, fun t ht i v j w hv hkey hw hij path hpath hpath' => ?_⟩
  · obtain ⟨j, hj⟩ := List.mem_iff_getElem?.mp ht
    exact ⟨j, t, hfirst hj, hpath⟩
  · obtain ⟨m, hm⟩ := List.mem_iff_getElem?.mp ht
    obtain ⟨rfl, rfl⟩ := hv.unique (hfirst hm) hkey
    obtain ⟨hi, rfl⟩ := List.getElem?_eq_some_iff.mp hv.1
    obtain ⟨hj, rfl⟩ := List.getElem?_eq_some_iff.mp hw.1
    exact List.pairwise_iff_getElem.mp hfiles i j hi hj hij path hpath hpath'

end Spec

/-! ### Small trees -/

/-- Paths as lists of names.  `toStringLossy` is right for names in ASCII and for single bytes
that are not UTF-8. -/
def unixPaths : PathOps (List Bytes) Bytes where
  join p name := p ++ [name]
  toStringLossy p := String.ofList ((p.map fun name =>
    name.map fun b => if b < 128 then Char.ofNat b.toNat else '\uFFFD').intersperse ['/']).flatten
  le p q := !q.lex p fun a b => a.lex b fun u v => decide (u < v)

/-- The root `r` with the files `r/a/x` and `r/b`. -/
def plainTree : List Bytes × Node Bytes :=
  ([[114]], .dir (.cons [97] (.dir (.cons [120] .file .nil)) (.cons [98] .file .nil)))

/-- Files are walked once, each under the key of its entry. -/
theorem baseline_resumes_plainTree : ResumesCompletely unixPaths [] 0 [plainTree] := by
  have hkeys : KeysSeparate unixPaths [] (topEntries unixPaths [plainTree]) := by
    refine keysSeparate_of_nodup ?_ ?_
    · decide
    · decide
  exact baseline_resumes 0 hkeys

/-- A database without checkpoints. -/
def freshBaseline : BaselineDb := ⟨.empty, fun _ => none, none⟩

/-- `r` and `r/a` as roots, where `r/a/x` is the only file. -/
def nestedRoots : List (List Bytes × Node Bytes) :=
  [([[114]], .dir (.cons [97] (.dir (.cons [120] .file .nil)) .nil)),
    ([[114], [97]], .dir (.cons [120] .file .nil))]

/-- A root whose entries have the names `FE` and `FF`, with the files `x` and `y`. -/
def lossyRoots : List (List Bytes × Node Bytes) :=
  [([[114]], .dir (.cons [254] (.dir (.cons [120] .file .nil))
    (.cons [255] (.dir (.cons [121] .file .nil)) .nil)))]

/-- A run that is started again enqueues a file below a marked entry, as an entry of another
root; and of two entries whose names are no UTF-8 the second is passed over. -/
theorem baseline_incomplete : ¬ ResumesCompletely unixPaths [] 0 nestedRoots ∧
    ¬ ResumesCompletely unixPaths [] 0 lossyRoots := by
  refine ⟨fun h => ?_, fun h => ?_⟩
  · -- The first run is cut off when it has marked `r/a`.
    have hcut : Baselines unixPaths [] 0 nestedRoots freshBaseline [] _ _ _ :=
      Prog.Attempts.run (List.replicate 3 ⟨false, 0⟩) .start
    have hlater := (h freshBaseline (fun _ => rfl) _ _ _ hcut).2
      ⟨[[114], [97]], [[[114], [97], [120]]]⟩ List.mem_cons_self rfl _ rfl _ _ _
      (Prog.Attempts.run (List.replicate 3 ⟨false, 0⟩) .start) [[114], [97], [120]]
      (List.mem_singleton_self _)
    exact hlater _ (.tail _ (.tail _ (.head _)))
  · have hrun : Baselines unixPaths [] 0 lossyRoots freshBaseline [] _ _ _ :=
      Prog.Attempts.run (List.replicate 5 ⟨false, 0⟩) .start
    have hbelow : RegularBelow unixPaths ([[114]], .dir (.cons [254] (.dir (.cons [120] .file .nil))
        (.cons [255] (.dir (.cons [121] .file .nil)) .nil))) [[114], [255], [121]] :=
      ⟨_, rfl, _, .tail _ (.head _), .dir (.head _) .file⟩
    obtain ⟨d, hmem, -⟩ := ((h freshBaseline (fun _ => rfl) _ _ _ hrun).1 _ rfl).2 _
      List.mem_cons_self _ hbelow rfl
    have hcalls : BaselineCall.enqueue (unixPaths.toStringLossy [[114], [255], [121]]) ∈
        ((runBaseline unixPaths [] 0 lossyRoots none).runRecorded (List.replicate 5 ⟨false, 0⟩)
          freshBaseline []).2.2.map Prod.fst := List.mem_map_of_mem hmem
    exact absurd hcalls (by decide)

end Corpus.Agent
