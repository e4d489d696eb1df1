/-
Reconciliation passes (`baseline.rs`, `fileid.rs`).

`reconcile_scan` stats the regular files that its walk finds, compares each with the snapshot in
`seen_file`, and enqueues those that differ.  The snapshot has the inode, the modification time
in whole seconds and the size of a file; `scan_key` has the device and the nanoseconds too.
Paths are those of the platform here, the tables have their `to_string_lossy`.

* `reconcileScan` — the function of the source, over a database that may stop to answer;
* `Detects` — what two passes that both see a path are to do with it;
* `reconcile_detects_iff` — when they do: the second one must find a snapshot that its key does
  not agree with, and get an answer when it enqueues;
* `within_a_second_unseen` — a file that is written twice in one second.
-/
import Corpus.Agent.Baseline
import Corpus.Amid

namespace Corpus.Agent.Reconcile

/-! ### Keys of files -/

/-- What `Metadata` says of a file. -/
structure Metadata where
  dev : UInt64
  ino : UInt64
  size : UInt64
  mtime : Int64
  mtimeNsec : Fin 1000000000
  ctime : Int64
  ctimeNsec : Fin 1000000000

/-- `scan_key`. -/
def scanKey (md : Metadata) : FileKey where
  volume := md.dev.toNat
  index := md.ino.toNat
  size := md.size.toNat
  mtimeNs := md.mtime.toInt * 1000000000 + md.mtimeNsec
  ctimeNs := md.ctime.toInt * 1000000000 + md.ctimeNsec

namespace Metadata

/-- Volume, index, size and modification time of the key. -/
def stat (md : Metadata) : ℕ × ℕ × ℕ × ℤ :=
  ((scanKey md).volume, (scanKey md).index, (scanKey md).size, (scanKey md).mtimeNs)

/-- The whole seconds of the modification time, toward zero. -/
def seconds (md : Metadata) : ℤ := (scanKey md).mtimeNs.tdiv 1000000000

/-- What the snapshot has of the file. -/
def stored (md : Metadata) : SeenKey := (scanKey md).seenKey

end Metadata

/-! ### The pass -/

/-- The database, and whether it answers just now. -/
structure SharedDb where
  content : StateDb
  up : Bool

inductive ScanCall (P : Type) where
  | stat (p : P)
  | seen (p : P) (md : Metadata)
  | enqueue (p : P)

/-- The time, and what `metadata` returns. -/
structure ScanInput where
  now : Time
  metadata : Option Metadata

abbrev ScanProg (P : Type) := Prog (ScanCall P) SharedDb ScanInput String

/-- A call to the database. -/
def scanCall {P α : Type} (c : ScanCall P) (f : StateDb → Time → α × StateDb) : ScanProg P α :=
  Prog.exec c fun s i =>
    if s.up then .ok ((f s.content i.now).1, { s with content := (f s.content i.now).2 })
    else .error "state db error"

section Scan

variable {P : Type} (toStringLossy : P → String) (exclusions : List String) (debounceMs : ℕ)

/-- `enqueue` as `reconcile_scan` calls it. -/
def enqueueScan (path : String) (d : StateDb) (now : Time) : Option ℕ × StateDb :=
  let r := d.enqueue now path 6 "reconcile_scan" debounceMs
  (r.2, r.1)

/-- `reconcile_scan` on the regular files of its walk, with `n` enqueued so far. -/
def reconcileScan : List P → ℕ → ScanProg P ℕ
  | [], n => .ret n
  | p :: entries, n =>
    if matchesExclusion exclusions (toStringLossy p) then reconcileScan entries n
    else
      .stmt (.stat p) (fun s _ => s) fun _ i =>
        match i.metadata with
        | none => reconcileScan entries n
        | some md => do
          let changed ← scanCall (.seen p md) fun d _ =>
            d.seenCheckAndUpdate (toStringLossy p) md.stored
          if changed then do
            let r ← scanCall (.enqueue p) (enqueueScan debounceMs (toStringLossy p))
            reconcileScan entries (if r.isSome then n + 1 else n)
          else reconcileScan entries n

end Scan

/-! ### What passes are for -/

section Spec

variable {P : Type}

abbrev ScanEvent (P : Type) := Prog.Event (ScanCall P) SharedDb
abbrev ScanPast (P : Type) := Prog.Past (ScanCall P) SharedDb

/-- The path has an active candidate. -/
def Active (s : SharedDb) (path : String) : Prop :=
  path ∈ activePaths s.content.candidates.table.rows

instance (s : SharedDb) (path : String) : Decidable (Active s path) :=
  inferInstanceAs (Decidable (_ ∈ _))

/-- A check of a path that the database answered. -/
structure Saw (e : ScanEvent P) (p : P) (md : Metadata) : Prop where
  stmt : e.stmt = some (.seen p md)
  up : e.before.up = true

/-- The file was seen by one pass, and by the next, of which `e` is the check; `b` has happened
in between, `c` after. -/
structure Detects (toStringLossy : P → String) (p : P) (md₁ md₂ : Metadata) (b : ScanPast P)
    (e : ScanEvent P) (c : ScanPast P) : Prop where
  changed : md₁.stat ≠ md₂.stat → Active e.before (toStringLossy p) ∨
    ∃ e', Prog.nextOwn c = some e' ∧ e'.stmt = some (.enqueue p) ∧ Active e'.after (toStringLossy p)
  unchanged : md₁.stat = md₂.stat →
    (∀ e' ∈ b, e'.stmt = none → e'.after.content.seen = e'.before.content.seen) →
      ∀ e', Prog.nextOwn c = some e' → e'.stmt ≠ some (.enqueue p)

/-- The database answers the call that follows, or the path has an active candidate by then. -/
def Answered (c : ScanPast P) (path : String) : Prop :=
  ∀ e, Prog.nextOwn c = some e → e.before.up = true ∨ Active e.before path

/-- When the second check finds the right thing in the snapshot: not its own key if the file has
changed, and its own key if it has not. -/
structure Finds (toStringLossy : P → String) (p : P) (md₁ md₂ : Metadata) (b : ScanPast P)
    (e : ScanEvent P) (c : ScanPast P) : Prop where
  changed : md₁.stat ≠ md₂.stat → Active e.before (toStringLossy p) ∨
    e.before.content.seen (toStringLossy p) ≠ some md₂.stored ∧ Answered c (toStringLossy p)
  unchanged : md₁.stat = md₂.stat →
    (∀ e' ∈ b, e'.stmt = none → e'.after.content.seen = e'.before.content.seen) →
      e.before.content.seen (toStringLossy p) = some md₂.stored

/-- The path's row of the snapshot is the same after each step as before it. -/
def Kept (past : ScanPast P) (path : String) : Prop :=
  ∀ e ∈ past, e.after.content.seen path = e.before.content.seen path

/-- The files differ in what the snapshot has of them. -/
def Differ (md₁ md₂ : Metadata) : Prop :=
  md₁.ino ≠ md₂.ino ∨ md₁.size ≠ md₂.size ∨ md₁.seconds ≠ md₂.seconds

end Spec

/-! ### The statements of a pass -/

section Statements

variable {P : Type} {toStringLossy : P → String} {exclusions : List String} {debounceMs : ℕ}

/-- What a statement of a pass does, and which one follows. -/
def Does (toStringLossy : P → String) : ScanCall P → SharedDb → SharedDb →
    Option (ScanCall P) → Prop
  | .stat _, s, t, _ => t = s
  | .seen p md, s, t, following => s.up = true →
    t.content.seen (toStringLossy p) = some md.stored ∧
      (s.content.seen (toStringLossy p) = some md.stored → ∀ q, following ≠ some (.enqueue q)) ∧
      (s.content.seen (toStringLossy p) ≠ some md.stored → following = some (.enqueue p))
  | .enqueue p, s, t, _ =>
    (s.up = true → Active t (toStringLossy p)) ∧ (s.up = false → t = s)

theorem seenCheckAndUpdate_seen (d : StateDb) (path : String) (key : SeenKey) :
    (d.seenCheckAndUpdate path key).2.seen path = some key := by
  unfold StateDb.seenCheckAndUpdate
  split
  · assumption
  · exact Function.update_self ..

theorem seenCheckAndUpdate_changed (d : StateDb) (path : String) (key : SeenKey) :
    (d.seenCheckAndUpdate path key).1 = decide (d.seen path ≠ some key) := by
  unfold StateDb.seenCheckAndUpdate
  split
  · next h => simp [h]
  · next h => simp [h]

theorem active_enqueueScan (d : StateDb) (now : Time) (path : String) :
    path ∈ activePaths (enqueueScan debounceMs path d now).2.candidates.table.rows :=
  mem_activePaths_insert _ _ _ _ _ _

/-- A pass begins with no `enqueue`. -/
theorem label_reconcileScan (entries : List P) : ∀ n q,
    (reconcileScan toStringLossy exclusions debounceMs entries n).label ≠ some (.enqueue q) := by
  induction entries with
  | nil => exact fun n q h => by cases h
  | cons p entries ih =>
    intro n q
    unfold reconcileScan
    split
    · exact ih n q
    · exact fun h => by cases h

/-- A call that is answered, and one that is not. -/
theorem each_scanCall {α β : Type} {R : ScanCall P → SharedDb → SharedDb → Option (ScanCall P) → Prop}
    {c : ScanCall P} {f : StateDb → Time → α × StateDb}
    {g : α → Prog (ScanCall P) SharedDb ScanInput String β}
    (hup : ∀ s (i : ScanInput), s.up = true →
      R c s { s with content := (f s.content i.now).2 } (g (f s.content i.now).1).label ∧
        (g (f s.content i.now).1).Each R)
    (hdown : ∀ s, s.up = false → R c s s none) : (scanCall c f >>= g).Each R := by
  unfold scanCall
  rw [Prog.exec_bind]
  intro s i
  by_cases h : s.up = true
  · simp only [if_pos h]
    exact hup s i h
  · simp only [if_neg h]
    exact ⟨hdown s (Bool.eq_false_of_not_eq_true h), trivial⟩

/-- **The statements of a pass.** -/
theorem each_reconcileScan (entries : List P) : ∀ n,
    (reconcileScan toStringLossy exclusions debounceMs entries n).Each (Does toStringLossy) := by
  -- One file after the other; the check and the `enqueue` each answered or not.
  induction entries with
  | nil => exact fun n => trivial
  | cons p entries ih =>
    intro n
    unfold reconcileScan
    split
    · exact ih n
    · refine fun s i => ⟨rfl, ?_⟩
      dsimp only
      split
      · exact ih n
      · next md _ =>
        refine each_scanCall (fun s i hs => ?_) fun s hs h => absurd (hs.symm.trans h) Bool.false_ne_true
        rw [seenCheckAndUpdate_changed]
        by_cases hseen : s.content.seen (toStringLossy p) = some md.stored
        · simp only [hseen, ne_eq, not_true_eq_false, decide_false, Bool.false_eq_true, if_false]
          exact ⟨fun _ => ⟨seenCheckAndUpdate_seen _ _ _, fun _ => label_reconcileScan entries n,
            fun h => absurd hseen h⟩, ih n⟩
        · simp only [hseen, ne_eq, not_false_eq_true, decide_true, if_true]
          refine ⟨fun _ => ⟨seenCheckAndUpdate_seen _ _ _, fun h => absurd h hseen, fun _ => rfl⟩, ?_⟩
          refine each_scanCall (fun s i hs => ⟨⟨fun _ => active_enqueueScan .., fun h => ?_⟩, ih _⟩)
            fun s hs => ⟨fun h => ?_, fun _ => rfl⟩
          · exact absurd (h.symm.trans hs) Bool.false_ne_true
          · exact absurd (hs.symm.trans h) Bool.false_ne_true

end Statements

/-! ### What a pass makes of a check -/

section Checks

variable {P : Type} {toStringLossy : P → String} {exclusions : List String} {debounceMs : ℕ}
  {E : ScanPast P → SharedDb → SharedDb → Prop} {entries : List P} {n : ℕ} {p : P}
  {md md₁ md₂ : Metadata} {past b c : ScanPast P} {e : ScanEvent P} {s t : SharedDb} {q : ScanProg P ℕ}

/-- What happens at a check that was answered. -/
theorem check_does
    (hrun : Prog.Amid E (reconcileScan toStringLossy exclusions debounceMs entries n) past s q
      (past ++ b ++ e :: c) t) (he : Saw e p md) :
    Prog.Chain s b e.before ∧ e.after.content.seen (toStringLossy p) = some md.stored ∧
      (e.before.content.seen (toStringLossy p) = some md.stored →
        ∀ r, Prog.upcoming c q ≠ some (.enqueue r)) ∧
      (e.before.content.seen (toStringLossy p) ≠ some md.stored →
        Prog.upcoming c q = some (.enqueue p)) := by
  obtain ⟨new, hnew, hchain, -, heach⟩ := hrun.leaves
  obtain rfl : b ++ e :: c = new := by simpa using hnew
  obtain ⟨u, hb, hbefore, -⟩ := hchain.of_append
  exact ⟨hbefore ▸ hb, heach _ (each_reconcileScan entries n) b e c _ rfl he.stmt he.up⟩

/-- An `enqueue` of a pass: the path is active afterwards, unless the database did not answer. -/
theorem enqueue_does
    (hrun : Prog.Amid E (reconcileScan toStringLossy exclusions debounceMs entries n) past s q
      (past ++ b ++ c) t) {e' : ScanEvent P} (hmem : e' ∈ c) (he : e'.stmt = some (.enqueue p)) :
    (e'.before.up = true → Active e'.after (toStringLossy p)) ∧
      (e'.before.up = false → e'.after = e'.before) := by
  obtain ⟨new, hnew, -, -, heach⟩ := hrun.leaves
  obtain ⟨c₁, c₂, rfl⟩ := List.append_of_mem hmem
  obtain rfl : b ++ c₁ ++ e' :: c₂ = new := by simpa using hnew
  exact heach _ (each_reconcileScan entries n) (b ++ c₁) e' c₂ _ rfl he

theorem mem_of_nextOwn {e' : ScanEvent P} (h : Prog.nextOwn c = some e') : e' ∈ c :=
  List.mem_of_find?_eq_some h

/-- **A check and what follows it**: a pass that comes to an end enqueues the file if the
snapshot has another key, and not if it has that key. -/
theorem check_settled
    (hrun : Prog.Amid E (reconcileScan toStringLossy exclusions debounceMs entries n) past s q
      (past ++ b ++ e :: c) t) (hend : q.label = none) (he : Saw e p md) :
    (e.before.content.seen (toStringLossy p) = some md.stored →
      ∀ e', Prog.nextOwn c = some e' → ∀ r, e'.stmt ≠ some (.enqueue r)) ∧
    (e.before.content.seen (toStringLossy p) ≠ some md.stored →
      ∃ e', Prog.nextOwn c = some e' ∧ e'.stmt = some (.enqueue p)) := by
  obtain ⟨-, -, hsame, hdiffers⟩ := check_does hrun he
  refine ⟨fun h e' hnext r hr => hsame h r ?_, fun h => ?_⟩
  · rw [Prog.upcoming, hnext]
    exact hr
  · have hup := hdiffers h
    unfold Prog.upcoming at hup
    split at hup
    · next e' hnext => exact ⟨e', hnext, hup⟩
    · exact absurd (hend.symm.trans hup) (Option.some_ne_none _).symm

/-- The path is active after the `enqueue` that follows a check just if the call was answered or
found it active. -/
theorem active_after_iff
    (hrun : Prog.Amid E (reconcileScan toStringLossy exclusions debounceMs entries n) past s q
      (past ++ b ++ c) t) {e' : ScanEvent P} (hmem : e' ∈ c) (he : e'.stmt = some (.enqueue p)) :
    Active e'.after (toStringLossy p) ↔
      e'.before.up = true ∨ Active e'.before (toStringLossy p) := by
  obtain ⟨hanswered, hrefused⟩ := enqueue_does hrun hmem he
  cases hup : e'.before.up with
  | true => exact ⟨fun _ => .inl rfl, fun _ => hanswered hup⟩
  | false =>
    rw [hrefused hup]
    exact ⟨.inr, fun h => h.resolve_left Bool.false_ne_true⟩

end Checks

/-! ### What the snapshot tells apart -/

theorem castI64_eq_iff {a b : ℤ} : castI64 a = castI64 b ↔ a % 2 ^ 64 = b % 2 ^ 64 := by
  unfold castI64
  constructor
  · intro h
    have hmod := congrArg (· % (2 ^ 64 : ℤ)) h
    have hcast : ∀ n : ℤ, n.bmod (2 ^ 64) % (2 ^ 64 : ℤ) = n % 2 ^ 64 := fun n => Int.bmod_emod
    simpa only [hcast] using hmod
  · intro h
    rw [Int.bmod_def, Int.bmod_def]
    norm_num at h ⊢
    rw [h]

theorem castI64_toNat (a b : UInt64) : castI64 a.toNat = castI64 b.toNat ↔ a = b := by
  rw [castI64_eq_iff, ← UInt64.toNat_inj]
  have ha := a.toNat_lt
  have hb := b.toNat_lt
  omega

theorem seconds_bounds (md : Metadata) : -2 ^ 63 ≤ md.seconds ∧ md.seconds < 2 ^ 63 := by
  have hlo := md.mtime.le_toInt
  have hhi := md.mtime.toInt_lt
  have hns := md.mtimeNsec.isLt
  show -2 ^ 63 ≤ (md.mtime.toInt * 1000000000 + md.mtimeNsec).tdiv 1000000000 ∧
    (md.mtime.toInt * 1000000000 + md.mtimeNsec).tdiv 1000000000 < 2 ^ 63
  rw [Int.tdiv_eq_ediv, show Int.sign 1000000000 = 1 from rfl]
  split
  · omega
  · omega

theorem castI64_seconds (md₁ md₂ : Metadata) :
    castI64 md₁.seconds = castI64 md₂.seconds ↔ md₁.seconds = md₂.seconds := by
  rw [castI64_eq_iff]
  have h₁ := seconds_bounds md₁
  have h₂ := seconds_bounds md₂
  omega

/-- The snapshot tells inodes, whole seconds and sizes apart. -/
theorem stored_ne_iff (md₁ md₂ : Metadata) : md₁.stored ≠ md₂.stored ↔ Differ md₁ md₂ := by
  have heq : md₁.stored = md₂.stored ↔
      md₁.ino = md₂.ino ∧ md₁.seconds = md₂.seconds ∧ md₁.size = md₂.size := by
    rw [← castI64_toNat md₁.ino, ← castI64_toNat md₁.size, ← castI64_seconds]
    exact Prod.mk_inj.trans (and_congr_right fun _ => Prod.mk_inj)
  rw [ne_eq, heq, not_and_or, not_and_or]
  exact or_congr_right or_comm

theorem stored_of_stat {md₁ md₂ : Metadata} (h : md₁.stat = md₂.stat) : md₁.stored = md₂.stored := by
  obtain ⟨-, hindex, hsize, hmtime⟩ : _ ∧ (scanKey md₁).index = (scanKey md₂).index ∧
      (scanKey md₁).size = (scanKey md₂).size ∧ (scanKey md₁).mtimeNs = (scanKey md₂).mtimeNs := by
    simpa only [Metadata.stat, Prod.mk.injEq] using h
  show (scanKey md₁).seenKey = (scanKey md₂).seenKey
  rw [FileKey.seenKey, FileKey.seenKey, hindex, hsize, hmtime]

/-! ### Two passes -/

section TwoPasses

variable {P : Type} {toStringLossy : P → String} {exclusions : List String} {debounceMs : ℕ}
  {E : ScanPast P → SharedDb → SharedDb → Prop} {entries₁ entries₂ : List P} {p : P}
  {md₁ md₂ : Metadata} {past a b₁ b₂ c : ScanPast P} {e₁ e₂ : ScanEvent P}
  {s₁ s₂ s₃ : SharedDb} {q₁ q₂ : ScanProg P ℕ}

/-- While the row is kept, the second check finds the key of the first. -/
theorem finds_first
    (hfirst : Prog.Amid E (reconcileScan toStringLossy exclusions debounceMs entries₁ 0) past s₁ q₁
      (past ++ a ++ e₁ :: b₁) s₂)
    (hsecond : Prog.Amid E (reconcileScan toStringLossy exclusions debounceMs entries₂ 0)
      (past ++ a ++ e₁ :: b₁) s₂ q₂ (past ++ a ++ e₁ :: b₁ ++ b₂ ++ e₂ :: c) s₃)
    (h₁ : Saw e₁ p md₁) (h₂ : Saw e₂ p md₂) (hkept : Kept (b₁ ++ b₂) (toStringLossy p)) :
    e₂.before.content.seen (toStringLossy p) = some md₁.stored := by
  have hb₁ : Prog.Chain e₁.after b₁ s₂ := by
    obtain ⟨new, hnew, hchain, -⟩ := hfirst.leaves
    obtain rfl : a ++ e₁ :: b₁ = new := by simpa using hnew
    obtain ⟨u, -, -, hb₁⟩ := hchain.of_append
    exact hb₁
  have hb₂ := (check_does hsecond h₂).1
  rw [hb₂.kept (g := fun s => s.content.seen (toStringLossy p))
      fun e he => hkept e (List.mem_append_right _ he),
    hb₁.kept (g := fun s => s.content.seen (toStringLossy p))
      fun e he => hkept e (List.mem_append_left _ he)]
  exact (check_does hfirst h₁).2.1

/-- **When reconciliation detects a change**: two passes, one after the other, amid whatever
else, that both see a path do with it what they are to do just if the second one finds the
right thing in the snapshot.  While nobody else writes the path's row this is so unless the file
has changed in its device or within a second only, or the second pass gets no answer when it
enqueues it. -/
theorem reconcile_detects_iff
    (hfirst : Prog.Amid E (reconcileScan toStringLossy exclusions debounceMs entries₁ 0) past s₁ q₁
      (past ++ a ++ e₁ :: b₁) s₂)
    (hsecond : Prog.Amid E (reconcileScan toStringLossy exclusions debounceMs entries₂ 0)
      (past ++ a ++ e₁ :: b₁) s₂ q₂ (past ++ a ++ e₁ :: b₁ ++ b₂ ++ e₂ :: c) s₃)
    (hend : q₂.label = none) (h₁ : Saw e₁ p md₁) (h₂ : Saw e₂ p md₂) :
    (Detects toStringLossy p md₁ md₂ (b₁ ++ b₂) e₂ c ↔
      Finds toStringLossy p md₁ md₂ (b₁ ++ b₂) e₂ c) ∧
    (Kept (b₁ ++ b₂) (toStringLossy p) →
      (Finds toStringLossy p md₁ md₂ (b₁ ++ b₂) e₂ c ↔
        (md₁.stat ≠ md₂.stat → Active e₂.before (toStringLossy p) ∨
          Differ md₁ md₂ ∧ Answered c (toStringLossy p)))) := by
  obtain ⟨hsame, hdiffers⟩ := check_settled hsecond hend h₂
  have hrun : Prog.Amid E (reconcileScan toStringLossy exclusions debounceMs entries₂ 0)
      (past ++ a ++ e₁ :: b₁) s₂ q₂ (past ++ a ++ e₁ :: b₁ ++ (b₂ ++ [e₂]) ++ c) s₃ := by
    simpa only [List.append_assoc, List.singleton_append] using hsecond
  have hactive : ∀ {e'}, Prog.nextOwn c = some e' → e'.stmt = some (.enqueue p) →
      (Active e'.after (toStringLossy p) ↔
        e'.before.up = true ∨ Active e'.before (toStringLossy p)) :=
    fun hnext hstmt => active_after_iff hrun (mem_of_nextOwn hnext) hstmt
  refine ⟨⟨fun h => ⟨fun hne => ?_, fun heq hquiet => ?_⟩,
    fun h => ⟨fun hne => ?_, fun heq hquiet => ?_⟩⟩, fun hkept => ?_⟩
  · refine (h.changed hne).imp_right fun ⟨e', hnext, hstmt, hafter⟩ => ⟨fun hseen => ?_, fun e hn => ?_⟩
    · exact hsame hseen e' hnext p hstmt
    · obtain rfl := Option.some.inj (hnext.symm.trans hn)
      exact (hactive hnext hstmt).mp hafter
  · by_contra hseen
    obtain ⟨e', hnext, hstmt⟩ := hdiffers hseen
    exact h.unchanged heq hquiet e' hnext hstmt
  · refine (h.changed hne).imp_right fun ⟨hseen, hanswered⟩ => ?_
    obtain ⟨e', hnext, hstmt⟩ := hdiffers hseen
    exact ⟨e', hnext, hstmt, (hactive hnext hstmt).mpr (hanswered e' hnext)⟩
  · exact fun e' hnext => hsame (h.unchanged heq hquiet) e' hnext p
  · have hfinds := finds_first hfirst hsecond h₁ h₂ hkept
    have hne_iff : e₂.before.content.seen (toStringLossy p) ≠ some md₂.stored ↔ Differ md₁ md₂ := by
      rw [hfinds, ← stored_ne_iff, ne_eq, Option.some_inj]
    refine ⟨fun h hne => (h.changed hne).imp_right (.imp_left hne_iff.mp),
      fun h => ⟨fun hne => (h hne).imp_right (.imp_left hne_iff.mpr), fun heq _ => ?_⟩⟩
    rw [hfinds, stored_of_stat heq]

end TwoPasses

/-! ### A file that is captured between two passes -/

section Runs

/-- A file of `size` bytes, written in second 100. -/
def writtenAt (size : UInt64) (nsec : Fin 1000000000) : Metadata := ⟨0, 7, size, 100, nsec, 100, nsec⟩

/-- The database of a new agent. -/
def fresh : SharedDb := ⟨.empty, true⟩

/-- The check of the file. -/
def checked (md : Metadata) (s : SharedDb) : SharedDb :=
  { s with content := (s.content.seenCheckAndUpdate "/a" md.stored).2 }

/-- The call that enqueues it. -/
def enqueued (s : SharedDb) : SharedDb := { s with content := (enqueueScan 0 "/a" s.content 0).2 }

/-- The capture of the first candidate ends. -/
def captured (s : SharedDb) : SharedDb :=
  { s with content := (s.content.transition 1 .complete).getD s.content }

/-- Others end captures. -/
def Captures (_ : ScanPast String) (s t : SharedDb) : Prop := t = captured s

/-- A pass over the file. -/
def pass : ScanProg String ℕ := reconcileScan id [] 0 ["/a"] 0

/-- Where the second pass begins, of a file that was first seen with some metadata. -/
def between (md : Metadata) : SharedDb := captured (enqueued (checked md fresh))

def firstCheck (md : Metadata) : ScanEvent String :=
  ⟨some (.seen "/a" md), fresh, checked md fresh⟩

def secondCheck (md md' : Metadata) : ScanEvent String :=
  ⟨some (.seen "/a" md'), between md, checked md' (between md)⟩

/-- What has happened since the first check. -/
def since (md : Metadata) : ScanPast String :=
  [⟨some (.enqueue "/a"), checked md fresh, enqueued (checked md fresh)⟩,
    ⟨none, enqueued (checked md fresh), between md⟩]

/-- The second pass stats the file. -/
def restat (md : Metadata) : ScanPast String := [⟨some (.stat "/a"), between md, between md⟩]

/-- The second pass enqueues it. -/
def reenqueued (md md' : Metadata) : ScanPast String :=
  [⟨some (.enqueue "/a"), checked md' (between md), enqueued (checked md' (between md))⟩]

/-- The first pass, and the capture. -/
theorem pass_first (md : Metadata) : Prog.Amid Captures pass [] fresh (.ret 1)
    ([] ++ [⟨some (.stat "/a"), fresh, fresh⟩] ++ firstCheck md :: since md) (between md) :=
  .own ⟨0, some md⟩ (.own ⟨0, none⟩ (.own ⟨0, none⟩ (.others rfl (.refl ..))))

/-- The second pass, over a file that has grown. -/
theorem pass_grown : Prog.Amid Captures pass
    ([] ++ [⟨some (.stat "/a"), fresh, fresh⟩] ++ firstCheck (writtenAt 3 0) :: since (writtenAt 3 0))
    (between (writtenAt 3 0)) (.ret 1)
    ([] ++ [⟨some (.stat "/a"), fresh, fresh⟩] ++ firstCheck (writtenAt 3 0) :: since (writtenAt 3 0) ++
      restat (writtenAt 3 0) ++ secondCheck (writtenAt 3 0) (writtenAt 5 0) ::
        reenqueued (writtenAt 3 0) (writtenAt 5 0))
    (enqueued (checked (writtenAt 5 0) (between (writtenAt 3 0)))) :=
  .own ⟨0, some (writtenAt 5 0)⟩ (.own ⟨0, none⟩ (.own ⟨0, none⟩ (.refl ..)))

/-- The second pass, over a file that was written again in the same second. -/
theorem pass_rewritten : Prog.Amid Captures pass
    ([] ++ [⟨some (.stat "/a"), fresh, fresh⟩] ++ firstCheck (writtenAt 3 0) :: since (writtenAt 3 0))
    (between (writtenAt 3 0)) (.ret 0)
    ([] ++ [⟨some (.stat "/a"), fresh, fresh⟩] ++ firstCheck (writtenAt 3 0) :: since (writtenAt 3 0) ++
      restat (writtenAt 3 0) ++ secondCheck (writtenAt 3 0) (writtenAt 3 1) :: [])
    (checked (writtenAt 3 1) (between (writtenAt 3 0))) :=
  .own ⟨0, some (writtenAt 3 1)⟩ (.own ⟨0, none⟩ (.refl ..))

/-- A file that has grown is enqueued again. -/
theorem detects_growth : Detects id "/a" (writtenAt 3 0) (writtenAt 5 0)
    (since (writtenAt 3 0) ++ restat (writtenAt 3 0)) (secondCheck (writtenAt 3 0) (writtenAt 5 0))
    (reenqueued (writtenAt 3 0) (writtenAt 5 0)) := by
  refine (reconcile_detects_iff (pass_first (writtenAt 3 0)) pass_grown rfl ⟨rfl, rfl⟩
    ⟨rfl, rfl⟩).1.mpr ⟨fun _ => .inr ⟨by decide, fun e he => ?_⟩, fun h => absurd h (by decide)⟩
  obtain rfl := Option.some.inj he
  exact .inl rfl

/-- **A file that is written again within the second is not seen to have changed.** -/
theorem within_a_second_unseen : ¬ ∀ (E : ScanPast String → SharedDb → SharedDb → Prop)
    (entries₁ entries₂ : List String) (md₁ md₂ : Metadata) (past a b₁ b₂ c : ScanPast String)
    (e₁ e₂ : ScanEvent String) (s₁ s₂ s₃ : SharedDb) (q₁ q₂ : ScanProg String ℕ),
    Prog.Amid E (reconcileScan id [] 0 entries₁ 0) past s₁ q₁ (past ++ a ++ e₁ :: b₁) s₂ →
    Prog.Amid E (reconcileScan id [] 0 entries₂ 0) (past ++ a ++ e₁ :: b₁) s₂ q₂
      (past ++ a ++ e₁ :: b₁ ++ b₂ ++ e₂ :: c) s₃ →
    q₂.label = none → Saw e₁ "/a" md₁ → Saw e₂ "/a" md₂ →
      Detects id "/a" md₁ md₂ (b₁ ++ b₂) e₂ c := by
  intro h
  have hdetects := h _ _ _ _ _ _ _ _ _ _ _ _ _ _ _ _ _ (pass_first (writtenAt 3 0)) pass_rewritten
    rfl ⟨rfl, rfl⟩ ⟨rfl, rfl⟩
  rcases hdetects.changed (by decide) with hactive | ⟨e, he, -⟩
  · exact absurd hactive (by decide)
  · cases he

end Runs

end Corpus.Agent.Reconcile
