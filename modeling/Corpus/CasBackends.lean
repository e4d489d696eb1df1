/-
The two CAS backends (`FsCas` and `MemoryCas` of `cas.rs`).

The files of the one are the maps of the other (`Agree`), and every call keeps it
so.  The answers are the same but for one case: a `commit` of a key that is not
staged, onto an object that is there.  `FsCas` looks at the object first and
succeeds, `MemoryCas` looks for the staged bytes first and fails.  `commitsStaged`
says of a sequence of calls that this case does not come up in it.

Main results:
* `backends_agree_iff` — the answers to a sequence agree exactly when it does not;
* `repeated_commit_differs` — a commit made twice;
* `fsCommit_refines` — the commit of the server's store is that of `FsCas`.
-/
import Corpus.TornObjects

namespace Corpus

/-! ### The in-memory backend -/

/-- `MemoryInner`. -/
structure MemoryCas where
  staging : String → Option Bytes
  objects : ObjectKey → Option Bytes

def MemoryCas.empty : MemoryCas := ⟨fun _ => none, fun _ => none⟩

namespace MemoryCas

/-- `MemoryCas::stage`. -/
def stage (g : MemoryCas) (key : String) (bytes : Bytes) : Except CasError Unit × MemoryCas :=
  if keyAllowed key then
    (.ok (), { g with staging := Function.update g.staging key (some bytes) })
  else (.error .panic, g)

/-- `MemoryCas::commit`: take the staged bytes, insert unless there. -/
def commit (g : MemoryCas) (key : String) (o : ObjectKey) : Except CasError Unit × MemoryCas :=
  match g.staging key with
  | none => (.error .notFound, g)
  | some bytes => (.ok (),
      { staging := Function.update g.staging key none
        objects := Function.update g.objects o ((g.objects o).or (some bytes)) })

/-- `MemoryCas::discard_staging`. -/
def discardStaging (g : MemoryCas) (key : String) : MemoryCas :=
  { g with staging := Function.update g.staging key none }

/-- `MemoryCas::read`. -/
def read (g : MemoryCas) (o : ObjectKey) : Except CasError Bytes :=
  match g.objects o with
  | some bytes => .ok bytes
  | none => .error .notFound

/-- `MemoryCas::delete`. -/
def delete (g : MemoryCas) (o : ObjectKey) : MemoryCas :=
  { g with objects := Function.update g.objects o none }

/-- A call on `MemoryCas`: its answer and the maps after it. -/
def step (sha256 : Bytes → Bytes) (g : MemoryCas) : CasOp → Except CasError CasValue × MemoryCas
  | .stage key bytes => ((g.stage key bytes).1.map fun _ => .done, (g.stage key bytes).2)
  | .commit key o => ((g.commit key o).1.map fun _ => .done, (g.commit key o).2)
  | .discardStaging key => (.ok .done, g.discardStaging key)
  | .read o => ((g.read o).map .content, g)
  | .exists o => (.ok (.present (g.objects o).isSome), g)
  | .readRange o offset len =>
    (((g.read o).bind fun all => sliceRange all offset len).map .content, g)
  | .metadata o =>
    if (g.objects o).isSome then
      ((g.read o).map fun all => .metadata (some (objectMeta sha256 all)), g)
    else (.ok (.metadata none), g)
  | .delete o => (.ok .done, g.delete o)

end MemoryCas

/-! ### Sequences of calls -/

/-- The answers of a backend to a sequence of calls, error texts aside. -/
def answers {σ : Type} (step : σ → CasOp → Except CasError CasValue × σ) :
    σ → List CasOp → List (Option CasValue)
  | _, [] => []
  | s, op :: ops => (step s op).1.toOption :: answers step (step s op).2 ops

/-- The call is not a commit of a key that is not staged onto an object that is
there. -/
def commitStaged (f : Files) : CasOp → Bool
  | .commit key o => (f (.object o)).isNone || (f (.staging key)).isSome
  | _ => true

/-- No call of the sequence is one. -/
def commitsStaged (sha256 : Bytes → Bytes) : Files → List CasOp → Bool
  | _, [] => true
  | f, op :: ops => commitStaged f op && commitsStaged sha256 (fsStep sha256 f op).2 ops

/-- The files are the maps. -/
structure Agree (f : Files) (g : MemoryCas) : Prop where
  staging : ∀ key, f (.staging key) = g.staging key
  objects : ∀ o, f (.object o) = g.objects o

theorem Agree.update {f : Files} {g : MemoryCas} (h : Agree f g) (key : String) (x : Option Bytes) :
    Agree (Function.update f (.staging key) x)
      { g with staging := Function.update g.staging key x } where
  staging := fun k => by
    by_cases hk : k = key
    · subst hk
      simp
    · simp [hk, h.staging k]
  objects := fun o => by simp [h.objects o]

theorem Agree.updateObject {f : Files} {g : MemoryCas} (h : Agree f g) (o : ObjectKey)
    (x : Option Bytes) :
    Agree (Function.update f (.object o) x)
      { g with objects := Function.update g.objects o x } where
  staging := fun k => by simp [h.staging k]
  objects := fun k => by
    by_cases hk : k = o
    · subst hk
      simp
    · simp [hk, h.objects k]

theorem Agree.eval_fsRead {f : Files} {g : MemoryCas} (h : Agree f g) (o : ObjectKey) :
    (fsRead o).eval .good f = (g.read o, f) := by
  simp only [fsRead, Prog.query_bind, Prog.eval_stmt, MemoryCas.read, ← h.objects o]
  cases f (.object o) <;> rfl

/-- A commit. -/
theorem Agree.commit (sha256 : Bytes → Bytes) {f : Files} {g : MemoryCas} (h : Agree f g)
    {key : String} (hkey : keyAllowed key = true) (o : ObjectKey) :
    Agree (fsStep sha256 f (.commit key o)).2 (g.step sha256 (.commit key o)).2 ∧
      ((fsStep sha256 f (.commit key o)).1.toOption = (g.step sha256 (.commit key o)).1.toOption ↔
        commitStaged f (.commit key o)) := by
  have hfs : fsStep sha256 f (.commit key o) = (((fsCommit key o).eval .good f).1.map fun _ =>
      .done, ((fsCommit key o).eval .good f).2) := Prog.eval_bind_ret ..
  rw [hfs, eval_fsCommit hkey]
  simp only [MemoryCas.step, MemoryCas.commit, commitStaged]
  rw [← h.staging key]
  cases ho : f (.object o) with
  | some b =>
    have hob : g.objects o = some b := by rw [← h.objects o, ho]
    cases hk : f (.staging key) with
    | some x =>
      have hsame : Function.update g.objects o ((some b).or (some x)) = g.objects := by
        rw [Option.some_or, ← hob, Function.update_eq_self]
      rw [hob]
      simp only [hsame]
      exact ⟨h.update key none, by simp⟩
    | none =>
      -- the one case in which the answers differ
      have hsame : Function.update f (.staging key) none = f := by
        rw [← hk, Function.update_eq_self]
      refine ⟨by rw [hsame]; exact h, ?_⟩
      simp [Except.toOption, Except.map]
  | none =>
    have hob : g.objects o = none := by rw [← h.objects o, ho]
    cases hk : f (.staging key) with
    | some x =>
      simp only [hob, Option.none_or]
      exact ⟨(h.update key none).updateObject o (some x), by simp⟩
    | none => exact ⟨h, by simp⟩

/-- **One call.**  The stores go on agreeing, and the answers agree unless the call
is a commit of a key that is not staged onto an object that is there. -/
theorem Agree.step (sha256 : Bytes → Bytes) {f : Files} {g : MemoryCas} (h : Agree f g) {op : CasOp}
    (hop : op.wellFormed) :
    Agree (fsStep sha256 f op).2 (g.step sha256 op).2 ∧
      ((fsStep sha256 f op).1.toOption = (g.step sha256 op).1.toOption ↔ commitStaged f op) := by
  cases op with
  | commit key o => exact h.commit sha256 hop o
  | stage key bytes =>
    have hkey : keyAllowed key = true := hop
    have hfs : fsStep sha256 f (.stage key bytes) =
        (.ok .done, Function.update f (.staging key) (some bytes)) := by
      refine (Prog.eval_bind_ret ..).trans ?_
      rw [fsStage, if_pos hkey, eval_writeFile]
      rfl
    rw [hfs]
    simp only [MemoryCas.step, MemoryCas.stage, hkey, if_true]
    exact ⟨h.update key (some bytes), by simp [commitStaged, Except.map]⟩
  | discardStaging key =>
    have hkey : keyAllowed key = true := hop
    have hfs : fsStep sha256 f (.discardStaging key) =
        (.ok .done, Function.update f (.staging key) none) := by
      refine (Prog.eval_bind_ret ..).trans ?_
      rw [fsDiscard, if_pos hkey]
      rfl
    rw [hfs]
    exact ⟨h.update key none, by simp [commitStaged, MemoryCas.step]⟩
  | read o =>
    have hfs : fsStep sha256 f (.read o) = ((g.read o).map .content, f) := by
      refine (Prog.eval_bind_ret ..).trans ?_
      rw [h.eval_fsRead]
    rw [hfs]
    exact ⟨h, by simp [commitStaged, MemoryCas.step]⟩
  | «exists» o =>
    refine ⟨h, ?_⟩
    show (some (CasValue.present (f (.object o)).isSome) =
      some (CasValue.present (g.objects o).isSome)) ↔ _
    rw [h.objects o]
    simp [commitStaged]
  | readRange o offset len =>
    have hfs : fsStep sha256 f (.readRange o offset len) =
        (((g.read o).bind fun all => sliceRange all offset len).map .content, f) := by
      refine (Prog.eval_bind ..).trans ?_
      rw [h.eval_fsRead]
      cases g.read o with
      | error e => rfl
      | ok all =>
        dsimp only
        cases hslice : sliceRange all offset len with
        | ok part => simp [Except.bind, Except.map, hslice]
        | error e => simp [Except.bind, Except.map, hslice]
    rw [hfs]
    exact ⟨h, by simp [commitStaged, MemoryCas.step]⟩
  | metadata o =>
    have hfs : fsStep sha256 f (.metadata o) = ((g.step sha256 (.metadata o)).1, f) := by
      show (if (f (.object o)).isSome then _ else _ : FsProg CasValue).eval _ f = _
      simp only [MemoryCas.step, h.objects o]
      by_cases hsome : (g.objects o).isSome
      · simp only [if_pos hsome]
        refine (Prog.eval_bind_ret ..).trans ?_
        rw [h.eval_fsRead]
      · simp only [if_neg hsome]
        rfl
    rw [hfs]
    refine ⟨?_, by simp [commitStaged]⟩
    simp only [MemoryCas.step]
    split
    · exact h
    · exact h
  | delete o =>
    have hfs : fsStep sha256 f (.delete o) = (.ok .done, Function.update f (.object o) none) := by
      refine (Prog.eval_bind_ret ..).trans ?_
      show _ = ((Except.ok ()).map fun _ => CasValue.done, Function.update f (.object o) none)
      simp only [fsDelete, fsExists, Prog.query_bind, Prog.eval_stmt]
      cases ho : f (.object o) with
      | some b => rfl
      | none =>
        have hsame : Function.update f (.object o) none = f := by
          rw [← ho, Function.update_eq_self]
        rw [hsame]
        rfl
    rw [hfs]
    exact ⟨h.updateObject o none, by simp [commitStaged, MemoryCas.step]⟩

/-! ### Sequences -/

/-- The answers of agreeing stores agree exactly when every commit is staged. -/
theorem Agree.answers_iff {sha256 : Bytes → Bytes} : ∀ {ops : List CasOp} {f : Files}
    {g : MemoryCas}, Agree f g → (∀ op ∈ ops, op.wellFormed) →
      (answers (fsStep sha256) f ops = answers (MemoryCas.step sha256) g ops ↔
        commitsStaged sha256 f ops) := by
  intro ops
  induction ops with
  | nil => exact fun _ _ => by simp [answers, commitsStaged]
  | cons op ops ih =>
    intro f g h hops
    obtain ⟨hnext, hanswer⟩ := h.step sha256 (hops op List.mem_cons_self)
    have hrest := ih hnext fun x hx => hops x (List.mem_cons_of_mem _ hx)
    rw [answers, answers, List.cons.injEq, hanswer, hrest, commitsStaged, Bool.and_eq_true]

/-- **Interchangeable**, up to one case: on every sequence of calls from empty
stores, the two backends return the same values and fail on the same calls exactly
when no call of it commits a key that is not staged onto an object that is there. -/
theorem backends_agree_iff (sha256 : Bytes → Bytes) (ops : List CasOp)
    (hops : ∀ op ∈ ops, op.wellFormed) :
    answers (fsStep sha256) (fun _ => none) ops =
      answers (MemoryCas.step sha256) .empty ops ↔ commitsStaged sha256 (fun _ => none) ops :=
  Agree.answers_iff ⟨fun _ => rfl, fun _ => rfl⟩ hops

/-- A payload is staged, committed, staged again and committed again; read, sliced and
deleted. -/
def conformance : List CasOp :=
  [.stage "conf-1" [1, 2, 3], .commit "conf-1" ⟨42, "sha"⟩, .exists ⟨42, "sha"⟩, .read ⟨42, "sha"⟩,
    .readRange ⟨42, "sha"⟩ 0 2, .metadata ⟨42, "sha"⟩, .stage "conf-2" [1, 2, 3],
    .commit "conf-2" ⟨42, "sha"⟩, .read ⟨42, "sha"⟩, .delete ⟨42, "sha"⟩, .exists ⟨42, "sha"⟩]

theorem backends_agree_conformance :
    answers (fsStep id) (fun _ => none) conformance =
      answers (MemoryCas.step id) .empty conformance :=
  (backends_agree_iff id conformance (by decide)).mpr (by decide)

/-- The answer to the first commit is lost and the commit is made again. -/
theorem repeated_commit_differs :
    ∃ ops : List CasOp, (∀ op ∈ ops, op.wellFormed) ∧
      answers (fsStep id) (fun _ => none) ops ≠ answers (MemoryCas.step id) .empty ops :=
  ⟨[.stage "a" [1], .commit "a" ⟨42, "sha"⟩, .commit "a" ⟨42, "sha"⟩], by decide, by decide⟩

/-! ### The store of the server -/

/-- The files as the server's store sees them, where a staging key is the text of an
upload id. -/
def Files.toCas (text : Uuid → String) (f : Files) : Cas where
  staging := fun u => f (.staging (text u))
  objects := fun o => f (.object o)

section ToCas

variable {text : Uuid → String} (htext : Function.Injective text)

include htext in
theorem toCas_staged (f : Files) (u : Uuid) (x : Option Bytes) :
    Files.toCas text (Function.update f (.staging (text u)) x) =
      { f.toCas text with staging := Function.update (f.toCas text).staging u x } := by
  unfold Files.toCas
  congr 1
  funext v
  by_cases hv : v = u
  · subst hv
    simp
  · have hne : CasPath.staging (text v) ≠ .staging (text u) := by
      simpa using fun heq => hv (htext heq)
    rw [Function.update_of_ne hne, Function.update_of_ne hv]

theorem toCas_object (f : Files) (o : ObjectKey) (x : Option Bytes) :
    Files.toCas text (Function.update f (.object o) x) =
      { f.toCas text with objects := Function.update (f.toCas text).objects o x } := by
  unfold Files.toCas
  congr 1
  funext k
  by_cases hk : k = o
  · subst hk
    simp
  · have hne : CasPath.object k ≠ .object o := by simpa using hk
    rw [Function.update_of_ne hne, Function.update_of_ne hk]

include htext in
/-- Where nothing is refused, the server's `Cas.commit` is the commit of `FsCas`, error texts
aside. -/
theorem fsCommit_good {u : Uuid} (hkey : keyAllowed (text u) = true) (o : ObjectKey) (f : Files) :
    ((f.toCas text).commit .good u o).1.toOption =
        ((fsCommit (text u) o).eval .good f).1.toOption ∧
      ((f.toCas text).commit .good u o).2 =
        Files.toCas text ((fsCommit (text u) o).eval .good f).2 := by
  rw [eval_fsCommit hkey]
  unfold Cas.commit Cas.discardStaging Cas.moved Cas.put
  show (match f (.object o) with
    | some _ => _
    | none => _ : Except Error Unit × Cas).1.toOption = _ ∧ (match f (.object o) with
    | some _ => _
    | none => _ : Except Error Unit × Cas).2 = _
  cases hobj : f (.object o) with
  | some b => exact ⟨rfl, (toCas_staged htext f u none).symm⟩
  | none =>
    show (match f (.staging (text u)) with
      | none => _
      | some _ => _ : Except Error Unit × Cas).1.toOption = _ ∧ (match f (.staging (text u)) with
      | none => _
      | some _ => _ : Except Error Unit × Cas).2 = _
    cases f (.staging (text u)) with
    | none => exact ⟨rfl, rfl⟩
    | some b =>
      refine ⟨rfl, ?_⟩
      show _ = Files.toCas text (Function.update (Function.update f _ none) _ (some b))
      rw [toCas_object, toCas_staged htext]
      rfl

include htext in
/-- **Refinement of the commit.**  However a commit of `FsCas` ends, and wherever one of its file
operations fails, either it has not returned and nothing has moved, or the server's `Cas.commit`
has an answer of the file system that gives the same files and the same success. -/
theorem fsCommit_refines {u : Uuid} {o : ObjectKey} {f f' : Files} {ls : List CasPt}
    {q : FsProg Unit} (hrun : Prog.Steps (fsCommit (text u) o) f ls q f') :
    (∀ a, q.ctl ≠ .done a) ∧ f' = f ∨ ∃ io, ((f.toCas text).commit io u o).2 = f'.toCas text ∧
      (((f.toCas text).commit io u o).1 = .ok () ↔ q.ctl = .done ()) := by
  have hdid : Did (.commit (text u) o) f f' q.ctl := did_of_steps hrun
  -- what the server sees of the files before the call
  have hobjects : ∀ {x}, f (.object o) = x → (f.toCas text).objects o = x := fun h => h
  have hstaging : ∀ {x}, f (.staging (text u)) = x → (f.toCas text).staging u = x := fun h => h
  generalize q.ctl = c at hdid
  cases hdid with
  | nothing hdone _ _ => exact .inl ⟨hdone, rfl⟩
  | present hobj hf =>
    right
    rcases hf with rfl | rfl
    · refine ⟨⟨true, true, .whole, false, ""⟩, ?_⟩
      simp [Cas.commit, hobjects hobj, Cas.discardStaging]
    · refine ⟨.good, ?_⟩
      rw [toCas_staged htext]
      simp [Cas.commit, hobjects hobj, Cas.discardStaging, CasIo.good]
  | moved hobj hstaged =>
    refine .inr ⟨.good, ?_⟩
    rw [toCas_object, toCas_staged htext]
    simp [Cas.commit, hobjects hobj, hstaging hstaged, CasIo.good, Cas.moved, Cas.put]
  | @copyCut key o f b pre hobj hstaged hpre =>
    refine .inr ⟨⟨true, false, .cutAfter pre.length, false, ""⟩, ?_⟩
    obtain ⟨x, rest, rfl⟩ := hpre
    rw [toCas_object]
    simp [Cas.commit, hobjects hobj, hstaging hstaged, Cas.put]
  | copied hobj hstaged =>
    refine .inr ⟨⟨true, false, .whole, false, ""⟩, ?_⟩
    rw [toCas_object]
    simp [Cas.commit, hobjects hobj, hstaging hstaged, Cas.put]

end ToCas

end Corpus
