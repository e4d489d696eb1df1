/-
Put-if-absent, with calls that are given up.

A `stage` or `commit` may stop between any two file operations: the process dies,
or an operation fails and the call returns its error.  A file that was being
written then holds a strict prefix of what it was to hold, and stays (`torn`).
`commit` trusts an object that is there and drops the staged bytes.

`Did` lists what one call can do, by the point where it stopped; `Ghost` reads off
a history which bytes were staged under which key, which commits were attempted and
which files were left torn.  Whatever is not torn is whole (`Whole`).

Main results:
* `commit_blesses_whole_object` — a commit that returns `Ok` leaves a whole object
  unless what it found there, or what it moved there, was torn;
* `torn_object_blessed` — a copy cut off after one byte, and a second upload.
-/
import Corpus.FsCas

namespace Corpus

/-! ### Histories -/

/-- The calls that write. -/
inductive WriteCall where
  | stage (key : String) (bytes : Bytes)
  | commit (key : String) (o : ObjectKey)

def WriteCall.prog : WriteCall → FsProg Unit
  | stage key bytes => fsStage key bytes
  | commit key o => fsCommit key o

/-- A call, the files it found, where it stopped, and the files it left. -/
structure CasEvent where
  call : WriteCall
  before : Files
  stopped : Ctl CasPt Unit
  after : Files

/-- Calls one after another, each given up anywhere or run to its end. -/
inductive FsHistory : List CasEvent → Files → Prop where
  | start : FsHistory [] fun _ => none
  | call {h : List CasEvent} {f f' : Files} {c : WriteCall} {ls : List CasPt} {q : FsProg Unit} :
      FsHistory h f → Prog.Steps c.prog f ls q f' →
      FsHistory (h ++ [⟨c, f, q.ctl, f'⟩]) f'

/-- What a history has left behind: the bytes last staged under a key, the files that
were being written when a call stopped, and the bytes whose commit to an object was
attempted. -/
structure Ghost where
  staged : String → Option Bytes
  torn : CasPath → Bool
  attempted : ObjectKey → List Bytes

/-- The commit of a staged key to an object is attempted. -/
def Ghost.attempt (g : Ghost) (f : Files) (key : String) (o : ObjectKey) : Ghost :=
  let bytes := if (f (.staging key)).isSome then (g.staged key).toList else []
  { g with attempted := Function.update g.attempted o (g.attempted o ++ bytes) }

def Ghost.note (g : Ghost) (e : CasEvent) : Ghost :=
  match e.call with
  | .stage key bytes =>
    match e.stopped with
    | .done _ =>
      { g with
        staged := Function.update g.staged key (some bytes)
        torn := Function.update g.torn (.staging key) false }
    | .at (.append _) =>
      { g with
        staged := Function.update g.staged key (some bytes)
        torn := Function.update g.torn (.staging key) true }
    | _ => g
  | .commit key o =>
    let g := g.attempt e.before key o
    if (e.before (.object o)).isSome then g
    else match e.stopped with
    | .at (.append _) => { g with torn := Function.update g.torn (.object o) true }
    | .done _ | .at (.removeCopied _) =>
      { g with torn := Function.update g.torn (.object o) (g.torn (.staging key)) }
    | _ => g

def ghost (h : List CasEvent) : Ghost :=
  h.foldl Ghost.note ⟨fun _ => none, fun _ => false, fun _ => []⟩

theorem ghost_snoc (h : List CasEvent) (e : CasEvent) : ghost (h ++ [e]) = (ghost h).note e := by
  simp [ghost]

/-! ### What one call does -/

/-- Some bytes are missing at the end. -/
def StrictPrefix (pre bytes : Bytes) : Prop := ∃ b rest, bytes = pre ++ b :: rest

/-- What a call does to the files, by the point where it stopped. -/
inductive Did : WriteCall → Files → Files → Ctl CasPt Unit → Prop where
  /-- nothing has been written yet -/
  | nothing {c : WriteCall} {f : Files} {x : Ctl CasPt Unit} : (∀ u, x ≠ .done u) →
      (∀ p, x ≠ .at (.append p)) → (∀ key, x ≠ .at (.removeCopied key)) → Did c f f x
  | stageCut {key : String} {bytes pre : Bytes} {f : Files} : StrictPrefix pre bytes →
      Did (.stage key bytes) f (Function.update f (.staging key) (some pre))
        (.at (.append (.staging key)))
  | staged {key : String} {bytes : Bytes} {f : Files} :
      Did (.stage key bytes) f (Function.update f (.staging key) (some bytes)) (.done ())
  /-- the object is there; the staged copy may or may not be removed -/
  | present {key : String} {o : ObjectKey} {f f' : Files} {b : Bytes} : f (.object o) = some b →
      (f' = f ∨ f' = Function.update f (.staging key) none) → Did (.commit key o) f f' (.done ())
  /-- renamed, or copied and removed -/
  | moved {key : String} {o : ObjectKey} {f : Files} {b : Bytes} : f (.object o) = none →
      f (.staging key) = some b →
      Did (.commit key o) f
        (Function.update (Function.update f (.staging key) none) (.object o) (some b)) (.done ())
  | copyCut {key : String} {o : ObjectKey} {f : Files} {b pre : Bytes} : f (.object o) = none →
      f (.staging key) = some b → StrictPrefix pre b →
      Did (.commit key o) f (Function.update f (.object o) (some pre)) (.at (.append (.object o)))
  | copied {key : String} {o : ObjectKey} {f : Files} {b : Bytes} : f (.object o) = none →
      f (.staging key) = some b →
      Did (.commit key o) f (Function.update f (.object o) (some b)) (.at (.removeCopied key))

/-- The rule of `write` and `copy`. -/
theorem wp_writeFile {P : CasPt → Files → Prop} {Q : Except CasError Unit → Files → Prop}
    {p : CasPath} {bytes : Bytes} {f : Files} (hcreate : P (.create p) f)
    (happend : ∀ pre, StrictPrefix pre bytes → P (.append p) (Function.update f p (some pre)))
    (hend : Q (.ok ()) (Function.update f p (some bytes))) : Prog.wp P Q (writeFile p bytes) f := by
  refine ⟨hcreate, fun _ => ?_⟩
  -- the bytes `pre` are written
  refine Prog.wp_loop (I := fun xs _ s => ∃ pre, bytes = pre ++ xs ∧
    s = Function.update f p (some pre)) ?_ ?_ _ _ _ ⟨[], rfl, rfl⟩
  · rintro _ s ⟨pre, hpre, rfl⟩
    obtain rfl : bytes = pre := by rw [hpre, List.append_nil]
    exact hend
  · rintro b xs _ s ⟨pre, hpre, rfl⟩
    refine ⟨happend pre ⟨b, xs, hpre⟩, fun _ => ⟨pre ++ [b], by simp [hpre], ?_⟩⟩
    show Function.update (Function.update f p (some pre)) p _ = _
    rw [Function.update_idem, Function.update_self]
    rfl

/-- The object is not there: rename, or copy byte by byte. -/
theorem wp_moveStaged {key : String} {o : ObjectKey} {f : Files} (ho : f (.object o) = none) :
    Prog.wp (fun l s => Did (.commit key o) f s (.at l)) (fun r s => match r with
      | .ok u => Did (.commit key o) f s (.done u)
      | .error _ => Did (.commit key o) f s .failed) (moveStaged key o) f := by
  have hnothing : ∀ {l : CasPt}, (∀ p, l ≠ .append p) → (∀ key, l ≠ .removeCopied key) →
      Did (.commit key o) f f (.at l) :=
    fun h1 h2 => .nothing (by simp) (by simpa using h1) (by simpa using h2)
  unfold moveStaged
  simp only [Prog.stmt_bind, Prog.ret_bind, Prog.wp_stmt]
  refine ⟨hnothing (by simp) (by simp), fun env => ?_⟩
  cases hk : f (.staging key) with
  | none =>
    simp only [Option.isSome_none, Bool.false_and, Bool.false_eq_true, if_false, Prog.query_bind,
      Prog.wp_stmt, hk, Prog.wp_err]
    exact ⟨hnothing (by simp) (by simp), fun _ => .nothing (by simp) (by simp) (by simp)⟩
  | some b =>
    by_cases henv : env.renames = true
    · simp only [henv, Option.isSome_some, Bool.and_true, if_true]
      exact .moved ho hk
    · simp only [henv, Bool.and_false, Bool.false_eq_true, if_false, Prog.query_bind,
        Prog.wp_stmt, hk]
      refine ⟨hnothing (by simp) (by simp), fun _ => Prog.wp_bind ?_⟩
      refine wp_writeFile (hnothing (by simp) (by simp)) (fun pre hpre => .copyCut ho hk hpre) ?_
      refine ⟨.copied ho hk, fun _ => ?_⟩
      show Did _ f (Function.update (Function.update f (.object o) (some b)) (.staging key) none) _
      rw [Function.update_comm (by simp)]
      exact .moved ho hk

/-- **One call.**  Wherever it stops, it has done one of the things of `Did`. -/
theorem did_of_steps {c : WriteCall} {f f' : Files} {ls : List CasPt} {q : FsProg Unit}
    (h : Prog.Steps c.prog f ls q f') : Did c f f' q.ctl := by
  have hwp : Prog.wp (fun l s => Did c f s (.at l)) (fun r s => match r with
      | .ok u => Did c f s (.done u)
      | .error _ => Did c f s .failed) c.prog f := by
    cases c with
    | stage key bytes =>
      show Prog.wp _ _ (if keyAllowed key then _ else _) f
      split
      · exact wp_writeFile (.nothing (by simp) (by simp) (by simp))
          (fun pre hpre => .stageCut hpre) .staged
      · exact .nothing (by simp) (by simp) (by simp)
    | commit key o =>
      show Prog.wp _ _ (if keyAllowed key then _ else _) f
      split
      · simp only [Prog.query_bind, Prog.wp_stmt]
        refine ⟨.nothing (by simp) (by simp) (by simp), fun _ => ?_⟩
        cases ho : f (.object o) with
        | none => exact wp_moveStaged ho
        | some b =>
          refine ⟨.nothing (by simp) (by simp) (by simp), fun env => .present ho ?_⟩
          dsimp only
          split
          · exact .inr rfl
          · exact .inl rfl
      · exact .nothing (by simp) (by simp) (by simp)
  have := Prog.wp_sound h hwp
  cases q with
  | ret a => exact this
  | err e => exact this
  | stmt l g k => exact this.1

/-! ### Whole files -/

/-- What is not torn is whole: a staged file holds what was staged, an object bytes
whose commit to it was attempted. -/
structure Whole (g : Ghost) (f : Files) : Prop where
  staging : ∀ {key b}, f (.staging key) = some b → g.torn (.staging key) = false →
    g.staged key = some b
  objects : ∀ {o b}, f (.object o) = some b → g.torn (.object o) = false → b ∈ g.attempted o

theorem Whole.attempt {g : Ghost} {f : Files} (h : Whole g f) (f' : Files) (key : String)
    (o : ObjectKey) : Whole (g.attempt f' key o) f where
  staging := h.staging
  objects := fun {o' b} hb ht => by
    have hmem := h.objects hb ht
    show b ∈ Function.update g.attempted o _ o'
    by_cases ho : o' = o
    · subst ho
      rw [Function.update_self]
      exact List.mem_append_left _ hmem
    · rwa [Function.update_of_ne ho]

/-- A commit attempted with a staged file that is whole. -/
theorem Whole.mem_attempt {g : Ghost} {f : Files} (h : Whole g f) {key : String} {o : ObjectKey}
    {b : Bytes} (hk : f (.staging key) = some b) (ht : g.torn (.staging key) = false) :
    b ∈ (g.attempt f key o).attempted o := by
  show b ∈ Function.update g.attempted o _ o
  rw [Function.update_self, hk]
  refine List.mem_append_right _ ?_
  simp [h.staging hk ht]

/-- A staged file written anew. -/
theorem Whole.stage {g : Ghost} {f : Files} (h : Whole g f) (key : String) (bytes content : Bytes)
    (torn : Bool) (hwhole : torn = false → content = bytes) :
    Whole { g with
      staged := Function.update g.staged key (some bytes)
      torn := Function.update g.torn (.staging key) torn }
      (Function.update f (.staging key) (some content)) where
  staging := fun {key' b} hb ht => by
    by_cases hk : key' = key
    · subst hk
      simp only [Function.update_self, Option.some.injEq] at hb ht ⊢
      rw [← hb, hwhole ht]
    · simp only [Function.update_of_ne, ne_eq, CasPath.staging.injEq, hk, not_false_eq_true] at hb ht ⊢
      exact h.staging hb ht
  objects := fun {o b} hb ht => by
    simp only [Function.update_of_ne, ne_eq, reduceCtorEq, not_false_eq_true] at hb ht
    exact h.objects hb ht

/-- A staged file removed. -/
theorem Whole.unstage {g : Ghost} {f : Files} (h : Whole g f) (key : String) :
    Whole g (Function.update f (.staging key) none) where
  staging := fun {key' b} hb ht => by
    by_cases hk : key' = key
    · subst hk
      rw [Function.update_self] at hb
      cases hb
    · rw [Function.update_of_ne (by simpa using hk)] at hb
      exact h.staging hb ht
  objects := fun {o b} hb ht => by
    rw [Function.update_of_ne (by simp)] at hb
    exact h.objects hb ht

/-- An object created. -/
theorem Whole.create {g : Ghost} {f : Files} (h : Whole g f) (o : ObjectKey) (content : Bytes)
    (torn : Bool) (hwhole : torn = false → content ∈ g.attempted o) :
    Whole { g with torn := Function.update g.torn (.object o) torn }
      (Function.update f (.object o) (some content)) where
  staging := fun {key b} hb ht => by
    simp only [Function.update_of_ne, ne_eq, reduceCtorEq, not_false_eq_true] at hb ht
    exact h.staging hb ht
  objects := fun {o' b} hb ht => by
    by_cases ho : o' = o
    · subst ho
      simp only [Function.update_self, Option.some.injEq] at hb ht
      rw [← hb]
      exact hwhole ht
    · simp only [Function.update_of_ne, ne_eq, CasPath.object.injEq, ho, not_false_eq_true] at hb ht
      exact h.objects hb ht

/-- A call that has written nothing leaves no trace but the attempt. -/
theorem Ghost.note_nothing (g : Ghost) {c : WriteCall} {f f' : Files} {x : Ctl CasPt Unit}
    (hdone : ∀ u, x ≠ .done u) (happend : ∀ p, x ≠ .at (.append p))
    (hcopied : ∀ key, x ≠ .at (.removeCopied key)) :
    g.note ⟨c, f, x, f'⟩ = g ∨ ∃ key o, g.note ⟨c, f, x, f'⟩ = g.attempt f key o := by
  cases c with
  | stage key bytes =>
    refine .inl ?_
    unfold Ghost.note
    dsimp only
    split
    · exact absurd rfl (hdone _)
    · exact absurd rfl (happend _)
    · rfl
  | commit key o =>
    refine .inr ⟨key, o, ?_⟩
    unfold Ghost.note
    dsimp only
    split
    · rfl
    split
    · exact absurd rfl (happend _)
    · exact absurd rfl (hdone _)
    · exact absurd rfl (hcopied _)
    · rfl

/-- **The step.**  Every call leaves what is not torn whole. -/
theorem Whole.note {g : Ghost} {c : WriteCall} {f f' : Files} {x : Ctl CasPt Unit} (h : Whole g f)
    (hdid : Did c f f' x) : Whole (g.note ⟨c, f, x, f'⟩) f' := by
  cases hdid with
  | nothing hdone happend hcopied =>
    rcases g.note_nothing hdone happend hcopied with heq | ⟨key, o, heq⟩
    · rw [heq]
      exact h
    · rw [heq]
      exact h.attempt f key o
  | stageCut hpre => exact h.stage _ _ _ true (by simp)
  | staged => exact h.stage _ _ _ false fun _ => rfl
  | @present key o _ _ b ho hf =>
    simp only [Ghost.note, ho, Option.isSome_some, if_true]
    rcases hf with rfl | rfl
    · exact h.attempt _ _ _
    · exact (h.attempt _ _ _).unstage _
  | @moved key o _ b ho hk =>
    simp only [Ghost.note, ho, Option.isSome_none, Bool.false_eq_true, if_false]
    exact ((h.attempt f key o).unstage key).create o b _ fun ht => h.mem_attempt hk ht
  | @copyCut key o _ b pre ho hk hpre =>
    simp only [Ghost.note, ho, Option.isSome_none, Bool.false_eq_true, if_false]
    exact (h.attempt f key o).create o pre true (by simp)
  | @copied key o _ b ho hk =>
    simp only [Ghost.note, ho, Option.isSome_none, Bool.false_eq_true, if_false]
    exact (h.attempt f key o).create o b _ fun ht => h.mem_attempt hk ht

theorem FsHistory.whole {h : List CasEvent} {f : Files} (hh : FsHistory h f) :
    Whole (ghost h) f := by
  induction hh with
  | start => exact ⟨by simp, by simp⟩
  | call _ hrun ih =>
    rw [ghost_snoc]
    exact ih.note (did_of_steps hrun)

/-! ### Commits -/

/-- What the commit of `key` to `o` is about to bless is not torn: the object that is
there, or else the staged file. -/
def Ghost.blessable (g : Ghost) (f : Files) (key : String) (o : ObjectKey) : Bool :=
  if (f (.object o)).isSome then !g.torn (.object o) else !g.torn (.staging key)

/-- A commit that returned `Ok`. -/
def CasEvent.commits (e : CasEvent) (key : String) (o : ObjectKey) : Prop :=
  e.call = .commit key o ∧ e.stopped = .done ()

/-- The object holds all the bytes of a staged key whose commit to it was attempted. -/
def HoldsAttempted (g : Ghost) (f : Files) (o : ObjectKey) : Prop :=
  ∃ b, f (.object o) = some b ∧ b ∈ g.attempted o

/-- A commit that returned `Ok` did so on a whole file. -/
theorem Whole.blessed {g : Ghost} {f f' : Files} {key : String} {o : ObjectKey} (h : Whole g f)
    (hdid : Did (.commit key o) f f' (.done ())) (hok : g.blessable f key o = true) :
    HoldsAttempted (g.note ⟨.commit key o, f, .done (), f'⟩) f' o := by
  have hwhole := h.note hdid
  unfold Ghost.blessable at hok
  cases hdid with
  | nothing hdone => exact absurd rfl (hdone ())
  | @present _ _ _ _ b ho hf =>
    have hafter : f' (.object o) = some b := by
      rcases hf with rfl | rfl
      · exact ho
      · rw [Function.update_of_ne (by simp)]
        exact ho
    rw [ho, Option.isSome_some, if_pos rfl] at hok
    refine ⟨b, hafter, hwhole.objects hafter ?_⟩
    simp only [Ghost.note, ho, Option.isSome_some, if_true]
    show g.torn (.object o) = false
    simpa using hok
  | @moved _ _ _ b ho hk =>
    rw [ho, Option.isSome_none, if_neg (by simp)] at hok
    refine ⟨b, Function.update_self .., hwhole.objects (Function.update_self ..) ?_⟩
    simp only [Ghost.note, ho, Option.isSome_none, Bool.false_eq_true, if_false,
      Function.update_self]
    show g.torn (.staging key) = false
    simpa using hok

/-! ### Histories to run -/

/-- Run a call on the inputs it gets, to its end or until they are used up. -/
def playCall (h : List CasEvent × Files) (c : WriteCall × List FsEnv) : List CasEvent × Files :=
  let r := c.1.prog.runPart c.2 h.2
  (h.1 ++ [⟨c.1, h.2, r.2.1.ctl, r.2.2⟩], r.2.2)

def play (cs : List (WriteCall × List FsEnv)) : List CasEvent × Files :=
  cs.foldl playCall ([], fun _ => none)

theorem fsHistory_playCall {h : List CasEvent × Files} (hh : FsHistory h.1 h.2)
    (c : WriteCall × List FsEnv) : FsHistory (playCall h c).1 (playCall h c).2 :=
  .call hh (Prog.steps_runPart c.2 _)

theorem fsHistory_play (cs : List (WriteCall × List FsEnv)) : FsHistory (play cs).1 (play cs).2 := by
  have hrun : ∀ h : List CasEvent × Files, FsHistory h.1 h.2 →
      FsHistory (cs.foldl playCall h).1 (cs.foldl playCall h).2 := by
    induction cs with
    | nil => exact fun h hh => hh
    | cons c cs ih => exact fun h hh => ih _ (fsHistory_playCall hh c)
  exact hrun _ .start

/-- Whether the last call is a commit to `o` that returned `Ok`, and what it left there. -/
def lastCommit (h : List CasEvent) : Option (Option Bytes × List Bytes) :=
  match h.getLast? with
  | some ⟨.commit key o, f, .done u, f'⟩ =>
    some (f' (.object o), ((ghost h.dropLast).note ⟨.commit key o, f, .done u, f'⟩).attempted o)
  | _ => none

/-! ### Every commit -/

/-- **No torn object is blessed**, in every history in which each commit that returns
`Ok` finds at its object no leftover of a copy that was cut off and, where it has to
move the staged file, takes one whose stage was not cut off: each of these commits
leaves all the bytes of a staged key whose commit to the object was attempted. -/
theorem commit_blesses_whole_object {h : List CasEvent} {f : Files} (hh : FsHistory h f)
    (hok : ∀ h₁ e h₂, h = h₁ ++ e :: h₂ → ∀ key o, e.commits key o →
      (ghost h₁).blessable e.before key o = true) :
    ∀ h₁ e h₂, h = h₁ ++ e :: h₂ → ∀ key o, e.commits key o →
      HoldsAttempted (ghost (h₁ ++ [e])) e.after o := by
  induction hh with
  | start => exact fun h₁ e h₂ heq => absurd heq (by simp)
  | @call h f f' c ls q hprev hrun ih =>
    have ih := ih fun h₁ e h₂ heq => hok h₁ e (h₂ ++ [⟨c, f, q.ctl, f'⟩]) (by rw [heq]; simp)
    intro h₁ e h₂ heq key o he
    rcases List.eq_nil_or_concat h₂ with rfl | ⟨h₂, e', rfl⟩
    · -- the last call
      obtain ⟨rfl, hlast⟩ := List.append_inj' heq rfl
      obtain rfl : ⟨c, f, q.ctl, f'⟩ = e := List.head_eq_of_cons_eq hlast
      have hbless := hok h _ [] rfl key o he
      obtain ⟨rfl, hdone⟩ : c = .commit key o ∧ q.ctl = .done () := he
      have hdid := did_of_steps hrun
      rw [ghost_snoc]
      rw [hdone] at hdid ⊢
      exact hprev.whole.blessed hdid hbless
    · have hsplit : h ++ [⟨c, f, q.ctl, f'⟩] = (h₁ ++ e :: h₂) ++ [e'] := by
        rw [heq]
        simp
      exact ih h₁ e h₂ (List.append_inj' hsplit rfl).1 key o he

/-- Two uploads of the same bytes: the second finds the object of the first. -/
def twoUploads : List (WriteCall × List FsEnv) :=
  [(.stage "a" [1, 2, 3], List.replicate 4 .good), (.commit "a" ⟨3, "sha"⟩, List.replicate 2 .good),
    (.stage "b" [1, 2, 3], List.replicate 4 .good), (.commit "b" ⟨3, "sha"⟩, List.replicate 2 .good)]

/-- Every commit of `es` that returned `Ok` met the condition, after `h`. -/
def blessableFrom : List CasEvent → List CasEvent → Bool
  | _, [] => true
  | h, e :: es =>
    (match e.call, e.stopped with
      | .commit key o, .done _ => (ghost h).blessable e.before key o
      | _, _ => true) && blessableFrom (h ++ [e]) es

theorem blessable_of_blessableFrom {es : List CasEvent} : ∀ {h : List CasEvent},
    blessableFrom h es = true → ∀ h₁ e h₂, es = h₁ ++ e :: h₂ → ∀ key o, e.commits key o →
      (ghost (h ++ h₁)).blessable e.before key o = true := by
  induction es with
  | nil => exact fun _ h₁ e h₂ heq => absurd heq (by simp)
  | cons e' es ih =>
    intro h hall h₁ e h₂ heq key o he
    simp only [blessableFrom, Bool.and_eq_true] at hall
    cases h₁ with
    | nil =>
      obtain ⟨rfl, rfl⟩ : e' = e ∧ es = h₂ := by simpa using heq
      have hthis := hall.1
      rw [he.1, he.2] at hthis
      rw [List.append_nil]
      exact hthis
    | cons e₁ h₁ =>
      obtain ⟨rfl, rfl⟩ : e' = e₁ ∧ es = h₁ ++ e :: h₂ := by simpa using heq
      have hrest := ih hall.2 h₁ e h₂ rfl key o he
      rwa [List.append_assoc] at hrest

theorem commit_blesses_whole_object_two_uploads :
    FsHistory (play twoUploads).1 (play twoUploads).2 ∧
      ∀ h₁ e h₂, (play twoUploads).1 = h₁ ++ e :: h₂ → ∀ key o, e.commits key o →
        HoldsAttempted (ghost (h₁ ++ [e])) e.after o := by
  have hall : blessableFrom [] (play twoUploads).1 = true := by decide
  refine ⟨fsHistory_play twoUploads, commit_blesses_whole_object (fsHistory_play twoUploads) ?_⟩
  exact fun h₁ e h₂ heq key o he => blessable_of_blessableFrom hall h₁ e h₂ heq key o he

/-- Across file systems, the copy of the first upload stops after one byte; the second
upload finds the object, drops its own staged bytes and returns `Ok`. -/
def tornUpload : List (WriteCall × List FsEnv) :=
  [(.stage "a" [1, 2, 3], List.replicate 4 ⟨false, true⟩),
    (.commit "a" ⟨3, "sha"⟩, List.replicate 5 ⟨false, true⟩),
    (.stage "b" [1, 2, 3], List.replicate 4 ⟨false, true⟩),
    (.commit "b" ⟨3, "sha"⟩, List.replicate 2 ⟨false, true⟩)]

theorem torn_object_blessed :
    FsHistory (play tornUpload).1 (play tornUpload).2 ∧
      lastCommit (play tornUpload).1 = some (some [1], [[1, 2, 3], [1, 2, 3]]) ∧
      ¬ ∀ (h : List CasEvent) (f : Files), FsHistory h f → ∀ h₁ e h₂, h = h₁ ++ e :: h₂ →
        ∀ key o, e.commits key o → HoldsAttempted (ghost (h₁ ++ [e])) e.after o := by
  have hlast : lastCommit (play tornUpload).1 = some (some [1], [[1, 2, 3], [1, 2, 3]]) := by decide
  refine ⟨fsHistory_play _, hlast, fun hall => ?_⟩
  obtain ⟨b, hb, hmem⟩ := hall _ _ (fsHistory_play tornUpload) ((play tornUpload).1.take 3)
    _ [] rfl "b" ⟨3, "sha"⟩ ⟨rfl, rfl⟩
  obtain rfl : [1] = b := Option.some.inj hb
  exact absurd hmem (by decide)

end Corpus
