/-
Files that a program writes when it first starts.

A program looks for its files, and writes them one after another if they are not all there.  It
may be cut off anywhere, in the middle of a file too, and is started again.

* `Boots` — runs of a program one after another; `Boots.invariant` — what each of them keeps,
  wherever it stops;
* `putFile`, `putAll` — files are emptied and then written element by element;
* `Turn` — the last file is missing, or those before it are whole and of one generation;
  `wp_putAll` — so it is at every moment of the writing.
-/
import Corpus.Prog
import Mathlib.Data.List.Nodup
import Mathlib.Logic.Function.Basic

/-! ### Runs one after another -/

namespace Prog

variable {L σ ι ε α : Type}

/-- Runs of the program on one store, with the results of those that returned.  Any other was cut
off somewhere, or has failed. -/
inductive Boots (prog : Prog L σ ι ε α) (s₀ : σ) : List α → σ → Prop where
  | none : Boots prog s₀ [] s₀
  | cut {as : List α} {s s' : σ} {ls : List L} {q : Prog L σ ι ε α} :
      Boots prog s₀ as s → Steps prog s ls q s' → Boots prog s₀ as s'
  | returned {as : List α} {s s' : σ} {ls : List L} {a : α} :
      Boots prog s₀ as s → Returns prog s ls a s' → Boots prog s₀ (as ++ [a]) s'

/-- **What every run keeps**, wherever it stops, and with its result if it has one. -/
theorem Boots.invariant {prog : Prog L σ ι ε α} {s₀ : σ} {I : List α → σ → Prop} (h₀ : I [] s₀)
    (hprog : ∀ as s, I as s → wp (fun _ s' => I as s')
      (fun r s' => I as s' ∧ ∀ a, r = .ok a → I (as ++ [a]) s') prog s)
    {as : List α} {s : σ} (h : Boots prog s₀ as s) : I as s := by
  induction h with
  | none => exact h₀
  | @cut as s s' ls q _ hrun ih =>
    have hwp := wp_sound hrun (hprog as s ih)
    cases q with
    | ret a => exact hwp.1
    | err e => exact hwp.1
    | stmt l f k => exact hwp.1
  | @returned as s s' ls a _ hrun ih => exact (wp_returns hrun (hprog as s ih)).2 a rfl

/-- One more run, which stops when its inputs are used up. -/
def again (prog : Prog L σ ι ε α) (r : List α × σ) (is : List ι) : List α × σ :=
  match prog.runPart is r.2 with
  | (_, ret a, s) => (r.1 ++ [a], s)
  | (_, err _, s) => (r.1, s)
  | (_, stmt _ _ _, s) => (r.1, s)

theorem Boots.again {prog : Prog L σ ι ε α} {s₀ : σ} {r : List α × σ} (h : Boots prog s₀ r.1 r.2)
    (is : List ι) : Boots prog s₀ (again prog r is).1 (again prog r is).2 := by
  have hrun := steps_runPart (p := prog) is r.2
  unfold Prog.again
  split <;> rename_i heq <;> rw [heq] at hrun
  · exact .returned h hrun
  · exact .cut h hrun
  · exact .cut h hrun

/-- Runs that pass a check show that there are such. -/
theorem exists_boots (prog : Prog L σ ι ε α) (s₀ : σ) (iss : List (List ι))
    (chk : List α → σ → Bool)
    (hchk : chk (iss.foldl (again prog) ([], s₀)).1 (iss.foldl (again prog) ([], s₀)).2 = true) :
    ∃ as s, Boots prog s₀ as s ∧ chk as s = true := by
  suffices hruns : ∀ (iss : List (List ι)) (r : List α × σ), Boots prog s₀ r.1 r.2 →
      Boots prog s₀ (iss.foldl (again prog) r).1 (iss.foldl (again prog) r).2 from
    ⟨_, _, hruns iss ([], s₀) .none, hchk⟩
  intro iss
  induction iss with
  | nil => exact fun r h => h
  | cons is iss ih => exact fun r h => ih _ (h.again is)

end Prog

/-! ### Files -/

variable {P β ι ε : Type}

/-- The content of every file. -/
abbrev FileStore (P β : Type) := P → Option (List β)

/-- Operations on files; `draw` makes up what is to be written. -/
inductive FilePt (P : Type) where
  | makeDir
  | probe (p : P)
  | read (p : P)
  | draw
  | create (p : P)
  | append (p : P)
  | protect (p : P)

abbrev FileProg (P β ι ε : Type) := Prog (FilePt P) (FileStore P β) ι ε

/-- An operation that may fail, and then changes nothing. -/
def fileOp (fails : ι → Option ε) (l : FilePt P) (f : FileStore P β → FileStore P β) :
    FileProg P β ι ε Unit :=
  .exec l fun s i =>
    match fails i with
    | some e => .error e
    | none => .ok ((), f s)

variable [DecidableEq P]

/-- Write a file from its first element, and set its permissions. -/
def putFile (fails : ι → Option ε) (p : P) (content : List β) : FileProg P β ι ε Unit := do
  fileOp fails (.create p) fun s => Function.update s p (some [])
  Prog.loop (fun _ b => fileOp fails (.append p) fun s =>
    Function.update s p ((s p).map (· ++ [b]))) content ()
  fileOp fails (.protect p) id

/-- Write files one after another. -/
def putAll (fails : ι → Option ε) (g : P → List β) : List P → FileProg P β ι ε Unit
  | [] => .ret ()
  | p :: ps => do
    putFile fails p (g p)
    putAll fails g ps

omit [DecidableEq P] in
/-- Whether the files are there, up to the first that is not.  A file that cannot be looked at
seems missing. -/
def probeAll (hidden : ι → Bool) : List P → FileProg P β ι ε Bool
  | [] => .ret true
  | p :: ps => do
    let there ← .exec (.probe p) fun s i => .ok ((s p).isSome && !hidden i, s)
    if there then probeAll hidden ps else return false

/-- Nothing has been written yet that counts: the last file is missing.  Or the others are those
of the generation `g`, and the last one is on its way there. -/
def Turn (g : P → List β) (ps : List P) (last : P) (s : FileStore P β) : Prop :=
  s last = none ∨ (∀ p ∈ ps, s p = some (g p)) ∧ ∃ w, s last = some w ∧ w <+: g last

section Writing

variable {fails : ι → Option ε} {s : FileStore P β}

omit [DecidableEq P] in
theorem wp_fileOp {l : FilePt P} {f : FileStore P β → FileStore P β}
    {W : FilePt P → FileStore P β → Prop} {Q : Except ε Unit → FileStore P β → Prop}
    (hw : W l s) (herr : ∀ e, Q (.error e) s) (hok : Q (.ok ()) (f s)) :
    Prog.wp W Q (fileOp fails l f) s := by
  refine Prog.wp_exec.mpr ⟨hw, fun i => ?_⟩
  cases hfails : fails i with
  | some e => exact herr e
  | none => exact hok

omit [DecidableEq P] in
/-- A look at files that can be looked at. -/
theorem wp_probeAll {hidden : ι → Bool} (hhonest : ∀ i, hidden i = false) (ps : List P) :
    Prog.wp (fun _ s' => s' = s)
      (fun r s' => s' = s ∧ r = .ok (ps.all fun p => (s p).isSome))
      (probeAll hidden ps : FileProg P β ι ε Bool) s := by
  induction ps with
  | nil => exact ⟨rfl, rfl⟩
  | cons p ps ih =>
    refine Prog.wp_exec_bind.mpr ⟨rfl, fun i => ?_⟩
    dsimp only
    rw [hhonest i, Bool.not_false, Bool.and_true, List.all_cons]
    cases hp : (s p).isSome with
    | true => simpa using ih
    | false => exact ⟨rfl, rfl⟩

/-- While a file is written, it is what it was or a part of what it will be, and the others are
left alone. -/
theorem wp_putFile (p : P) (content : List β) :
    Prog.wp (fun _ s' => (∀ q, q ≠ p → s' q = s q) ∧
        (s' p = s p ∨ ∃ w, s' p = some w ∧ w <+: content))
      (fun r s' => ((∀ q, q ≠ p → s' q = s q) ∧
        (s' p = s p ∨ ∃ w, s' p = some w ∧ w <+: content)) ∧
          ∀ a, r = .ok a → s' p = some content) (putFile fails p content) s := by
  let J : FileStore P β → Prop := fun s' => (∀ q, q ≠ p → s' q = s q) ∧
    (s' p = s p ∨ ∃ w, s' p = some w ∧ w <+: content)
  -- With the elements `rest` to come the file holds those before.
  let Written : List β → FileStore P β → Prop := fun rest s' =>
    (∀ q, q ≠ p → s' q = s q) ∧ ∃ w, s' p = some w ∧ w ++ rest = content
  have hJ : ∀ rest s', Written rest s' → J s' := by
    rintro rest s' ⟨hframe, w, hw, hcontent⟩
    exact ⟨hframe, .inr ⟨w, hw, rest, hcontent⟩⟩
  have hset : ∀ s' w, (∀ q, q ≠ p → s' q = s q) →
      ∀ q, q ≠ p → Function.update s' p (some w) q = s q := by
    intro s' w hframe q hq
    rw [Function.update_of_ne hq]
    exact hframe q hq
  refine Prog.wp_seq (fun _ s' => Written content s') (wp_fileOp ⟨fun _ _ => rfl, .inl rfl⟩
    (fun e => ⟨⟨fun _ _ => rfl, .inl rfl⟩, nofun⟩)
    ⟨hset s [] fun _ _ => rfl, [], Function.update_self _ _ _, rfl⟩) fun _ s' hs' => ?_
  refine Prog.wp_seq (fun _ s' => Written [] s') ?_ fun _ s'' hs'' => ?_
  · refine Prog.wp_loop (I := fun rest _ s' => Written rest s') (fun _ _ h => h) ?_ content () s' hs'
    intro b rest _ t ht
    refine wp_fileOp (hJ _ _ ht) (fun e => ⟨hJ _ _ ht, nofun⟩) ?_
    obtain ⟨hframe, w, hw, hcontent⟩ := ht
    refine ⟨?_, w ++ [b], ?_, ?_⟩
    · rw [hw]
      exact hset t _ hframe
    · rw [hw, Function.update_self]
      rfl
    · rw [List.append_assoc]
      exact hcontent
  · refine wp_fileOp (hJ _ _ hs'') (fun e => ⟨hJ _ _ hs'', nofun⟩) ⟨hJ _ _ hs'', fun _ _ => ?_⟩
    obtain ⟨-, w, hw, hcontent⟩ := hs''
    rw [List.append_nil] at hcontent
    rw [id_eq, hw, hcontent]

/-- **Writing in turn.**  Wherever the writing stops, the last file is missing or the others are
whole. -/
theorem wp_putAll (g : P → List β) {last : P} (ps : List P) : ∀ (before : List P)
    (s : FileStore P β), (before ++ ps ++ [last]).Nodup → (∀ p ∈ before, s p = some (g p)) →
      s last = none → Prog.wp (fun _ => Turn g (before ++ ps) last)
        (fun r s' => Turn g (before ++ ps) last s' ∧
          ∀ a, r = .ok a → ∀ p ∈ before ++ ps ++ [last], s' p = some (g p))
        (putAll fails g (ps ++ [last])) s := by
  induction ps with
  | nil =>
    intro before s hnodup hbefore hlast
    rw [List.append_nil] at hnodup ⊢
    have hne : ∀ p ∈ before, p ≠ last := by
      rintro p hp rfl
      exact (List.nodup_append.mp hnodup).2.2 p hp p (List.mem_singleton_self p) rfl
    have hturn : ∀ s', ((∀ q, q ≠ last → s' q = s q) ∧
        (s' last = s last ∨ ∃ w, s' last = some w ∧ w <+: g last)) → Turn g before last s' := by
      rintro s' ⟨hframe, hsame | hpart⟩
      · exact .inl (hsame.trans hlast)
      · exact .inr ⟨fun p hp => (hframe p (hne p hp)).trans (hbefore p hp), hpart⟩
    refine Prog.wp_seq (fun _ s' => (∀ q, q ≠ last → s' q = s q) ∧ s' last = some (g last))
      (Prog.wp_mono (fun _ s' h => hturn s' h) ?_ (wp_putFile last (g last))) ?_
    · intro r s' hs'
      cases r with
      | ok a => exact ⟨hs'.1.1, hs'.2 a rfl⟩
      | error e => exact ⟨hturn s' hs'.1, nofun⟩
    · intro _ s' hs'
      refine ⟨hturn s' ⟨hs'.1, .inr ⟨_, hs'.2, List.prefix_rfl⟩⟩, fun _ _ p hp => ?_⟩
      rcases List.mem_append.mp hp with hp | hp
      · exact (hs'.1 p (hne p hp)).trans (hbefore p hp)
      · obtain rfl := List.mem_singleton.mp hp
        exact hs'.2
  | cons p ps ih =>
    intro before s hnodup hbefore hlast
    have hassoc : before ++ p :: ps = before ++ [p] ++ ps := by simp
    rw [hassoc] at hnodup ⊢
    have hnot : last ≠ p := by
      rintro rfl
      have hmem : last ∈ before ++ [last] ++ ps := by simp
      exact (List.nodup_append.mp hnodup).2.2 last hmem last (List.mem_singleton_self last) rfl
    have hnew : p ∉ before := by
      intro hp
      have hsub := (List.nodup_append.mp (List.nodup_append.mp hnodup).1).1
      exact (List.nodup_append.mp hsub).2.2 p hp p (List.mem_singleton_self p) rfl
    -- The last file is missing as long as another is written.
    have hturn : ∀ s', ((∀ q, q ≠ p → s' q = s q) ∧
        (s' p = s p ∨ ∃ w, s' p = some w ∧ w <+: g p)) →
          Turn g (before ++ [p] ++ ps) last s' :=
      fun s' hs' => .inl ((hs'.1 last hnot).trans hlast)
    refine Prog.wp_seq (fun _ s' => (∀ q, q ≠ p → s' q = s q) ∧ s' p = some (g p))
      (Prog.wp_mono (fun _ s' h => hturn s' h) ?_ (wp_putFile p (g p))) ?_
    · intro r s' hs'
      cases r with
      | ok a => exact ⟨hs'.1.1, hs'.2 a rfl⟩
      | error e => exact ⟨hturn s' hs'.1, nofun⟩
    · intro _ s' hs'
      refine ih (before ++ [p]) s' hnodup (fun q hq => ?_) ((hs'.1 last hnot).trans hlast)
      rcases List.mem_append.mp hq with hq | hq
      · exact (hs'.1 q fun heq => hnew (heq ▸ hq)).trans (hbefore q hq)
      · obtain rfl := List.mem_singleton.mp hq
        exact hs'.2

end Writing
