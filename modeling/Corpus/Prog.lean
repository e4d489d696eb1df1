/-
Programs made of atomic statements.

A `Prog` is a finite tree of named statements.  Each statement transforms a
shared store in one indivisible step, reads the store it runs in, and receives
one input from the environment (a clock reading, a fresh identifier, the answer
of an external tool).  Nothing is said about how statements of different
programs interleave: a program can be

* run alone, to the end or only up to some statement (`Steps`);
* reasoned about with a weakest precondition that also watches the store before
  every statement (`wp`, `wp_sound`), so that one proof covers every cut point;
* placed in a pool with others (`Corpus.Pool`).

`Follows` is the bridge to the last use: it says that every statement of a
program takes one of the transitions of a given relation between program points.
-/
import Mathlib.Logic.Basic

/-- Where a call stands: not started, before a statement, returned, or failed. -/
inductive Ctl (L α : Type) where
  | idle
  | at (l : L)
  | done (a : α)
  | failed

namespace Ctl

variable {L α β : Type}

/-- The call is not in flight and has not failed. -/
def settled : Ctl L α → Bool
  | idle | done _ => true
  | _ => false

def map (g : α → β) : Ctl L α → Ctl L β
  | idle => idle
  | .at l => .at l
  | done a => done (g a)
  | failed => failed

/-- Where a program stands that goes on after a return (`g`) and after a failure
(`f`). -/
def cont (c : Ctl L α) (g : α → Ctl L β) (f : Ctl L β) : Ctl L β :=
  match c with
  | idle => idle
  | .at l => .at l
  | done a => g a
  | failed => f

end Ctl

/-- A program over the store `σ`: it returns, fails, or runs the statement
named `l`, which maps the store and an environment input to the next store and
to the rest of the program. -/
inductive Prog (L σ ι ε α : Type) where
  | ret (a : α)
  | err (e : ε)
  | stmt (l : L) (f : σ → ι → σ) (k : σ → ι → Prog L σ ι ε α)

namespace Prog

variable {L σ ι ε α β : Type}

/-- Sequencing; an error skips the rest, as `?` does. -/
def bind : Prog L σ ι ε α → (α → Prog L σ ι ε β) → Prog L σ ι ε β
  | ret a, g => g a
  | err e, _ => err e
  | stmt l f k, g => stmt l f fun s i => (k s i).bind g

instance : Monad (Prog L σ ι ε) where
  pure := ret
  bind := bind

/-- Run a program and turn its error into `none` (`Result::ok`). -/
def attempt : Prog L σ ι ε α → Prog L σ ι ε (Option α)
  | ret a => ret (some a)
  | err _ => ret none
  | stmt l f k => stmt l f fun s i => (k s i).attempt

/-- A statement that only reads. -/
def query (l : L) (q : σ → α) : Prog L σ ι ε α :=
  stmt l (fun s _ => s) fun s _ => ret (q s)

/-- A statement that always succeeds. -/
def update (l : L) (f : σ → ι → σ) : Prog L σ ι ε Unit :=
  stmt l f fun _ _ => ret ()

/-- A statement that may fail; a failed statement leaves the store alone. -/
def exec (l : L) (f : σ → ι → Except ε (α × σ)) : Prog L σ ι ε α :=
  stmt l
    (fun s i => match f s i with
      | .ok r => r.2
      | .error _ => s)
    fun s i => match f s i with
      | .ok r => ret r.1
      | .error e => err e

/-- A statement that answers, and may have changed the store although it fails. -/
def call (l : L) (f : σ → ι → Except ε α × σ) : Prog L σ ι ε α :=
  stmt l (fun s i => (f s i).2) fun s i => match (f s i).1 with
    | .ok a => ret a
    | .error e => err e

/-- Where a program stands. -/
def ctl : Prog L σ ι ε α → Ctl L α
  | ret a => .done a
  | err _ => .failed
  | stmt l _ _ => .at l

@[simp] theorem ctl_ret (a : α) : (ret a : Prog L σ ι ε α).ctl = .done a := rfl

@[simp] theorem ctl_err (e : ε) : (err e : Prog L σ ι ε α).ctl = .failed := rfl

@[simp] theorem ctl_stmt (l : L) (f : σ → ι → σ) (k : σ → ι → Prog L σ ι ε α) :
    (stmt l f k).ctl = .at l := rfl

@[simp] theorem pure_eq (a : α) : (pure a : Prog L σ ι ε α) = ret a := rfl

@[simp] theorem ret_bind (a : α) (g : α → Prog L σ ι ε β) : (ret a >>= g) = g a := rfl

@[simp] theorem err_bind (e : ε) (g : α → Prog L σ ι ε β) :
    ((err e : Prog L σ ι ε α) >>= g) = err e := rfl

@[simp] theorem stmt_bind (l : L) (f : σ → ι → σ) (k : σ → ι → Prog L σ ι ε α)
    (g : α → Prog L σ ι ε β) :
    (stmt l f k >>= g) = stmt l f fun s i => k s i >>= g := rfl

@[simp] theorem query_bind (l : L) (q : σ → α) (g : α → Prog L σ ι ε β) :
    (query l q >>= g) = stmt l (fun s _ => s) fun s _ => g (q s) := rfl

@[simp] theorem update_bind (l : L) (f : σ → ι → σ) (g : Unit → Prog L σ ι ε β) :
    (update l f >>= g) = stmt l f fun _ _ => g () := rfl

@[simp] theorem exec_bind (l : L) (f : σ → ι → Except ε (α × σ)) (g : α → Prog L σ ι ε β) :
    (exec l f >>= g) = stmt l
      (fun s i => match f s i with
        | .ok r => r.2
        | .error _ => s)
      fun s i => match f s i with
        | .ok r => g r.1
        | .error e => err e := by
  simp only [exec, stmt_bind]
  congr 1
  funext s i
  cases f s i <;> rfl

theorem bind_assoc' {γ : Type} (p : Prog L σ ι ε α) (g : α → Prog L σ ι ε β)
    (h : β → Prog L σ ι ε γ) : ((p >>= g) >>= h) = (p >>= fun a => g a >>= h) := by
  induction p with
  | ret a => rfl
  | err e => rfl
  | stmt l f k ih =>
    simp only [stmt_bind]
    congr 1
    funext s i
    exact ih s i

/-! ### Running a program alone -/

/-- `Steps p s ls q s'`: run alone from `s`, the program `p` runs the statements
`ls` and reaches the rest `q` with the store `s'`.  The run may stop anywhere,
so `q` need not have ended. -/
inductive Steps : Prog L σ ι ε α → σ → List L → Prog L σ ι ε α → σ → Prop where
  | refl (p : Prog L σ ι ε α) (s : σ) : Steps p s [] p s
  | head (l : L) (f : σ → ι → σ) (k : σ → ι → Prog L σ ι ε α) (s : σ) (i : ι) {ls : List L}
      {q : Prog L σ ι ε α} {s' : σ} :
      Steps (k s i) (f s i) ls q s' → Steps (stmt l f k) s (l :: ls) q s'

/-- The program runs the statements `ls`, then returns `a` with the store `s'`. -/
abbrev Returns (p : Prog L σ ι ε α) (s : σ) (ls : List L) (a : α) (s' : σ) : Prop :=
  Steps p s ls (ret a) s'

/-- A run to the end, reading its environment inputs from a list; `none` when
the list is too short. -/
def run : Prog L σ ι ε α → List ι → σ → Option (List L × Except ε α × σ)
  | ret a, _, s => some ([], .ok a, s)
  | err e, _, s => some ([], .error e, s)
  | stmt _ _ _, [], _ => none
  | stmt l f k, i :: is, s => ((k s i).run is (f s i)).map fun r => (l :: r.1, r.2)

theorem returns_of_run {p : Prog L σ ι ε α} : ∀ (is : List ι) {s s' : σ} {ls : List L} {a : α},
    p.run is s = some (ls, .ok a, s') → Returns p s ls a s' := by
  induction p with
  | ret b =>
    intro is s s' ls a h
    obtain ⟨rfl, h1, rfl⟩ : [] = ls ∧ b = a ∧ s = s' := by simpa [run] using h
    subst h1
    exact .refl _ _
  | err e =>
    intro is s s' ls a h
    simp [run] at h
  | stmt l f k ih =>
    intro is s s' ls a h
    cases is with
    | nil => simp [run] at h
    | cons i is =>
      obtain ⟨⟨ls', r, t⟩, hr, heq⟩ := Option.map_eq_some_iff.mp h
      obtain ⟨rfl, rfl, rfl⟩ : l :: ls' = ls ∧ r = .ok a ∧ t = s' := by simpa using heq
      exact .head l f k s i (ih s i is hr)

/-- A run that stops when its inputs are used up: the statements run, what is left
and the store. -/
def runPart : Prog L σ ι ε α → List ι → σ → List L × Prog L σ ι ε α × σ
  | stmt l f k, i :: is, s =>
    let r := (k s i).runPart is (f s i)
    (l :: r.1, r.2)
  | p, _, s => ([], p, s)

theorem steps_runPart {p : Prog L σ ι ε α} : ∀ (is : List ι) (s : σ),
    Steps p s (p.runPart is s).1 (p.runPart is s).2.1 (p.runPart is s).2.2 := by
  induction p with
  | ret a => exact fun is s => .refl _ _
  | err e => exact fun is s => .refl _ _
  | stmt l f k ih =>
    intro is s
    cases is with
    | nil => exact .refl _ _
    | cons i is => exact .head l f k s i (ih s i is (f s i))

/-- A run to the end in which every statement gets the same input. -/
def eval (i : ι) : Prog L σ ι ε α → σ → Except ε α × σ
  | ret a, s => (.ok a, s)
  | err e, s => (.error e, s)
  | stmt _ f k, s => (k s i).eval i (f s i)

@[simp] theorem eval_ret (i : ι) (a : α) (s : σ) :
    (ret a : Prog L σ ι ε α).eval i s = (.ok a, s) := rfl

@[simp] theorem eval_err (i : ι) (e : ε) (s : σ) :
    (err e : Prog L σ ι ε α).eval i s = (.error e, s) := rfl

@[simp] theorem eval_stmt (i : ι) (l : L) (f : σ → ι → σ) (k : σ → ι → Prog L σ ι ε α) (s : σ) :
    (stmt l f k).eval i s = (k s i).eval i (f s i) := rfl

/-- A run in which every statement gets the same input, and which returns. -/
theorem returns_of_eval {i : ι} {p : Prog L σ ι ε α} : ∀ {s : σ} {a : α},
    (p.eval i s).1 = .ok a → ∃ ls, Returns p s ls a (p.eval i s).2 := by
  induction p with
  | ret b =>
    intro s a h
    obtain rfl := Except.ok.inj h
    exact ⟨[], .refl _ _⟩
  | err e => exact nofun
  | stmt l f k ih =>
    intro s a h
    obtain ⟨ls, hrun⟩ := ih s i h
    exact ⟨l :: ls, .head l f k s i hrun⟩

theorem eval_bind (i : ι) (p : Prog L σ ι ε α) (g : α → Prog L σ ι ε β) : ∀ s : σ,
    (p >>= g).eval i s = match p.eval i s with
      | (.ok a, s') => (g a).eval i s'
      | (.error e, s') => (.error e, s') := by
  induction p with
  | ret a => exact fun s => rfl
  | err e => exact fun s => rfl
  | stmt l f k ih => exact fun s => ih s i (f s i)

theorem eval_bind_ret (i : ι) (p : Prog L σ ι ε α) (g : α → β) (s : σ) :
    (p >>= fun a => ret (g a)).eval i s = ((p.eval i s).1.map g, (p.eval i s).2) := by
  rw [eval_bind]
  rcases p.eval i s with ⟨r, s'⟩
  cases r <;> rfl

/-- A run to the end is a run that stops nowhere. -/
theorem exists_runPart_eq_eval (i : ι) (p : Prog L σ ι ε α) :
    ∀ s : σ, ∃ n, (p.runPart (List.replicate n i) s).2.2 = (p.eval i s).2 := by
  induction p with
  | ret a => exact fun s => ⟨0, rfl⟩
  | err e => exact fun s => ⟨0, rfl⟩
  | stmt l f k ih =>
    intro s
    obtain ⟨n, hn⟩ := ih s i (f s i)
    exact ⟨n + 1, hn⟩

theorem Steps.trans {p q r : Prog L σ ι ε α} {s s' s'' : σ} {ls ls' : List L}
    (h : Steps p s ls q s') (h' : Steps q s' ls' r s'') : Steps p s (ls ++ ls') r s'' := by
  induction h with
  | refl p s => exact h'
  | head l f k s i _ ih => exact .head l f k s i (ih h')

/-- A run of the first part is a run of the whole. -/
theorem Steps.bind {p q : Prog L σ ι ε α} {s s' : σ} {ls : List L} (h : Steps p s ls q s')
    (g : α → Prog L σ ι ε β) : Steps (p >>= g) s ls (q >>= g) s' := by
  induction h with
  | refl p s => exact .refl _ _
  | head l f k s i _ ih => exact .head l f (fun s i => k s i >>= g) s i ih

/-- A run of the whole that returns is one of the first part and one of what follows it. -/
theorem exists_of_returns_bind {p : Prog L σ ι ε α} {g : α → Prog L σ ι ε β} :
    ∀ {s s' : σ} {ls : List L} {b : β}, Returns (p >>= g) s ls b s' →
      ∃ a s₁ ls₁ ls₂, Returns p s ls₁ a s₁ ∧ Returns (g a) s₁ ls₂ b s' := by
  induction p with
  | ret a => exact fun h => ⟨a, _, [], _, .refl _ _, h⟩
  | err e =>
    intro s s' ls b h
    cases h
  | stmt l f k ih =>
    intro s s' ls b h
    cases h with
    | head _ _ _ _ i h =>
      obtain ⟨a, s₁, ls₁, ls₂, hp, hg⟩ := ih s i h
      exact ⟨a, s₁, l :: ls₁, ls₂, .head l f k s i hp, hg⟩

/-! ### Weakest preconditions -/

/-- `wp P Q p s`: every run of `p` from `s` sees `P l` in the store before each
statement `l`, and ends in a result and a store satisfying `Q`. -/
def wp (P : L → σ → Prop) (Q : Except ε α → σ → Prop) : Prog L σ ι ε α → σ → Prop
  | ret a, s => Q (.ok a) s
  | err e, s => Q (.error e) s
  | stmt l f k, s => P l s ∧ ∀ i, wp P Q (k s i) (f s i)

variable {P P' : L → σ → Prop} {Q Q' : Except ε α → σ → Prop}

@[simp] theorem wp_ret (a : α) (s : σ) :
    wp (L := L) (ι := ι) P Q (ret a) s ↔ Q (.ok a) s := Iff.rfl

@[simp] theorem wp_err (e : ε) (s : σ) :
    wp (L := L) (ι := ι) P Q (err e) s ↔ Q (.error e) s := Iff.rfl

@[simp] theorem wp_stmt (l : L) (f : σ → ι → σ) (k : σ → ι → Prog L σ ι ε α) (s : σ) :
    wp P Q (stmt l f k) s ↔ P l s ∧ ∀ i, wp P Q (k s i) (f s i) := Iff.rfl

theorem wp_mono (hP : ∀ l s, P l s → P' l s) (hQ : ∀ r s, Q r s → Q' r s)
    {p : Prog L σ ι ε α} : ∀ {s : σ}, wp P Q p s → wp P' Q' p s := by
  induction p with
  | ret a => exact fun h => hQ _ _ h
  | err e => exact fun h => hQ _ _ h
  | stmt l f k ih =>
    intro s h
    exact ⟨hP _ _ h.1, fun i => ih s i (h.2 i)⟩

theorem wp_bind {R : Except ε β → σ → Prop} {p : Prog L σ ι ε α}
    {g : α → Prog L σ ι ε β} : ∀ {s : σ},
    wp P (fun r t => match r with
      | .ok a => wp P R (g a) t
      | .error e => R (.error e) t) p s →
    wp P R (p >>= g) s := by
  induction p with
  | ret a => exact fun h => h
  | err e => exact fun h => h
  | stmt l f k ih =>
    intro s h
    exact ⟨h.1, fun i => ih s i (h.2 i)⟩

/-- Sequencing through an assertion. -/
theorem wp_seq {R : Except ε β → σ → Prop} (I : α → σ → Prop) {p : Prog L σ ι ε α}
    {g : α → Prog L σ ι ε β} {s : σ}
    (hp : wp P (fun r t => match r with
      | .ok a => I a t
      | .error e => R (.error e) t) p s)
    (hg : ∀ a t, I a t → wp P R (g a) t) : wp P R (p >>= g) s := by
  refine wp_bind (wp_mono (fun _ _ h => h) ?_ hp)
  intro r t hr
  cases r with
  | ok a => exact hg a t hr
  | error e => exact hr

/-- The rule for a statement that may fail. -/
theorem wp_exec_bind {R : Except ε β → σ → Prop} {l : L} {f : σ → ι → Except ε (α × σ)}
    {g : α → Prog L σ ι ε β} {s : σ} :
    wp P R (exec l f >>= g) s ↔ P l s ∧ ∀ i, match f s i with
      | .ok r => wp P R (g r.1) r.2
      | .error e => R (.error e) s := by
  rw [exec_bind, wp_stmt]
  refine and_congr_right fun _ => forall_congr' fun i => ?_
  cases f s i <;> rfl

theorem wp_exec {l : L} {f : σ → ι → Except ε (α × σ)} {s : σ} :
    wp P Q (exec l f) s ↔ P l s ∧ ∀ i, match f s i with
      | .ok r => Q (.ok r.1) r.2
      | .error e => Q (.error e) s := by
  rw [exec, wp_stmt]
  refine and_congr_right fun _ => forall_congr' fun i => ?_
  cases f s i <;> rfl

/-- **Soundness**: the weakest precondition survives along every run, so it
holds of whatever rest of the program a run has reached. -/
theorem wp_sound {p q : Prog L σ ι ε α} {s s' : σ} {ls : List L} (hrun : Steps p s ls q s') :
    wp P Q p s → wp P Q q s' := by
  induction hrun with
  | refl p s => exact fun h => h
  | head l f k s i _ ih => exact fun h => ih (h.2 i)

theorem wp_returns {p : Prog L σ ι ε α} {s s' : σ} {ls : List L} {a : α}
    (hrun : Returns p s ls a s') (h : wp P Q p s) : Q (.ok a) s' :=
  wp_sound hrun h

/-- A program that cannot fail has a run to its end, whatever input `i` it is fed. -/
theorem exists_returns (i : ι) (hQ : ∀ e s, ¬ Q (.error e) s) {p : Prog L σ ι ε α} : ∀ {s : σ},
    wp P Q p s → ∃ ls a s', Returns p s ls a s' ∧ Q (.ok a) s' := by
  induction p with
  | ret a => exact fun {s} h => ⟨[], a, s, .refl _ _, h⟩
  | err e => exact fun h => absurd h (hQ _ _)
  | stmt l f k ih =>
    intro s h
    obtain ⟨ls, a, s', hrun, hq⟩ := ih s i (h.2 i)
    exact ⟨l :: ls, a, s', .head l f k s i hrun, hq⟩

/-- A watch and a postcondition that always hold. -/
theorem wp_trivial (hP : ∀ l s, P l s) (hQ : ∀ r s, Q r s) (p : Prog L σ ι ε α) :
    ∀ s : σ, wp P Q p s := by
  induction p with
  | ret a => exact fun s => hQ _ s
  | err e => exact fun s => hQ _ s
  | stmt l f k ih => exact fun s => ⟨hP l s, fun i => ih s i _⟩

/-- What is watched before statements of a name holds of every name that ran. -/
theorem wp_names {p q : Prog L σ ι ε α} {s s' : σ} {ls : List L} (hrun : Steps p s ls q s')
    {N : L → Prop} (hN : ∀ l t, P l t → N l) : wp P Q p s → ∀ l ∈ ls, N l := by
  induction hrun with
  | refl p s => exact fun _ l hl => absurd hl List.not_mem_nil
  | head l f k s i _ ih =>
    intro h m hm
    rcases List.mem_cons.mp hm with rfl | hm
    · exact hN _ _ h.1
    · exact ih (h.2 i) m hm

/-! ### Loops -/

/-- A `for` loop carrying an accumulator. -/
def loop {γ : Type} (body : γ → β → Prog L σ ι ε γ) : List β → γ → Prog L σ ι ε γ
  | [], c => ret c
  | x :: xs, c => body c x >>= loop body xs

/-- The loop rule: `I xs c s` holds with the items `xs` still to come. -/
theorem wp_loop {γ : Type} {body : γ → β → Prog L σ ι ε γ} {R : Except ε γ → σ → Prop}
    {I : List β → γ → σ → Prop}
    (hend : ∀ c s, I [] c s → R (.ok c) s)
    (hbody : ∀ x xs c s, I (x :: xs) c s → wp P (fun r t => match r with
      | .ok c' => I xs c' t
      | .error e => R (.error e) t) (body c x) s) :
    ∀ (xs : List β) (c : γ) (s : σ), I xs c s → wp P R (loop body xs c) s := by
  intro xs
  -- On the items still to come, which `I` speaks of.
  induction xs with
  | nil => exact fun c s h => hend c s h
  | cons x xs ih =>
    intro c s h
    refine wp_bind (wp_mono (fun _ _ h => h) ?_ (hbody x xs c s h))
    intro r t hr
    cases r with
    | ok c' => exact ih c' t hr
    | error e => exact hr

/-! ### Programs as moves between program points -/

/-- Every statement of the program takes a transition of `T`: from its own name
and the store before it to the store after it and where the program then stands. -/
def Follows (T : L → σ → σ → Ctl L α → Prop) : Prog L σ ι ε α → Prop
  | ret _ => True
  | err _ => True
  | stmt l f k => ∀ s i, T l s (f s i) (k s i).ctl ∧ (k s i).Follows T

section Follows

variable {T : L → σ → σ → Ctl L α → Prop} {T' : L → σ → σ → Ctl L β → Prop}

@[simp] theorem follows_ret (a : α) : (ret a : Prog L σ ι ε α).Follows T := trivial

@[simp] theorem follows_err (e : ε) : (err e : Prog L σ ι ε α).Follows T := trivial

@[simp] theorem follows_stmt (l : L) (f : σ → ι → σ) (k : σ → ι → Prog L σ ι ε α) :
    (stmt l f k).Follows T ↔ ∀ s i, T l s (f s i) (k s i).ctl ∧ (k s i).Follows T :=
  Iff.rfl

theorem Follows.mono {T₁ T₂ : L → σ → σ → Ctl L α → Prop} (h : ∀ l s s' c, T₁ l s s' c → T₂ l s s' c)
    {p : Prog L σ ι ε α} (hp : p.Follows T₁) : p.Follows T₂ := by
  induction p with
  | ret a => trivial
  | err e => trivial
  | stmt l f k ih => exact fun s i => ⟨h _ _ _ _ (hp s i).1, ih s i (hp s i).2⟩

theorem follows_exec_bind {l : L} {f : σ → ι → Except ε (α × σ)} {g : α → Prog L σ ι ε β}
    (h : ∀ s i, match f s i with
      | .ok r => T' l s r.2 (g r.1).ctl ∧ (g r.1).Follows T'
      | .error _ => T' l s s .failed) : (exec l f >>= g).Follows T' := by
  rw [exec_bind, follows_stmt]
  intro s i
  have := h s i
  cases hf : f s i with
  | ok r =>
    rw [hf] at this
    exact this
  | error e =>
    rw [hf] at this
    exact ⟨this, trivial⟩

theorem follows_exec {l : L} {f : σ → ι → Except ε (α × σ)}
    (h : ∀ s i, match f s i with
      | .ok r => T l s r.2 (.done r.1)
      | .error _ => T l s s .failed) : (exec l f : Prog L σ ι ε α).Follows T := by
  rw [exec, follows_stmt]
  intro s i
  have := h s i
  cases hf : f s i with
  | ok r =>
    rw [hf] at this
    exact ⟨this, trivial⟩
  | error e =>
    rw [hf] at this
    exact ⟨this, trivial⟩

theorem follows_call_bind {l : L} {f : σ → ι → Except ε α × σ} {g : α → Prog L σ ι ε β}
    (h : ∀ s i, match (f s i).1 with
      | .ok a => T' l s (f s i).2 (g a).ctl ∧ (g a).Follows T'
      | .error _ => T' l s (f s i).2 .failed) : (call l f >>= g).Follows T' := by
  rw [call, stmt_bind, follows_stmt]
  intro s i
  have := h s i
  cases hf : (f s i).1 with
  | ok a =>
    rw [hf] at this
    exact this
  | error e =>
    rw [hf] at this
    exact ⟨this, trivial⟩

/-- Relabelling the result changes no move. -/
theorem ctl_bind_ret (p : Prog L σ ι ε α) (g : α → β) :
    (p >>= fun a => ret (g a)).ctl = p.ctl.map g := by
  cases p <;> rfl

theorem follows_bind_ret {p : Prog L σ ι ε α} (g : α → β)
    (hp : p.Follows fun l s s' c => T' l s s' (c.map g)) :
    (p >>= fun a => ret (g a)).Follows T' := by
  induction p with
  | ret a => trivial
  | err e => trivial
  | stmt l f k ih =>
    intro s i
    refine ⟨?_, ih s i (hp s i).2⟩
    show T' l s (f s i) (k s i >>= fun a => ret (g a)).ctl
    rw [ctl_bind_ret]
    exact (hp s i).1

/-- Relabelling the result changes no run. -/
theorem run_bind_ret (g : α → β) {p : Prog L σ ι ε α} : ∀ (is : List ι) {s s' : σ} {ls : List L}
    {r : Except ε α}, p.run is s = some (ls, r, s') →
      (p >>= fun a => ret (g a)).run is s = some (ls, r.map g, s') := by
  induction p with
  | ret a =>
    intro is s s' ls r h
    obtain ⟨rfl, rfl, rfl⟩ : [] = ls ∧ .ok a = r ∧ s = s' := by simpa [run] using h
    rfl
  | err e =>
    intro is s s' ls r h
    obtain ⟨rfl, rfl, rfl⟩ : [] = ls ∧ .error e = r ∧ s = s' := by simpa [run] using h
    rfl
  | stmt l f k ih =>
    intro is s s' ls r h
    cases is with
    | nil => cases h
    | cons i is =>
      obtain ⟨⟨ls', r', t⟩, hr, heq⟩ := Option.map_eq_some_iff.mp h
      obtain ⟨rfl, rfl, rfl⟩ : l :: ls' = ls ∧ r' = r ∧ t = s' := by simpa using heq
      show Option.map _ ((k s i >>= fun a => ret (g a)).run is (f s i)) = _
      rw [ih s i is hr]
      rfl

/-- A fact that every move keeps holds at the end of a run. -/
theorem Follows.run {I : Ctl L α → σ → Prop}
    (hI : ∀ l s s' c, T l s s' c → I (.at l) s → I c s') {p : Prog L σ ι ε α} (hp : p.Follows T) :
    ∀ (is : List ι) {s s' : σ} {ls : List L} {r : Except ε α}, p.run is s = some (ls, r, s') →
      I p.ctl s → ∃ c, I c s' := by
  induction p with
  | ret a =>
    intro is s s' ls r h hs
    obtain ⟨-, -, rfl⟩ : [] = ls ∧ .ok a = r ∧ s = s' := by simpa [Prog.run] using h
    exact ⟨_, hs⟩
  | err e =>
    intro is s s' ls r h hs
    obtain ⟨-, -, rfl⟩ : [] = ls ∧ .error e = r ∧ s = s' := by simpa [Prog.run] using h
    exact ⟨_, hs⟩
  | stmt l f k ih =>
    intro is s s' ls r h hs
    cases is with
    | nil => cases h
    | cons i is =>
      obtain ⟨⟨ls', r', t⟩, hr, heq⟩ := Option.map_eq_some_iff.mp h
      obtain ⟨-, -, rfl⟩ : l :: ls' = ls ∧ r' = r ∧ t = s' := by simpa using heq
      exact ih s i (hp s i).2 is hr (hI _ _ _ _ (hp s i).1 hs)

end Follows

/-! ### Moves that see the input -/

/-- As `Follows`, with moves that also see the input of the statement. -/
def Takes (T : L → ι → σ → σ → Ctl L α → Prop) : Prog L σ ι ε α → Prop
  | ret _ => True
  | err _ => True
  | stmt l f k => ∀ s i, T l i s (f s i) (k s i).ctl ∧ (k s i).Takes T

section Takes

variable {T : L → ι → σ → σ → Ctl L α → Prop} {T' : L → ι → σ → σ → Ctl L β → Prop}

@[simp] theorem takes_ret (a : α) : (ret a : Prog L σ ι ε α).Takes T := trivial

@[simp] theorem takes_err (e : ε) : (err e : Prog L σ ι ε α).Takes T := trivial

@[simp] theorem takes_stmt (l : L) (f : σ → ι → σ) (k : σ → ι → Prog L σ ι ε α) :
    (stmt l f k).Takes T ↔ ∀ s i, T l i s (f s i) (k s i).ctl ∧ (k s i).Takes T := Iff.rfl

theorem Takes.mono {T₁ T₂ : L → ι → σ → σ → Ctl L α → Prop}
    (h : ∀ l i s s' c, T₁ l i s s' c → T₂ l i s s' c) {p : Prog L σ ι ε α} (hp : p.Takes T₁) :
    p.Takes T₂ := by
  induction p with
  | ret a => trivial
  | err e => trivial
  | stmt l f k ih => exact fun s i => ⟨h _ _ _ _ _ (hp s i).1, ih s i (hp s i).2⟩

theorem Takes.and {T₁ T₂ : L → ι → σ → σ → Ctl L α → Prop} {p : Prog L σ ι ε α} (h₁ : p.Takes T₁)
    (h₂ : p.Takes T₂) : p.Takes fun l i s s' c => T₁ l i s s' c ∧ T₂ l i s s' c := by
  induction p with
  | ret a => trivial
  | err e => trivial
  | stmt l f k ih => exact fun s i => ⟨⟨(h₁ s i).1, (h₂ s i).1⟩, ih s i (h₁ s i).2 (h₂ s i).2⟩

/-- A statement that may fail. -/
theorem takes_exec_bind {l : L} {f : σ → ι → Except ε (α × σ)} {g : α → Prog L σ ι ε β}
    (h : ∀ s i, match f s i with
      | .ok r => T' l i s r.2 (g r.1).ctl ∧ (g r.1).Takes T'
      | .error _ => T' l i s s .failed) : (exec l f >>= g).Takes T' := by
  rw [exec_bind, takes_stmt]
  intro s i
  have := h s i
  cases hf : f s i with
  | ok r =>
    rw [hf] at this
    exact this
  | error e =>
    rw [hf] at this
    exact ⟨this, trivial⟩

theorem takes_exec {l : L} {f : σ → ι → Except ε (α × σ)}
    (h : ∀ s i, match f s i with
      | .ok r => T l i s r.2 (.done r.1)
      | .error _ => T l i s s .failed) : (exec l f : Prog L σ ι ε α).Takes T := by
  rw [exec, takes_stmt]
  intro s i
  have := h s i
  cases hf : f s i with
  | ok r =>
    rw [hf] at this
    exact ⟨this, trivial⟩
  | error e =>
    rw [hf] at this
    exact ⟨this, trivial⟩

theorem Follows.takes {T : L → σ → σ → Ctl L α → Prop} {p : Prog L σ ι ε α} (hp : p.Follows T) :
    p.Takes fun l _ => T l := by
  induction p with
  | ret a => trivial
  | err e => trivial
  | stmt l f k ih => exact fun s i => ⟨(hp s i).1, ih s i (hp s i).2⟩

/-- A program that follows its moves among points of `P`, and what a statement does
from there. -/
theorem Follows.takes_off {T : L → σ → σ → Ctl L α → Prop} {R : L → ι → σ → σ → Ctl L α → Prop}
    {P : Ctl L α → Prop} (hstep : ∀ {l i s s' c}, P (.at l) → T l s s' c → R l i s s' c ∧ P c)
    {p : Prog L σ ι ε α} (hp : p.Follows T) (hP : P p.ctl) : p.Takes R := by
  induction p with
  | ret a => trivial
  | err e => trivial
  | stmt l f k ih =>
    intro s i
    obtain ⟨hR, hnext⟩ := hstep (i := i) hP (hp s i).1
    exact ⟨hR, ih s i (hp s i).2 hnext⟩

theorem ctl_bind (p : Prog L σ ι ε α) (g : α → Prog L σ ι ε β) :
    (p >>= g).ctl = p.ctl.cont (fun a => (g a).ctl) .failed := by
  cases p <;> rfl

theorem ctl_attempt_bind (p : Prog L σ ι ε α) (g : Option α → Prog L σ ι ε β) :
    (p.attempt >>= g).ctl = p.ctl.cont (fun a => (g (some a)).ctl) (g none).ctl := by
  cases p <;> rfl

/-- A program followed by `g` makes the moves of both. -/
theorem takes_bind {p : Prog L σ ι ε α} {g : α → Prog L σ ι ε β}
    (hp : p.Takes fun l i s s' c => T' l i s s' (c.cont (fun a => (g a).ctl) .failed))
    (hg : ∀ a, (g a).Takes T') : (p >>= g).Takes T' := by
  induction p with
  | ret a => exact hg a
  | err e => trivial
  | stmt l f k ih =>
    intro s i
    refine ⟨?_, ih s i (hp s i).2⟩
    show T' l i s (f s i) (k s i >>= g).ctl
    rw [ctl_bind]
    exact (hp s i).1

/-- As `takes_bind`, when the first program runs under `attempt`. -/
theorem takes_attempt_bind {p : Prog L σ ι ε α} {g : Option α → Prog L σ ι ε β}
    (hp : p.Takes fun l i s s' c =>
      T' l i s s' (c.cont (fun a => (g (some a)).ctl) (g none).ctl))
    (hg : ∀ a, (g a).Takes T') : (p.attempt >>= g).Takes T' := by
  induction p with
  | ret a => exact hg (some a)
  | err e => exact hg none
  | stmt l f k ih =>
    intro s i
    refine ⟨?_, ih s i (hp s i).2⟩
    show T' l i s (f s i) ((k s i).attempt >>= g).ctl
    rw [ctl_attempt_bind]
    exact (hp s i).1

end Takes

/-! ### Parts of a program with one kind of statement -/

/-- Every statement of the program has a name in `K` and takes the store along
`F`; the program may fail only if `E`. -/
def Within (K : L → Prop) (F : L → σ → σ → Prop) (E : Prop) : Prog L σ ι ε α → Prop
  | ret _ => True
  | err _ => E
  | stmt l f k => K l ∧ ∀ s i, F l s (f s i) ∧ (k s i).Within K F E

section Within

variable {K : L → Prop} {F : L → σ → σ → Prop} {E : Prop}

theorem within_bind {p : Prog L σ ι ε α} {g : α → Prog L σ ι ε β} (hp : p.Within K F E)
    (hg : ∀ a, (g a).Within K F E) : (p >>= g).Within K F E := by
  induction p with
  | ret a => exact hg a
  | err e => exact hp
  | stmt l f k ih => exact ⟨hp.1, fun s i => ⟨(hp.2 s i).1, ih s i (hp.2 s i).2⟩⟩

theorem within_query {l : L} {q : σ → α} (hl : K l) (hF : ∀ s, F l s s) :
    (query l q : Prog L σ ι ε α).Within K F E :=
  ⟨hl, fun s _ => ⟨hF s, trivial⟩⟩

theorem within_update {l : L} {f : σ → ι → σ} (hl : K l) (hF : ∀ s i, F l s (f s i)) :
    (update l f : Prog L σ ι ε Unit).Within K F E :=
  ⟨hl, fun s i => ⟨hF s i, trivial⟩⟩

theorem within_exec {l : L} {f : σ → ι → Except ε (α × σ)} (hl : K l)
    (hF : ∀ s i, match f s i with
      | .ok r => F l s r.2
      | .error _ => F l s s ∧ E) : (exec l f : Prog L σ ι ε α).Within K F E := by
  refine ⟨hl, fun s i => ?_⟩
  have := hF s i
  dsimp only
  cases hf : f s i with
  | ok r =>
    rw [hf] at this
    exact ⟨this, trivial⟩
  | error e =>
    rw [hf] at this
    exact this

theorem within_call {l : L} {f : σ → ι → Except ε α × σ} (hl : K l)
    (hF : ∀ s i, F l s (f s i).2) (hE : E) : (call l f : Prog L σ ι ε α).Within K F E := by
  refine ⟨hl, fun s i => ⟨hF s i, ?_⟩⟩
  dsimp only
  cases (f s i).1 with
  | ok a => trivial
  | error e => exact hE

theorem within_loop {γ : Type} {body : γ → β → Prog L σ ι ε γ}
    (hbody : ∀ c x, (body c x).Within K F E) :
    ∀ (xs : List β) (c : γ), (loop body xs c).Within K F E := by
  intro xs
  induction xs with
  | nil => exact fun c => trivial
  | cons x xs ih => exact fun c => within_bind (hbody c x) fun c' => ih c'

theorem Within.mono {K' : L → Prop} {F' : L → σ → σ → Prop} (hK : ∀ l, K l → K' l)
    (hF : ∀ l s s', F l s s' → F' l s s') {p : Prog L σ ι ε α} (hp : p.Within K F E) :
    p.Within K' F' E := by
  induction p with
  | ret a => trivial
  | err e => exact hp
  | stmt l f k ih => exact ⟨hK l hp.1, fun s i => ⟨hF _ _ _ (hp.2 s i).1, ih s i (hp.2 s i).2⟩⟩

/-- What the statements of a part keep is watched all along it, and holds at its end. -/
theorem Within.wp {P : L → σ → Prop} {Q : Except ε α → σ → Prop} {I : σ → Prop}
    (hP : ∀ l s, K l → I s → P l s) (hF : ∀ l s s', F l s s' → I s → I s')
    (hQ : ∀ r s, I s → Q r s) {p : Prog L σ ι ε α} (hp : p.Within K F E) :
    ∀ {s : σ}, I s → Prog.wp P Q p s := by
  induction p with
  | ret a => exact fun hs => hQ _ _ hs
  | err e => exact fun hs => hQ _ _ hs
  | stmt l f k ih =>
    intro s hs
    exact ⟨hP l s hp.1 hs, fun i => ih s i (hp.2 s i).2 (hF _ _ _ (hp.2 s i).1 hs)⟩

/-- An attempted program does not fail. -/
theorem within_attempt {E' : Prop} {p : Prog L σ ι ε α} (hp : p.Within K F E') :
    p.attempt.Within K F E := by
  induction p with
  | ret a => trivial
  | err e => trivial
  | stmt l f k ih => exact ⟨hp.1, fun s i => ⟨(hp.2 s i).1, ih s i (hp.2 s i).2⟩⟩

/-- Where such a part stands when it is followed by `g`. -/
theorem Within.ctl_bind {p : Prog L σ ι ε α} (hp : p.Within K F E) (g : α → Prog L σ ι ε β) :
    (E ∧ (p >>= g).ctl = .failed) ∨ (∃ a, (p >>= g).ctl = (g a).ctl) ∨
      ∃ l, K l ∧ (p >>= g).ctl = .at l := by
  cases p with
  | ret a => exact .inr (.inl ⟨a, rfl⟩)
  | err e => exact .inl ⟨hp, rfl⟩
  | stmt l f k => exact .inr (.inr ⟨l, hp.1, rfl⟩)

/-- A part with one kind of statement, followed by `g`, makes moves of `T` when
its statements may go to each other, to failure and to where `g` starts. -/
theorem Within.follows_bind {T : L → σ → σ → Ctl L β → Prop} {p : Prog L σ ι ε α}
    {g : α → Prog L σ ι ε β} (hp : p.Within K F E)
    (hT : ∀ l s s' c, K l → F l s s' →
      ((E ∧ c = .failed) ∨ (∃ a, c = (g a).ctl) ∨ ∃ l', K l' ∧ c = .at l') → T l s s' c)
    (hg : ∀ a, (g a).Follows T) : (p >>= g).Follows T := by
  induction p with
  | ret a => exact hg a
  | err e => trivial
  | stmt l f k ih =>
    intro s i
    obtain ⟨hF, hrest⟩ := hp.2 s i
    exact ⟨hT _ _ _ _ hp.1 hF (hrest.ctl_bind g), ih s i hrest⟩

end Within

/-! ### Programs on a part of the store -/

end Prog

/-- A part of a store. -/
structure Lens (σ' σ : Type) where
  get : σ' → σ
  set : σ' → σ → σ'
  get_set : ∀ s x, get (set s x) = x
  set_get : ∀ s, set s (get s) = s
  set_set : ∀ s x y, set (set s x) y = set s y

namespace Prog

variable {L L' σ σ' ι ι' ε α β : Type}

/-- A program on the part `π` of a larger store, under other names and inputs. -/
def zoom (lab : L → L') (π : Lens σ' σ) (inp : ι' → ι) : Prog L σ ι ε α → Prog L' σ' ι' ε α
  | ret a => ret a
  | err e => err e
  | stmt l f k => stmt (lab l) (fun s i => π.set s (f (π.get s) (inp i)))
      fun s i => (k (π.get s) (inp i)).zoom lab π inp

section Zoom

variable {lab : L → L'} {π : Lens σ' σ} {inp : ι' → ι} {P : L' → σ' → Prop}
  {Q : Except ε α → σ' → Prop}

/-- The rest of the store is the one the program started in. -/
theorem wp_zoom {p : Prog L σ ι ε α} : ∀ {s : σ'},
    wp (fun l x => P (lab l) (π.set s x)) (fun r x => Q r (π.set s x)) p (π.get s) →
      wp P Q (p.zoom lab π inp) s := by
  induction p with
  | ret a =>
    intro s h
    show Q (.ok a) s
    -- The part is what it was, so setting it changes nothing.
    rw [← π.set_get s]
    exact h
  | err e =>
    intro s h
    show Q (.error e) s
    rw [← π.set_get s]
    exact h
  | stmt l f k ih =>
    intro s h
    refine ⟨?_, fun i => ih _ _ ?_⟩
    · rw [← π.set_get s]
      exact h.1
    · simp only [π.set_set, π.get_set]
      exact h.2 (inp i)

theorem Steps.zoom (hinp : ∀ i, ∃ i', inp i' = i) {p q : Prog L σ ι ε α} {x x' : σ} {ls : List L}
    (h : Steps p x ls q x') : ∀ {s : σ'}, π.get s = x →
      Steps (p.zoom lab π inp) s (ls.map lab) (q.zoom lab π inp) (π.set s x') := by
  -- The large input is one that the small program sees as `i`.
  induction h with
  | refl p x =>
    rintro s rfl
    rw [π.set_get]
    exact .refl _ _
  | head l f k x i _ ih =>
    rintro s rfl
    obtain ⟨i', rfl⟩ := hinp i
    have hrest := ih (s := π.set s (f (π.get s) (inp i'))) (π.get_set _ _)
    rw [π.set_set] at hrest
    exact .head _ _ _ _ i' hrest

theorem eval_zoom (i : ι') (p : Prog L σ ι ε α) :
    ∀ s : σ', (p.zoom lab π inp).eval i s =
      ((p.eval (inp i) (π.get s)).1, π.set s (p.eval (inp i) (π.get s)).2) := by
  induction p with
  | ret a => exact fun s => Prod.ext rfl (π.set_get s).symm
  | err e => exact fun s => Prod.ext rfl (π.set_get s).symm
  | stmt l f k ih =>
    intro s
    show ((k (π.get s) (inp i)).zoom lab π inp).eval i _ = _
    rw [ih, π.get_set, π.set_set]
    rfl

end Zoom

end Prog
