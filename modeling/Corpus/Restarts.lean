/-
A program that is started again and again.

`recorded` keeps a record of the statements that ran, with the store after each.  `Attempts`
are the histories of a program whose runs may stop anywhere and are followed by others, while
the store also moves by itself.

* `keeps_recorded_exec` — the rule for a statement whose effect is recorded;
* `Attempts.kept` — what the program keeps holds through every history, and a run that came to
  its end has its postcondition.
-/
import Corpus.Rely

namespace Prog

variable {L σ ι ε α β : Type}

/-- The statements that ran, with the store after each. -/
abbrev Record (L σ : Type) := List (L × σ)

/-- The program, keeping a record. -/
def recorded : Prog L σ ι ε α → Prog L (σ × Record L σ) ι ε α
  | ret a => ret a
  | err e => err e
  | stmt l f k =>
    stmt l (fun s i => (f s.1 i, s.2 ++ [(l, f s.1 i)])) fun s i => (k s.1 i).recorded

theorem recorded_bind (p : Prog L σ ι ε α) (g : α → Prog L σ ι ε β) :
    (p >>= g).recorded = p.recorded >>= fun a => (g a).recorded := by
  induction p with
  | ret a => rfl
  | err e => rfl
  | stmt l f k ih =>
    show stmt l _ _ = stmt l _ _
    congr 1
    funext s i
    exact ih s.1 i

/-- A run that keeps a record and stops when its inputs are used up. -/
def runRecorded : Prog L σ ι ε α → List ι → σ → Record L σ → Prog L σ ι ε α × σ × Record L σ
  | stmt l f k, i :: is, s, r => (k s i).runRecorded is (f s i) (r ++ [(l, f s i)])
  | p, _, s, r => (p, s, r)

section Rules

variable {R : σ × Record L σ → σ × Record L σ → Prop} {Ok : L → ι → σ × Record L σ → Prop}
  {Q : α → σ × Record L σ → Prop}

/-- A statement that may fail, recorded in either case. -/
theorem keeps_recorded_exec {l : L} {f : σ → ι → Except ε (α × σ)} {x : σ × Record L σ}
    (herr : ∀ y, R x y → R y (y.1, y.2 ++ [(l, y.1)]))
    (hok : ∀ y, R x y → ∀ i a s, f y.1 i = .ok (a, s) →
      R y (s, y.2 ++ [(l, s)]) ∧ Q a (s, y.2 ++ [(l, s)])) :
    (exec l f).recorded.Keeps R Ok Q x := by
  intro y hy i _
  dsimp only
  cases hf : f y.1 i with
  | ok r => exact hok y hy i r.1 r.2 hf
  | error e => exact ⟨herr y hy, trivial⟩

/-- What a program keeps, it keeps after the store has moved. -/
theorem Keeps.moved {R : σ → σ → Prop} {Ok : L → ι → σ → Prop} {Q : α → σ → Prop}
    (htrans : ∀ s s' s'', R s s' → R s' s'' → R s s'') (hQ : ∀ a s s', R s s' → Q a s → Q a s')
    {p : Prog L σ ι ε α} {s s' : σ} (hmove : R s s') (h : p.Keeps R Ok Q s) :
    p.Keeps R Ok Q s' := by
  cases p with
  | ret a => exact hQ a s s' hmove h
  | err e => trivial
  | stmt l f k => exact fun t ht i hok => h t (htrans s s' t hmove ht) i hok

end Rules

/-- The histories of a program from a store with a record: what is left of the run that goes
on, the store and the record.  The store moves by itself along `env`, and along `boot` when
the program is started again. -/
inductive Attempts (prog : Prog L σ ι ε α) (env boot : σ → σ → Prop) (s₀ : σ) (r₀ : Record L σ) :
    Prog L σ ι ε α → σ → Record L σ → Prop where
  | start : Attempts prog env boot s₀ r₀ prog s₀ r₀
  | step {l : L} {f : σ → ι → σ} {k : σ → ι → Prog L σ ι ε α} {s : σ} {r : Record L σ} (i : ι) :
      Attempts prog env boot s₀ r₀ (stmt l f k) s r →
      Attempts prog env boot s₀ r₀ (k s i) (f s i) (r ++ [(l, f s i)])
  | env {p : Prog L σ ι ε α} {s s' : σ} {r : Record L σ} :
      Attempts prog env boot s₀ r₀ p s r → env s s' → Attempts prog env boot s₀ r₀ p s' r
  | restart {p : Prog L σ ι ε α} {s s' : σ} {r : Record L σ} :
      Attempts prog env boot s₀ r₀ p s r → boot s s' → Attempts prog env boot s₀ r₀ prog s' r

namespace Attempts

variable {prog p : Prog L σ ι ε α} {env boot : σ → σ → Prop} {s₀ s : σ} {r₀ r : Record L σ}

/-- A history goes on with a run that nothing disturbs. -/
theorem run (is : List ι) : ∀ {p : Prog L σ ι ε α} {s : σ} {r : Record L σ},
    Attempts prog env boot s₀ r₀ p s r →
      Attempts prog env boot s₀ r₀ (p.runRecorded is s r).1 (p.runRecorded is s r).2.1
        (p.runRecorded is s r).2.2 := by
  induction is with
  | nil =>
    intro p s r h
    cases p <;> exact h
  | cons i is ih =>
    intro p s r h
    cases p with
    | ret a => exact h
    | err e => exact h
    | stmt l f k => exact ih (h.step i)

/-- **What a program keeps through every history**, however often it is started again. -/
theorem kept {R : σ × Record L σ → σ × Record L σ → Prop} {I : σ × Record L σ → Prop}
    {Q : α → σ × Record L σ → Prop} (hrefl : ∀ x, R x x)
    (htrans : ∀ x y z, R x y → R y z → R x z) (hQ : ∀ a x y, R x y → Q a x → Q a y)
    (hI : ∀ x y, R x y → I x → I y)
    (hprog : ∀ x, I x → prog.recorded.Keeps R (fun _ _ _ => True) Q x)
    (henv : ∀ s s' r, env s s' → R (s, r) (s', r))
    (hboot : ∀ s s' r, boot s s' → I (s, r) → I (s', r)) (h₀ : I (s₀, r₀))
    (h : Attempts prog env boot s₀ r₀ p s r) :
    I (s, r) ∧ p.recorded.Keeps R (fun _ _ _ => True) Q (s, r) := by
  induction h with
  | start => exact ⟨h₀, hprog _ h₀⟩
  | step i _ ih =>
    obtain ⟨hmove, hrest⟩ := ih.2 _ (hrefl _) i trivial
    exact ⟨hI _ _ hmove ih.1, hrest⟩
  | @env p s s' r _ hmove ih =>
    have hR := henv s s' r hmove
    exact ⟨hI _ _ hR ih.1, ih.2.moved htrans hQ hR⟩
  | restart _ hmove ih =>
    have hI' := hboot _ _ _ hmove ih.1
    exact ⟨hI', hprog _ hI'⟩

end Attempts

end Prog
