/-
A process that is started again and again.

It runs a program on a store that lasts, may be stopped between any two statements, and is
then started anew.  Meanwhile others move the store, along `Rely`.

* `Prog.Guarantees` — what each statement of a program finds and does, as long as others only
  move the store along `Rely`;
* `Process.Step` — the process is started, stopped or runs a statement, or the store is moved;
* `Process.Kept.step` — if every start of the program guarantees `Guar`, so does every step,
  wherever the process was stopped before.
-/
import Corpus.Prog

namespace Prog

variable {L σ ι ε α β : Type}

/-- Before each statement others may have moved the store along `Rely`.  `P` holds where the
statement starts, `Guar` from there to where it ends, and `Q` of a result.  `Ok` is what is
assumed of the inputs. -/
def Guarantees (Rely Guar : σ → σ → Prop) (Ok : L → ι → Prop) (P : L → σ → Prop)
    (Q : α → σ → Prop) : Prog L σ ι ε α → σ → Prop
  | ret a, s => Q a s
  | err _, _ => True
  | stmt l f k, s => ∀ s', Rely s s' → P l s' ∧ ∀ i, Ok l i →
      Guar s' (f s' i) ∧ (k s' i).Guarantees Rely Guar Ok P Q (f s' i)

variable {Rely Guar : σ → σ → Prop} {Ok : L → ι → Prop} {P : L → σ → Prop} {Q : α → σ → Prop}

/-- Sequencing. -/
theorem guarantees_bind {Q' : β → σ → Prop} {p : Prog L σ ι ε α} {g : α → Prog L σ ι ε β} :
    ∀ {s : σ}, p.Guarantees Rely Guar Ok P Q s →
      (∀ a s, Q a s → (g a).Guarantees Rely Guar Ok P Q' s) →
      (p >>= g).Guarantees Rely Guar Ok P Q' s := by
  induction p with
  | ret a => exact fun h hg => hg a _ h
  | err e => exact fun _ _ => trivial
  | stmt l f k ih =>
    intro s h hg s' hs
    obtain ⟨hP, hrest⟩ := h s' hs
    exact ⟨hP, fun i hi => ⟨(hrest i hi).1, ih s' i (hrest i hi).2 hg⟩⟩

/-- A statement that may fail, and only then changes nothing. -/
theorem guarantees_exec (hrefl : ∀ s, Guar s s) {l : L} {f : σ → ι → Except ε (α × σ)} {s : σ}
    (hP : ∀ s', Rely s s' → P l s')
    (h : ∀ s', Rely s s' → ∀ i, Ok l i → ∀ a s'', f s' i = .ok (a, s'') → Guar s' s'' ∧ Q a s'') :
    (exec l f).Guarantees Rely Guar Ok P Q s := by
  refine fun s' hs => ⟨hP s' hs, fun i hi => ?_⟩
  have hrun := h s' hs i hi
  dsimp only
  cases hf : f s' i with
  | ok r => exact hrun r.1 r.2 hf
  | error e => exact ⟨hrefl s', trivial⟩

end Prog

/-- A store, and what is left of the run in progress. -/
structure Process (L σ ι ε α : Type) where
  store : σ
  rest : Option (Prog L σ ι ε α)

namespace Process

variable {C L σ ι ε α : Type}

/-- A step of the process, or of the others. -/
inductive Step (prog : C → Prog L σ ι ε α) (Rely : σ → σ → Prop) (Ok : L → ι → Prop) :
    Process L σ ι ε α → Process L σ ι ε α → Prop where
  | start (s : σ) (q : Option (Prog L σ ι ε α)) (c : C) :
      Step prog Rely Ok ⟨s, q⟩ ⟨s, some (prog c)⟩
  | stop (s : σ) (q : Option (Prog L σ ι ε α)) : Step prog Rely Ok ⟨s, q⟩ ⟨s, none⟩
  | exec {l : L} (f : σ → ι → σ) (k : σ → ι → Prog L σ ι ε α) (s : σ) {i : ι} :
      Ok l i → Step prog Rely Ok ⟨s, some (.stmt l f k)⟩ ⟨f s i, some (k s i)⟩
  | other {s s' : σ} (q : Option (Prog L σ ι ε α)) :
      Rely s s' → Step prog Rely Ok ⟨s, q⟩ ⟨s', q⟩

/-- The store satisfies `J`, and what is left of the run keeps its guarantee. -/
structure Kept (Rely Guar : σ → σ → Prop) (Ok : L → ι → Prop) (P : L → σ → Prop)
    (Q : α → σ → Prop) (J : σ → Prop) (p : Process L σ ι ε α) : Prop where
  store : J p.store
  rest : ∀ q, p.rest = some q → ∃ s, Rely s p.store ∧ q.Guarantees Rely Guar Ok P Q s

variable {Rely Guar : σ → σ → Prop} {Ok : L → ι → Prop} {P : L → σ → Prop} {Q : α → σ → Prop}
  {J : σ → Prop}

/-- What a statement finds that is about to run. -/
theorem Kept.next {s : σ} {l : L} {f : σ → ι → σ} {k : σ → ι → Prog L σ ι ε α}
    (h : Kept Rely Guar Ok P Q J ⟨s, some (.stmt l f k)⟩) : P l s := by
  obtain ⟨s₀, hs, hq⟩ := h.rest _ rfl
  exact (hq s hs).1

/-- **Each step guarantees `Guar`**, and so will the rest of the run. -/
theorem Kept.step {prog : C → Prog L σ ι ε α} (hrefl : ∀ s, Rely s s)
    (htrans : ∀ s s' s'', Rely s s' → Rely s' s'' → Rely s s'')
    (hother : ∀ s s', Rely s s' → Guar s s') (hJ : ∀ s s', Guar s s' → J s → J s')
    (hprog : ∀ c s, J s → (prog c).Guarantees Rely Guar Ok P Q s) {p p' : Process L σ ι ε α}
    (h : Kept Rely Guar Ok P Q J p) (hs : Step prog Rely Ok p p') :
    Guar p.store p'.store ∧ Kept Rely Guar Ok P Q J p' := by
  cases hs with
  | start s q c =>
    refine ⟨hother s s (hrefl s), h.store, fun q' hq' => ?_⟩
    obtain rfl := Option.some.inj hq'
    exact ⟨s, hrefl s, hprog c s h.store⟩
  | stop s q => exact ⟨hother s s (hrefl s), h.store, fun q' hq' => nomatch hq'⟩
  | exec f k s hi =>
    obtain ⟨s₀, hs₀, hq⟩ := h.rest _ rfl
    obtain ⟨hmove, hrest⟩ := (hq s hs₀).2 _ hi
    refine ⟨hmove, hJ _ _ hmove h.store, fun q' hq' => ?_⟩
    obtain rfl := Option.some.inj hq'
    exact ⟨_, hrefl _, hrest⟩
  | other q hR =>
    refine ⟨hother _ _ hR, hJ _ _ (hother _ _ hR) h.store, fun q' hq' => ?_⟩
    obtain ⟨s₀, hs₀, hq⟩ := h.rest q' hq'
    exact ⟨s₀, htrans _ _ _ hs₀ hR, hq⟩

end Process
