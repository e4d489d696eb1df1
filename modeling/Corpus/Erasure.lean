/-
Programs on a larger store.

A program that also keeps a record of what it does runs on a larger store: the record is
written by some of its statements and read by none.  `Erases π Q p' p` says that `p'` does
on the part `π` of its store what `p` does, under the same names, and that the results are
related by `Q`.

* `Erases.bind`, `Erases.loop`, `erases_zoom` — the rules;
* `Erases.returns`, `Within.zoom` — runs of the larger program, and what its statements do;
* `Pool.Reach.erase` — what a pool of the larger programs does to the part, a pool of the
  smaller ones does;
* `Keeps.zoom_within` — what a program keeps on the larger store, from what it keeps on the
  part and what its statements change there.
-/
import Corpus.Rely
import Mathlib.Data.List.Forall2

namespace Prog

variable {L σ σ' ι ε α α' β β' γ : Type}

/-- On the part `π` of the store the first program does what the second does. -/
inductive Erases (π : σ' → σ) (Q : α' → α → Prop) :
    Prog L σ' ι ε α' → Prog L σ ι ε α → Prop where
  | ret {a' : α'} {a : α} : Q a' a → Erases π Q (ret a') (ret a)
  | err (e : ε) : Erases π Q (err e) (err e)
  | stmt {l : L} {f' : σ' → ι → σ'} {f : σ → ι → σ} {k' : σ' → ι → Prog L σ' ι ε α'}
      {k : σ → ι → Prog L σ ι ε α} : (∀ s i, π (f' s i) = f (π s) i) →
      (∀ s i, Erases π Q (k' s i) (k (π s) i)) → Erases π Q (stmt l f' k') (stmt l f k)

section Erases

variable {π : σ' → σ} {Q : α' → α → Prop} {Q' : β' → β → Prop}

/-- Sequencing. -/
theorem Erases.bind {p' : Prog L σ' ι ε α'} {p : Prog L σ ι ε α} {g' : α' → Prog L σ' ι ε β'}
    {g : α → Prog L σ ι ε β} (h : Erases π Q p' p)
    (hg : ∀ a' a, Q a' a → Erases π Q' (g' a') (g a)) : Erases π Q' (p' >>= g') (p >>= g) := by
  induction h with
  | ret ha => exact hg _ _ ha
  | err e => exact .err e
  | stmt hf _ ih => exact .stmt hf fun s i => ih s i

theorem Erases.loop {body' : α' → γ → Prog L σ' ι ε α'} {body : α → γ → Prog L σ ι ε α}
    (hbody : ∀ a' a x, Q a' a → Erases π Q (body' a' x) (body a x)) (xs : List γ) :
    ∀ a' a, Q a' a → Erases π Q (loop body' xs a') (loop body xs a) := by
  induction xs with
  | nil => exact fun _ _ ha => .ret ha
  | cons x xs ih => exact fun a' a ha => (hbody a' a x ha).bind ih

theorem erases_query {l : L} {q' : σ' → α'} {q : σ → α} (h : ∀ s, Q (q' s) (q (π s))) :
    Erases π Q (query l q' : Prog L σ' ι ε α') (query l q) :=
  .stmt (fun _ _ => rfl) fun s _ => .ret (h s)

theorem erases_exec {l : L} {f' : σ' → ι → Except ε (α' × σ')} {f : σ → ι → Except ε (α × σ)}
    (herr : ∀ s i e, f' s i = .error e → f (π s) i = .error e)
    (hok : ∀ s i a' s', f' s i = .ok (a', s') → ∃ a, f (π s) i = .ok (a, π s') ∧ Q a' a) :
    Erases π Q (exec l f') (exec l f) := by
  refine .stmt (fun s i => ?_) fun s i => ?_
  · have herr := herr s i
    have hok := hok s i
    cases hf : f' s i with
    | error e => rw [herr e hf]
    | ok r =>
      obtain ⟨a, ha, -⟩ := hok r.1 r.2 hf
      rw [ha]
  · have herr := herr s i
    have hok := hok s i
    cases hf : f' s i with
    | error e =>
      rw [herr e hf]
      exact .err e
    | ok r =>
      obtain ⟨a, ha, hQ⟩ := hok r.1 r.2 hf
      rw [ha]
      exact .ret hQ

/-- A program on the part, run on the whole. -/
theorem erases_zoom (π : Lens σ' σ) (p : Prog L σ ι ε α) :
    Erases π.get (· = ·) (p.zoom id π id) p := by
  induction p with
  | ret a => exact .ret rfl
  | err e => exact .err e
  | stmt l f k ih => exact .stmt (fun s i => π.get_set _ _) fun s i => ih _ _

/-- A run of the larger program is one of the smaller. -/
theorem Erases.returns {p' : Prog L σ' ι ε α'} {p : Prog L σ ι ε α} (h : Erases π Q p' p) :
    ∀ {s s' : σ'} {ls : List L} {a' : α'}, Returns p' s ls a' s' →
      ∃ a, Q a' a ∧ Returns p (π s) ls a (π s') := by
  induction h with
  | ret ha =>
    intro s s' ls a' hrun
    cases hrun
    exact ⟨_, ha, .refl _ _⟩
  | err e =>
    intro s s' ls a' hrun
    cases hrun
  | stmt hf _ ih =>
    intro s s' ls a' hrun
    cases hrun with
    | head l f k s i hrest =>
      obtain ⟨a, ha, hreturns⟩ := ih s i hrest
      rw [hf s i] at hreturns
      exact ⟨a, ha, .head _ _ _ _ i hreturns⟩

end Erases

/-- What the statements of a program on a part do to the whole. -/
theorem Within.zoom {K : L → Prop} {F : L → σ → σ → Prop} {F' : L → σ' → σ' → Prop} {E : Prop}
    {π : Lens σ' σ} (hF : ∀ l s x, F l (π.get s) x → F' l s (π.set s x)) {p : Prog L σ ι ε α}
    (hp : p.Within K F E) : (p.zoom id π id).Within K F' E := by
  induction p with
  | ret a => trivial
  | err e => exact hp
  | stmt l f k ih =>
    exact ⟨hp.1, fun s i => ⟨hF l s _ (hp.2 _ i).1, ih _ i (hp.2 _ i).2⟩⟩

/-- A program on a part of the store, when what it keeps of the whole depends on what its
statements change. -/
theorem Keeps.zoom_within {R : σ → σ → Prop} {R' : σ' → σ' → Prop} {Ok : L → ι → σ → Prop}
    {Ok' : L → ι → σ' → Prop} {Q : α → σ → Prop} {K : L → Prop} {F : L → σ → σ → Prop} {E : Prop}
    {π : Lens σ' σ} (hget : ∀ s s', R' s s' → R (π.get s) (π.get s'))
    (hset : ∀ l s x, F l (π.get s) x → R (π.get s) x → R' s (π.set s x))
    (hok : ∀ l i s, Ok' l i s → Ok l i (π.get s)) {p : Prog L σ ι ε α} (hp : p.Within K F E) :
    ∀ {s : σ'}, p.Keeps R Ok Q (π.get s) →
      (p.zoom id π id).Keeps R' Ok' (fun a s => Q a (π.get s)) s := by
  induction p with
  | ret a => exact fun h => h
  | err e => exact fun _ => trivial
  | stmt l f k ih =>
    intro s h s' hs i hi
    obtain ⟨hmove, hrest⟩ := h _ (hget s s' hs) i (hok l i s' hi)
    refine ⟨hset l _ _ (hp.2 _ i).1 hmove, ih _ i (hp.2 _ i).2 ?_⟩
    rw [π.get_set]
    exact hrest

end Prog

namespace Pool

variable {C L σ σ' ι ε α : Type}

/-- The same call, as far as the part `π` of the store can tell. -/
structure ProcErases (π : σ' → σ) (q' : Proc C L σ' ι ε α) (q : Proc C L σ ι ε α) : Prop where
  call : q'.call = q.call
  rest : Option.Rel (Prog.Erases π (· = ·)) q'.rest q.rest

/-- The same pool, as far as the part `π` of the store can tell. -/
structure Erases (π : σ' → σ) (p' : Pool C L σ' ι ε α) (p : Pool C L σ ι ε α) : Prop where
  store : π p'.store = p.store
  procs : List.Forall₂ (ProcErases π) p'.procs p.procs

section Forall

variable {A B : Type} {R : A → B → Prop} {xs : List A} {ys : List B}

theorem forall₂_getElem? (h : List.Forall₂ R xs ys) (n : ℕ) : Option.Rel R xs[n]? ys[n]? := by
  induction h generalizing n with
  | nil => exact .none
  | cons hab _ ih =>
    cases n with
    | zero => exact .some hab
    | succ n => exact ih n

theorem forall₂_set (h : List.Forall₂ R xs ys) {a : A} {b : B} (hab : R a b) (n : ℕ) :
    List.Forall₂ R (xs.set n a) (ys.set n b) := by
  induction h generalizing n with
  | nil => exact .nil
  | cons hxy htail ih =>
    cases n with
    | zero => exact .cons hab htail
    | succ n => exact .cons hxy (ih n)

end Forall

/-- A call before a statement stands before the statement of that name in the other pool. -/
theorem Erases.waiting {π : σ' → σ} {p' : Pool C L σ' ι ε α} {p : Pool C L σ ι ε α}
    (h : p'.Erases π p) {n : ℕ} {c : C} {l : L} {f' : σ' → ι → σ'}
    {k' : σ' → ι → Prog L σ' ι ε α} (hn : p'.procs[n]? = some ⟨c, some (.stmt l f' k')⟩) :
    ∃ f k, p.procs[n]? = some ⟨c, some (.stmt l f k)⟩ ∧
      ∀ s i, π (f' s i) = f (π s) i ∧ Prog.Erases π (· = ·) (k' s i) (k (π s) i) := by
  have hrel := forall₂_getElem? h.procs n
  rw [hn] at hrel
  cases hp : p.procs[n]? with
  | none =>
    rw [hp] at hrel
    cases hrel
  | some q =>
    rw [hp] at hrel
    obtain ⟨c', rest⟩ := q
    cases hrel with
    | some hq =>
      obtain ⟨rfl, hrest⟩ := hq
      cases hrest with
      | some hr =>
        cases hr with
        | stmt hf hk => exact ⟨_, _, rfl, fun s i => ⟨hf s i, hk s i⟩⟩

/-- One action of the larger programs is one action of the smaller ones. -/
theorem Erases.step {body' : C → Prog L σ' ι ε α} {body : C → Prog L σ ι ε α} {π : σ' → σ}
    (hbody : ∀ c, (body' c).Erases π (· = ·) (body c)) {p' q' : Pool C L σ' ι ε α}
    {p : Pool C L σ ι ε α} {a : Act C ι} (h : p'.Erases π p) (hs : p'.step body' a = some q') :
    ∃ q, p.step body a = some q ∧ q'.Erases π q := by
  cases a with
  | spawn c =>
    obtain rfl := Option.some.inj hs
    exact ⟨_, rfl, h.store, List.rel_append h.procs (.cons ⟨rfl, .some (hbody c)⟩ .nil)⟩
  | exec n i =>
    simp only [Pool.step] at hs
    split at hs
    · next c l f' k' hn =>
      obtain rfl := Option.some.inj hs
      obtain ⟨f, k, hn', hstep⟩ := h.waiting hn
      obtain ⟨hf, hk⟩ := hstep p'.store i
      rw [h.store] at hf hk
      exact ⟨⟨f p.store i, p.procs.set n ⟨c, some (k p.store i)⟩⟩, by simp only [Pool.step, hn'], hf,
        forall₂_set h.procs ⟨rfl, .some hk⟩ n⟩
    · cases hs
  | kill n =>
    simp only [Pool.step] at hs
    split at hs
    · next c l f' k' hn =>
      obtain rfl := Option.some.inj hs
      obtain ⟨f, k, hn', -⟩ := h.waiting hn
      exact ⟨⟨p.store, p.procs.set n ⟨c, none⟩⟩, by simp only [Pool.step, hn'], h.store,
        forall₂_set h.procs ⟨rfl, .none⟩ n⟩
    · cases hs

/-- **Erasure.**  Every history of the larger programs is, on the part, a history of the
smaller ones. -/
theorem Reach.erase {body' : C → Prog L σ' ι ε α} {body : C → Prog L σ ι ε α} {π : σ' → σ}
    (hbody : ∀ c, (body' c).Erases π (· = ·) (body c)) {s₀ : σ'} {h' : Hist C L σ' ι ε α}
    {p' : Pool C L σ' ι ε α} (hr : Reach body' s₀ h' p') :
    ∃ h p, Reach body (π s₀) h p ∧ p'.Erases π p := by
  induction hr with
  | init => exact ⟨[], _, .init, rfl, .nil⟩
  | step _ hs ih =>
    obtain ⟨h, p, hr, herase⟩ := ih
    obtain ⟨q, hq, hqerase⟩ := herase.step hbody hs
    exact ⟨_, q, .step hr hq, hqerase⟩

end Pool
