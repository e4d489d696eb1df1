/-
Programs among others: what the statements of a program keep, and rely on.

`Keeps R Ok Q p s` is a weakest precondition with interference.  Before each
statement of `p` the store may have moved along `R`, and each statement moves it
along `R`; a result satisfies `Q` when it is returned.  `Ok` is what is assumed of
the statements themselves, in the store they run in.

* `Keeps.returned`, `keeps_bind`, `Within.keeps` — the rules;
* `Pool.Reach.kept` — if every call keeps `R` from any store that `R` leads to, then
  `R` leads from the first store of a history to the last;
* `Maintains`, `Pool.Reach.maintained` — the case of an invariant, when what a program has
  read does not depend on the store any more.

With equality for `R`, a program that keeps it changes nothing.
-/
import Corpus.Pool

namespace Prog

variable {L L' σ σ' ι ι' ε α β : Type}

/-- Every statement of the program takes the store along `R`, whatever has moved it along
`R` before, as long as the statements are `Ok`. -/
def Keeps (R : σ → σ → Prop) (Ok : L → ι → σ → Prop) (Q : α → σ → Prop) :
    Prog L σ ι ε α → σ → Prop
  | ret a, s => Q a s
  | err _, _ => True
  | stmt l f k, s => ∀ s', R s s' → ∀ i, Ok l i s' →
      R s' (f s' i) ∧ (k s' i).Keeps R Ok Q (f s' i)

section Keeps

variable {R : σ → σ → Prop} {Ok : L → ι → σ → Prop} {Q Q' : α → σ → Prop}

theorem Keeps.mono (hQ : ∀ a s, Q a s → Q' a s) {p : Prog L σ ι ε α} : ∀ {s : σ},
    p.Keeps R Ok Q s → p.Keeps R Ok Q' s := by
  induction p with
  | ret a => exact fun h => hQ _ _ h
  | err e => exact fun _ => trivial
  | stmt l f k ih => exact fun h s' hs i hok => ⟨(h s' hs i hok).1, ih s' i (h s' hs i hok).2⟩

/-- Sequencing. -/
theorem keeps_bind {Q' : β → σ → Prop} {p : Prog L σ ι ε α} {g : α → Prog L σ ι ε β} : ∀ {s : σ},
    p.Keeps R Ok Q s → (∀ a s, Q a s → (g a).Keeps R Ok Q' s) → (p >>= g).Keeps R Ok Q' s := by
  induction p with
  | ret a => exact fun h hg => hg a _ h
  | err e => exact fun _ _ => trivial
  | stmt l f k ih =>
    intro s h hg s' hs i hok
    exact ⟨(h s' hs i hok).1, ih s' i (h s' hs i hok).2 hg⟩

/-- What follows a program that gives no result does not matter. -/
theorem Keeps.bind_of_fails {Q : β → σ → Prop} {p : Prog L σ ι ε α} {s : σ}
    (h : p.Keeps R Ok (fun _ _ => False) s) (g : α → Prog L σ ι ε β) :
    (p >>= g).Keeps R Ok Q s :=
  keeps_bind h fun _ _ hfalse => False.elim hfalse

/-- A statement that may fail, and only then changes nothing. -/
theorem keeps_exec (hrefl : ∀ s, R s s) {l : L} {f : σ → ι → Except ε (α × σ)} {s : σ}
    (h : ∀ s', R s s' → ∀ i, Ok l i s' → ∀ a s'', f s' i = .ok (a, s'') → R s' s'' ∧ Q a s'') :
    (exec l f).Keeps R Ok Q s := by
  intro s' hs i hok
  have hrun := h s' hs i hok
  dsimp only
  cases hf : f s' i with
  | ok r => exact hrun r.1 r.2 hf
  | error e => exact ⟨hrefl s', trivial⟩

/-- A query whose answer may use what is assumed of the statement. -/
theorem keeps_query_bind (hrefl : ∀ s, R s s) {l : L} {q : σ → β} {g : β → Prog L σ ι ε α} {s : σ}
    (h : ∀ s', R s s' → ∀ i, Ok l i s' → (g (q s')).Keeps R Ok Q s') :
    (query l q >>= g).Keeps R Ok Q s :=
  fun s' hs i hok => ⟨hrefl s', h s' hs i hok⟩

theorem keeps_loop {γ : Type} {J : γ → σ → Prop} {body : γ → β → Prog L σ ι ε γ}
    (hbody : ∀ c x s, J c s → (body c x).Keeps R Ok J s) (xs : List β) :
    ∀ c s, J c s → (loop body xs c).Keeps R Ok J s := by
  induction xs with
  | nil => exact fun c s hc => hc
  | cons x xs ih => exact fun c s hc => keeps_bind (hbody c x s hc) ih

/-- A loop, for an assertion on what is left of it. -/
theorem keeps_loop_rest {γ : Type} {J : List β → γ → σ → Prop} {body : γ → β → Prog L σ ι ε γ}
    (hbody : ∀ c x xs s, J (x :: xs) c s → (body c x).Keeps R Ok (J xs) s) (xs : List β) :
    ∀ c s, J xs c s → (loop body xs c).Keeps R Ok (J []) s := by
  induction xs with
  | nil => exact fun c s hc => hc
  | cons x xs ih => exact fun c s hc => keeps_bind (hbody c x xs s hc) ih

theorem keeps_update {l : L} {f : σ → ι → σ} {Q : Unit → σ → Prop} {s : σ}
    (h : ∀ s', R s s' → ∀ i, R s' (f s' i) ∧ Q () (f s' i)) :
    (update l f : Prog L σ ι ε Unit).Keeps R Ok Q s :=
  fun s' hs i _ => h s' hs i

theorem keeps_query (hrefl : ∀ s, R s s) {l : L} {q : σ → α} {s : σ}
    (h : ∀ s', R s s' → Q (q s') s') : (query l q : Prog L σ ι ε α).Keeps R Ok Q s :=
  fun s' hs _ _ => ⟨hrefl s', h s' hs⟩

/-- A part whose statements move the store along `R` as long as `J`, which `R` keeps. -/
theorem Within.keeps {K : L → Prop} {F : L → σ → σ → Prop} {E : Prop} {J : σ → Prop}
    (hJ : ∀ s s', R s s' → J s → J s') (hF : ∀ l s s', F l s s' → J s → R s s')
    {p : Prog L σ ι ε α} (hp : p.Within K F E) :
    ∀ {s : σ}, J s → p.Keeps R Ok (fun _ s => J s) s := by
  induction p with
  | ret a => exact fun hs => hs
  | err e => exact fun _ => trivial
  | stmt l f k ih =>
    intro s hs s' hR i _
    have hmove := hF _ _ _ (hp.2 s' i).1 (hJ s s' hR hs)
    exact ⟨hmove, ih s' i (hp.2 s' i).2 (hJ _ _ hmove (hJ s s' hR hs))⟩

/-- A program on a part of the store. -/
theorem Keeps.zoom {R' : σ' → σ' → Prop} {Ok' : L' → ι' → σ' → Prop} {lab : L → L'}
    {π : Lens σ' σ} {inp : ι' → ι} (hget : ∀ s s', R' s s' → R (π.get s) (π.get s'))
    (hset : ∀ s x, R (π.get s) x → R' s (π.set s x))
    (hok : ∀ l i s, Ok' (lab l) i s → Ok l (inp i) (π.get s)) {p : Prog L σ ι ε α} :
    ∀ {s : σ'}, p.Keeps R Ok Q (π.get s) →
      (p.zoom lab π inp).Keeps R' Ok' (fun a s => Q a (π.get s)) s := by
  induction p with
  | ret a => exact fun h => h
  | err e => exact fun _ => trivial
  | stmt l f k ih =>
    intro s h s' hs i hi
    obtain ⟨hmove, hrest⟩ := h _ (hget s s' hs) (inp i) (hok l i s' hi)
    refine ⟨hset _ _ hmove, ih _ _ ?_⟩
    rw [π.get_set]
    exact hrest

/-- As `keeps_exec`, for a statement that fails. -/
theorem keeps_exec_fails (hrefl : ∀ s, R s s) {l : L} {f : σ → ι → Except ε (α × σ)} {s : σ}
    (h : ∀ s', R s s' → ∀ i, Ok l i s' → ∃ e, f s' i = .error e) :
    (exec l f).Keeps R Ok (fun _ _ => False) s := by
  refine keeps_exec hrefl fun s' hs i hok a s'' hrun => ?_
  obtain ⟨e, he⟩ := h s' hs i hok
  exact absurd (hrun.symm.trans he) (by simp)

/-- A program that runs alone until its inputs are used up. -/
theorem Keeps.runPart (hrefl : ∀ s, R s s) (htrans : ∀ s s' s'', R s s' → R s' s'' → R s s'')
    {p : Prog L σ ι ε α} : ∀ {s : σ} {is : List ι},
    (∀ i ∈ is, ∀ l s', R s s' → Ok l i s') → p.Keeps R Ok Q s →
      R s (p.runPart is s).2.2 ∧ ∀ a, (p.runPart is s).2.1 = ret a → Q a (p.runPart is s).2.2 := by
  induction p with
  | ret a =>
    intro s is _ h
    refine ⟨hrefl s, fun b hb => ?_⟩
    obtain rfl : a = b := ret.inj hb
    exact h
  | err e => exact fun _ _ => ⟨hrefl _, fun a ha => nomatch ha⟩
  | stmt l f k ih =>
    intro s is hok h
    cases is with
    | nil => exact ⟨hrefl s, fun a ha => nomatch ha⟩
    | cons i is =>
      obtain ⟨hmove, hrest⟩ := h s (hrefl s) i (hok i List.mem_cons_self l s (hrefl s))
      have hok' : ∀ j ∈ is, ∀ l' s', R (f s i) s' → Ok l' j s' := fun j hj l' s' hs' =>
        hok j (List.mem_cons_of_mem i hj) l' s' (htrans _ _ _ hmove hs')
      obtain ⟨hR, hQ⟩ := ih s i hok' hrest
      exact ⟨htrans _ _ _ hmove hR, hQ⟩

/-- Run a program and turn an error that is caught into `none`. -/
def catching (caught : ε → Bool) : Prog L σ ι ε α → Prog L σ ι ε (Option α)
  | ret a => ret (some a)
  | err e => if caught e then ret none else err e
  | stmt l f k => stmt l f fun s i => (k s i).catching caught

/-- What others keep holds when an error is caught, too. -/
theorem Keeps.catching {J : σ → Prop} (hJ : ∀ s s', R s s' → J s → J s') (caught : ε → Bool)
    {p : Prog L σ ι ε α} : ∀ {s : σ}, p.Keeps R Ok Q s → J s →
      (p.catching caught).Keeps R Ok (fun r s => match r with
        | some a => Q a s
        | none => J s) s := by
  induction p with
  | ret a => exact fun h _ => h
  | err e =>
    intro s _ hs
    unfold Prog.catching
    split
    · exact hs
    · trivial
  | stmt l f k ih =>
    intro s h hs s' hR i hok
    obtain ⟨hmove, hrest⟩ := h s' hR i hok
    exact ⟨hmove, ih s' i hrest (hJ _ _ hmove (hJ _ _ hR hs))⟩

/-- What others keep holds of a result, too. -/
theorem Keeps.stays {J : σ → Prop} (hJ : ∀ s s', R s s' → J s → J s') {p : Prog L σ ι ε α} :
    ∀ {s : σ}, p.Keeps R Ok Q s → J s → p.Keeps R Ok (fun a s => Q a s ∧ J s) s := by
  induction p with
  | ret a => exact fun h hs => ⟨h, hs⟩
  | err e => exact fun _ _ => trivial
  | stmt l f k ih =>
    intro s h hs s' hR i hok
    obtain ⟨hmove, hrest⟩ := h s' hR i hok
    exact ⟨hmove, ih s' i hrest (hJ _ _ hmove (hJ _ _ hR hs))⟩

end Keeps

/-! ### Invariants -/

/-- Each statement of the program keeps `I`, in whatever store with `I` it runs, and a
result satisfies `Q`. -/
def Maintains (I : σ → Prop) (Q : α → Prop) : Prog L σ ι ε α → Prop
  | ret a => Q a
  | err _ => True
  | stmt _ f k => ∀ s i, I s → I (f s i) ∧ (k s i).Maintains I Q

section Maintains

variable {I : σ → Prop} {Q : α → Prop}

theorem maintains_bind {Q' : β → Prop} {p : Prog L σ ι ε α} {g : α → Prog L σ ι ε β}
    (hp : p.Maintains I Q) (hg : ∀ a, Q a → (g a).Maintains I Q') : (p >>= g).Maintains I Q' := by
  induction p with
  | ret a => exact hg a hp
  | err e => trivial
  | stmt l f k ih => exact fun s i hs => ⟨(hp s i hs).1, ih s i (hp s i hs).2⟩

theorem maintains_query {l : L} {q : σ → α} (h : ∀ s, I s → Q (q s)) :
    (query l q : Prog L σ ι ε α).Maintains I Q :=
  fun s _ hs => ⟨hs, h s hs⟩

theorem maintains_update {l : L} {f : σ → ι → σ} (h : ∀ s i, I s → I (f s i)) :
    (update l f : Prog L σ ι ε Unit).Maintains I fun _ => True :=
  fun s i hs => ⟨h s i hs, trivial⟩

theorem maintains_exec {l : L} {f : σ → ι → Except ε (α × σ)}
    (h : ∀ s i a s', I s → f s i = .ok (a, s') → I s' ∧ Q a) :
    (exec l f : Prog L σ ι ε α).Maintains I Q := by
  intro s i hs
  have hok := h s i
  dsimp only
  cases hf : f s i with
  | ok r => exact hok r.1 r.2 hs hf
  | error e => exact ⟨hs, trivial⟩

theorem maintains_loop {γ : Type} {J : γ → Prop} {body : γ → β → Prog L σ ι ε γ}
    (hbody : ∀ c x, J c → (body c x).Maintains I J) (xs : List β) :
    ∀ c, J c → (loop body xs c).Maintains I J := by
  induction xs with
  | nil => exact fun c hc => hc
  | cons x xs ih => exact fun c hc => maintains_bind (hbody c x hc) ih

/-- A loop, for what is known of its items. -/
theorem maintains_loop_mem {γ : Type} {J : γ → Prop} {body : γ → β → Prog L σ ι ε γ}
    (xs : List β) : ∀ (_ : ∀ x ∈ xs, ∀ c, J c → (body c x).Maintains I J) (c : γ), J c →
      (loop body xs c).Maintains I J := by
  induction xs with
  | nil => exact fun _ c hc => hc
  | cons x xs ih =>
    exact fun hbody c hc => maintains_bind (hbody x List.mem_cons_self c hc)
      (ih fun y hy => hbody y (List.mem_cons_of_mem x hy))

theorem Within.maintains {K : L → Prop} {F : L → σ → σ → Prop} {E : Prop}
    (hF : ∀ l s s', F l s s' → I s → I s') {p : Prog L σ ι ε α} (hp : p.Within K F E) :
    p.Maintains I fun _ => True := by
  induction p with
  | ret a => trivial
  | err e => trivial
  | stmt l f k ih => exact fun s i hs => ⟨hF _ _ _ (hp.2 s i).1 hs, ih s i (hp.2 s i).2⟩

theorem Maintains.wp {p : Prog L σ ι ε α} : ∀ {s : σ}, p.Maintains I Q → I s →
    Prog.wp (fun _ => I) (fun r s => I s ∧ ∀ a, r = .ok a → Q a) p s := by
  induction p with
  | ret a =>
    intro s h hs
    refine ⟨hs, fun b hb => ?_⟩
    obtain rfl := Except.ok.inj hb
    exact h
  | err e => exact fun _ hs => ⟨hs, nofun⟩
  | stmt l f k ih => exact fun {s} h hs => ⟨hs, fun i => ih s i (h s i hs).2 (h s i hs).1⟩

/-- With what is maintained itself, for what follows. -/
theorem Maintains.keeps_and {Ok : L → ι → σ → Prop} {p : Prog L σ ι ε α} : ∀ {s : σ},
    p.Maintains I Q → I s → p.Keeps (fun s s' => I s → I s') Ok (fun a s => Q a ∧ I s) s := by
  induction p with
  | ret a => exact fun h hs => ⟨h, hs⟩
  | err e => exact fun _ _ => trivial
  | stmt l f k ih =>
    intro s h hs s' hR i _
    obtain ⟨hmove, hrest⟩ := h s' i (hR hs)
    exact ⟨fun _ => hmove, ih s' i hrest hmove⟩

theorem Maintains.keeps {Ok : L → ι → σ → Prop} {p : Prog L σ ι ε α} {s : σ}
    (h : p.Maintains I Q) (hs : I s) : p.Keeps (fun s s' => I s → I s') Ok (fun a _ => Q a) s :=
  (h.keeps_and hs).mono fun _ _ hQ => hQ.1

end Maintains

end Prog

namespace Pool

variable {C L σ ι ε α : Type}

/-- An action whose statement is `Ok` for the call it belongs to. -/
def StepOk (Ok : C → L → ι → σ → Prop) (p : Pool C L σ ι ε α) : Act C ι → Prop
  | .exec n i => ∀ c l f k, p.procs[n]? = some ⟨c, some (.stmt l f k)⟩ → Ok c l i p.store
  | _ => True

theorem StepOk.of_forall {Ok : C → L → ι → σ → Prop} (h : ∀ c l i s, Ok c l i s)
    (p : Pool C L σ ι ε α) (a : Act C ι) : StepOk Ok p a := by
  unfold StepOk
  split
  · exact fun _ _ _ _ _ => h _ _ _ _
  · trivial

theorem StepOk.mono {Ok Ok' : C → L → ι → σ → Prop} (h : ∀ c l i s, Ok c l i s → Ok' c l i s)
    {p : Pool C L σ ι ε α} {a : Act C ι} (hok : StepOk Ok p a) : StepOk Ok' p a := by
  cases a with
  | spawn c => trivial
  | kill n => trivial
  | exec n i => exact fun c l f k hn => h _ _ _ _ (hok c l f k hn)

/-- As `StepOk`, to run. -/
def stepOk (ok : C → L → ι → σ → Bool) (p : Pool C L σ ι ε α) : Act C ι → Bool
  | .exec n i =>
    match p.procs[n]? with
    | some ⟨c, some (.stmt l _ _)⟩ => ok c l i p.store
    | _ => true
  | _ => true

theorem StepOk.of_run {ok : C → L → ι → σ → Bool} {p : Pool C L σ ι ε α} {a : Act C ι}
    (h : p.stepOk ok a = true) : StepOk (fun c l i s => ok c l i s = true) p a := by
  cases a with
  | spawn c => trivial
  | kill n => trivial
  | exec n i =>
    intro c l f k hn
    rw [stepOk, hn] at h
    exact h

private theorem kept_aux {body : C → Prog L σ ι ε α} {R : σ → σ → Prop}
    {Ok : C → L → ι → σ → Prop} {Q : C → α → σ → Prop} (hrefl : ∀ s, R s s)
    (htrans : ∀ s s' s'', R s s' → R s' s'' → R s s'') {s₀ : σ}
    (hbody : ∀ c s, R s₀ s → (body c).Keeps R (Ok c) (Q c) s)
    {h : Hist C L σ ι ε α} {p : Pool C L σ ι ε α} (hr : Reach body s₀ h p)
    (hok : ∀ e ∈ h, StepOk Ok e.1 e.2) :
    R s₀ p.store ∧ ∀ (n : ℕ) c r, p.procs[n]? = some ⟨c, some r⟩ →
      ∃ s, R s p.store ∧ r.Keeps R (Ok c) (Q c) s := by
  induction hr with
  | init =>
    refine ⟨hrefl s₀, fun n c r hn => ?_⟩
    rw [start, List.getElem?_nil] at hn
    cases hn
  | @step h p p' a _ hs ih =>
    obtain ⟨hR, hall⟩ := ih fun e he => hok e (List.mem_append_left _ he)
    have hlast : StepOk Ok p a := hok (p, a) (List.mem_append_right _ (List.mem_singleton_self _))
    cases a with
    | spawn c =>
      obtain rfl : _ = p' := Option.some.inj hs
      refine ⟨hR, fun n c' r hn => ?_⟩
      rcases List.mem_append.mp (List.mem_of_getElem? hn) with hmem | hmem
      · obtain ⟨m, hm⟩ := List.mem_iff_getElem?.mp hmem
        exact hall m c' r hm
      · cases List.mem_singleton.mp hmem
        exact ⟨p.store, hrefl _, hbody c p.store hR⟩
    | exec n i =>
      simp only [Pool.step] at hs
      split at hs
      · next c l f k hn =>
        obtain rfl : _ = p' := Option.some.inj hs
        obtain ⟨s, hRs, hkeeps⟩ := hall n c _ hn
        obtain ⟨hmove, hrest⟩ := hkeeps p.store hRs i (hlast c l f k hn)
        refine ⟨htrans _ _ _ hR hmove, fun m c' r hm => ?_⟩
        rcases eq_or_ne n m with rfl | hne
        · rw [List.getElem?_set_self (List.getElem?_eq_some_iff.mp hn).1] at hm
          cases hm
          exact ⟨_, hrefl _, hrest⟩
        · rw [List.getElem?_set_ne hne] at hm
          obtain ⟨s₁, hs₁, hk₁⟩ := hall m c' r hm
          exact ⟨s₁, htrans _ _ _ hs₁ hmove, hk₁⟩
      · cases hs
    | kill n =>
      simp only [Pool.step] at hs
      split at hs
      · next c l f k hn =>
        obtain rfl : _ = p' := Option.some.inj hs
        refine ⟨hR, fun m c' r hm => ?_⟩
        rcases eq_or_ne n m with rfl | hne
        · rw [List.getElem?_set_self (List.getElem?_eq_some_iff.mp hn).1] at hm
          cases hm
        · rw [List.getElem?_set_ne hne] at hm
          exact hall m c' r hm
      · cases hs

/-- **Rely and guarantee.**  When every call keeps `R`, so does every history whose
statements are `Ok`. -/
theorem Reach.kept {body : C → Prog L σ ι ε α} {R : σ → σ → Prop} {Ok : C → L → ι → σ → Prop}
    {Q : C → α → σ → Prop} (hrefl : ∀ s, R s s)
    (htrans : ∀ s s' s'', R s s' → R s' s'' → R s s'') {s₀ : σ}
    (hbody : ∀ c s, R s₀ s → (body c).Keeps R (Ok c) (Q c) s)
    {h : Hist C L σ ι ε α} {p : Pool C L σ ι ε α} (hr : Reach body s₀ h p)
    (hok : ∀ e ∈ h, StepOk Ok e.1 e.2) : R s₀ p.store :=
  (kept_aux hrefl htrans hbody hr hok).1

/-- As `Reach.kept`, for a call of the history that has returned. -/
theorem Reach.returned {body : C → Prog L σ ι ε α} {R : σ → σ → Prop} {Ok : C → L → ι → σ → Prop}
    {Q : C → α → σ → Prop} (hrefl : ∀ s, R s s)
    (htrans : ∀ s s' s'', R s s' → R s' s'' → R s s'') {s₀ : σ}
    (hbody : ∀ c s, R s₀ s → (body c).Keeps R (Ok c) (Q c) s)
    {h : Hist C L σ ι ε α} {p : Pool C L σ ι ε α} (hr : Reach body s₀ h p)
    (hok : ∀ e ∈ h, StepOk Ok e.1 e.2) {n : ℕ} {c : C} {a : α}
    (hn : p.procs[n]? = some ⟨c, some (.ret a)⟩) : ∃ s, R s p.store ∧ Q c a s :=
  (kept_aux hrefl htrans hbody hr hok).2 n c _ hn

/-- What every call maintains holds in every store of a history. -/
theorem Reach.maintained {body : C → Prog L σ ι ε α} {I : σ → Prop} {Q : C → α → Prop} {s₀ : σ}
    (hs₀ : I s₀) (hbody : ∀ c, (body c).Maintains I (Q c)) {h : Hist C L σ ι ε α}
    {p : Pool C L σ ι ε α} (hr : Reach body s₀ h p) : I p.store := by
  have hok : ∀ e ∈ h, StepOk (fun _ _ _ _ => True) e.1 e.2 :=
    fun e _ => .of_forall (fun _ _ _ _ => trivial) e.1 e.2
  exact hr.kept (R := fun s s' => I s → I s') (Q := fun c a _ => Q c a) (fun _ hs => hs)
    (fun _ _ _ h h' hs => h' (h hs)) (fun c s hs => (hbody c).keeps (hs hs₀)) hok hs₀

end Pool
