/-
Keys made up by concurrent calls.

The rows of a store have keys that are never given up.  A program `Mints` if the key of its
result, should it have one, is one that it has put into the store itself, where it was not
before.

* `mints_bind`, `mints_exec_bind` — the rules;
* `Pool.Reach.key_apart` — in every interleaving of such programs, two calls that have returned
  the same key are one call.
-/
import Corpus.Pool
import Mathlib.Data.Set.Basic

namespace Prog

variable {L σ ι ε α β κ : Type}

/-- No statement gives up a key, and every result has the key `u`. -/
def Gives (keys : σ → Set κ) (key : α → Option κ) (u : κ) : Prog L σ ι ε α → Prop
  | ret a => key a = some u
  | err _ => True
  | stmt _ f k => ∀ s i, keys s ⊆ keys (f s i) ∧ (k s i).Gives keys key u

/-- No statement gives up a key, and a result has none, or one that a statement has added. -/
def Mints (keys : σ → Set κ) (key : α → Option κ) : Prog L σ ι ε α → Prop
  | ret a => key a = none
  | err _ => True
  | stmt _ f k => ∀ s i, keys s ⊆ keys (f s i) ∧
      ((k s i).Mints keys key ∨ ∃ u, u ∉ keys s ∧ u ∈ keys (f s i) ∧ (k s i).Gives keys key u)

variable {keys : σ → Set κ} {key : α → Option κ}

/-- A part that gives up no key, before one that gives `u`. -/
theorem gives_bind {u : κ} {p : Prog L σ ι ε β} {g : β → Prog L σ ι ε α}
    (hp : p.Within (fun _ => True) (fun _ s s' => keys s ⊆ keys s') True)
    (hg : ∀ b, (g b).Gives keys key u) : (p >>= g).Gives keys key u := by
  induction p with
  | ret b => exact hg b
  | err e => trivial
  | stmt l f k ih => exact fun s i => ⟨(hp.2 s i).1, ih s i (hp.2 s i).2⟩

/-- A part that gives up no key, before one that mints. -/
theorem mints_bind {p : Prog L σ ι ε β} {g : β → Prog L σ ι ε α}
    (hp : p.Within (fun _ => True) (fun _ s s' => keys s ⊆ keys s') True)
    (hg : ∀ b, (g b).Mints keys key) : (p >>= g).Mints keys key := by
  induction p with
  | ret b => exact hg b
  | err e => trivial
  | stmt l f k ih => exact fun s i => ⟨(hp.2 s i).1, .inl (ih s i (hp.2 s i).2)⟩

/-- The statement that adds the key. -/
theorem mints_exec_bind {l : L} {f : σ → ι → Except ε (β × σ)} {g : β → Prog L σ ι ε α}
    (h : ∀ s i b s', f s i = .ok (b, s') → keys s ⊆ keys s' ∧
      ∃ u, u ∉ keys s ∧ u ∈ keys s' ∧ (g b).Gives keys key u) :
    (exec l f >>= g).Mints keys key := by
  intro s i
  have hrun := h s i
  dsimp only
  cases hf : f s i with
  | ok r =>
    obtain ⟨hkeys, hnew⟩ := hrun r.1 r.2 hf
    exact ⟨hkeys, .inr hnew⟩
  | error e => exact ⟨subset_rfl, .inl trivial⟩

end Prog

namespace Pool

variable {C L σ ι ε α κ : Type}

/-- Which calls have added which key, each key one call. -/
structure Minted (keys : σ → Set κ) (key : α → Option κ) (own : ℕ → Option κ)
    (p : Pool C L σ ι ε α) : Prop where
  there : ∀ {n u}, own n = some u → n < p.procs.length ∧ u ∈ keys p.store
  once : ∀ {n m u}, own n = some u → own m = some u → n = m
  gives : ∀ {n c q u}, p.procs[n]? = some ⟨c, some q⟩ → own n = some u → q.Gives keys key u
  mints : ∀ {n c q}, p.procs[n]? = some ⟨c, some q⟩ → own n = none → q.Mints keys key

variable {keys : σ → Set κ} {key : α → Option κ} {own : ℕ → Option κ} {p : Pool C L σ ι ε α}

/-- One call moves, and gives up no key. -/
theorem Minted.set (h : Minted keys key own p) {n : ℕ} {c : C} {q' : Option (Prog L σ ι ε α)}
    {s' : σ} (hkeys : keys p.store ⊆ keys s')
    (hgives : ∀ r u, q' = some r → own n = some u → r.Gives keys key u)
    (hmints : ∀ r, q' = some r → own n = none → r.Mints keys key) :
    Minted keys key own ⟨s', p.procs.set n ⟨c, q'⟩⟩ := by
  have hcase : ∀ {m c' r}, (p.procs.set n ⟨c, q'⟩)[m]? = some ⟨c', some r⟩ →
      (m = n ∧ q' = some r) ∨ p.procs[m]? = some ⟨c', some r⟩ := by
    intro m c' r hm
    rw [List.getElem?_set] at hm
    split at hm
    · next heq =>
      split at hm
      · cases hm
        exact .inl ⟨heq.symm, rfl⟩
      · cases hm
    · exact .inr hm
  refine ⟨fun hn => ?_, h.once, fun hm hown => ?_, fun hm hown => ?_⟩
  · rw [List.length_set]
    exact ⟨(h.there hn).1, hkeys (h.there hn).2⟩
  · rcases hcase hm with ⟨rfl, hq⟩ | hm
    · exact hgives _ _ hq hown
    · exact h.gives hm hown
  · rcases hcase hm with ⟨rfl, hq⟩ | hm
    · exact hmints _ hq hown
    · exact h.mints hm hown

/-- The call that adds a key has none yet, and nobody has this one. -/
theorem Minted.update (h : Minted keys key own p) {n : ℕ} {c : C} {q q' : Prog L σ ι ε α} {s' : σ}
    {u : κ} (hn : p.procs[n]? = some ⟨c, some q⟩) (hnone : own n = none)
    (hkeys : keys p.store ⊆ keys s') (hnew : u ∉ keys p.store) (hadd : u ∈ keys s')
    (hgives : q'.Gives keys key u) :
    Minted keys key (Function.update own n (some u)) ⟨s', p.procs.set n ⟨c, some q'⟩⟩ := by
  have hlt := (List.getElem?_eq_some_iff.mp hn).1
  -- Any other call has a key that was there before.
  have hother : ∀ {m v}, m ≠ n → Function.update own n (some u) m = some v →
      own m = some v ∧ v ≠ u := by
    intro m v hne hv
    rw [Function.update_of_ne hne] at hv
    refine ⟨hv, ?_⟩
    rintro rfl
    exact hnew (h.there hv).2
  refine ⟨fun {m v} hv => ?_, fun {m m' v} hm hm' => ?_, fun {m c' r v} hm hv => ?_,
    fun {m c' r} hm hv => ?_⟩
  · show m < (p.procs.set n _).length ∧ v ∈ keys s'
    rw [List.length_set]
    rcases eq_or_ne m n with rfl | hne
    · rw [Function.update_self] at hv
      cases hv
      exact ⟨hlt, hadd⟩
    · obtain ⟨hv, -⟩ := hother hne hv
      exact ⟨(h.there hv).1, hkeys (h.there hv).2⟩
  · by_cases hmn : m = n <;> by_cases hmn' : m' = n
    · exact hmn.trans hmn'.symm
    · subst hmn
      rw [Function.update_self] at hm
      exact absurd (Option.some.inj hm).symm (hother hmn' hm').2
    · subst hmn'
      rw [Function.update_self] at hm'
      exact absurd (Option.some.inj hm').symm (hother hmn hm).2
    · exact h.once (hother hmn hm).1 (hother hmn' hm').1
  · dsimp only at hm
    rcases eq_or_ne m n with rfl | hne
    · rw [List.getElem?_set_self hlt] at hm
      rw [Function.update_self] at hv
      cases hm
      cases hv
      exact hgives
    · rw [List.getElem?_set_ne hne.symm] at hm
      exact h.gives hm (hother hne hv).1
  · dsimp only at hm
    rcases eq_or_ne m n with rfl | hne
    · rw [Function.update_self] at hv
      cases hv
    · rw [Function.update_of_ne hne] at hv
      rw [List.getElem?_set_ne hne.symm] at hm
      exact h.mints hm hv

theorem Reach.minted {body : C → Prog L σ ι ε α} (hbody : ∀ c, (body c).Mints keys key) {s₀ : σ}
    {h : Hist C L σ ι ε α} (hr : Reach body s₀ h p) : ∃ own, Minted keys key own p := by
  induction hr with
  | init =>
    refine ⟨fun _ => none, ⟨fun hn => ?_, fun hn => ?_, fun _ hn => ?_, fun hn => ?_⟩⟩
    · cases hn
    · cases hn
    · cases hn
    · rw [start, List.getElem?_nil] at hn
      cases hn
  | @step h p p' a _ hs ih =>
    obtain ⟨own, hi⟩ := ih
    cases a with
    | spawn c =>
      obtain rfl : _ = p' := Option.some.inj hs
      -- The new call comes last, and owns nothing.
      have hlast : own p.procs.length = none := by
        by_contra hne
        obtain ⟨u, hu⟩ := Option.ne_none_iff_exists'.mp hne
        exact absurd (hi.there hu).1 (Nat.lt_irrefl _)
      have hcase : ∀ {m c' r}, (p.procs ++ [⟨c, some (body c)⟩])[m]? = some ⟨c', some r⟩ →
          p.procs[m]? = some ⟨c', some r⟩ ∨ (m = p.procs.length ∧ r = body c) := by
        intro m c' r hm
        rw [List.getElem?_append] at hm
        split at hm
        · exact .inl hm
        · next hge =>
          obtain ⟨hlt, heq⟩ := List.getElem?_eq_some_iff.mp hm
          simp only [List.length_singleton, Nat.lt_one_iff] at hlt
          simp only [hlt, List.getElem_singleton] at heq
          cases heq
          exact .inr ⟨by omega, rfl⟩
      refine ⟨own, fun {n u} hn => ?_, hi.once, fun {m c' r u} hm hu => ?_,
        fun {m c' r} hm hu => ?_⟩
      · show n < (p.procs ++ [_]).length ∧ _
        rw [List.length_append]
        exact ⟨Nat.lt_add_right _ (hi.there hn).1, (hi.there hn).2⟩
      · rcases hcase hm with hm | ⟨rfl, rfl⟩
        · exact hi.gives hm hu
        · rw [hlast] at hu
          cases hu
      · rcases hcase hm with hm | ⟨rfl, rfl⟩
        · exact hi.mints hm hu
        · exact hbody c
    | exec n i =>
      simp only [Pool.step] at hs
      split at hs
      · next c l f k hn =>
        obtain rfl : _ = p' := Option.some.inj hs
        cases hown : own n with
        | none =>
          obtain ⟨hkeys, hnext⟩ := hi.mints hn hown p.store i
          rcases hnext with hnext | ⟨u, hnew, hadd, hnext⟩
          · refine ⟨own, hi.set hkeys (fun r u _ hu => ?_) fun r hr _ => ?_⟩
            · rw [hown] at hu
              cases hu
            · obtain rfl := Option.some.inj hr
              exact hnext
          · exact ⟨_, hi.update hn hown hkeys hnew hadd hnext⟩
        | some u =>
          obtain ⟨hkeys, hnext⟩ := hi.gives hn hown p.store i
          refine ⟨own, hi.set hkeys (fun r v hr hv => ?_) fun r _ hnone => ?_⟩
          · obtain rfl := Option.some.inj hr
            obtain rfl := Option.some.inj (hown.symm.trans hv)
            exact hnext
          · rw [hown] at hnone
            cases hnone
      · cases hs
    | kill n =>
      simp only [Pool.step] at hs
      split at hs
      · next c l f k hn =>
        obtain rfl : _ = p' := Option.some.inj hs
        refine ⟨own, hi.set subset_rfl (fun _ _ hr => ?_) fun _ hr => ?_⟩
        · cases hr
        · cases hr
      · cases hs

/-- A call that has returned a key has added it. -/
theorem Minted.own_eq (h : Minted keys key own p) {n : ℕ} {c : C} {a : α} {u : κ}
    (hn : p.procs[n]? = some ⟨c, some (.ret a)⟩) (hu : key a = some u) : own n = some u := by
  cases hown : own n with
  | none =>
    have hnone : key a = none := h.mints hn hown
    rw [hu] at hnone
    cases hnone
  | some v =>
    have hv : key a = some v := h.gives hn hown
    rw [← hv, hu]

/-- **Keys are told apart**: two calls that have returned the same key are one call. -/
theorem Reach.key_apart {body : C → Prog L σ ι ε α} (hbody : ∀ c, (body c).Mints keys key)
    {s₀ : σ} {h : Hist C L σ ι ε α} (hr : Reach body s₀ h p) {n m : ℕ} {c d : C} {a b : α} {u : κ}
    (hn : p.procs[n]? = some ⟨c, some (.ret a)⟩) (hm : p.procs[m]? = some ⟨d, some (.ret b)⟩)
    (ha : key a = some u) (hb : key b = some u) : n = m := by
  obtain ⟨own, hi⟩ := hr.minted hbody
  exact hi.once (hi.own_eq hn ha) (hi.own_eq hm hb)

/-- A call that has returned stays as it is. -/
theorem step_returned {body : C → Prog L σ ι ε α} {p' : Pool C L σ ι ε α} {a : Act C ι}
    (hs : p.step body a = some p') {n : ℕ} {c : C} {r : α}
    (hn : p.procs[n]? = some ⟨c, some (.ret r)⟩) : p'.procs[n]? = some ⟨c, some (.ret r)⟩ := by
  have hlt := (List.getElem?_eq_some_iff.mp hn).1
  -- An action on the call `m` finds a statement there.
  have hset : ∀ {m q l f k}, p.procs[m]? = some ⟨q, some (.stmt l f k)⟩ →
      ∀ q', (p.procs.set m q')[n]? = some ⟨c, some (.ret r)⟩ := by
    intro m q l f k hm q'
    have hne : m ≠ n := by
      rintro rfl
      rw [hn] at hm
      cases hm
    rw [List.getElem?_set_ne hne]
    exact hn
  cases a with
  | spawn c' =>
    obtain rfl : _ = p' := Option.some.inj hs
    rw [List.getElem?_append_left hlt]
    exact hn
  | exec m i =>
    simp only [Pool.step] at hs
    split at hs
    · next hm =>
      obtain rfl : _ = p' := Option.some.inj hs
      exact hset hm _
    · cases hs
  | kill m =>
    simp only [Pool.step] at hs
    split at hs
    · next hm =>
      obtain rfl : _ = p' := Option.some.inj hs
      exact hset hm _
    · cases hs

end Pool
