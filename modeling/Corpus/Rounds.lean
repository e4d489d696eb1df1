/-
Loops whose rounds may panic.

A round adds to the output and ends the loop, or says where the loop goes on.  `loopFrom` runs
so many rounds, and has no result when they are used up; `loopFrom_spec` is the rule for loops
with an invariant and a measure.
-/
import Corpus.Machine

/-- What a round of a loop comes to. -/
inductive Round (σ ρ : Type) where
  | stop (out : List ρ)
  | next (out : List ρ) (s : σ)

variable {σ ρ : Type}

/-- The output of a loop from a state, in so many rounds; `none` when they are used up. -/
def loopFrom (round : σ → Checked (Round σ ρ)) : ℕ → σ → Option (Checked (List ρ))
  | 0, _ => none
  | fuel + 1, s =>
    match round s with
    | .error e => some (.error e)
    | .ok (.stop out) => some (.ok out)
    | .ok (.next out s') => (loopFrom round fuel s').map fun r => r.map (out ++ ·)

theorem loopFrom_stop {round : σ → Checked (Round σ ρ)} {s : σ} {out : List ρ}
    (h : round s = .ok (.stop out)) (fuel : ℕ) : loopFrom round (fuel + 1) s = some (.ok out) := by
  rw [loopFrom, h]

theorem loopFrom_next {round : σ → Checked (Round σ ρ)} {s s' : σ} {out rest : List ρ} {fuel : ℕ}
    (h : round s = .ok (.next out s')) (hrest : loopFrom round fuel s' = some (.ok rest)) :
    loopFrom round (fuel + 1) s = some (.ok (out ++ rest)) := by
  rw [loopFrom, h]
  dsimp only
  rw [hrest]
  rfl

/-- A loop whose rounds have results while an invariant holds, which they keep, and go down in
a measure, ends without a panic; what its output is follows round by round, from the end. -/
theorem loopFrom_spec {round : σ → Checked (Round σ ρ)} {I : σ → Prop} {d : σ → ℕ}
    {P : σ → List ρ → Prop}
    (h : ∀ s, I s → (∃ out, round s = .ok (.stop out) ∧ P s out) ∨
      ∃ out s', round s = .ok (.next out s') ∧ I s' ∧ d s' < d s ∧
        ∀ rest, P s' rest → P s (out ++ rest)) {s : σ} (hs : I s) :
    ∃ out, P s out ∧ ∀ fuel, d s < fuel → loopFrom round fuel s = some (.ok out) := by
  obtain ⟨n, hn⟩ : ∃ n, d s < n := ⟨d s + 1, Nat.lt_succ_self _⟩
  induction n generalizing s with
  | zero => exact absurd hn (Nat.not_lt_zero _)
  | succ n ih =>
    rcases h s hs with ⟨out, hround, hout⟩ | ⟨out, s', hround, hs', hlt, hout⟩
    · refine ⟨out, hout, fun fuel hfuel => ?_⟩
      obtain ⟨fuel, rfl⟩ := Nat.exists_eq_add_one_of_ne_zero (Nat.ne_zero_of_lt hfuel)
      exact loopFrom_stop hround fuel
    · obtain ⟨rest, hrest, hloop⟩ := ih hs' (by omega)
      refine ⟨out ++ rest, hout rest hrest, fun fuel hfuel => ?_⟩
      obtain ⟨fuel, rfl⟩ := Nat.exists_eq_add_one_of_ne_zero (Nat.ne_zero_of_lt hfuel)
      exact loopFrom_next hround (hloop fuel (by omega))
