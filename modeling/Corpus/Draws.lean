/-
Runs whose inputs are known.

`Steps` says which statements have run; where a result depends on what the environment
answered, `Drawn` keeps the answers too, oldest first.  `wpd` is `wp` with assertions that see
them: `wpd P R p is s` is about the program `p` that has drawn `is` before it stands at `s`.

* `Drawn.steps` — such a run is a run;
* `wpd_sound` — what `wpd` asserts holds wherever a run stands.
-/
import Corpus.Prog

namespace Prog

variable {L σ ι ε α β : Type}

/-- `Drawn p s is q s'`: run alone from `s` and answered `is`, the program `p` reaches the rest
`q` with the store `s'`. -/
inductive Drawn : Prog L σ ι ε α → σ → List ι → Prog L σ ι ε α → σ → Prop where
  | refl (p : Prog L σ ι ε α) (s : σ) : Drawn p s [] p s
  | head (l : L) (f : σ → ι → σ) (k : σ → ι → Prog L σ ι ε α) (s : σ) (i : ι) {is : List ι}
      {q : Prog L σ ι ε α} {s' : σ} :
      Drawn (k s i) (f s i) is q s' → Drawn (stmt l f k) s (i :: is) q s'

theorem Drawn.steps {p q : Prog L σ ι ε α} {s s' : σ} {is : List ι} (h : Drawn p s is q s') :
    ∃ ls, Steps p s ls q s' := by
  induction h with
  | refl p s => exact ⟨[], .refl p s⟩
  | head l f k s i _ ih =>
    obtain ⟨ls, hls⟩ := ih
    exact ⟨l :: ls, .head l f k s i hls⟩

/-- A run that stops at the latest when its inputs are used up has drawn the first of them. -/
theorem drawn_runPart {p : Prog L σ ι ε α} : ∀ (is : List ι) (s : σ),
    Drawn p s (is.take (p.runPart is s).1.length) (p.runPart is s).2.1 (p.runPart is s).2.2 := by
  induction p with
  | ret a => exact fun is s => .refl _ _
  | err e => exact fun is s => .refl _ _
  | stmt l f k ih =>
    intro is s
    cases is with
    | nil => exact .refl _ _
    | cons i is => exact .head l f k s i (ih s i is (f s i))

/-- `wpd P R p is s`: every run of `p`, which has drawn `is` so far and stands at `s`, sees `P`
before each statement and ends in `R`. -/
def wpd (P : L → List ι → σ → Prop) (R : Except ε α → List ι → σ → Prop) :
    Prog L σ ι ε α → List ι → σ → Prop
  | ret a, is, s => R (.ok a) is s
  | err e, is, s => R (.error e) is s
  | stmt l f k, is, s => P l is s ∧ ∀ i, wpd P R (k s i) (is ++ [i]) (f s i)

variable {P : L → List ι → σ → Prop} {R : Except ε α → List ι → σ → Prop} {is : List ι} {s : σ}

@[simp] theorem wpd_ret (a : α) : wpd P R (ret a) is s ↔ R (.ok a) is s := Iff.rfl

@[simp] theorem wpd_err (e : ε) : wpd P R (err e) is s ↔ R (.error e) is s := Iff.rfl

@[simp] theorem wpd_stmt (l : L) (f : σ → ι → σ) (k : σ → ι → Prog L σ ι ε α) :
    wpd P R (stmt l f k) is s ↔ P l is s ∧ ∀ i, wpd P R (k s i) (is ++ [i]) (f s i) := Iff.rfl

/-- The rule for a statement that may change the store although it fails. -/
theorem wpd_call_bind {R : Except ε β → List ι → σ → Prop} {l : L} {f : σ → ι → Except ε α × σ}
    {g : α → Prog L σ ι ε β} :
    wpd P R (call l f >>= g) is s ↔ P l is s ∧ ∀ i, match (f s i).1 with
      | .ok a => wpd P R (g a) (is ++ [i]) (f s i).2
      | .error e => R (.error e) (is ++ [i]) (f s i).2 := by
  rw [call, stmt_bind, wpd_stmt]
  refine and_congr_right fun _ => forall_congr' fun i => ?_
  cases (f s i).1 <;> rfl

/-- The rule for a statement that may fail. -/
theorem wpd_exec_bind {R : Except ε β → List ι → σ → Prop} {l : L} {f : σ → ι → Except ε (α × σ)}
    {g : α → Prog L σ ι ε β} :
    wpd P R (exec l f >>= g) is s ↔ P l is s ∧ ∀ i, match f s i with
      | .ok r => wpd P R (g r.1) (is ++ [i]) r.2
      | .error e => R (.error e) (is ++ [i]) s := by
  rw [exec_bind, wpd_stmt]
  refine and_congr_right fun _ => forall_congr' fun i => ?_
  cases f s i <;> rfl

/-- What holds whatever is drawn from here on. -/
theorem wpd_of_wp {p : Prog L σ ι ε α} : ∀ {is : List ι} {s : σ},
    wp (fun l s => ∀ js, P l (is ++ js) s) (fun r s => ∀ js, R r (is ++ js) s) p s →
      wpd P R p is s := by
  have hnil : ∀ {Q : List ι → Prop} {is : List ι}, (∀ js, Q (is ++ js)) → Q is :=
    fun {Q is} h => by simpa using h []
  induction p with
  | ret a => exact fun h => hnil (Q := fun js => R (.ok a) js _) h
  | err e => exact fun h => hnil (Q := fun js => R (.error e) js _) h
  | stmt l f k ih =>
    intro is s h
    refine ⟨hnil (Q := fun js => P l js s) h.1, fun i => ih s i ?_⟩
    refine wp_mono (fun l t ht js => ?_) (fun r t ht js => ?_) (h.2 i)
    · rw [List.append_assoc]
      exact ht (i :: js)
    · rw [List.append_assoc]
      exact ht (i :: js)

/-- **Soundness**: what `wpd` asserts holds of whatever rest of the program a run has reached. -/
theorem wpd_sound {p q : Prog L σ ι ε α} {s s' : σ} {js : List ι} (hrun : Drawn p s js q s') :
    ∀ {is : List ι}, wpd P R p is s → wpd P R q (is ++ js) s' := by
  induction hrun with
  | refl p s => exact fun {is} h => by rwa [List.append_nil]
  | @head l f k s i js q s' _ ih =>
    intro is h
    have hrest := ih (h.2 i)
    rwa [List.append_assoc] at hrest

end Prog
