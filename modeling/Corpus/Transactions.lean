/-
Transactions that see what is committed.

Each session runs a program over a pair: the committed data, and a workspace with the
changes of its own open transaction, which nobody else sees.  A statement sees the data
committed before it and may add to the workspace; a commit is the statement that moves
the workspace into the data.  A session that fails or is cut off loses its workspace.

A statement can be blocked by the workspace of another session, as a row lock or an
uncommitted unique key blocks it; it then waits until that session has ended, and runs
against the data of that moment.  This is the behaviour of READ COMMITTED.

* `Sessions`, `Sessions.step`, `Sessions.Reach` — the machine;
* `Reach.inv` — the rule for invariants: programs that make the moves of `T` keep
  whatever a new session, one unblocked move of `T` and the loss of a session keep.
-/
import Corpus.Prog
import Mathlib.Data.Nat.Notation
import Mathlib.Logic.Function.Basic

/-- A session: its workspace and what is left of its program. -/
structure Session (D L W ι ε α : Type) where
  work : W
  rest : Prog L (D × W) ι ε α

/-- The committed data and the sessions; a session that has ended is `none`. -/
structure Sessions (D L W ι ε α : Type) where
  db : D
  sessions : List (Option (Session D L W ι ε α))

/-- What can happen next: a session starts, the `n`-th one runs a statement with the
environment input `i`, or it is cut off. -/
inductive TxAct (C ι : Type) where
  | start (c : C)
  | exec (n : ℕ) (i : ι)
  | abort (n : ℕ)

namespace Sessions

variable {C D L W ι ε α : Type}

/-- The session goes on, or has ended. -/
def settle (w : W) : Prog L (D × W) ι ε α → Option (Session D L W ι ε α)
  | .stmt l f k => some ⟨w, .stmt l f k⟩
  | .ret _ | .err _ => none

/-- No session yet. -/
def start (d : D) : Sessions D L W ι ε α := ⟨d, []⟩

/-- The `n`-th session, while it lasts. -/
def get (p : Sessions D L W ι ε α) (n : ℕ) : Option (Session D L W ι ε α) := p.sessions[n]?.join

/-- Another session stands in the way of the statement `l` of the `n`-th one. -/
def blocked (blocks : L → ι → W → Bool) (p : Sessions D L W ι ε α) (n : ℕ) (l : L) (i : ι) : Bool :=
  (List.range p.sessions.length).any fun m => m ≠ n && (p.get m).any fun s => blocks l i s.work

/-- One action; `empty` is the workspace of a session that has changed nothing. -/
def step (body : C → Prog L (D × W) ι ε α) (blocks : L → ι → W → Bool) (empty : W)
    (p : Sessions D L W ι ε α) : TxAct C ι → Option (Sessions D L W ι ε α)
  | .start c => some ⟨p.db, p.sessions ++ [settle empty (body c)]⟩
  | .exec n i =>
    match p.get n with
    | some ⟨w, .stmt l f k⟩ =>
      if p.blocked blocks n l i then none
      else
        let r := f (p.db, w) i
        some ⟨r.1, p.sessions.set n (settle r.2 (k (p.db, w) i))⟩
    | _ => none
  | .abort n =>
    match p.get n with
    | some _ => some ⟨p.db, p.sessions.set n none⟩
    | none => none

/-- The states that any order of actions leads to. -/
inductive Reach (body : C → Prog L (D × W) ι ε α) (blocks : L → ι → W → Bool) (empty : W) (d₀ : D) :
    Sessions D L W ι ε α → Prop where
  | start : Reach body blocks empty d₀ (start d₀)
  | step {p p' : Sessions D L W ι ε α} {a : TxAct C ι} :
      Reach body blocks empty d₀ p → p.step body blocks empty a = some p' →
      Reach body blocks empty d₀ p'

/-- Run a list of actions. -/
def run (body : C → Prog L (D × W) ι ε α) (blocks : L → ι → W → Bool) (empty : W) :
    Sessions D L W ι ε α → List (TxAct C ι) → Option (Sessions D L W ι ε α)
  | p, [] => some p
  | p, a :: as =>
    match p.step body blocks empty a with
    | some p' => run body blocks empty p' as
    | none => none

theorem reach_run {body : C → Prog L (D × W) ι ε α} {blocks : L → ι → W → Bool} {empty : W} {d₀ : D} :
    ∀ (as : List (TxAct C ι)) {p p' : Sessions D L W ι ε α}, Reach body blocks empty d₀ p →
      run body blocks empty p as = some p' → Reach body blocks empty d₀ p' := by
  intro as
  induction as with
  | nil =>
    intro p p' hr heq
    obtain rfl := Option.some.inj heq
    exact hr
  | cons a as ih =>
    intro p p' hr heq
    cases hs : p.step body blocks empty a with
    | none => simp [run, hs] at heq
    | some q =>
      simp only [run, hs] at heq
      exact ih (.step hr hs) heq

/-! ### Where the sessions stand -/

/-- The statement a session is about to run, and its workspace. -/
def Session.point (s : Session D L W ι ε α) : Option (L × W) :=
  match s.rest with
  | .stmt l _ _ => some (l, s.work)
  | _ => none

/-- Where each session stands. -/
def points (p : Sessions D L W ι ε α) (n : ℕ) : Option (L × W) := (p.get n).bind Session.point

/-- Where a session stands after a statement. -/
def next (c : Ctl L α) (w : W) : Option (L × W) :=
  match c with
  | .at l => some (l, w)
  | _ => none

theorem point_settle (w : W) (q : Prog L (D × W) ι ε α) :
    (settle w q).bind Session.point = next q.ctl w := by
  cases q <;> rfl

theorem get_append {d : D} {xs : List (Option (Session D L W ι ε α))}
    (x : Option (Session D L W ι ε α)) (n : ℕ) :
    (⟨d, xs ++ [x]⟩ : Sessions D L W ι ε α).get n =
      if n = xs.length then x else (⟨d, xs⟩ : Sessions D L W ι ε α).get n := by
  unfold get
  by_cases hn : n = xs.length
  · subst hn
    simp
  · rw [if_neg hn]
    by_cases hlt : n < xs.length
    · rw [List.getElem?_append_left hlt]
    · have hge : xs.length + 1 ≤ n := by omega
      rw [List.getElem?_eq_none (by simpa using hge), List.getElem?_eq_none (Nat.le_of_succ_le hge)]

theorem get_set {d d' : D} {xs : List (Option (Session D L W ι ε α))} {n : ℕ} (hn : n < xs.length)
    (x : Option (Session D L W ι ε α)) (m : ℕ) :
    (⟨d', xs.set n x⟩ : Sessions D L W ι ε α).get m =
      if m = n then x else (⟨d, xs⟩ : Sessions D L W ι ε α).get m := by
  unfold get
  by_cases hm : m = n
  · subst hm
    simp [hn]
  · rw [if_neg hm, List.getElem?_set_ne (fun h => hm h.symm)]

theorem lt_of_get {p : Sessions D L W ι ε α} {n : ℕ} {s : Session D L W ι ε α}
    (h : p.get n = some s) : n < p.sessions.length := by
  by_contra hge
  rw [get, List.getElem?_eq_none (by omega)] at h
  cases h

/-- A session that a blocked statement does not wait for does not block it. -/
theorem not_blocks {blocks : L → ι → W → Bool} {p : Sessions D L W ι ε α} {n : ℕ} {l : L} {i : ι}
    (h : ¬ p.blocked blocks n l i = true) {m : ℕ} (hm : m ≠ n) {l' : L} {w' : W}
    (hp : p.points m = some (l', w')) : blocks l i w' = false := by
  obtain ⟨s, hs, hpoint⟩ := Option.bind_eq_some_iff.mp hp
  obtain ⟨w, rest⟩ := s
  cases rest with
  | ret _ => cases hpoint
  | err _ => cases hpoint
  | stmt l₁ f k =>
    obtain ⟨rfl, rfl⟩ := Prod.mk.inj (Option.some.inj hpoint)
    by_contra hb
    refine h (List.any_eq_true.mpr ⟨m, List.mem_range.mpr (lt_of_get hs), ?_⟩)
    rw [hs]
    simpa [hm] using hb

/-! ### Invariants -/

section Inv

variable {body : C → Prog L (D × W) ι ε α} {blocks : L → ι → W → Bool} {empty : W} {d₀ : D}
  {T : L → ι → D × W → D × W → Ctl L α → Prop}

/-- Every session is in the middle of a program that makes the moves of `T`. -/
def Follow (T : L → ι → D × W → D × W → Ctl L α → Prop) (p : Sessions D L W ι ε α) : Prop :=
  ∀ n s, p.get n = some s → s.rest.Takes T

theorem follow_settle {w : W} {q : Prog L (D × W) ι ε α} (hq : q.Takes T)
    {s : Session D L W ι ε α} (h : settle w q = some s) : s.rest.Takes T := by
  cases q with
  | ret _ => cases h
  | err _ => cases h
  | stmt l f k =>
    obtain rfl := Option.some.inj h
    exact hq

/-- What an action does to the data and to where the sessions stand, for sessions that
start at one of `entry`. -/
inductive Moves (T : L → ι → D × W → D × W → Ctl L α → Prop) (blocks : L → ι → W → Bool)
    (empty : W) (entry : L → Prop) (d : D) (v : ℕ → Option (L × W)) :
    D → (ℕ → Option (L × W)) → Prop where
  | opened {n l} : v n = none → entry l →
      Moves T blocks empty entry d v d (Function.update v n (some (l, empty)))
  | exec {n l w i d' w' c} : v n = some (l, w) →
      (∀ m ≠ n, ∀ l' w', v m = some (l', w') → blocks l i w' = false) →
      T l i (d, w) (d', w') c → Moves T blocks empty entry d v d' (Function.update v n (next c w'))
  | ended {n} : Moves T blocks empty entry d v d (Function.update v n none)

theorem points_append {d : D} {xs : List (Option (Session D L W ι ε α))}
    (x : Option (Session D L W ι ε α)) : (⟨d, xs ++ [x]⟩ : Sessions D L W ι ε α).points =
      Function.update (⟨d, xs⟩ : Sessions D L W ι ε α).points xs.length (x.bind Session.point) := by
  funext n
  unfold points
  rw [get_append]
  by_cases hn : n = xs.length
  · subst hn
    rw [if_pos rfl, Function.update_self]
  · rw [if_neg hn, Function.update_of_ne hn]

theorem points_set {p : Sessions D L W ι ε α} {n : ℕ} (hn : n < p.sessions.length) (d : D)
    (x : Option (Session D L W ι ε α)) : (⟨d, p.sessions.set n x⟩ : Sessions D L W ι ε α).points =
      Function.update p.points n (x.bind Session.point) := by
  funext m
  unfold points
  rw [get_set (d := p.db) hn]
  by_cases hm : m = n
  · subst hm
    rw [if_pos rfl, Function.update_self]
  · rw [if_neg hm, Function.update_of_ne hm]

theorem points_length (p : Sessions D L W ι ε α) : p.points p.sessions.length = none := by
  rw [points, get, List.getElem?_eq_none (Nat.le_refl _)]
  rfl

/-- An action keeps the programs, and is one of `Moves`. -/
theorem step_moves (hbody : ∀ c, (body c).Takes T) {entry : L → Prop}
    (hentry : ∀ c l, (body c).ctl = .at l → entry l) {p p' : Sessions D L W ι ε α}
    (hp : p.Follow T) {a : TxAct C ι} (h : p.step body blocks empty a = some p') :
    p'.Follow T ∧ Moves T blocks empty entry p.db p.points p'.db p'.points := by
  cases a with
  | start c =>
    obtain rfl := Option.some.inj h
    refine ⟨fun n s hs => ?_, ?_⟩
    · rw [get_append] at hs
      split at hs
      · exact follow_settle (hbody c) hs
      · exact hp n s hs
    · rw [points_append, point_settle]
      cases hc : (body c).ctl with
      | «at» l => exact .opened (points_length p) (hentry c l hc)
      | _ => exact .ended
  | exec n i =>
    unfold step at h
    dsimp only at h
    split at h
    · next w l f k hget =>
      split at h
      · cases h
      · next hfree =>
        obtain rfl := Option.some.inj h
        obtain ⟨hmove, hrest⟩ := hp n _ hget (p.db, w) i
        have hn := lt_of_get hget
        refine ⟨fun m s hs => ?_, ?_⟩
        · rw [get_set (d := p.db) hn] at hs
          split at hs
          · exact follow_settle hrest hs
          · exact hp m s hs
        · rw [points_set hn, point_settle]
          refine .exec (w := w) ?_ (fun m hm l' w' hm' => not_blocks hfree hm hm') hmove
          rw [points, hget]
          rfl
    · cases h
  | abort n =>
    unfold step at h
    dsimp only at h
    split at h
    · next s₀ hget =>
      obtain rfl := Option.some.inj h
      have hn := lt_of_get hget
      refine ⟨fun m s hs => ?_, ?_⟩
      · rw [get_set (d := p.db) hn] at hs
        split at hs
        · cases hs
        · exact hp m s hs
      · rw [points_set hn]
        exact .ended
    · cases h

/-- **The rule for invariants.** -/
theorem Reach.inv {p : Sessions D L W ι ε α} (hr : Reach body blocks empty d₀ p)
    (hbody : ∀ c, (body c).Takes T) {entry : L → Prop}
    (hentry : ∀ c l, (body c).ctl = .at l → entry l) {I : D → (ℕ → Option (L × W)) → Prop}
    (hstart : I d₀ fun _ => none)
    (hmoves : ∀ d v d' v', I d v → Moves T blocks empty entry d v d' v' → I d' v') :
    I p.db p.points := by
  suffices h : p.Follow T ∧ I p.db p.points from h.2
  induction hr with
  | start =>
    have hnone : (Sessions.start d₀ : Sessions D L W ι ε α).points = fun _ => none := rfl
    refine ⟨(fun n s hs => nomatch hs), ?_⟩
    rw [hnone]
    exact hstart
  | step _ hs ih =>
    obtain ⟨hfollow, hmove⟩ := step_moves hbody hentry ih.1 hs
    exact ⟨hfollow, hmoves _ _ _ _ ih.2 hmove⟩

end Inv

end Sessions
