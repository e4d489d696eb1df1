/-
Pools of programs: interleavings, crashes and histories.

A pool holds one store and any number of calls in flight.  One action starts a
call, lets one call in flight run its next statement, or cuts a call off for
good (a crash, or an error returned between two statements).  `Reach` collects
every history of actions, so a statement about `Reach` is a statement about
every interleaving.

Reasoning never touches programs.  `Reach.view` replaces each call by the point
where it stands: if all programs make the moves of a transition relation `T`
(`Prog.Takes`), every history of the pool is a history of the machine `VReach`
whose only moves are those of `T`.  Invariants are proved of that machine.
-/
import Corpus.Prog
import Mathlib.Data.Nat.Notation
import Mathlib.Logic.Function.Basic

/-- A call in flight and what is left of it; `none` once it has been cut off. -/
structure Proc (C L σ ι ε α : Type) where
  call : C
  rest : Option (Prog L σ ι ε α)

/-- One store shared by the calls in flight. -/
structure Pool (C L σ ι ε α : Type) where
  store : σ
  procs : List (Proc C L σ ι ε α)

/-- What can happen next: a call starts, the `n`-th call runs one statement with
the environment input `i`, or the `n`-th call is cut off. -/
inductive Act (C ι : Type) where
  | spawn (c : C)
  | exec (n : ℕ) (i : ι)
  | kill (n : ℕ)

namespace Pool

variable {C L σ ι ε α : Type}

/-- The store with no call in flight. -/
def start (s : σ) : Pool C L σ ι ε α := ⟨s, []⟩

/-- Where what is left of a call stands. -/
def procCtl (q : Proc C L σ ι ε α) : Ctl L α :=
  match q.rest with
  | some r => r.ctl
  | none => .failed

/-- Where the `n`-th call stands. -/
def ctl (p : Pool C L σ ι ε α) (n : ℕ) : Ctl L α :=
  match p.procs[n]? with
  | some q => procCtl q
  | none => .idle

/-- One action; `none` when the named call has no statement left to run. -/
def step (body : C → Prog L σ ι ε α) (p : Pool C L σ ι ε α) :
    Act C ι → Option (Pool C L σ ι ε α)
  | .spawn c => some ⟨p.store, p.procs ++ [⟨c, some (body c)⟩]⟩
  | .exec n i =>
    match p.procs[n]? with
    | some ⟨c, some (.stmt _ f k)⟩ =>
      some ⟨f p.store i, p.procs.set n ⟨c, some (k p.store i)⟩⟩
    | _ => none
  | .kill n =>
    match p.procs[n]? with
    | some ⟨c, some (.stmt ..)⟩ => some ⟨p.store, p.procs.set n ⟨c, none⟩⟩
    | _ => none

/-- A history: each action with the pool it was taken in. -/
abbrev Hist (C L σ ι ε α : Type) := List (Pool C L σ ι ε α × Act C ι)

/-- `Reach body s₀ h p`: from the idle store `s₀`, the history `h` leads to `p`. -/
inductive Reach (body : C → Prog L σ ι ε α) (s₀ : σ) :
    Hist C L σ ι ε α → Pool C L σ ι ε α → Prop where
  | init : Reach body s₀ [] (start s₀)
  | step {h : Hist C L σ ι ε α} {p p' : Pool C L σ ι ε α} {a : Act C ι} :
      Reach body s₀ h p → p.step body a = some p' → Reach body s₀ (h ++ [(p, a)]) p'

/-- Run a list of actions, keeping the history. -/
def run (body : C → Prog L σ ι ε α) :
    Hist C L σ ι ε α → Pool C L σ ι ε α → List (Act C ι) →
      Option (Hist C L σ ι ε α × Pool C L σ ι ε α)
  | h, p, [] => some (h, p)
  | h, p, a :: as =>
    match p.step body a with
    | some p' => run body (h ++ [(p, a)]) p' as
    | none => none

theorem reach_run {body : C → Prog L σ ι ε α} {s₀ : σ} :
    ∀ (as : List (Act C ι)) {h h' : Hist C L σ ι ε α} {p p' : Pool C L σ ι ε α},
      Reach body s₀ h p → run body h p as = some (h', p') → Reach body s₀ h' p' := by
  intro as
  induction as with
  | nil =>
    intro h h' p p' hr heq
    obtain ⟨rfl, rfl⟩ : h = h' ∧ p = p' := by simpa [run] using heq
    exact hr
  | cons a as ih =>
    intro h h' p p' hr heq
    cases hs : p.step body a with
    | none => simp [run, hs] at heq
    | some q =>
      simp only [run, hs] at heq
      exact ih (.step hr hs) heq

/-- A run that passes a check shows that a history passing it exists. -/
theorem exists_reach (body : C → Prog L σ ι ε α) (s₀ : σ) (as : List (Act C ι))
    (chk : Hist C L σ ι ε α → Pool C L σ ι ε α → Bool)
    (hchk : ((run body [] (start s₀) as).any fun r => chk r.1 r.2) = true) :
    ∃ h p, Reach body s₀ h p ∧ chk h p = true := by
  cases hr : run body [] (start s₀) as with
  | none => simp [hr] at hchk
  | some r =>
    rw [hr] at hchk
    exact ⟨r.1, r.2, reach_run as .init hr, hchk⟩

end Pool

/-! ### The machine of program points -/

/-- What is kept of a pool: its store, where each call stands and the number of
calls started. -/
structure View (L σ α : Type) where
  store : σ
  pts : ℕ → Ctl L α
  size : ℕ

namespace View

variable {C L σ ι α : Type}

/-- The machine before any call. -/
def start (s : σ) : View L σ α := ⟨s, fun _ => .idle, 0⟩

/-- A history of the machine with the moves of `T`, where a call `c` starts at
`entry c`. -/
inductive VReach (T : L → ι → σ → σ → Ctl L α → Prop) (entry : C → Ctl L α) (s₀ : σ) :
    List (View L σ α × Act C ι) → View L σ α → Prop where
  | init : VReach T entry s₀ [] (start s₀)
  | spawn {h : List (View L σ α × Act C ι)} {v : View L σ α} (c : C) :
      VReach T entry s₀ h v → v.pts v.size = .idle →
      VReach T entry s₀ (h ++ [(v, .spawn c)])
        ⟨v.store, Function.update v.pts v.size (entry c), v.size + 1⟩
  | exec {h : List (View L σ α × Act C ι)} {v : View L σ α} {n : ℕ} {l : L} {l' : Ctl L α}
      {s' : σ} (i : ι) :
      VReach T entry s₀ h v → v.pts n = .at l → T l i v.store s' l' →
      VReach T entry s₀ (h ++ [(v, .exec n i)]) ⟨s', Function.update v.pts n l', v.size⟩
  | kill {h : List (View L σ α × Act C ι)} {v : View L σ α} {n : ℕ} {l : L} :
      VReach T entry s₀ h v → v.pts n = .at l →
      VReach T entry s₀ (h ++ [(v, .kill n)]) ⟨v.store, Function.update v.pts n .failed, v.size⟩

/-! ### Invariants -/

/-- **The invariant rule.**  `I` may speak of the history; every action of the
history satisfies `Ok` in the state it was taken in. -/
theorem VReach.invariant {T : L → ι → σ → σ → Ctl L α → Prop} {entry : C → Ctl L α} {s₀ : σ}
    (Ok : View L σ α → Act C ι → Prop) (I : List (View L σ α × Act C ι) → View L σ α → Prop)
    (hinit : I [] (start s₀))
    (hspawn : ∀ h v c, I h v → v.pts v.size = .idle → Ok v (.spawn c) →
      I (h ++ [(v, .spawn c)]) ⟨v.store, Function.update v.pts v.size (entry c), v.size + 1⟩)
    (hexec : ∀ h v n l c s' i, I h v → v.pts n = .at l → T l i v.store s' c → Ok v (.exec n i) →
      I (h ++ [(v, .exec n i)]) ⟨s', Function.update v.pts n c, v.size⟩)
    (hkill : ∀ h v n l, I h v → v.pts n = .at l → Ok v (.kill n) →
      I (h ++ [(v, .kill n)]) ⟨v.store, Function.update v.pts n .failed, v.size⟩)
    {h : List (View L σ α × Act C ι)} {v : View L σ α} (hr : VReach T entry s₀ h v) :
    (∀ e ∈ h, Ok e.1 e.2) → I h v := by
  -- What holds of all actions holds of the last one and of those before.
  have hlast : ∀ {h : List (View L σ α × Act C ι)} {e : View L σ α × Act C ι},
      (∀ e' ∈ h ++ [e], Ok e'.1 e'.2) → (∀ e' ∈ h, Ok e'.1 e'.2) ∧ Ok e.1 e.2 := by
    intro h e hall
    exact ⟨fun e' he' => hall e' (List.mem_append_left _ he'),
      hall e (List.mem_append_right _ (List.mem_singleton_self _))⟩
  induction hr with
  | init => exact fun _ => hinit
  | spawn c _ hidle ih =>
    intro hok
    exact hspawn _ _ c (ih (hlast hok).1) hidle (hlast hok).2
  | exec i _ hn hT ih =>
    intro hok
    exact hexec _ _ _ _ _ _ i (ih (hlast hok).1) hn hT (hlast hok).2
  | kill _ hn ih =>
    intro hok
    exact hkill _ _ _ _ (ih (hlast hok).1) hn (hlast hok).2

/-- Every action of the history satisfies `Ok`, which may speak of what came before. -/
def AtEach (Ok : List (View L σ α × Act C ι) → View L σ α → Act C ι → Prop)
    (h : List (View L σ α × Act C ι)) : Prop :=
  ∀ h₁ v a h₂, h = h₁ ++ (v, a) :: h₂ → Ok h₁ v a

theorem AtEach.last {Ok : List (View L σ α × Act C ι) → View L σ α → Act C ι → Prop}
    {h : List (View L σ α × Act C ι)} {v : View L σ α} {a : Act C ι}
    (hok : AtEach Ok (h ++ [(v, a)])) : AtEach Ok h ∧ Ok h v a := by
  refine ⟨fun h₁ w b h₂ heq => hok h₁ w b (h₂ ++ [(v, a)]) ?_, hok h v a [] rfl⟩
  rw [heq, List.append_assoc, List.cons_append]

/-- The invariant rule, for conditions that speak of what came before. -/
theorem VReach.invariant_each {T : L → ι → σ → σ → Ctl L α → Prop} {entry : C → Ctl L α} {s₀ : σ}
    (Ok : List (View L σ α × Act C ι) → View L σ α → Act C ι → Prop)
    (I : List (View L σ α × Act C ι) → View L σ α → Prop) (hinit : I [] (start s₀))
    (hspawn : ∀ h v c, I h v → v.pts v.size = .idle → Ok h v (.spawn c) →
      I (h ++ [(v, .spawn c)]) ⟨v.store, Function.update v.pts v.size (entry c), v.size + 1⟩)
    (hexec : ∀ h v n l c s' i, I h v → v.pts n = .at l → T l i v.store s' c →
      Ok h v (.exec n i) → I (h ++ [(v, .exec n i)]) ⟨s', Function.update v.pts n c, v.size⟩)
    (hkill : ∀ h v n l, I h v → v.pts n = .at l → Ok h v (.kill n) →
      I (h ++ [(v, .kill n)]) ⟨v.store, Function.update v.pts n .failed, v.size⟩)
    {h : List (View L σ α × Act C ι)} {v : View L σ α} (hr : VReach T entry s₀ h v) :
    AtEach Ok h → I h v := by
  refine VReach.invariant (fun _ _ => True) (fun h v => AtEach Ok h → I h v) (fun _ => hinit)
    ?_ ?_ ?_ hr fun _ _ => trivial
  · intro h v c ih hidle _ hok
    exact hspawn h v c (ih hok.last.1) hidle hok.last.2
  · intro h v n l c s' i ih hn hT _ hok
    exact hexec h v n l c s' i (ih hok.last.1) hn hT hok.last.2
  · intro h v n l ih hn _ hok
    exact hkill h v n l (ih hok.last.1) hn hok.last.2

/-- Where a call stands after a step of one call. -/
theorem at_update {pts : ℕ → Ctl L α} {n m : ℕ} {c : Ctl L α} {l : L}
    (h : Function.update pts n c m = .at l) : (m = n ∧ c = .at l) ∨ (m ≠ n ∧ pts m = .at l) := by
  rcases eq_or_ne m n with rfl | hne
  · rw [Function.update_self] at h
    exact .inl ⟨rfl, h⟩
  · rw [Function.update_of_ne hne] at h
    exact .inr ⟨hne, h⟩

/-- A failed call stays failed, so there was none before a step after which
there is none. -/
theorem not_failed_of_update {pts : ℕ → Ctl L α} {n : ℕ} {c : Ctl L α} (hn : pts n ≠ .failed)
    (h : ∀ m, Function.update pts n c m ≠ .failed) : ∀ m, pts m ≠ .failed := by
  intro m
  rcases eq_or_ne m n with rfl | hne
  · exact hn
  · have := h m
    rwa [Function.update_of_ne hne] at this

end View

namespace Pool

variable {C L σ ι ε α : Type}

/-- A pool as the machine of program points sees it. -/
def view (p : Pool C L σ ι ε α) : View L σ α := ⟨p.store, p.ctl, p.procs.length⟩

@[simp] theorem view_store (p : Pool C L σ ι ε α) : p.view.store = p.store := rfl

@[simp] theorem view_pts (p : Pool C L σ ι ε α) : p.view.pts = p.ctl := rfl

theorem ctl_length (p : Pool C L σ ι ε α) : p.ctl p.procs.length = .idle := by
  simp [ctl]

/-- All calls of the pool have returned. -/
theorem settled_of_all {p : Pool C L σ ι ε α}
    (h : (p.procs.all fun q => (procCtl q).settled) = true) (n : ℕ) : (p.ctl n).settled = true := by
  unfold ctl
  cases hn : p.procs[n]? with
  | none => rfl
  | some q =>
    exact List.all_eq_true.mp h q (List.mem_of_getElem? hn)

/-- Some call stands before a statement with a name in `f`. -/
def anyAt (p : Pool C L σ ι ε α) (f : L → Bool) : Bool :=
  p.procs.any fun q => match procCtl q with
    | .at l => f l
    | _ => false

theorem not_of_anyAt {p : Pool C L σ ι ε α} {f : L → Bool} (h : p.anyAt f = false) {n : ℕ} {l : L}
    (hn : p.ctl n = .at l) : f l = false := by
  unfold ctl at hn
  cases hq : p.procs[n]? with
  | none => simp [hq] at hn
  | some q =>
    simp only [hq] at hn
    have := List.any_eq_false.mp h q (List.mem_of_getElem? hq)
    simpa [hn] using this

private theorem ctl_append (p : Pool C L σ ι ε α) (q : Proc C L σ ι ε α) :
    ctl ⟨p.store, p.procs ++ [q]⟩ = Function.update p.ctl p.procs.length (procCtl q) := by
  funext n
  by_cases hn : n = p.procs.length
  · subst hn
    simp [ctl]
  · rw [Function.update_of_ne hn]
    -- A call before the new one, or a number that is not taken.
    rcases Nat.lt_or_gt_of_ne hn with hlt | hgt
    · simp [ctl, List.getElem?_append_left hlt]
    · have h1 : (p.procs ++ [q])[n]? = none := by
        rw [List.getElem?_eq_none_iff, List.length_append]
        exact hgt
      have h2 : p.procs[n]? = none := List.getElem?_eq_none_iff.mpr (Nat.le_of_lt hgt)
      simp [ctl, h1, h2]

private theorem ctl_set (p : Pool C L σ ι ε α) (s : σ) {n : ℕ} (hn : n < p.procs.length)
    (q : Proc C L σ ι ε α) :
    ctl ⟨s, p.procs.set n q⟩ = Function.update p.ctl n (procCtl q) := by
  funext m
  by_cases hm : m = n
  · subst hm
    simp [ctl, hn]
  · rw [Function.update_of_ne hm]
    simp [ctl, List.getElem?_set_ne (Ne.symm hm)]

/-- Every program left in the pool makes moves of `T`. -/
private def AllTake (T : L → ι → σ → σ → Ctl L α → Prop) (p : Pool C L σ ι ε α) : Prop :=
  ∀ (n : ℕ) (c : C) (q : Prog L σ ι ε α), p.procs[n]? = some ⟨c, some q⟩ → q.Takes T

private theorem allTake_set {T : L → ι → σ → σ → Ctl L α → Prop} {s s' : σ}
    {ps : List (Proc C L σ ι ε α)} (h : AllTake T ⟨s, ps⟩) {n : ℕ} (hn : n < ps.length)
    {q : Proc C L σ ι ε α} (hq : ∀ r, q.rest = some r → r.Takes T) :
    AllTake T ⟨s', ps.set n q⟩ := by
  intro m c r hm
  by_cases hmn : m = n
  · subst hmn
    have hqr : q = ⟨c, some r⟩ := by simpa [hn] using hm
    exact hq r (by rw [hqr])
  · have hm' : (ps.set n q)[m]? = some ⟨c, some r⟩ := hm
    rw [List.getElem?_set_ne (Ne.symm hmn)] at hm'
    exact h m c r hm'

private theorem reach_view_aux {T : L → ι → σ → σ → Ctl L α → Prop} {body : C → Prog L σ ι ε α}
    (hbody : ∀ c, (body c).Takes T) {s₀ : σ} {h : Hist C L σ ι ε α} {p : Pool C L σ ι ε α}
    (hr : Reach body s₀ h p) :
    AllTake T p ∧
      View.VReach T (fun c => (body c).ctl) s₀ (h.map fun e => (e.1.view, e.2)) p.view := by
  induction hr with
  | init =>
    refine ⟨fun n c q hq => by simp [start] at hq, ?_⟩
    have : (start s₀ : Pool C L σ ι ε α).view = View.start s₀ := by
      simp only [view, start, View.start, View.mk.injEq, true_and, List.length_nil, and_true]
      funext n
      simp [ctl]
    rw [this]
    exact .init
  -- Where the calls stand changes for one of them: the new one, or the one that acts.
  | @step h p p' a _ hs ih =>
    obtain ⟨hall, hv⟩ := ih
    rw [List.map_append]
    cases a with
    | spawn c =>
      obtain rfl : _ = p' := Option.some.inj hs
      refine ⟨?_, ?_⟩
      · intro n c' q hq
        have hq' : (p.procs ++ [⟨c, some (body c)⟩])[n]? = some ⟨c', some q⟩ := hq
        rcases Nat.lt_or_ge n p.procs.length with hlt | hge
        · rw [List.getElem?_append_left hlt] at hq'
          exact hall n c' q hq'
        · rw [List.getElem?_append_right hge] at hq'
          obtain ⟨_, hq''⟩ := List.getElem?_eq_some_iff.mp hq'
          simp only [List.getElem_singleton, Proc.mk.injEq, Option.some.injEq] at hq''
          rw [← hq''.2]
          exact hbody c
      · have := View.VReach.spawn c hv p.ctl_length
        simpa [view, ctl_append p, procCtl] using this
    | exec n i =>
      simp only [Pool.step] at hs
      split at hs
      · next c l f k hn =>
        obtain rfl : _ = p' := Option.some.inj hs
        have hlt : n < p.procs.length := (List.getElem?_eq_some_iff.mp hn).choose
        have hf := hall n c _ hn p.store i
        refine ⟨allTake_set hall hlt ?_, ?_⟩
        · intro r hr
          obtain rfl : _ = r := Option.some.inj hr
          exact hf.2
        · have hpt : p.view.pts n = .at l := by simp [ctl, hn, procCtl]
          have := View.VReach.exec i hv hpt hf.1
          simpa [view, ctl_set p _ hlt, procCtl] using this
      · cases hs
    | kill n =>
      simp only [Pool.step] at hs
      split at hs
      · next c l f k hn =>
        obtain rfl : _ = p' := Option.some.inj hs
        have hlt : n < p.procs.length := (List.getElem?_eq_some_iff.mp hn).choose
        refine ⟨allTake_set hall hlt (fun r hr => by cases hr), ?_⟩
        have hpt : p.view.pts n = .at l := by simp [ctl, hn, procCtl]
        have := View.VReach.kill hv hpt
        simpa [view, ctl_set p _ hlt, procCtl] using this
      · cases hs

/-- **Simulation**: when every call's program makes moves of `T`, every history of
the pool is a history of the machine of program points. -/
theorem Reach.view {T : L → ι → σ → σ → Ctl L α → Prop} {body : C → Prog L σ ι ε α}
    (hbody : ∀ c, (body c).Takes T) {s₀ : σ} {h : Hist C L σ ι ε α} {p : Pool C L σ ι ε α}
    (hr : Reach body s₀ h p) :
    View.VReach T (fun c => (body c).ctl) s₀ (h.map fun e => (e.1.view, e.2)) p.view :=
  (reach_view_aux hbody hr).2

/-- The pool of every action of a history was reached. -/
theorem Reach.mem {body : C → Prog L σ ι ε α} {s₀ : σ} {h : Hist C L σ ι ε α} {p : Pool C L σ ι ε α}
    (hr : Reach body s₀ h p) : ∀ e ∈ h, ∃ h', Reach body s₀ h' e.1 := by
  induction hr with
  | init => exact fun e he => absurd he List.not_mem_nil
  | @step h p p' a hr hs ih =>
    intro e he
    rcases List.mem_append.mp he with he | he
    · exact ih e he
    · obtain rfl := List.mem_singleton.mp he
      exact ⟨h, hr⟩

/-- Every statement of a history is a move of `T`. -/
theorem Reach.step_takes {T : L → ι → σ → σ → Ctl L α → Prop} {body : C → Prog L σ ι ε α}
    (hbody : ∀ c, (body c).Takes T) {s₀ : σ} {h : Hist C L σ ι ε α} {p : Pool C L σ ι ε α}
    (hr : Reach body s₀ h p) {e : Pool C L σ ι ε α × Act C ι} (he : e ∈ h) {n : ℕ} {i : ι}
    {p' : Pool C L σ ι ε α} (hs : e.1.step body (.exec n i) = some p') :
    ∃ l, e.1.ctl n = .at l ∧ T l i e.1.store p'.store (p'.ctl n) := by
  obtain ⟨h', hr'⟩ := hr.mem e he
  have hall := (reach_view_aux hbody hr').1
  simp only [Pool.step] at hs
  split at hs
  · next c l f k hn =>
    obtain rfl : _ = p' := Option.some.inj hs
    have hlt : n < e.1.procs.length := (List.getElem?_eq_some_iff.mp hn).choose
    refine ⟨l, by simp [ctl, hn, procCtl], ?_⟩
    have hat : ctl ⟨f e.1.store i, e.1.procs.set n ⟨c, some (k e.1.store i)⟩⟩ n =
        (k e.1.store i).ctl := by
      simp [ctl, hlt, procCtl]
    rw [hat]
    exact (hall n c _ hn e.1.store i).1
  · cases hs

/-- A condition on the actions of a history, read by the machine. -/
theorem forall_view (Ok : σ → (ℕ → Ctl L α) → Act C ι → Prop) {h : Hist C L σ ι ε α}
    (hok : ∀ e ∈ h, Ok e.1.store e.1.ctl e.2) :
    ∀ e ∈ h.map fun e => (e.1.view, e.2), Ok e.1.store e.1.pts e.2 := by
  intro e he
  obtain ⟨e', he', rfl⟩ := List.mem_map.mp he
  exact hok e' he'

/-- **Proof outlines.**  `G` holds of the store and `A` of every point: a step of
one call establishes both for itself and breaks no assertion of another. -/
theorem Reach.outline {T : L → ι → σ → σ → Ctl L α → Prop} {body : C → Prog L σ ι ε α}
    (hbody : ∀ c, (body c).Takes T) {s₀ : σ} (Ok : σ → (ℕ → Ctl L α) → Act C ι → Prop)
    (G : σ → Prop) (A : Ctl L α → σ → Prop)
    (hG : G s₀) (hidle : ∀ s, A .idle s) (hfailed : ∀ s, A .failed s)
    (hentry : ∀ c s, A (body c).ctl s)
    (hstep : ∀ {s s' pts n l c i}, G s → (∀ m, A (pts m) s) → pts n = .at l → T l i s s' c →
      Ok s pts (.exec n i) → G s' ∧ A c s' ∧ ∀ m, m ≠ n → A (pts m) s')
    {h : Hist C L σ ι ε α} {p : Pool C L σ ι ε α} (hr : Reach body s₀ h p)
    (hok : ∀ e ∈ h, Ok e.1.store e.1.ctl e.2) : G p.store ∧ ∀ n, A (p.ctl n) p.store := by
  -- The step gives the assertion of its own point, the others have kept theirs.
  have hupd : ∀ {pts : ℕ → Ctl L α} {n : ℕ} {c : Ctl L α} {s : σ}, A c s →
      (∀ m, m ≠ n → A (pts m) s) → ∀ m, A (Function.update pts n c m) s := by
    intro pts n c s hc hother m
    rcases eq_or_ne m n with rfl | hne
    · rwa [Function.update_self]
    · rw [Function.update_of_ne hne]
      exact hother m hne
  refine View.VReach.invariant (fun v a => Ok v.store v.pts a)
    (fun _ v => G v.store ∧ ∀ n, A (v.pts n) v.store) ⟨hG, fun _ => hidle _⟩ ?_ ?_ ?_
    (hr.view hbody) (forall_view Ok hok)
  · intro h v c hi _ _
    exact ⟨hi.1, hupd (hentry c _) fun m _ => hi.2 m⟩
  · intro h v n l c s' i hi hn hT hok
    obtain ⟨h1, h2, h3⟩ := hstep hi.1 hi.2 hn hT hok
    exact ⟨h1, hupd h2 h3⟩
  · intro h v n l hi _ _
    exact ⟨hi.1, hupd (hfailed _) fun m _ => hi.2 m⟩

end Pool
