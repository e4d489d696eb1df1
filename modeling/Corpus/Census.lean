/-
The calls in flight, counted.

A pool knows its calls by number.  For an account of what they hold the numbers do not matter:
`census` is the multiset of the statements before which the calls in flight stand, and `cut`
the multiset of the statements at which calls of a history were cut off, by a kill or by an
error.  Together they are the two sides of a ledger: a statement that runs takes one entry off
the census and puts at most one on it, or moves it to `cut`.

* `Multiset.tally` — a census, weighed;
* `census_set` — the census after a step of one call;
* `Reach.counted` — the invariant rule: what is true of the store, the census and what was cut
  off when nothing has run, and is kept by a call that starts, moves or is cut off, holds after
  every history.
-/
import Corpus.Pool
import Mathlib.Data.Multiset.AddSub
import Mathlib.Algebra.BigOperators.Group.List.Basic
import Mathlib.Algebra.BigOperators.Group.Multiset.Basic
import Mathlib.Algebra.Order.Group.Multiset

variable {C L σ ι ε α : Type}

namespace Multiset

/-- The sum of the weights. -/
def tally (m : Multiset L) (w : L → ℕ) : ℕ := (m.map w).sum

variable {m m' : Multiset L} {w w' : L → ℕ} {l : L}

@[simp] theorem tally_zero : (0 : Multiset L).tally w = 0 := rfl

@[simp] theorem tally_cons : (l ::ₘ m).tally w = w l + m.tally w := by
  rw [tally, map_cons, sum_cons]
  rfl

@[simp] theorem tally_singleton : ({l} : Multiset L).tally w = w l := by
  rw [tally, map_singleton, sum_singleton]

@[simp] theorem tally_add : (m + m').tally w = m.tally w + m'.tally w := by
  rw [tally, map_add, sum_add]
  rfl

theorem tally_le (h : ∀ l ∈ m, w l ≤ w' l) : m.tally w ≤ m.tally w' := by
  induction m using Multiset.induction with
  | empty => exact le_rfl
  | cons l m ih =>
    rw [tally_cons, tally_cons]
    exact Nat.add_le_add (h l (mem_cons_self l m)) (ih fun l hl => h l (mem_cons_of_mem hl))

end Multiset

namespace Ctl

/-- The statement that comes next, if there is one. -/
def next : Ctl L α → Multiset L
  | .at l => {l}
  | _ => 0

/-- What is lost when a call goes on from the statement `l` to here. -/
def lost (c : Ctl L α) (l : L) : Multiset L :=
  match c with
  | idle | .at _ | done _ => 0
  | failed => {l}

@[simp] theorem next_at (l : L) : (.at l : Ctl L α).next = {l} := rfl

@[simp] theorem next_done (a : α) : (.done a : Ctl L α).next = 0 := rfl

@[simp] theorem next_failed : (.failed : Ctl L α).next = 0 := rfl

@[simp] theorem lost_at (l l' : L) : (.at l' : Ctl L α).lost l = 0 := rfl

@[simp] theorem lost_done (a : α) (l : L) : (.done a : Ctl L α).lost l = 0 := rfl

@[simp] theorem lost_failed (l : L) : (.failed : Ctl L α).lost l = {l} := rfl

end Ctl

namespace Pool

/-- The statements before which the calls in flight stand. -/
def census (p : Pool C L σ ι ε α) : Multiset L := (p.procs.map fun q => (procCtl q).next).sum

/-- The statement at which the action cuts a call off. -/
def cutBy (p : Pool C L σ ι ε α) : Act C ι → Multiset L
  | .spawn _ => 0
  | .exec n i =>
    match p.procs[n]? with
    | some ⟨_, some (.stmt l _ k)⟩ => (k p.store i).ctl.lost l
    | _ => 0
  | .kill n =>
    match p.procs[n]? with
    | some ⟨_, some (.stmt l _ _)⟩ => {l}
    | _ => 0

/-- The statements at which calls of the history were cut off. -/
def cut (h : Hist C L σ ι ε α) : Multiset L := (h.map fun e => e.1.cutBy e.2).sum

@[simp] theorem census_start (s : σ) : (start s : Pool C L σ ι ε α).census = 0 := rfl

@[simp] theorem cut_nil : cut ([] : Hist C L σ ι ε α) = 0 := rfl

theorem cut_append_singleton (h : Hist C L σ ι ε α) (p : Pool C L σ ι ε α) (a : Act C ι) :
    cut (h ++ [(p, a)]) = p.cutBy a + cut h := by
  rw [cut, List.map_append, List.sum_append, List.map_singleton, List.sum_singleton, add_comm]
  rfl

theorem census_append (p : Pool C L σ ι ε α) (q : Proc C L σ ι ε α) :
    census ⟨p.store, p.procs ++ [q]⟩ = (procCtl q).next + p.census := by
  simp only [census, List.map_append, List.sum_append, List.map_cons, List.map_nil,
    List.sum_singleton]
  exact add_comm _ _

/-- One call moves, the others stay where they are. -/
theorem census_set {p : Pool C L σ ι ε α} {n : ℕ} {q : Proc C L σ ι ε α}
    (hn : p.procs[n]? = some q) : ∃ m : Multiset L, p.census = (procCtl q).next + m ∧
      ∀ s q', census ⟨s, p.procs.set n q'⟩ = (procCtl q').next + m := by
  obtain ⟨hlt, hq⟩ := List.getElem?_eq_some_iff.mp hn
  -- The other calls are those before and those behind.
  let weigh : List (Proc C L σ ι ε α) → Multiset L := fun qs =>
    (qs.map fun q => (procCtl q).next).sum
  have hsplit : ∀ q', weigh (p.procs.take n ++ q' :: p.procs.drop (n + 1)) =
      (procCtl q').next + (weigh (p.procs.take n) + weigh (p.procs.drop (n + 1))) := by
    intro q'
    simp only [weigh, List.map_append, List.sum_append, List.map_cons, List.sum_cons]
    exact add_left_comm _ _ _
  refine ⟨weigh (p.procs.take n) + weigh (p.procs.drop (n + 1)), ?_, fun s q' => ?_⟩
  · have hprocs : p.procs = p.procs.take n ++ q :: p.procs.drop (n + 1) := by
      rw [← hq, ← List.drop_eq_getElem_cons hlt, List.take_append_drop]
    exact (congrArg weigh hprocs).trans (hsplit q)
  · have hset : p.procs.set n q' = p.procs.take n ++ q' :: p.procs.drop (n + 1) :=
      List.set_eq_take_append_cons_drop.trans (if_pos hlt)
    exact (congrArg weigh hset).trans (hsplit q')

/-- **The invariant rule for accounts.**  Every action of the history satisfies `Ok`, which sees
the store and the census that the action was taken in. -/
theorem Reach.counted {T : L → ι → σ → σ → Ctl L α → Prop} {body : C → Prog L σ ι ε α}
    (hbody : ∀ c, (body c).Takes T) {s₀ : σ} (Ok : σ → Multiset L → Act C ι → Prop)
    (I : σ → Multiset L → Multiset L → Prop) (hinit : I s₀ 0 0)
    (hspawn : ∀ s m d c, Ok s m (.spawn c) → I s m d → I s ((body c).ctl.next + m) d)
    (hmove : ∀ s s' m d l n i c, Ok s (l ::ₘ m) (.exec n i) → I s (l ::ₘ m) d → T l i s s' c →
      I s' (c.next + m) (c.lost l + d))
    (hkill : ∀ s m d l n, Ok s (l ::ₘ m) (.kill n) → I s (l ::ₘ m) d → I s m (l ::ₘ d))
    {h : Hist C L σ ι ε α} {p : Pool C L σ ι ε α} (hr : Reach body s₀ h p) :
    (∀ e ∈ h, Ok e.1.store e.1.census e.2) → I p.store p.census (cut h) := by
  induction hr with
  | init => exact fun _ => hinit
  | @step h p p' a hr hs ih =>
    intro hok
    have hprev := ih fun e he => hok e (List.mem_append_left _ he)
    have hlast : Ok p.store p.census a :=
      hok (p, a) (List.mem_append_right _ (List.mem_singleton_self _))
    rw [cut_append_singleton]
    cases a with
    | spawn c =>
      obtain rfl : _ = p' := Option.some.inj hs
      have hnone : p.cutBy (.spawn c) + cut h = cut h := zero_add _
      rw [census_append, hnone]
      exact hspawn _ _ _ c hlast hprev
    | exec n i =>
      have hmem : (p, Act.exec n i) ∈ h ++ [(p, Act.exec n i)] :=
        List.mem_append_right _ (List.mem_singleton_self _)
      obtain ⟨l', hl', hT⟩ := (Reach.step hr hs).step_takes hbody hmem hs
      simp only [Pool.step] at hs
      split at hs
      · next c l f k hn =>
        obtain rfl : _ = p' := Option.some.inj hs
        obtain rfl : l = l' := by
          have hat : p.ctl n = .at l := by rw [ctl, hn]; rfl
          exact Ctl.at.inj (hat.symm.trans hl')
        have hlt := (List.getElem?_eq_some_iff.mp hn).1
        have hc : ctl ⟨f p.store i, p.procs.set n ⟨c, some (k p.store i)⟩⟩ n =
            (k p.store i).ctl := by
          rw [ctl, List.getElem?_set_self hlt]
          rfl
        obtain ⟨m, hm, hset⟩ := census_set hn
        rw [hset, cutBy, hn]
        rw [hc] at hT
        have hm' : p.census = l ::ₘ m := hm
        exact hmove _ _ m _ l n i _ (hm' ▸ hlast) (hm' ▸ hprev) hT
      · cases hs
    | kill n =>
      simp only [Pool.step] at hs
      split at hs
      · next c l f k hn =>
        obtain rfl : _ = p' := Option.some.inj hs
        obtain ⟨m, hm, hset⟩ := census_set hn
        rw [hset, cutBy, hn]
        have hm' : p.census = l ::ₘ m := hm
        have := hkill _ m _ l n (hm' ▸ hlast) (hm' ▸ hprev)
        have hzero : (procCtl (⟨c, none⟩ : Proc C L σ ι ε α)).next + m = m := zero_add m
        rw [hzero]
        exact this
      · cases hs

end Pool
