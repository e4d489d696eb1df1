/-
Greedy independent sets.

`greedy clash l` walks a list and keeps each element that clashes with none kept so far.
When the list is sorted, what is kept is the *kernel* of the clash relation under the order
of the list: no two kept elements clash, and an element is dropped only for a kept one
that comes before it.

* `foldl_greedy` — a loop that marks what it keeps makes the greedy choice;
* `greedyFrom_map` — the choice does not depend on how the elements are named;
* `greedy_kernel` — the greedy choice is a kernel;
* `Kernel.unique` — a finite clash graph with a strict order has one kernel;
* `Kernel.reorder` — and only the order between clashing elements decides it.
-/
import Mathlib.Order.WellFoundedSet

variable {E E' S : Type}

/-- Keep what clashes with nothing kept before. -/
def greedyFrom (clash : E → E → Prop) [DecidableRel clash] (kept : List E) : List E → List E
  | [] => kept
  | e :: es =>
    if ∃ f ∈ kept, clash f e then greedyFrom clash kept es else greedyFrom clash (kept ++ [e]) es

/-- The greedy choice from a list. -/
def greedy (clash : E → E → Prop) [DecidableRel clash] (l : List E) : List E :=
  greedyFrom clash [] l

/-- `s` keeps no two elements of `l` that clash, and drops one only for a kept one that
comes before it. -/
structure Kernel (before clash : E → E → Prop) (l s : List E) : Prop where
  sub : ∀ e ∈ s, e ∈ l
  free : ∀ e ∈ s, ∀ f ∈ s, f ≠ e → ¬ clash f e
  full : ∀ e ∈ l, e ∉ s → ∃ f ∈ s, before f e ∧ clash f e

section Greedy

variable {before clash : E → E → Prop} [DecidableRel clash] {kept l s : List E}

/-- What is kept is what was kept, and a part of the list in its order. -/
theorem greedyFrom_eq (clash : E → E → Prop) [DecidableRel clash] : ∀ (l kept : List E),
    ∃ s, s.Sublist l ∧ greedyFrom clash kept l = kept ++ s := by
  intro l
  induction l with
  | nil => exact fun kept => ⟨[], .refl _, (List.append_nil _).symm⟩
  | cons e es ih =>
    intro kept
    unfold greedyFrom
    split
    · obtain ⟨s, hs, heq⟩ := ih kept
      exact ⟨s, hs.cons e, heq⟩
    · obtain ⟨s, hs, heq⟩ := ih (kept ++ [e])
      refine ⟨e :: s, hs.cons_cons e, ?_⟩
      rw [heq, List.append_assoc, List.singleton_append]

theorem mem_greedyFrom_of_kept {e : E} (h : e ∈ kept) : e ∈ greedyFrom clash kept l := by
  obtain ⟨s, -, heq⟩ := greedyFrom_eq clash l kept
  rw [heq]
  exact List.mem_append_left _ h

theorem greedy_sublist (clash : E → E → Prop) [DecidableRel clash] (l : List E) :
    (greedy clash l).Sublist l := by
  obtain ⟨s, hs, heq⟩ := greedyFrom_eq clash l []
  rw [greedy, heq, List.nil_append]
  exact hs

theorem greedyFrom_pairwise : ∀ {l kept : List E}, kept.Pairwise (fun f e => ¬ clash f e) →
    (greedyFrom clash kept l).Pairwise fun f e => ¬ clash f e := by
  intro l
  induction l with
  | nil => exact fun h => h
  | cons e es ih =>
    intro kept h
    unfold greedyFrom
    split
    · exact ih h
    · next hfree =>
      refine ih (List.pairwise_append.mpr ⟨h, List.pairwise_singleton _ _, fun f hf x hx => ?_⟩)
      obtain rfl := List.mem_singleton.mp hx
      exact fun hc => hfree ⟨f, hf, hc⟩

/-- A loop over states that hold what is kept: it passes over an element exactly when
something kept clashes with it. -/
theorem foldl_greedy {step : S → E → S} (keeps : S → List E) (Tracks : S → Prop)
    (hskip : ∀ s e, Tracks s → (∃ f ∈ keeps s, clash f e) → step s e = s)
    (hkeep : ∀ s e, Tracks s → (¬ ∃ f ∈ keeps s, clash f e) →
      Tracks (step s e) ∧ keeps (step s e) = keeps s ++ [e]) :
    ∀ (l : List E) {s : S}, Tracks s →
      Tracks (l.foldl step s) ∧ keeps (l.foldl step s) = greedyFrom clash (keeps s) l := by
  intro l
  induction l with
  | nil => exact fun h => ⟨h, rfl⟩
  | cons e es ih =>
    intro s h
    rw [List.foldl_cons, greedyFrom]
    by_cases hclash : ∃ f ∈ keeps s, clash f e
    · rw [if_pos hclash, hskip s e h hclash]
      exact ih h
    · obtain ⟨htracks, hkeeps⟩ := hkeep s e h hclash
      rw [if_neg hclash, ← hkeeps]
      exact ih htracks

/-- The greedy choice seen through other names of the elements. -/
theorem greedyFrom_map {clash' : E' → E' → Prop} [DecidableRel clash'] {g : E → E'} :
    ∀ {l kept : List E}, (∀ x ∈ kept ++ l, ∀ y ∈ l, clash' (g x) (g y) ↔ clash x y) →
      greedyFrom clash' (kept.map g) (l.map g) = (greedyFrom clash kept l).map g := by
  intro l
  induction l with
  | nil => exact fun _ => rfl
  | cons e es ih =>
    intro kept h
    have hiff : (∃ f' ∈ kept.map g, clash' f' (g e)) ↔ ∃ f ∈ kept, clash f e := by
      simp only [List.mem_map, exists_exists_and_eq_and]
      refine exists_congr fun f => and_congr_right fun hf => ?_
      exact h f (List.mem_append_left _ hf) e List.mem_cons_self
    rw [List.map_cons, greedyFrom, greedyFrom]
    by_cases hclash : ∃ f ∈ kept, clash f e
    · rw [if_pos (hiff.mpr hclash), if_pos hclash]
      refine ih fun x hx y hy => h x ?_ y (List.mem_cons_of_mem _ hy)
      rcases List.mem_append.mp hx with hx | hx
      · exact List.mem_append_left _ hx
      · exact List.mem_append_right _ (List.mem_cons_of_mem _ hx)
    · rw [if_neg fun hc => hclash (hiff.mp hc), if_neg hclash, ← List.map_singleton, ← List.map_append]
      refine ih fun x hx y hy => h x ?_ y (List.mem_cons_of_mem _ hy)
      rwa [List.append_assoc, List.singleton_append] at hx

theorem greedy_map {clash' : E' → E' → Prop} [DecidableRel clash'] {g : E → E'}
    (h : ∀ x ∈ l, ∀ y ∈ l, clash' (g x) (g y) ↔ clash x y) :
    greedy clash' (l.map g) = (greedy clash l).map g := by
  show greedyFrom clash' (([] : List E).map g) (l.map g) = _
  exact greedyFrom_map h

/-- What is dropped clashes with something kept before it. -/
theorem greedyFrom_full : ∀ {l kept : List E}, (∀ f ∈ kept, ∀ e ∈ l, before f e) →
    l.Pairwise before → ∀ e ∈ l, e ∉ greedyFrom clash kept l →
      ∃ f ∈ greedyFrom clash kept l, before f e ∧ clash f e := by
  intro l
  induction l with
  | nil => exact fun _ _ e he => absurd he List.not_mem_nil
  | cons e es ih =>
    intro kept hkept hl x hx hnot
    obtain ⟨hhead, htail⟩ := List.pairwise_cons.mp hl
    have hold : ∀ f ∈ kept, ∀ y ∈ es, before f y :=
      fun f hf y hy => hkept f hf y (List.mem_cons_of_mem _ hy)
    unfold greedyFrom at hnot ⊢
    split at hnot
    · next hclash =>
      rw [if_pos hclash]
      rcases List.mem_cons.mp hx with rfl | hx
      · obtain ⟨f, hf, hc⟩ := hclash
        exact ⟨f, mem_greedyFrom_of_kept hf, hkept f hf x List.mem_cons_self, hc⟩
      · exact ih hold htail x hx hnot
    · next hfree =>
      rw [if_neg hfree]
      have hnew : ∀ f ∈ kept ++ [e], ∀ y ∈ es, before f y := by
        intro f hf y hy
        rcases List.mem_append.mp hf with hf | hf
        · exact hold f hf y hy
        · obtain rfl := List.mem_singleton.mp hf
          exact hhead y hy
      rcases List.mem_cons.mp hx with rfl | hx
      · exact absurd (mem_greedyFrom_of_kept (List.mem_append_right _
          (List.mem_singleton_self x))) hnot
      · exact ih hnew htail x hx hnot

/-- **The greedy choice** from a sorted list is a kernel. -/
theorem greedy_kernel (hsymm : ∀ f e, clash f e → clash e f) (hl : l.Pairwise before) :
    Kernel before clash l (greedy clash l) where
  sub _ he := (greedy_sublist clash l).subset he
  free e he f hf hne := by
    have hpair : (greedy clash l).Pairwise fun f e => ¬ clash f e :=
      greedyFrom_pairwise List.Pairwise.nil
    have : Std.Symm fun f e => ¬ clash f e := ⟨fun f e h hc => h (hsymm e f hc)⟩
    exact hpair.forall hf he hne
  full := greedyFrom_full (fun f hf => absurd hf List.not_mem_nil) hl

end Greedy

/-! ### Kernels -/

namespace Kernel

variable {before before' clash : E → E → Prop} {l l' s s' : List E}

/-- **One kernel**: of two kernels, neither can be the first to keep an element. -/
theorem unique [IsStrictOrder E before] (h : Kernel before clash l s)
    (h' : Kernel before clash l s') (e : E) : e ∈ s ↔ e ∈ s' := by
  have hwf : {x | x ∈ l}.WellFoundedOn before := (List.finite_toSet l).wellFoundedOn
  have hall : ∀ x ∈ l, x ∈ s ↔ x ∈ s' := by
    intro x hx
    refine hwf.induction (P := fun y => y ∈ s ↔ y ∈ s') hx fun y hy ih => ?_
    constructor
    · intro hs
      by_contra hs'
      obtain ⟨f, hf, hb, hc⟩ := h'.full y hy hs'
      refine h.free y hs f ((ih f (h'.sub f hf) hb).mpr hf) ?_ hc
      rintro rfl
      exact irrefl_of before f hb
    · intro hs'
      by_contra hs
      obtain ⟨f, hf, hb, hc⟩ := h.full y hy hs
      refine h'.free y hs' f ((ih f (h.sub f hf) hb).mp hf) ?_ hc
      rintro rfl
      exact irrefl_of before f hb
  exact ⟨fun he => (hall e (h.sub e he)).mp he, fun he => (hall e (h'.sub e he)).mpr he⟩

/-- Only the order between clashing elements matters, and not that of the list. -/
theorem reorder (h : Kernel before clash l s) (hl : ∀ e, e ∈ l ↔ e ∈ l')
    (hb : ∀ e ∈ l, ∀ f ∈ l, clash f e → f ≠ e → before f e → before' f e) :
    Kernel before' clash l' s where
  sub e he := (hl e).mp (h.sub e he)
  free := h.free
  full e he hs := by
    have hel : e ∈ l := (hl e).mpr he
    obtain ⟨f, hf, hbf, hc⟩ := h.full e hel hs
    exact ⟨f, hf, hb e hel f (h.sub f hf) hc (fun heq => hs (heq ▸ hf)) hbf, hc⟩

/-- A kernel seen through other names of the elements. -/
theorem map {before' clash' : E' → E' → Prop} {g : E → E'} (h : Kernel before clash l s)
    (hclash : ∀ x ∈ l, ∀ y ∈ l, clash' (g x) (g y) ↔ clash x y)
    (hb : ∀ x ∈ l, ∀ y ∈ l, x ≠ y → before x y → before' (g x) (g y)) :
    Kernel before' clash' (l.map g) (s.map g) where
  sub e' he' := by
    obtain ⟨e, he, rfl⟩ := List.mem_map.mp he'
    exact List.mem_map_of_mem (h.sub e he)
  free e' he' f' hf' hne hc := by
    obtain ⟨e, he, rfl⟩ := List.mem_map.mp he'
    obtain ⟨f, hf, rfl⟩ := List.mem_map.mp hf'
    refine h.free e he f hf ?_ ((hclash f (h.sub f hf) e (h.sub e he)).mp hc)
    rintro rfl
    exact hne rfl
  full e' he' hs := by
    obtain ⟨e, he, rfl⟩ := List.mem_map.mp he'
    have hes : e ∉ s := fun hes => hs (List.mem_map_of_mem hes)
    obtain ⟨f, hf, hbf, hc⟩ := h.full e he hes
    exact ⟨g f, List.mem_map_of_mem hf, hb f (h.sub f hf) e he (fun heq => hes (heq ▸ hf)) hbf,
      (hclash f (h.sub f hf) e he).mpr hc⟩

end Kernel
