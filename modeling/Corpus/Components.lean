/-
Labelling the components of a growing graph.

An equivalence `E` on a set of points says which points are connected, and a
partial map `m` puts labels on points.  `Labels E m` says that the labels are
the components of at least two points: distinct points are connected exactly
when they carry a common label.

The rest is what an incremental union needs.  `link E a b` connects `a` and `b`
on top of `E`, and each way of bringing the labels up to date is one lemma:

* `Labels.keep` — both ends carry the same label already;
* `Labels.merge` — two labels, one of them replaced by the other everywhere;
* `Labels.join` — one end is labelled, the other takes its label;
* `Labels.mark` — an unlabelled point takes an unused label; no edge is added.

A graph that loses a point keeps its labels when the other points of its component
stay connected: `Labels.erase` takes the point away, `Labels.dissolve` a label that a
single point is left with.
-/
import Mathlib.Logic.Function.Basic
import Mathlib.Logic.Relation

open Relation

variable {A G : Type}

/-! ### Connecting two points -/

/-- `E` with `a` and `b` connected. -/
def link (E : A → A → Prop) (a b x y : A) : Prop :=
  E x y ∨ E x a ∧ E b y ∨ E x b ∧ E a y

variable {E : A → A → Prop} {a b x y : A}

theorem link_of_rel (h : E x y) : link E a b x y := .inl h

theorem link_ends (hE : Equivalence E) : link E a b a b := .inr (.inl ⟨hE.refl a, hE.refl b⟩)

theorem link_comm : link E a b = link E b a := by
  funext x y
  unfold link
  rw [or_comm (a := E x a ∧ E b y)]

/-- Connecting connected points changes nothing. -/
theorem link_of_connected (hE : Equivalence E) (h : E a b) : link E a b = E := by
  funext x y
  refine propext ⟨?_, link_of_rel⟩
  rintro (hxy | ⟨hxa, hby⟩ | ⟨hxb, hay⟩)
  · exact hxy
  · exact hE.trans (hE.trans hxa h) hby
  · exact hE.trans (hE.trans hxb (hE.symm h)) hay

theorem link_equivalence (hE : Equivalence E) : Equivalence (link E a b) where
  refl x := .inl (hE.refl x)
  symm := by
    rintro x y (h | ⟨h1, h2⟩ | ⟨h1, h2⟩)
    · exact .inl (hE.symm h)
    · exact .inr (.inr ⟨hE.symm h2, hE.symm h1⟩)
    · exact .inr (.inl ⟨hE.symm h2, hE.symm h1⟩)
  trans := by
    rintro x y z (h | ⟨h1, h2⟩ | ⟨h1, h2⟩) (k | ⟨k1, k2⟩ | ⟨k1, k2⟩)
    · exact .inl (hE.trans h k)
    · exact .inr (.inl ⟨hE.trans h k1, k2⟩)
    · exact .inr (.inr ⟨hE.trans h k1, k2⟩)
    · exact .inr (.inl ⟨h1, hE.trans h2 k⟩)
    · exact .inr (.inl ⟨h1, k2⟩)
    · exact .inl (hE.trans h1 k2)
    · exact .inr (.inr ⟨h1, hE.trans h2 k⟩)
    · exact .inl (hE.trans h1 k2)
    · exact .inr (.inr ⟨h1, k2⟩)

/-- The equivalence generated by one more pair. -/
theorem eqvGen_insert {R R' : A → A → Prop} (hR : ∀ x y, R' x y ↔ R x y ∨ x = a ∧ y = b) :
    EqvGen R' = link (EqvGen R) a b := by
  have hE : Equivalence (link (EqvGen R) a b) := link_equivalence (EqvGen.is_equivalence R)
  have hsub : ∀ x y, EqvGen R x y → EqvGen R' x y :=
    EqvGen.mono fun x y h => (hR x y).mpr (.inl h)
  have hab : EqvGen R' a b := .rel _ _ ((hR a b).mpr (.inr ⟨rfl, rfl⟩))
  funext x y
  refine propext ⟨?_, ?_⟩
  · intro h
    induction h with
    | rel x y h =>
      rcases (hR x y).mp h with h | ⟨rfl, rfl⟩
      · exact link_of_rel (.rel _ _ h)
      · exact link_ends (EqvGen.is_equivalence R)
    | refl x => exact hE.refl x
    | symm x y _ ih => exact hE.symm ih
    | trans x y z _ _ ih1 ih2 => exact hE.trans ih1 ih2
  · rintro (h | ⟨h1, h2⟩ | ⟨h1, h2⟩)
    · exact hsub _ _ h
    · exact .trans _ _ _ (hsub _ _ h1) (.trans _ _ _ hab (hsub _ _ h2))
    · exact .trans _ _ _ (hsub _ _ h1) (.trans _ _ _ (.symm _ _ hab) (hsub _ _ h2))

/-! ### Labels -/

/-- Distinct points are connected exactly when they carry a common label. -/
def Labels (E : A → A → Prop) (m : A → Option G) : Prop :=
  ∀ x y, x ≠ y → (E x y ↔ ∃ g, m x = some g ∧ m y = some g)

namespace Labels

variable {m : A → Option G}

theorem connected (hE : Equivalence E) (h : Labels E m) {g : G} (hx : m x = some g)
    (hy : m y = some g) : E x y := by
  by_cases hxy : x = y
  · exact hxy ▸ hE.refl x
  · exact (h x y hxy).mpr ⟨g, hx, hy⟩

/-- An unlabelled point is connected to nothing else. -/
theorem eq_of_none (h : Labels E m) (hx : m x = none) (hxy : E x y) : x = y := by
  by_contra hne
  obtain ⟨g, hg, _⟩ := (h x y hne).mp hxy
  rw [hx] at hg
  cases hg

theorem eq_label (h : Labels E m) (hxy : E x y) : m x = m y := by
  by_cases hne : x = y
  · rw [hne]
  · obtain ⟨g, hx, hy⟩ := (h x y hne).mp hxy
    rw [hx, hy]

/-- The label of a point of a labelled component. -/
theorem of_label (h : Labels E m) {g : G} (hx : m x = some g) (hxy : E x y) : m y = some g := by
  rw [← h.eq_label hxy, hx]

theorem keep (hE : Equivalence E) (h : Labels E m) {g : G} (ha : m a = some g)
    (hb : m b = some g) : Labels (link E a b) m := by
  rw [link_of_connected hE (h.connected hE ha hb)]
  exact h

theorem mark [DecidableEq A] (hE : Equivalence E) (h : Labels E m) {g : G} (ha : m a = none)
    (hg : ∀ z, m z ≠ some g) : Labels E (Function.update m a (some g)) := by
  intro x y hxy
  rcases eq_or_ne x a with rfl | hx
  · rw [Function.update_self, Function.update_of_ne hxy.symm]
    constructor
    · exact fun hE' => absurd (h.eq_of_none ha hE') hxy
    · rintro ⟨g', hg', hy⟩
      exact absurd (hg' ▸ hy) (hg y)
  · rcases eq_or_ne y a with rfl | hy
    · rw [Function.update_self, Function.update_of_ne hx]
      constructor
      · exact fun hE' => absurd (h.eq_of_none ha (hE.symm hE')).symm hxy
      · rintro ⟨g', hx', hg'⟩
        exact absurd (hg' ▸ hx') (hg x)
    · rw [Function.update_of_ne hx, Function.update_of_ne hy]
      exact h x y hxy

theorem join [DecidableEq A] (hE : Equivalence E) (h : Labels E m) {g : G} (ha : m a = some g)
    (hb : m b = none) : Labels (link E a b) (Function.update m b (some g)) := by
  have hab : a ≠ b := by
    rintro rfl
    rw [ha] at hb
    cases hb
  -- the component of `b` is `b` alone, that of `a` carries `g`
  have hto : ∀ z, z ≠ b → (link E a b b z ↔ m z = some g) := by
    intro z hz
    constructor
    · rintro (hbz | ⟨hba, _⟩ | ⟨_, haz⟩)
      · exact absurd (h.eq_of_none hb hbz).symm hz
      · exact absurd (h.eq_of_none hb hba) hab.symm
      · exact h.of_label ha haz
    · exact fun hz' => .inr (.inr ⟨hE.refl b, h.connected hE ha hz'⟩)
  intro x y hxy
  rcases eq_or_ne x b with rfl | hx
  · rw [Function.update_self, Function.update_of_ne hxy.symm, hto y hxy.symm]
    exact ⟨fun hy => ⟨g, rfl, hy⟩, fun ⟨g', hg', hy⟩ => Option.some.inj hg' ▸ hy⟩
  · rcases eq_or_ne y b with rfl | hy
    · rw [Function.update_self, Function.update_of_ne hx]
      have hsymm : link E a y x y ↔ link E a y y x :=
        ⟨(link_equivalence hE).symm, (link_equivalence hE).symm⟩
      rw [hsymm, hto x hx]
      exact ⟨fun hx' => ⟨g, hx', rfl⟩, fun ⟨g', hx', hg'⟩ => Option.some.inj hg' ▸ hx'⟩
    · rw [Function.update_of_ne hx, Function.update_of_ne hy, ← h x y hxy]
      refine ⟨?_, link_of_rel⟩
      rintro (hxy' | ⟨_, hby⟩ | ⟨hxb, _⟩)
      · exact hxy'
      · exact absurd (h.eq_of_none hb hby).symm hy
      · exact absurd (h.eq_of_none hb (hE.symm hxb)).symm hx

theorem merge [DecidableEq G] (hE : Equivalence E) (h : Labels E m) {g g' : G} (ha : m a = some g)
    (hb : m b = some g') {m' : A → Option G}
    (hm : ∀ z, m' z = if m z = some g' then some g else m z) : Labels (link E a b) m' := by
  have hval : ∀ z, m z = some g ∨ m z = some g' → m' z = some g := by
    rintro z (hz | hz) <;> simp [hm, hz]
  have hother : ∀ z, m z ≠ some g → m z ≠ some g' → m' z = m z := by
    intro z _ h2
    rw [hm, if_neg h2]
  have hlabel : ∀ z, m' z = some g → m z = some g ∨ m z = some g' := by
    intro z hz
    by_contra hc
    rw [not_or] at hc
    rw [hother z hc.1 hc.2] at hz
    exact hc.1 hz
  -- a point of either label is connected to `a`
  have hto : ∀ z, m z = some g ∨ m z = some g' → link E a b a z := by
    rintro z (hz | hz)
    · exact .inl (h.connected hE ha hz)
    · exact .inr (.inl ⟨hE.refl a, h.connected hE hb hz⟩)
  intro x y hxy
  constructor
  · rintro (hxy' | ⟨hxa, hby⟩ | ⟨hxb, hay⟩)
    · obtain ⟨l, hx, hy⟩ := (h x y hxy).mp hxy'
      by_cases hl : l = g ∨ l = g'
      · refine ⟨g, hval x ?_, hval y ?_⟩
        · rcases hl with rfl | rfl
          exacts [.inl hx, .inr hx]
        · rcases hl with rfl | rfl
          exacts [.inl hy, .inr hy]
      · rw [not_or] at hl
        refine ⟨l, ?_, ?_⟩
        · rw [hother x (by simpa [hx] using hl.1) (by simpa [hx] using hl.2), hx]
        · rw [hother y (by simpa [hy] using hl.1) (by simpa [hy] using hl.2), hy]
    · exact ⟨g, hval x (.inl (h.of_label ha (hE.symm hxa))), hval y (.inr (h.of_label hb hby))⟩
    · exact ⟨g, hval x (.inr (h.of_label hb (hE.symm hxb))), hval y (.inl (h.of_label ha hay))⟩
  · rintro ⟨l, hx, hy⟩
    by_cases hl : l = g
    · subst hl
      exact (link_equivalence hE).trans ((link_equivalence hE).symm (hto x (hlabel x hx)))
        (hto y (hlabel y hy))
    · have hback : ∀ z, m' z = some l → m z = some l := by
        intro z hz
        rw [hm] at hz
        split at hz
        · exact absurd (Option.some.inj hz).symm hl
        · exact hz
      exact .inl (h.connected hE (hback x hx) (hback y hy))

theorem erase [DecidableEq A] (h : Labels E m) {E' : A → A → Prop} {p : A}
    (hsame : ∀ y z, y ≠ p → z ≠ p → (E' y z ↔ E y z)) (hp : ∀ z, E' p z → p = z)
    (hp' : ∀ y, E' y p → y = p) : Labels E' (Function.update m p none) := by
  intro x y hxy
  rcases eq_or_ne x p with rfl | hx
  · rw [Function.update_self]
    refine ⟨fun hc => absurd (hp y hc) hxy, ?_⟩
    rintro ⟨g, hg, _⟩
    cases hg
  · rcases eq_or_ne y p with rfl | hy
    · rw [Function.update_self]
      refine ⟨fun hc => absurd (hp' x hc) hxy, ?_⟩
      rintro ⟨g, _, hg⟩
      cases hg
    · rw [Function.update_of_ne hx, Function.update_of_ne hy, hsame x y hx hy]
      exact h x y hxy

theorem dissolve [DecidableEq G] (h : Labels E m) {g : G}
    (hg : ∀ y z, m y = some g → m z = some g → y = z) {m' : A → Option G}
    (hm : ∀ z, m' z = if m z = some g then none else m z) : Labels E m' := by
  intro x y hxy
  rw [h x y hxy]
  constructor
  · rintro ⟨l, hx, hy⟩
    have hl : l ≠ g := by
      rintro rfl
      exact hxy (hg x y hx hy)
    have hne : ¬ some l = some g := fun hc => hl (Option.some.inj hc)
    exact ⟨l, by rw [hm, hx, if_neg hne], by rw [hm, hy, if_neg hne]⟩
  · rintro ⟨l, hx, hy⟩
    have hback : ∀ z, m' z = some l → m z = some l := by
      intro z hz
      rw [hm] at hz
      split at hz
      · cases hz
      · exact hz
    exact ⟨l, hback x hx, hback y hy⟩

end Labels

/-! ### Removing a point -/

/-- The relation away from `p`. -/
def avoiding (R : A → A → Prop) (p a b : A) : Prop := R a b ∧ a ≠ p ∧ b ≠ p

theorem avoiding_le {R : A → A → Prop} {p a b : A} (h : ReflTransGen (avoiding R p) a b) :
    ReflTransGen R a b :=
  ReflTransGen.mono (fun _ _ h => h.1) _ _ h

/-- A path avoids `p` or leads to it. -/
theorem avoiding_or_reaches {R : A → A → Prop} {p a b : A} (h : ReflTransGen R a b) :
    ReflTransGen (avoiding R p) a b ∨ ReflTransGen R a p := by
  induction h with
  | refl => exact .inl .refl
  | @tail c d hac hcd ih =>
    rcases ih with ih | ih
    · by_cases hc : c = p
      · exact .inr (hc ▸ hac)
      · by_cases hd : d = p
        · exact .inr (hd ▸ hac.tail hcd)
        · exact .inl (ih.tail ⟨hcd, hc, hd⟩)
    · exact .inr ih

/-- No step leaves the removed point, and none arrives there. -/
theorem eq_of_avoiding_left {R : A → A → Prop} {p b : A} (h : ReflTransGen (avoiding R p) p b) :
    p = b := by
  rcases h.cases_head with h | ⟨c, hpc, _⟩
  · exact h
  · exact absurd rfl hpc.2.1

theorem eq_of_avoiding_right {R : A → A → Prop} {p a : A} (h : ReflTransGen (avoiding R p) a p) :
    a = p := by
  rcases h.cases_tail with h | ⟨c, _, hcp⟩
  · exact h.symm
  · exact absurd rfl hcp.2.2
