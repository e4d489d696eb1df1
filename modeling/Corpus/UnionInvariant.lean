/-
The invariant of concurrent unions.

`union_groups` reads two memberships and then writes, with no transaction around
it.  `UnionInv E d pts` is what survives: the equivalence `E` collects the edges
whose union is through, memberships label its components, and every other stored
strong edge belongs to a call still in its union.  Calls that act on memberships
they have read work on components that do not touch.

`Here` says what a call knows at its point; `here_frame` what that depends on.
A write of one call is a `Change`: it stays inside the two components of its
edge, so nothing another call knows is lost.  `UnionInv.move` collects the moves.
-/
import Corpus.EdgeMoves

open Relation

namespace Corpus

/-- The edge whose union is not through, with its tenant. -/
def SimPt.union : SimPt → Option (Uuid × Uuid × Uuid)
  | .groupOfA t a b | .groupOfB t a b _ | .mergeUpdate t a b _ _ | .joinAdd t a b _ _
  | .createGroup t a b | .createAddA t a b _ | .createAddB t a b _ => some (t, a, b)
  | _ => none

/-- The same from the first read on: the call acts on memberships it has read. -/
def SimPt.working : SimPt → Option (Uuid × Uuid × Uuid)
  | .groupOfA .. => none
  | p => p.union

theorem union_of_working {p : SimPt} {e : Uuid × Uuid × Uuid} (h : p.working = some e) :
    p.union = some e := by
  cases p <;> first | exact h | cases h

/-- A group row that only this call still needs. -/
def SimPt.owns : SimPt → Option Uuid
  | .mergeDelete _ g | .createAddA _ _ _ g | .createAddB _ _ _ g => some g
  | _ => none

/-- Two edges share an end, or have ends in one group. -/
def SimDb.Touch (d : SimDb) (t a b a' b' : Uuid) : Prop :=
  ∃ x, (x = a ∨ x = b) ∧ ∃ y, (y = a' ∨ y = b') ∧ (x = y ∨ d.SameGroup t x y)

/-- What a call knows at its point. -/
def Here (d : SimDb) : SimPt → Prop
  | .groupOfA t a b => a ≠ b ∧ d.StrongEdge t a b
  | .groupOfB t a b ga => a ≠ b ∧ d.StrongEdge t a b ∧ d.groupOf t a = ga
  | .mergeUpdate t a b keep drop =>
    d.StrongEdge t a b ∧ keep ≠ drop ∧
      (d.groupOf t a = some keep ∧ d.groupOf t b = some drop ∨
        d.groupOf t a = some drop ∧ d.groupOf t b = some keep)
  | .joinAdd t a b g x =>
    d.StrongEdge t a b ∧
      (x = b ∧ d.groupOf t a = some g ∧ d.groupOf t b = none ∨
        x = a ∧ d.groupOf t b = some g ∧ d.groupOf t a = none)
  | .createGroup t a b =>
    a ≠ b ∧ d.StrongEdge t a b ∧ d.groupOf t a = none ∧ d.groupOf t b = none
  | .createAddA t a b g =>
    a ≠ b ∧ d.StrongEdge t a b ∧ d.groupOf t a = none ∧ d.groupOf t b = none ∧
      d.groups.get g = some ⟨g, t⟩ ∧ ∀ t' x, d.groupOf t' x ≠ some g
  | .createAddB t a b g =>
    a ≠ b ∧ d.StrongEdge t a b ∧ d.groupOf t a = some g ∧ d.groupOf t b = none ∧
      d.groups.get g = some ⟨g, t⟩ ∧ ∀ t' x, d.groupOf t' x = some g → x = a
  | .mergeDelete t g => d.groups.get g = some ⟨g, t⟩ ∧ ∀ t' x, d.groupOf t' x ≠ some g
  | _ => True

/-- A call other than `n` stands before the statement `p`. -/
def Other {α : Type} (pts : ℕ → Ctl Pt α) (n : ℕ) (p : SimPt) : Prop :=
  ∃ n', n' ≠ n ∧ pts n' = .at (.sim p)

/-- The invariant: `E` collects the edges whose union is through. -/
structure UnionInv {α : Type} (E : Uuid → Uuid → Uuid → Prop) (d : SimDb) (pts : ℕ → Ctl Pt α) : Prop where
  equiv : ∀ t, Equivalence (E t)
  sound : ∀ t x y, E t x y → EqvGen (d.StrongEdge t) x y
  cover : ∀ t x y, d.StrongEdge t x y →
    E t x y ∨ ∃ n p, pts n = .at (.sim p) ∧ p.union = some (t, x, y)
  labels : ∀ t, Labels (E t) (d.groupOf t)
  row : ∀ {t x g}, d.groupOf t x = some g → d.groups.get g = some ⟨g, t⟩
  pair : ∀ {g t}, d.groups.get g = some ⟨g, t⟩ →
    (∃ x y, x ≠ y ∧ d.groupOf t x = some g ∧ d.groupOf t y = some g) ∨
      ∃ n p, pts n = .at (.sim p) ∧ p.owns = some g
  here : ∀ {n p}, pts n = .at (.sim p) → Here d p
  apart : ∀ {n n' p p' t a b a' b'}, n ≠ n' → pts n = .at (.sim p) → pts n' = .at (.sim p') →
    p.working = some (t, a, b) → p'.working = some (t, a', b') → ¬ d.Touch t a b a' b'
  owners : ∀ {n n' p p' g}, n ≠ n' → pts n = .at (.sim p) → pts n' = .at (.sim p') →
    p.owns = some g → p'.owns ≠ some g

/-- What the call `n` must show when it moves to `c` and the tables become `d'`. -/
structure UnionStep {α : Type} (E' : Uuid → Uuid → Uuid → Prop) (d' : SimDb) (pts : ℕ → Ctl Pt α) (n : ℕ)
    (c : Ctl Pt α) : Prop where
  equiv : ∀ t, Equivalence (E' t)
  sound : ∀ t x y, E' t x y → EqvGen (d'.StrongEdge t) x y
  cover : ∀ t x y, d'.StrongEdge t x y → E' t x y ∨
    (∃ p, c = .at (.sim p) ∧ p.union = some (t, x, y)) ∨
      ∃ p, Other pts n p ∧ p.union = some (t, x, y)
  labels : ∀ t, Labels (E' t) (d'.groupOf t)
  row : ∀ {t x g}, d'.groupOf t x = some g → d'.groups.get g = some ⟨g, t⟩
  pair : ∀ {g t}, d'.groups.get g = some ⟨g, t⟩ →
    (∃ x y, x ≠ y ∧ d'.groupOf t x = some g ∧ d'.groupOf t y = some g) ∨
      (∃ p, c = .at (.sim p) ∧ p.owns = some g) ∨ ∃ p, Other pts n p ∧ p.owns = some g
  here : ∀ {p}, c = .at (.sim p) → Here d' p
  others : ∀ {p}, Other pts n p → Here d' p
  apart : ∀ {p p' t a b a' b'}, c = .at (.sim p) → Other pts n p' →
    p.working = some (t, a, b) → p'.working = some (t, a', b') → ¬ d'.Touch t a b a' b'
  apartOthers : ∀ {n1 n2 p p' t a b a' b'}, n1 ≠ n → n2 ≠ n → n1 ≠ n2 → pts n1 = .at (.sim p) →
    pts n2 = .at (.sim p') → p.working = some (t, a, b) → p'.working = some (t, a', b') →
      ¬ d'.Touch t a b a' b'
  owners : ∀ {p p' g}, c = .at (.sim p) → Other pts n p' → p.owns = some g → p'.owns ≠ some g

theorem SimDb.Touch.symm {d : SimDb} {t a b a' b' : Uuid} (h : d.Touch t a b a' b') :
    d.Touch t a' b' a b := by
  obtain ⟨x, hx, y, hy, rfl | ⟨g, hg, hg'⟩⟩ := h
  · exact ⟨x, hy, x, hx, .inl rfl⟩
  · exact ⟨y, hy, x, hx, .inr ⟨g, hg', hg⟩⟩

namespace UnionInv

variable {α : Type} {E E' : Uuid → Uuid → Uuid → Prop} {d d' : SimDb} {pts : ℕ → Ctl Pt α} {n : ℕ}
  {c : Ctl Pt α}

private theorem at_update {m : ℕ} {p : SimPt} (h : Function.update pts n c m = .at (.sim p)) :
    m = n ∧ c = .at (.sim p) ∨ m ≠ n ∧ pts m = .at (.sim p) := by
  rcases eq_or_ne m n with rfl | hm
  · rw [Function.update_self] at h
    exact .inl ⟨rfl, h⟩
  · rw [Function.update_of_ne hm] at h
    exact .inr ⟨hm, h⟩

/-- The case analysis on which call a point belongs to, done once. -/
theorem step (hi : UnionInv E d pts) (hs : UnionStep E' d' pts n c) :
    UnionInv E' d' (Function.update pts n c) where
  equiv := hs.equiv
  sound := hs.sound
  cover t x y hxy := by
    rcases hs.cover t x y hxy with h | ⟨p, hc, hp⟩ | ⟨p, ⟨m, hm, hat⟩, hp⟩
    · exact .inl h
    · exact .inr ⟨n, p, by rw [Function.update_self, hc], hp⟩
    · exact .inr ⟨m, p, by rw [Function.update_of_ne hm, hat], hp⟩
  labels := hs.labels
  row := hs.row
  pair {g t} hg := by
    rcases hs.pair hg with h | ⟨p, hc, hp⟩ | ⟨p, ⟨m, hm, hat⟩, hp⟩
    · exact .inl h
    · exact .inr ⟨n, p, by rw [Function.update_self, hc], hp⟩
    · exact .inr ⟨m, p, by rw [Function.update_of_ne hm, hat], hp⟩
  here {m p} hm := by
    rcases at_update hm with ⟨rfl, hc⟩ | ⟨hne, hat⟩
    · exact hs.here hc
    · exact hs.others ⟨m, hne, hat⟩
  apart {m m' p p' t a b a' b'} hne hm hm' hp hp' := by
    rcases at_update hm with ⟨rfl, hc⟩ | ⟨h1, hat⟩ <;>
      rcases at_update hm' with ⟨rfl, hc'⟩ | ⟨h2, hat'⟩
    · exact absurd rfl hne
    · exact hs.apart hc ⟨m', h2, hat'⟩ hp hp'
    · exact fun ht => hs.apart hc' ⟨m, h1, hat⟩ hp' hp ht.symm
    · exact hs.apartOthers h1 h2 hne hat hat' hp hp'
  owners {m m' p p' g} hne hm hm' hp := by
    rcases at_update hm with ⟨rfl, hc⟩ | ⟨h1, hat⟩ <;>
      rcases at_update hm' with ⟨rfl, hc'⟩ | ⟨h2, hat'⟩
    · exact absurd rfl hne
    · exact hs.owners hc ⟨m', h2, hat'⟩ hp
    · exact fun hp' => hs.owners hc' ⟨m, h1, hat⟩ hp' hp
    · exact hi.owners hne hat hat' hp

/-- A stored edge that is not through is pending at `n` or at another call. -/
theorem cover_or (hi : UnionInv E d pts) (n : ℕ) {t x y : Uuid} (h : d.StrongEdge t x y) :
    E t x y ∨ (∃ p, pts n = .at (.sim p) ∧ p.union = some (t, x, y)) ∨
      ∃ p, Other pts n p ∧ p.union = some (t, x, y) := by
  rcases hi.cover t x y h with h | ⟨m, p, hm, hp⟩
  · exact .inl h
  · rcases eq_or_ne m n with rfl | hne
    · exact .inr (.inl ⟨p, hm, hp⟩)
    · exact .inr (.inr ⟨p, ⟨m, hne, hm⟩, hp⟩)

/-- A group without two members is owned by `n` or by another call. -/
theorem pair_or (hi : UnionInv E d pts) (n : ℕ) {g t : Uuid}
    (h : d.groups.get g = some ⟨g, t⟩) :
    (∃ x y, x ≠ y ∧ d.groupOf t x = some g ∧ d.groupOf t y = some g) ∨
      (∃ p, pts n = .at (.sim p) ∧ p.owns = some g) ∨ ∃ p, Other pts n p ∧ p.owns = some g := by
  rcases hi.pair h with h | ⟨m, p, hm, hp⟩
  · exact .inl h
  · rcases eq_or_ne m n with rfl | hne
    · exact .inr (.inl ⟨p, hm, hp⟩)
    · exact .inr (.inr ⟨p, ⟨m, hne, hm⟩, hp⟩)

/-! ### Steps that leave the tables alone -/

/-- A step that writes nothing: what is pending stays pending or was through
already, and a call that starts working is apart from the others. -/
theorem stay (hi : UnionInv E d pts)
    (hcover : ∀ {p t x y}, pts n = .at (.sim p) → p.union = some (t, x, y) →
      E t x y ∨ ∃ p', c = .at (.sim p') ∧ p'.union = some (t, x, y))
    (howns : ∀ {p}, pts n = .at (.sim p) → p.owns = none)
    (howns' : ∀ {p}, c = .at (.sim p) → p.owns = none)
    (hhere : ∀ {p}, c = .at (.sim p) → Here d p)
    (hwork : ∀ {p t a b}, c = .at (.sim p) → p.working = some (t, a, b) →
      (∃ p', pts n = .at (.sim p') ∧ p'.working = some (t, a, b)) ∨
        ∀ {q a' b'}, Other pts n q → q.working = some (t, a', b') → ¬ d.Touch t a b a' b') :
    UnionInv E d (Function.update pts n c) := by
  refine hi.step ⟨hi.equiv, hi.sound, fun t x y hxy => ?_, hi.labels, hi.row, fun {g t} hg => ?_,
    hhere, fun ⟨m, _, hm⟩ => hi.here hm, ?_, ?_, ?_⟩
  · rcases hi.cover_or n hxy with h | ⟨p, hn, hp⟩ | h
    · exact .inl h
    · exact (hcover hn hp).imp_right .inl
    · exact .inr (.inr h)
  · rcases hi.pair_or n hg with h | ⟨p, hn, hp⟩ | h
    · exact .inl h
    · rw [howns hn] at hp
      cases hp
    · exact .inr (.inr h)
  · intro p q t a b a' b' hc hq hp hq'
    rcases hwork hc hp with ⟨p', hn, hp'⟩ | h
    · obtain ⟨m, hne, hm⟩ := hq
      exact hi.apart hne.symm hn hm hp' hq'
    · exact h hq hq'
  · intro n1 n2 p p' t a b a' b' _ _ hne h1 h2 hp hp'
    exact hi.apart hne h1 h2 hp hp'
  · intro p q g hc _ hp
    rw [howns' hc] at hp
    cases hp

/-- A working call that has read on. -/
theorem reread (hi : UnionInv E d pts) {p p' : SimPt} {e : Uuid × Uuid × Uuid}
    (hn : pts n = .at (.sim p)) (hp : p.working = some e) (hown : p.owns = none)
    (hp' : p'.working = some e ∧ p'.owns = none) (hhere : Here d p') :
    UnionInv E d (Function.update pts n (.at (.sim p'))) := by
  refine hi.stay (fun {q t x y} hq hu => ?_) (fun {q} hq => ?_) (fun {q} hq => ?_)
    (fun {q} hq => ?_) fun {q t a b} hq hw => ?_
  · obtain rfl : p = q := by simpa [hn] using hq
    rw [union_of_working hp] at hu
    exact .inr ⟨p', rfl, (union_of_working hp'.1).trans hu⟩
  · obtain rfl : p = q := by simpa [hn] using hq
    exact hown
  · cases hq
    exact hp'.2
  · cases hq
    exact hhere
  · cases hq
    exact .inl ⟨p, hn, hp.trans (hp'.1.symm.trans hw)⟩

/-- A call outside its union. -/
theorem idle (hi : UnionInv E d pts)
    (hn : ∀ {p}, pts n = .at (.sim p) → p.union = none ∧ p.owns = none)
    (hc : ∀ {p}, c = .at (.sim p) → p.union = none ∧ p.owns = none ∧ Here d p) :
    UnionInv E d (Function.update pts n c) := by
  refine hi.stay (fun {p t x y} hp hu => ?_) (fun hp => (hn hp).2) (fun hp => (hc hp).2.1)
    (fun hp => (hc hp).2.2) fun {p t a b} hp hw => ?_
  · rw [(hn hp).1] at hu
    cases hu
  · have hu := union_of_working hw
    rw [(hc hp).1] at hu
    cases hu

/-! ### Steps that write memberships -/

end UnionInv

/-- A write of a call working on the edge `a`–`b` of tenant `t` that may own a
group: it touches only the two components, with labels it has seen there. -/
structure Change (d d' : SimDb) (t a b : Uuid) (own : Option Uuid) : Prop where
  edges : d'.edges = d.edges
  outside : ∀ t' x, d'.groupOf t' x = d.groupOf t' x ∨
    t' = t ∧ (x = a ∨ x = b ∨ d.SameGroup t x a ∨ d.SameGroup t x b)
  labels : ∀ t' x g, d'.groupOf t' x = some g → d.groupOf t' x = some g ∨
    t' = t ∧ (d.groupOf t a = some g ∨ d.groupOf t b = some g ∨ own = some g)

theorem here_strong {d : SimDb} {p : SimPt} {t a b : Uuid} (h : Here d p)
    (hp : p.union = some (t, a, b)) : d.StrongEdge t a b := by
  cases p with
  | groupOfA => cases hp; exact h.2
  | groupOfB => cases hp; exact h.2.1
  | mergeUpdate => cases hp; exact h.1
  | joinAdd => cases hp; exact h.1
  | createGroup => cases hp; exact h.2.1
  | createAddA => cases hp; exact h.2.1
  | createAddB => cases hp; exact h.2.1
  | _ => cases hp

/-- An owned group has at most one member: the first end of the edge. -/
theorem here_owned {d : SimDb} {p : SimPt} {g t' x : Uuid} (h : Here d p) (hp : p.owns = some g)
    (hx : d.groupOf t' x = some g) : ∃ t a b, p.working = some (t, a, b) ∧ x = a ∧
      d.groupOf t a = some g := by
  cases p with
  | createAddA => cases hp; exact absurd hx (h.2.2.2.2.2 t' x)
  | createAddB t a b => cases hp; exact ⟨t, a, b, rfl, h.2.2.2.2.2 t' x hx, h.2.2.1⟩
  | mergeDelete => cases hp; exact absurd hx (h.2 t' x)
  | _ => cases hp

theorem here_ownedRow {d : SimDb} {p : SimPt} {g : Uuid} (h : Here d p) (hp : p.owns = some g) :
    ∃ t, d.groups.get g = some ⟨g, t⟩ := by
  cases p with
  | createAddA => cases hp; exact ⟨_, h.2.2.2.2.1⟩
  | createAddB => cases hp; exact ⟨_, h.2.2.2.2.1⟩
  | mergeDelete => cases hp; exact ⟨_, h.1⟩
  | _ => cases hp

/-- What a call knows depends on the edges, on the memberships of its two ends
and on the group it owns. -/
theorem here_frame {d d' : SimDb} {q : SimPt} (h : Here d q) (hedges : d'.edges = d.edges)
    (hends : ∀ {t a b}, q.working = some (t, a, b) →
      d'.groupOf t a = d.groupOf t a ∧ d'.groupOf t b = d.groupOf t b)
    (hrow : ∀ {g t}, q.owns = some g → d.groups.get g = some ⟨g, t⟩ →
      d'.groups.get g = some ⟨g, t⟩)
    (hlab : ∀ {g t x}, q.owns = some g → d'.groupOf t x = some g → d.groupOf t x = some g) :
    Here d' q := by
  have hstrong := strongEdge_congr hedges
  cases q with
  | groupOfA => exact ⟨h.1, by rw [hstrong]; exact h.2⟩
  | groupOfB =>
    obtain ⟨ha, hb⟩ := hends rfl
    exact ⟨h.1, by rw [hstrong]; exact h.2.1, ha.trans h.2.2⟩
  | mergeUpdate =>
    obtain ⟨ha, hb⟩ := hends rfl
    simp only [Here, ha, hb, hstrong]
    exact h
  | joinAdd =>
    obtain ⟨ha, hb⟩ := hends rfl
    simp only [Here, ha, hb, hstrong]
    exact h
  | createGroup =>
    obtain ⟨ha, hb⟩ := hends rfl
    simp only [Here, ha, hb, hstrong]
    exact h
  | createAddA =>
    obtain ⟨ha, hb⟩ := hends rfl
    obtain ⟨h1, h2, h3, h4, h5, h6⟩ := h
    exact ⟨h1, by rw [hstrong]; exact h2, ha.trans h3, hb.trans h4, hrow rfl h5,
      fun t' x hx => h6 t' x (hlab rfl hx)⟩
  | createAddB =>
    obtain ⟨ha, hb⟩ := hends rfl
    obtain ⟨h1, h2, h3, h4, h5, h6⟩ := h
    exact ⟨h1, by rw [hstrong]; exact h2, ha.trans h3, hb.trans h4, hrow rfl h5,
      fun t' x hx => h6 t' x (hlab rfl hx)⟩
  | mergeDelete => exact ⟨hrow rfl h.1, fun t' x hx => h.2 t' x (hlab rfl hx)⟩
  | _ => trivial

namespace UnionInv

variable {α : Type} {E E' : Uuid → Uuid → Uuid → Prop} {d d' : SimDb} {pts : ℕ → Ctl Pt α} {n : ℕ}
  {c : Ctl Pt α} {p : SimPt} {t a b : Uuid}

section Write

variable (hi : UnionInv E d pts) (hn : pts n = .at (.sim p)) (hp : p.working = some (t, a, b))
  (hch : Change d d' t a b p.owns)

include hi hn hp hch

/-- The ends of other working calls are outside the two components. -/
theorem ends_eq {q : SimPt} (hq : Other pts n q) {t' a' b' : Uuid}
    (hq' : q.working = some (t', a', b')) :
    d'.groupOf t' a' = d.groupOf t' a' ∧ d'.groupOf t' b' = d.groupOf t' b' := by
  obtain ⟨m, hne, hm⟩ := hq
  have houtside : ∀ y, y = a' ∨ y = b' → d'.groupOf t' y = d.groupOf t' y := by
    intro y hy
    rcases hch.outside t' y with h | ⟨rfl, hz⟩
    · exact h
    · refine absurd ?_ (hi.apart hne.symm hn hm hp hq')
      rcases hz with rfl | rfl | ⟨g, h1, h2⟩ | ⟨g, h1, h2⟩
      · exact ⟨y, .inl rfl, y, hy, .inl rfl⟩
      · exact ⟨y, .inr rfl, y, hy, .inl rfl⟩
      · exact ⟨a, .inl rfl, y, hy, .inr ⟨g, h2, h1⟩⟩
      · exact ⟨b, .inr rfl, y, hy, .inr ⟨g, h2, h1⟩⟩
  exact ⟨houtside a' (.inl rfl), houtside b' (.inr rfl)⟩

/-- Nobody else's owned group gains a member. -/
theorem owned_eq {q : SimPt} (hq : Other pts n q) {g t' x : Uuid} (hg : q.owns = some g)
    (hx : d'.groupOf t' x = some g) : d.groupOf t' x = some g := by
  obtain ⟨m, hne, hm⟩ := hq
  -- a label seen on one of our own ends would make the owner's edge touch ours
  have hend : ∀ y, y = a ∨ y = b → d.groupOf t y ≠ some g := by
    intro y hy hyg
    obtain ⟨t'', a', b', hw, rfl, hag⟩ := here_owned (hi.here hm) hg hyg
    obtain rfl : t = t'' := by simpa using (hi.row hyg).symm.trans (hi.row hag)
    exact hi.apart hne.symm hn hm hp hw ⟨y, hy, y, .inl rfl, .inl rfl⟩
  rcases hch.labels t' x g hx with h | ⟨rfl, h | h | h⟩
  · exact h
  · exact absurd h (hend a (.inl rfl))
  · exact absurd h (hend b (.inr rfl))
  · exact absurd hg (hi.owners hne.symm hn hm h)

theorem others_here
    (hrow : ∀ {q g t'}, Other pts n q → q.owns = some g → d.groups.get g = some ⟨g, t'⟩ →
      d'.groups.get g = some ⟨g, t'⟩) {q : SimPt} (hq : Other pts n q) : Here d' q := by
  obtain ⟨m, hne, hm⟩ := hq
  exact here_frame (hi.here hm) hch.edges (fun hw => hi.ends_eq hn hp hch ⟨m, hne, hm⟩ hw)
    (fun hg => hrow ⟨m, hne, hm⟩ hg) fun hg => hi.owned_eq hn hp hch ⟨m, hne, hm⟩ hg

theorem others_apart {n1 n2 : ℕ} {p1 p2 : SimPt} {t' a1 b1 a2 b2 : Uuid} (h1 : n1 ≠ n)
    (h2 : n2 ≠ n) (hne : n1 ≠ n2) (hp1 : pts n1 = .at (.sim p1)) (hp2 : pts n2 = .at (.sim p2))
    (hw1 : p1.working = some (t', a1, b1)) (hw2 : p2.working = some (t', a2, b2)) :
    ¬ d'.Touch t' a1 b1 a2 b2 := by
  obtain ⟨ha1, hb1⟩ := hi.ends_eq hn hp hch ⟨n1, h1, hp1⟩ hw1
  obtain ⟨ha2, hb2⟩ := hi.ends_eq hn hp hch ⟨n2, h2, hp2⟩ hw2
  rintro ⟨x, hx, y, hy, hxy⟩
  refine hi.apart hne hp1 hp2 hw1 hw2 ⟨x, hx, y, hy, hxy.imp_right ?_⟩
  rintro ⟨g, hgx, hgy⟩
  have hx' : d'.groupOf t' x = d.groupOf t' x := by rcases hx with rfl | rfl <;> assumption
  have hy' : d'.groupOf t' y = d.groupOf t' y := by rcases hy with rfl | rfl <;> assumption
  exact ⟨g, hx' ▸ hgx, hy' ▸ hgy⟩

theorem still_apart {q : SimPt} (hq : Other pts n q) {a' b' : Uuid}
    (hq' : q.working = some (t, a', b')) : ¬ d'.Touch t a b a' b' := by
  obtain ⟨ha', hb'⟩ := hi.ends_eq hn hp hch hq hq'
  obtain ⟨m, hne, hm⟩ := hq
  rintro ⟨x, hx, y, hy, hxy⟩
  refine hi.apart hne.symm hn hm hp hq' ?_
  rcases hxy with rfl | ⟨g, hgx, hgy⟩
  · exact ⟨x, hx, x, hy, .inl rfl⟩
  have hy' : d.groupOf t y = some g := by
    rcases hy with rfl | rfl
    · exact ha' ▸ hgy
    · exact hb' ▸ hgy
  rcases hch.labels t x g hgx with h | ⟨_, h | h | h⟩
  · exact ⟨x, hx, y, hy, .inr ⟨g, h, hy'⟩⟩
  · exact ⟨a, .inl rfl, y, hy, .inr ⟨g, h, hy'⟩⟩
  · exact ⟨b, .inr rfl, y, hy, .inr ⟨g, h, hy'⟩⟩
  · -- only our own first end is in the group we own
    obtain ⟨t'', a'', b'', hw, rfl, _⟩ := here_owned (hi.here hn) h hy'
    obtain ⟨rfl, rfl, rfl⟩ : t = t'' ∧ a = y ∧ b = b'' := by simpa [hp] using hw
    exact ⟨a, .inl rfl, a, hy, .inl rfl⟩

/-- The edge of the call is through. -/
theorem settle (hlabels : ∀ t', Labels (linkAt E t a b t') (d'.groupOf t'))
    (hrow : ∀ {t' x g}, d'.groupOf t' x = some g → d'.groups.get g = some ⟨g, t'⟩)
    (hgroups : d'.groups = d.groups)
    (hpair : ∀ {g t'}, d.groups.get g = some ⟨g, t'⟩ →
      (∃ x y, x ≠ y ∧ d'.groupOf t' x = some g ∧ d'.groupOf t' y = some g) ∨
        (∃ p', c = .at (.sim p') ∧ p'.owns = some g) ∨ ∃ q, Other pts n q ∧ q.owns = some g)
    (hidle : ∀ {p'}, c = .at (.sim p') → p'.working = none ∧ Here d' p')
    (howners : ∀ {p' q g}, c = .at (.sim p') → Other pts n q → p'.owns = some g →
      q.owns ≠ some g) :
    UnionInv (linkAt E t a b) d' (Function.update pts n c) := by
  have hstrong := strongEdge_congr hch.edges
  have hedge : d.StrongEdge t a b := here_strong (hi.here hn) (union_of_working hp)
  refine hi.step ⟨fun t' => ?_, fun t' x y hxy => ?_, fun t' x y hxy => ?_, hlabels, hrow, ?_,
    fun hc => (hidle hc).2, hi.others_here hn hp hch ?_, ?_, hi.others_apart hn hp hch,
    howners⟩
  · unfold linkAt
    split
    · exact link_equivalence (hi.equiv t')
    · exact hi.equiv t'
  · rw [hstrong]
    unfold linkAt at hxy
    split at hxy
    · next ht =>
      subst ht
      have hab : EqvGen (d.StrongEdge t') a b := .rel _ _ hedge
      rcases hxy with h | ⟨h1, h2⟩ | ⟨h1, h2⟩
      · exact hi.sound _ _ _ h
      · exact .trans _ _ _ (hi.sound _ _ _ h1) (.trans _ _ _ hab (hi.sound _ _ _ h2))
      · exact .trans _ _ _ (hi.sound _ _ _ h1)
          (.trans _ _ _ (.symm _ _ hab) (hi.sound _ _ _ h2))
    · exact hi.sound _ _ _ hxy
  · rw [hstrong] at hxy
    have hlink : ∀ {t' x y}, E t' x y → linkAt E t a b t' x y := by
      intro t' x y h
      unfold linkAt
      split
      · exact link_of_rel h
      · exact h
    rcases hi.cover_or n hxy with h | ⟨q, hm, hq⟩ | h
    · exact .inl (hlink h)
    · obtain rfl : p = q := by simpa [hn] using hm
      obtain ⟨rfl, rfl, rfl⟩ : t = t' ∧ a = x ∧ b = y := by
        simpa [union_of_working hp] using hq
      rw [linkAt_self]
      exact .inl (link_ends (hi.equiv t))
    · exact .inr (.inr h)
  · intro g t' hg
    rw [hgroups] at hg
    exact hpair hg
  · intro q g t' _ _ hg
    rw [hgroups]
    exact hg
  · intro p' q t' a' b' a'' b'' hc _ hw
    rw [(hidle hc).1] at hw
    cases hw

end Write

/-- An edge row: its call has everything still to do. -/
theorem insertEdge (hi : UnionInv E d pts) {e : Edge} {p : SimPt} (hn : pts n = .at (.sim p))
    (hp : p.union = none) (hown : p.owns = none)
    (hc : (∃ r, c = .done r) ∧ ((d.edges.get e.key).isSome ∨ mergesGroups e.edgeType = false) ∨
      c = .at (.sim (.groupOfA e.tenant e.src e.dst)) ∧ e.src ≠ e.dst ∧
        mergesGroups e.edgeType = true) :
    UnionInv E (d.addEdge e) (Function.update pts n c) := by
  have hmono : ∀ {t x y}, d.StrongEdge t x y → (d.addEdge e).StrongEdge t x y :=
    fun h => (d.strongEdge_addEdge e _ _ _).mpr (.inl h)
  have hold : ∀ {t x y}, d.StrongEdge t x y → E t x y ∨
      (∃ q, c = .at (.sim q) ∧ q.union = some (t, x, y)) ∨
        ∃ q, Other pts n q ∧ q.union = some (t, x, y) := by
    intro t x y h
    rcases hi.cover_or n h with h | ⟨q, hm, hq⟩ | h
    · exact .inl h
    · obtain rfl : p = q := by simpa [hn] using hm
      rw [hp] at hq
      cases hq
    · exact .inr (.inr h)
  refine hi.step ⟨hi.equiv, fun t x y h => EqvGen.mono (fun _ _ h => hmono h) _ _ (hi.sound t x y h),
    fun t x y hxy => ?_, hi.labels, hi.row, fun {g t} hg => ?_, fun {q} hq => ?_,
    fun {q} ⟨m, _, hm⟩ => ?_, fun {q q' t a b a' b'} hq _ hw => ?_,
    fun _ _ hne h1 h2 => hi.apart hne h1 h2, fun {q q' g} hq _ hw => ?_⟩
  · rcases (d.strongEdge_addEdge e t x y).mp hxy with h | ⟨rfl, rfl, rfl, hs⟩
    · exact hold h
    · rcases hc with ⟨_, hdup | hweak⟩ | ⟨rfl, _, _⟩
      · -- the pair was stored before with this type
        obtain ⟨e', he'⟩ := Option.isSome_iff_exists.mp hdup
        obtain ⟨hmem, hkey⟩ := Table.mem_of_get he'
        simp only [Edge.key, Prod.mk.injEq] at hkey
        obtain ⟨h1, h2, h3, h4, _⟩ := hkey
        exact hold ⟨e', hmem, h1, h2, h3, h4 ▸ hs⟩
      · rw [hs] at hweak
        cases hweak
      · exact .inr (.inl ⟨_, rfl, rfl⟩)
  · rcases hi.pair_or n hg with h | ⟨q, hm, hq⟩ | h
    · exact .inl h
    · obtain rfl : p = q := by simpa [hn] using hm
      rw [hown] at hq
      cases hq
    · exact .inr (.inr h)
  · rcases hc with ⟨⟨r, rfl⟩, _⟩ | ⟨rfl, hne, hs⟩
    · cases hq
    · cases hq
      exact ⟨hne, (d.strongEdge_addEdge e _ _ _).mpr (.inr ⟨rfl, rfl, rfl, hs⟩)⟩
  · have hq := hi.here hm
    cases q with
    | groupOfA => exact ⟨hq.1, hmono hq.2⟩
    | groupOfB => exact ⟨hq.1, hmono hq.2.1, hq.2.2⟩
    | mergeUpdate => exact ⟨hmono hq.1, hq.2⟩
    | joinAdd => exact ⟨hmono hq.1, hq.2⟩
    | createGroup => exact ⟨hq.1, hmono hq.2.1, hq.2.2⟩
    | createAddA => exact ⟨hq.1, hmono hq.2.1, hq.2.2⟩
    | createAddB => exact ⟨hq.1, hmono hq.2.1, hq.2.2⟩
    | mergeDelete => exact hq
    | _ => trivial
  · rcases hc with ⟨⟨r, rfl⟩, _⟩ | ⟨rfl, _, _⟩ <;> cases hq
    cases hw
  · rcases hc with ⟨⟨r, rfl⟩, _⟩ | ⟨rfl, _, _⟩ <;> cases hq
    cases hw

/-- The members of one group move to the other: the edge is through, and the
emptied group is ours to delete. -/
theorem moveMembers (hi : UnionInv E d pts) {keep drop : Uuid}
    (hn : pts n = .at (.sim (.mergeUpdate t a b keep drop))) :
    UnionInv (linkAt E t a b) (d.moveMembers t keep drop)
      (Function.update pts n (.at (.sim (.mergeDelete t drop)))) := by
  obtain ⟨_, hne, hends⟩ := hi.here hn
  have hkeep : ∃ y, (y = a ∨ y = b) ∧ d.groupOf t y = some keep := by
    rcases hends with ⟨h, _⟩ | ⟨_, h⟩
    exacts [⟨a, .inl rfl, h⟩, ⟨b, .inr rfl, h⟩]
  have hdrop : ∃ y, (y = a ∨ y = b) ∧ d.groupOf t y = some drop := by
    rcases hends with ⟨_, h⟩ | ⟨h, _⟩
    exacts [⟨b, .inr rfl, h⟩, ⟨a, .inl rfl, h⟩]
  obtain ⟨k, hk, hkg⟩ := hkeep
  obtain ⟨r, hr, hrg⟩ := hdrop
  -- nobody is left in the dropped group
  have hempty : ∀ t' x, (d.moveMembers t keep drop).groupOf t' x ≠ some drop := by
    intro t' x hx
    rw [SimDb.groupOf_moveMembers] at hx
    split at hx
    · exact hne (Option.some.inj hx)
    · next hc =>
      have ht : t' = t := by simpa using (hi.row hx).symm.trans (hi.row hrg)
      exact hc ⟨ht, hx⟩
  have hch : Change d (d.moveMembers t keep drop) t a b none := by
    refine ⟨rfl, fun t' x => ?_, fun t' x g hg => ?_⟩
    · rw [SimDb.groupOf_moveMembers]
      split
      · next hc =>
        refine .inr ⟨hc.1, ?_⟩
        obtain ⟨rfl, hx⟩ := hc
        rcases hr with rfl | rfl
        · exact .inr (.inr (.inl ⟨drop, hx, hrg⟩))
        · exact .inr (.inr (.inr ⟨drop, hx, hrg⟩))
      · exact .inl rfl
    · rw [SimDb.groupOf_moveMembers] at hg
      split at hg
      · next hc =>
        obtain rfl := Option.some.inj hg
        refine .inr ⟨hc.1, ?_⟩
        rcases hk with rfl | rfl
        exacts [.inl hkg, .inr (.inl hkg)]
      · exact .inl hg
  refine hi.settle hn rfl hch (fun t' => ?_) (fun {t' x g} hx => ?_) rfl (fun {g t'} hg => ?_)
    (fun hc => ?_) (fun {p' q g} hc hq hg => ?_)
  · by_cases ht : t' = t
    · subst ht
      rw [linkAt_self]
      have hm : ∀ z, (d.moveMembers t' keep drop).groupOf t' z =
          if d.groupOf t' z = some drop then some keep else d.groupOf t' z := by
        intro z
        rw [SimDb.groupOf_moveMembers]
        simp only [true_and]
      rcases hends with ⟨ha, hb⟩ | ⟨ha, hb⟩
      · exact (hi.labels t').merge (hi.equiv t') ha hb hm
      · rw [link_comm]
        exact (hi.labels t').merge (hi.equiv t') hb ha hm
    · rw [linkAt_of_ne E a b ht, d.groupOf_moveMembers_of_ne keep drop ht]
      exact hi.labels t'
  · rw [SimDb.groupOf_moveMembers] at hx
    split at hx
    · next hc =>
      obtain ⟨rfl, _⟩ := hc
      obtain rfl := Option.some.inj hx
      exact hi.row hkg
    · exact hi.row hx
  · by_cases hgd : g = drop
    · exact .inr (.inl ⟨_, rfl, congrArg some hgd.symm⟩)
    · rcases hi.pair_or n hg with ⟨x, y, hxy, hx, hy⟩ | ⟨q, hm, hq⟩ | h
      · have hstay : ∀ z, d.groupOf t' z = some g →
            (d.moveMembers t keep drop).groupOf t' z = some g := by
          intro z hz
          rw [SimDb.groupOf_moveMembers, if_neg, hz]
          rintro ⟨_, hz'⟩
          exact hgd (Option.some.inj (hz.symm.trans hz'))
        exact .inl ⟨x, y, hxy, hstay x hx, hstay y hy⟩
      · cases hn.symm.trans hm
        cases hq
      · exact .inr (.inr h)
  · cases hc
    exact ⟨rfl, hi.row hrg, hempty⟩
  · cases hc
    cases hg
    intro hg
    obtain ⟨m, hmn, hm⟩ := hq
    obtain ⟨t'', a', b', hw, rfl, hag⟩ := here_owned (hi.here hm) hg hrg
    obtain rfl : t = t'' := by simpa using (hi.row hrg).symm.trans (hi.row hag)
    exact hi.apart hmn.symm hn hm rfl hw ⟨r, hr, r, .inl rfl, .inl rfl⟩

/-- The emptied group goes. -/
theorem deleteGroup (hi : UnionInv E d pts) {drop : Uuid} {r : α}
    (hn : pts n = .at (.sim (.mergeDelete t drop))) :
    UnionInv E (d.deleteGroup t drop) (Function.update pts n (.done r)) := by
  obtain ⟨hdrop, hempty⟩ := hi.here hn
  have hrow : ∀ {g t'}, g ≠ drop → d.groups.get g = some ⟨g, t'⟩ →
      (d.deleteGroup t drop).groups.get g = some ⟨g, t'⟩ := by
    intro g t' hg hget
    rw [SimDb.groups_deleteGroup, hget]
    simp [hg]
  refine hi.step ⟨hi.equiv, hi.sound, fun t' x y hxy => ?_, hi.labels, fun {t' x g} hx => ?_,
    fun {g t'} hg => ?_, (fun hc => by cases hc), fun {q} ⟨m, hne, hm⟩ => ?_,
    (fun hc => by cases hc), fun _ _ hne h1 h2 => hi.apart hne h1 h2, fun hc => by cases hc⟩
  · rcases hi.cover_or n hxy with h | ⟨q, hm, hq⟩ | h
    · exact .inl h
    · cases hn.symm.trans hm
      cases hq
    · exact .inr (.inr h)
  · refine hrow ?_ (hi.row hx)
    rintro rfl
    exact hempty t' x hx
  · rw [SimDb.groups_deleteGroup] at hg
    obtain ⟨hget, hkeep⟩ := Option.filter_eq_some_iff.mp hg
    have hgd : g ≠ drop := by
      rintro rfl
      obtain rfl : t = t' := by simpa using hdrop.symm.trans hget
      simp at hkeep
    rcases hi.pair_or n hget with h | ⟨q, hm, hq⟩ | h
    · exact .inl h
    · cases hn.symm.trans hm
      exact absurd (Option.some.inj hq).symm hgd
    · exact .inr (.inr h)
  · refine here_frame (hi.here hm) rfl (fun _ => ⟨rfl, rfl⟩) (fun {g t'} hg hget => ?_)
      fun _ hx => hx
    refine hrow ?_ hget
    rintro rfl
    exact hi.owners hne.symm hn hm rfl hg

/-- One end takes the group of the other: the edge is through. -/
theorem join (hi : UnionInv E d pts) {g x : Uuid}
    (hn : pts n = .at (.sim (.joinAdd t a b g x))) :
    UnionInv (linkAt E t a b) (d.addMember t g x)
      (Function.update pts n (.at (.sim (.fire t)))) := by
  obtain ⟨_, hends⟩ := hi.here hn
  obtain ⟨y, hy, hyg, hx, hxn⟩ : ∃ y, (y = a ∨ y = b) ∧ d.groupOf t y = some g ∧
      (x = a ∨ x = b) ∧ d.groupOf t x = none := by
    rcases hends with ⟨rfl, ha, hb⟩ | ⟨rfl, hb, ha⟩
    exacts [⟨a, .inl rfl, ha, .inr rfl, hb⟩, ⟨b, .inr rfl, hb, .inl rfl, ha⟩]
  have hch : Change d (d.addMember t g x) t a b none := by
    refine ⟨rfl, fun t' z => ?_, fun t' z l hl => ?_⟩
    · rw [SimDb.groupOf_addMember]
      by_cases hz : t' = t ∧ z = x
      · obtain ⟨rfl, rfl⟩ := hz
        exact .inr ⟨rfl, hx.imp_right .inl⟩
      · rw [if_neg hz, Option.or_none]
        exact .inl rfl
    · rw [SimDb.groupOf_addMember] at hl
      cases hz : d.groupOf t' z with
      | some l' =>
        rw [hz] at hl
        exact .inl hl
      | none =>
        rw [hz, Option.none_or] at hl
        simp only [Option.ite_none_right_eq_some, Option.some.injEq] at hl
        obtain ⟨⟨rfl, _⟩, rfl⟩ := hl
        refine .inr ⟨rfl, ?_⟩
        rcases hy with rfl | rfl
        exacts [.inl hyg, .inr (.inl hyg)]
  refine hi.settle hn rfl hch (fun t' => ?_) (fun {t' z l} hl => ?_) rfl (fun {l t'} hl => ?_)
    (fun hc => ?_) (fun {p' q l} hc _ hl => ?_)
  · by_cases ht : t' = t
    · subst ht
      rw [linkAt_self, SimDb.groupOf_addMember_of_none hxn]
      rcases hends with ⟨rfl, ha, hb⟩ | ⟨rfl, hb, ha⟩
      · exact (hi.labels t').join (hi.equiv t') ha hb
      · rw [link_comm]
        exact (hi.labels t').join (hi.equiv t') hb ha
    · rw [linkAt_of_ne E a b ht, d.groupOf_addMember_of_ne g x ht]
      exact hi.labels t'
  · rcases hch.labels t' z l hl with h | ⟨rfl, h | h | h⟩
    · exact hi.row h
    · exact hi.row h
    · exact hi.row h
    · cases h
  · rcases hi.pair_or n hl with ⟨z, w, hzw, hz, hw⟩ | ⟨q, hm, hq⟩ | h
    · refine .inl ⟨z, w, hzw, ?_, ?_⟩
      · rw [SimDb.groupOf_addMember, hz, Option.some_or]
      · rw [SimDb.groupOf_addMember, hw, Option.some_or]
    · cases hn.symm.trans hm
      cases hq
    · exact .inr (.inr h)
  · cases hc
    exact ⟨rfl, trivial⟩
  · cases hc
    cases hl

/-- A new group row, owned by the call that made it. -/
theorem addGroup (hi : UnionInv E d pts) {g : Uuid}
    (hn : pts n = .at (.sim (.createGroup t a b))) (hg : d.groups.get g = none) :
    UnionInv E (d.addGroup t g) (Function.update pts n (.at (.sim (.createAddA t a b g)))) := by
  obtain ⟨hab, hedge, ha, hb⟩ := hi.here hn
  have hch : Change d (d.addGroup t g) t a b none :=
    ⟨rfl, fun _ _ => .inl rfl, fun _ _ _ h => .inl h⟩
  have hunused : ∀ t' x, d.groupOf t' x ≠ some g := by
    intro t' x hx
    rw [hi.row hx] at hg
    cases hg
  have hrow : ∀ {l t'}, d.groups.get l = some ⟨l, t'⟩ →
      (d.addGroup t g).groups.get l = some ⟨l, t'⟩ := by
    intro l t' hl
    rw [SimDb.groups_addGroup, hl, Option.some_or]
  refine hi.step ⟨hi.equiv, hi.sound, fun t' x y hxy => ?_, hi.labels, fun hx => hrow (hi.row hx),
    fun {l t'} hl => ?_, fun hc => ?_, hi.others_here hn rfl hch fun _ _ => hrow,
    fun {p' q t' a' b' a'' b''} hc hq hw => ?_, hi.others_apart hn rfl hch,
    fun {p' q l} hc ⟨m, hmn, hm⟩ hp' hq' => ?_⟩
  · rcases hi.cover_or n hxy with h | ⟨q, hm, hq⟩ | h
    · exact .inl h
    · cases hn.symm.trans hm
      exact .inr (.inl ⟨_, rfl, hq⟩)
    · exact .inr (.inr h)
  · by_cases hlg : l = g
    · exact .inr (.inl ⟨_, rfl, congrArg some hlg.symm⟩)
    · rw [SimDb.groups_addGroup, if_neg (Ne.symm hlg), Option.or_none] at hl
      rcases hi.pair_or n hl with h | ⟨q, hm, hq⟩ | h
      · exact .inl h
      · cases hn.symm.trans hm
        cases hq
      · exact .inr (.inr h)
  · cases hc
    refine ⟨hab, hedge, ha, hb, ?_, hunused⟩
    rw [SimDb.groups_addGroup, hg, Option.none_or, if_pos rfl]
  · cases hc
    cases hw
    exact hi.still_apart hn rfl hch hq
  · cases hc
    cases hp'
    obtain ⟨t', ht'⟩ := here_ownedRow (hi.here hm) hq'
    rw [hg] at ht'
    cases ht'

/-- The first member of a new group: no edge is through yet. -/
theorem addFirst (hi : UnionInv E d pts) {g : Uuid}
    (hn : pts n = .at (.sim (.createAddA t a b g))) :
    UnionInv E (d.addMember t g a) (Function.update pts n (.at (.sim (.createAddB t a b g)))) := by
  obtain ⟨hab, hedge, ha, hb, hgroup, hunused⟩ := hi.here hn
  have hself : (d.addMember t g a).groupOf t = Function.update (d.groupOf t) a (some g) :=
    SimDb.groupOf_addMember_of_none ha
  have hnew : ∀ t' x l, (d.addMember t g a).groupOf t' x = some l →
      d.groupOf t' x = some l ∨ t' = t ∧ x = a ∧ l = g := by
    intro t' x l hl
    rw [SimDb.groupOf_addMember] at hl
    cases hz : d.groupOf t' x with
    | some l' =>
      rw [hz] at hl
      exact .inl hl
    | none =>
      rw [hz, Option.none_or] at hl
      simp only [Option.ite_none_right_eq_some, Option.some.injEq] at hl
      exact .inr ⟨hl.1.1, hl.1.2, hl.2.symm⟩
  have hch : Change d (d.addMember t g a) t a b (some g) := by
    refine ⟨rfl, fun t' x => ?_, fun t' x l hl => ?_⟩
    · by_cases hx : t' = t ∧ x = a
      · exact .inr ⟨hx.1, .inl hx.2⟩
      · rw [SimDb.groupOf_addMember, if_neg hx, Option.or_none]
        exact .inl rfl
    · rcases hnew t' x l hl with h | ⟨ht, _, rfl⟩
      exacts [.inl h, .inr ⟨ht, .inr (.inr rfl)⟩]
  refine hi.step ⟨hi.equiv, hi.sound, fun t' x y hxy => ?_, fun t' => ?_, fun {t' x l} hl => ?_,
    fun {l t'} hl => ?_, fun hc => ?_, hi.others_here hn rfl hch fun _ _ h => h,
    fun {p' q t' a' b' a'' b''} hc hq hw => ?_, hi.others_apart hn rfl hch,
    fun {p' q l} hc ⟨m, hmn, hm⟩ hp' hq' => ?_⟩
  · rcases hi.cover_or n hxy with h | ⟨q, hm, hq⟩ | h
    · exact .inl h
    · cases hn.symm.trans hm
      exact .inr (.inl ⟨_, rfl, hq⟩)
    · exact .inr (.inr h)
  · by_cases ht : t' = t
    · subst ht
      rw [hself]
      exact (hi.labels t').mark (hi.equiv t') ha (hunused t')
    · rw [d.groupOf_addMember_of_ne g a ht]
      exact hi.labels t'
  · rcases hnew t' x l hl with h | ⟨rfl, _, rfl⟩
    exacts [hi.row h, hgroup]
  · rcases hi.pair_or n hl with ⟨x, y, hxy, hx, hy⟩ | ⟨q, hm, hq⟩ | h
    · refine .inl ⟨x, y, hxy, ?_, ?_⟩
      · rw [SimDb.groupOf_addMember, hx, Option.some_or]
      · rw [SimDb.groupOf_addMember, hy, Option.some_or]
    · cases hn.symm.trans hm
      exact .inr (.inl ⟨_, rfl, hq⟩)
    · exact .inr (.inr h)
  · cases hc
    refine ⟨hab, hedge, ?_, ?_, hgroup, fun t' x hx => ?_⟩
    · rw [hself, Function.update_self]
    · rw [hself, Function.update_of_ne hab.symm, hb]
    · rcases hnew t' x g hx with h | ⟨_, h, _⟩
      · exact absurd h (hunused t' x)
      · exact h
  · cases hc
    cases hw
    exact hi.still_apart hn rfl hch hq
  · cases hc
    exact hi.owners hmn.symm hn hm hp' hq'

/-- The second member of a new group: the edge is through. -/
theorem addSecond (hi : UnionInv E d pts) {g : Uuid} {r : α}
    (hn : pts n = .at (.sim (.createAddB t a b g))) :
    UnionInv (linkAt E t a b) (d.addMember t g b) (Function.update pts n (.done r)) := by
  obtain ⟨hab, hedge, ha, hb, hgroup, honly⟩ := hi.here hn
  have hch : Change d (d.addMember t g b) t a b (some g) := by
    refine ⟨rfl, fun t' x => ?_, fun t' x l hl => ?_⟩
    · by_cases hx : t' = t ∧ x = b
      · exact .inr ⟨hx.1, .inr (.inl hx.2)⟩
      · rw [SimDb.groupOf_addMember, if_neg hx, Option.or_none]
        exact .inl rfl
    · rw [SimDb.groupOf_addMember] at hl
      cases hz : d.groupOf t' x with
      | some l' =>
        rw [hz] at hl
        exact .inl hl
      | none =>
        rw [hz, Option.none_or] at hl
        simp only [Option.ite_none_right_eq_some] at hl
        exact .inr ⟨hl.1.1, .inr (.inr hl.2)⟩
  refine hi.settle hn rfl hch (fun t' => ?_) (fun {t' x l} hl => ?_) rfl (fun {l t'} hl => ?_)
    (fun hc => by cases hc) (fun hc => by cases hc)
  · by_cases ht : t' = t
    · subst ht
      rw [linkAt_self, SimDb.groupOf_addMember_of_none hb]
      exact (hi.labels t').join (hi.equiv t') ha hb
    · rw [linkAt_of_ne E a b ht, d.groupOf_addMember_of_ne g b ht]
      exact hi.labels t'
  · rcases hch.labels t' x l hl with h | ⟨rfl, h | h | h⟩
    · exact hi.row h
    · exact hi.row h
    · exact hi.row h
    · cases h
      exact hgroup
  · have hstay : ∀ {x l}, d.groupOf t' x = some l → (d.addMember t g b).groupOf t' x = some l := by
      intro x l hx
      rw [SimDb.groupOf_addMember, hx, Option.some_or]
    rcases hi.pair_or n hl with ⟨x, y, hxy, hx, hy⟩ | ⟨q, hm, hq⟩ | h
    · exact .inl ⟨x, y, hxy, hstay hx, hstay hy⟩
    · cases hn.symm.trans hm
      cases hq
      obtain rfl : t = t' := by simpa using hgroup.symm.trans hl
      refine .inl ⟨a, b, hab, hstay ha, ?_⟩
      rw [SimDb.groupOf_addMember, hb, if_pos ⟨rfl, rfl⟩]
      rfl
    · exact .inr (.inr h)

/-- One move of one call. -/
theorem move {s s' : Db} (hi : UnionInv E s.sim pts) {l : Pt} (hn : pts n = .at l)
    (hm : EdgeMove l s s' c) (hc : c ≠ .failed)
    (hread : ∀ {t a b}, l = .sim (.groupOfA t a b) → ∀ {q a' b'}, Other pts n q →
      q.working = some (t, a', b') → ¬ s.sim.Touch t a b a' b') :
    ∃ E', UnionInv E' s'.sim (Function.update pts n c) := by
  cases hm with
  | insertStrong score now hlt hs =>
    exact ⟨E, hi.insertEdge hn rfl rfl (.inr ⟨rfl, ne_of_lt hlt, hs⟩)⟩
  | insertOther score now h => exact ⟨E, hi.insertEdge hn rfl rfl (.inl ⟨⟨_, rfl⟩, h⟩)⟩
  | @readA _ t a b =>
    obtain ⟨hab, hedge⟩ := hi.here hn
    refine ⟨E, hi.stay (fun hp hu => ?_) (fun hp => ?_) (fun hp => ?_) (fun hp => ?_)
      fun hp hw => .inr ?_⟩
    · obtain rfl : _ = _ := by simpa [hn] using hp
      exact .inr ⟨_, rfl, hu⟩
    · obtain rfl : _ = _ := by simpa [hn] using hp
      rfl
    · cases hp
      rfl
    · cases hp
      exact ⟨hab, hedge, rfl⟩
    · cases hp
      cases hw
      exact hread rfl
  | @readSame _ t a b g _ hb =>
    obtain ⟨hab, hedge, ha⟩ := hi.here hn
    refine ⟨E, hi.stay (fun hp hu => .inl ?_) (fun hp => ?_) (fun hp => by cases hp)
      (fun hp => by cases hp) fun hp => by cases hp⟩
    · obtain rfl : _ = _ := by simpa [hn] using hp
      cases hu
      exact (hi.labels t).connected (hi.equiv t) ha hb
    · obtain rfl : _ = _ := by simpa [hn] using hp
      rfl
  | @readMerge _ t a b g1 g2 hb hne =>
    obtain ⟨hab, hedge, ha⟩ := hi.here hn
    refine ⟨E, hi.reread hn rfl rfl ⟨rfl, rfl⟩ ⟨hedge, ?_, ?_⟩⟩
    · rcases Nat.lt_or_gt_of_ne hne with h | h
      · rw [Nat.min_eq_left h.le, Nat.max_eq_right h.le]
        exact hne
      · rw [Nat.min_eq_right h.le, Nat.max_eq_left h.le]
        exact hne.symm
    · rcases Nat.lt_or_gt_of_ne hne with h | h
      · rw [Nat.min_eq_left h.le, Nat.max_eq_right h.le]
        exact .inl ⟨ha, hb⟩
      · rw [Nat.min_eq_right h.le, Nat.max_eq_left h.le]
        exact .inr ⟨ha, hb⟩
  | readJoinB hb =>
    obtain ⟨hab, hedge, ha⟩ := hi.here hn
    exact ⟨E, hi.reread hn rfl rfl ⟨rfl, rfl⟩ ⟨hedge, .inl ⟨rfl, ha, hb⟩⟩⟩
  | readJoinA hb =>
    obtain ⟨hab, hedge, ha⟩ := hi.here hn
    exact ⟨E, hi.reread hn rfl rfl ⟨rfl, rfl⟩ ⟨hedge, .inr ⟨rfl, hb, ha⟩⟩⟩
  | readCreate hb =>
    obtain ⟨hab, hedge, ha⟩ := hi.here hn
    exact ⟨E, hi.reread hn rfl rfl ⟨rfl, rfl⟩ ⟨hab, hedge, ha, hb⟩⟩
  | move => exact ⟨_, hi.moveMembers hn⟩
  | delete => exact ⟨_, hi.deleteGroup hn⟩
  | join => exact ⟨_, hi.join hn⟩
  | create g hg => exact ⟨_, hi.addGroup hn hg⟩
  | addA => exact ⟨_, hi.addFirst hn⟩
  | addB => exact ⟨_, hi.addSecond hn⟩
  | fireNext o => exact ⟨E, hi.idle (fun hp => by cases hn.symm.trans hp; exact ⟨rfl, rfl⟩)
      fun hp => by cases hp; exact ⟨rfl, rfl, trivial⟩⟩
  | fireLast o => exact ⟨E, hi.idle (fun hp => by cases hn.symm.trans hp; exact ⟨rfl, rfl⟩)
      fun hp => by cases hp⟩
  | refused => exact absurd rfl hc

end UnionInv

end Corpus
