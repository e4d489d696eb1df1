/-
Machine words and slices that can stop a program.

A `Checked` computation ends in a value or in a panic.  Additions and subtractions of words
panic or wrap around when they leave the type, by the way the program is built (`Arith`); a
slice panics when its range is not one of the list.

* `add_eq_ok`, `sub_eq_ok`, `checkedRange_eq_ok` — when an operation has a result, and which;
* `safe_mapM` — a loop is safe when each of its rounds is;
* `clampedSlice_eq_ok` — a range with only its end clamped is in bounds exactly when its
  start is and the sum stays in the type.
-/
import Mathlib.Algebra.Order.Ring.Nat
import Mathlib.Data.List.Basic
import Mathlib.Data.List.Forall2
import Mathlib.Tactic.Common

/-- Why a computation stops. -/
inductive Panic where
  | overflow
  | range
  deriving DecidableEq

/-- A computation that may panic. -/
abbrev Checked (α : Type) := Except Panic α

/-- What arithmetic does when a result leaves its type. -/
inductive Arith where
  | checked
  | wrapping
  deriving DecidableEq

variable {α β : Type}

namespace Checked

/-- The computation does not panic. -/
def Safe (p : Checked α) : Prop := ∃ a, p = .ok a

theorem bind_eq_ok {p : Checked α} {f : α → Checked β} {b : β} :
    (p >>= f) = .ok b ↔ ∃ a, p = .ok a ∧ f a = .ok b := by
  constructor
  · intro h
    cases p with
    | ok a => exact ⟨a, rfl, h⟩
    | error e => cases h
  · rintro ⟨a, rfl, h⟩
    exact h

theorem ok_bind (a : α) (f : α → Checked β) : (Except.ok a >>= f) = f a := rfl

theorem safe_ok (a : α) : Safe (.ok a) := ⟨a, rfl⟩

theorem safe_bind {p : Checked α} {f : α → Checked β} :
    Safe (p >>= f) ↔ ∃ a, p = .ok a ∧ Safe (f a) := by
  simp only [Safe, bind_eq_ok]
  constructor
  · rintro ⟨b, a, ha, hb⟩
    exact ⟨a, ha, b, hb⟩
  · rintro ⟨a, ha, b, hb⟩
    exact ⟨b, a, ha, hb⟩

/-- The computation ends in a value with the property. -/
def Returns (p : Checked α) (post : α → Prop) : Prop := ∃ a, p = .ok a ∧ post a

variable {post : α → Prop} {post' : β → Prop}

theorem returns_ok {a : α} (h : post a) : Returns (.ok a) post := ⟨a, rfl, h⟩

theorem Returns.bind {p : Checked α} {f : α → Checked β} (h : Returns p post)
    (hf : ∀ a, post a → Returns (f a) post') : Returns (p >>= f) post' := by
  obtain ⟨a, rfl, ha⟩ := h
  exact hf a ha

/-- Two computations in turn are safe when the first is and the rest is, after any result
it has. -/
theorem safe_bind_iff {p : Checked α} {f : α → Checked β} {P : Prop}
    (hf : ∀ a, p = .ok a → (Safe (f a) ↔ P)) : Safe (p >>= f) ↔ Safe p ∧ P := by
  rw [safe_bind]
  constructor
  · rintro ⟨a, ha, h⟩
    exact ⟨⟨a, ha⟩, (hf a ha).mp h⟩
  · rintro ⟨⟨a, ha⟩, h⟩
    exact ⟨a, ha, (hf a ha).mpr h⟩

theorem safe_bind_of_safe {p : Checked α} {f : α → Checked β} (hf : ∀ a, Safe (f a)) :
    Safe (p >>= f) ↔ Safe p :=
  (safe_bind_iff fun a _ => iff_true_intro (hf a)).trans (and_iff_left trivial)

/-- After a computation that returns, only the rest decides. -/
theorem Returns.safe_bind {p : Checked α} {f : α → Checked β} (h : Returns p post)
    (hf : ∀ a, post a → Safe (f a)) : Safe (p >>= f) := by
  obtain ⟨a, rfl, ha⟩ := h
  exact hf a ha

/-- A loop is safe when each of its rounds is. -/
theorem safe_mapM {f : α → Checked β} {l : List α} : Safe (l.mapM f) ↔ ∀ a ∈ l, Safe (f a) := by
  induction l with
  | nil => exact iff_of_true (safe_ok []) fun _ h => absurd h List.not_mem_nil
  | cons x l ih =>
    rw [List.mapM_cons, safe_bind, List.forall_mem_cons, ← ih]
    constructor
    · rintro ⟨b, hb, h⟩
      obtain ⟨bs, hbs, -⟩ := safe_bind.mp h
      exact ⟨⟨b, hb⟩, bs, hbs⟩
    · rintro ⟨⟨b, hb⟩, bs, hbs⟩
      exact ⟨b, hb, safe_bind.mpr ⟨bs, hbs, safe_ok _⟩⟩

/-- The results of a loop are those of its rounds. -/
theorem mapM_eq_ok_iff {f : α → Checked β} {l : List α} {bs : List β} :
    l.mapM f = .ok bs ↔ List.Forall₂ (fun a b => f a = .ok b) l bs := by
  induction l generalizing bs with
  | nil =>
    rw [List.forall₂_nil_left_iff]
    exact ⟨fun h => (Except.ok.inj h).symm, fun h => congrArg Except.ok h.symm⟩
  | cons x l ih =>
    rw [List.mapM_cons, bind_eq_ok, List.forall₂_cons_left_iff]
    constructor
    · rintro ⟨b, hb, h⟩
      obtain ⟨cs, hcs, h⟩ := bind_eq_ok.mp h
      exact ⟨b, cs, hb, ih.mp hcs, (Except.ok.inj h).symm⟩
    · rintro ⟨b, cs, hb, hcs, rfl⟩
      exact ⟨b, hb, bind_eq_ok.mpr ⟨cs, ih.mpr hcs, rfl⟩⟩

/-- Each result of a loop is that of a round. -/
theorem exists_of_mem_mapM {f : α → Checked β} {l : List α} {bs : List β} {b : β}
    (h : l.mapM f = .ok bs) (hb : b ∈ bs) : ∃ a ∈ l, f a = .ok b := by
  have hall := mapM_eq_ok_iff.mp h
  clear h
  induction hall with
  | nil => exact absurd hb List.not_mem_nil
  | @cons a c l bs hac _ ih =>
    rcases List.mem_cons.mp hb with rfl | hb
    · exact ⟨a, List.mem_cons_self, hac⟩
    · obtain ⟨x, hx, hxb⟩ := ih hb
      exact ⟨x, List.mem_cons_of_mem a hx, hxb⟩

/-- The result of a loop whose rounds can only have certain results. -/
theorem eq_map_of_mapM_eq_ok {f : α → Checked β} {g : α → β} {l : List α} {bs : List β}
    (hg : ∀ a ∈ l, ∀ b, f a = .ok b → b = g a) (h : l.mapM f = .ok bs) : bs = l.map g := by
  have hall := mapM_eq_ok_iff.mp h
  induction hall with
  | nil => rfl
  | @cons a b l bs hab hall ih =>
    rw [List.map_cons, hg a List.mem_cons_self b hab,
      ih (fun a ha => hg a (List.mem_cons_of_mem _ ha)) (mapM_eq_ok_iff.mpr hall)]

/-- The result of a loop whose rounds have results. -/
theorem mapM_eq_ok {f : α → Checked β} {g : α → β} {l : List α} (h : ∀ a ∈ l, f a = .ok (g a)) :
    l.mapM f = .ok (l.map g) := by
  induction l with
  | nil => rfl
  | cons x l ih =>
    rw [List.mapM_cons, h x List.mem_cons_self, ih fun a ha => h a (List.mem_cons_of_mem x ha)]
    rfl

/-- A search whose rounds have results. -/
theorem anyM_eq_ok {f : α → Checked Bool} {g : α → Bool} {l : List α}
    (h : ∀ a ∈ l, f a = .ok (g a)) : l.anyM f = .ok (l.any g) := by
  induction l with
  | nil => rfl
  | cons x l ih =>
    rw [List.anyM, h x List.mem_cons_self, List.any_cons]
    cases g x with
    | false => exact ih fun a ha => h a (List.mem_cons_of_mem x ha)
    | true => rfl

/-- A loop whose rounds have results while an invariant holds, which they keep. -/
theorem foldlM_eq_ok {f : β → α → Checked β} {g : β → α → β} {I : β → Prop}
    (h : ∀ b a, I b → f b a = .ok (g b a) ∧ I (g b a)) (l : List α) :
    ∀ b, I b → l.foldlM f b = .ok (l.foldl g b) := by
  induction l with
  | nil => exact fun b _ => rfl
  | cons x l ih =>
    intro b hb
    obtain ⟨hx, hg⟩ := h b x hb
    rw [List.foldlM_cons, hx]
    exact ih (g b x) hg

end Checked

/-! ### Words -/

namespace Arith

/-- `a + b` in words of `w` bits. -/
def add (m : Arith) (w a b : ℕ) : Checked ℕ :=
  if a + b < 2 ^ w then .ok (a + b)
  else match m with
    | .checked => .error .overflow
    | .wrapping => .ok ((a + b) % 2 ^ w)

/-- `a - b` in words of `w` bits. -/
def sub (m : Arith) (w a b : ℕ) : Checked ℕ :=
  if b ≤ a then .ok (a - b)
  else match m with
    | .checked => .error .overflow
    | .wrapping => .ok ((a + 2 ^ w - b) % 2 ^ w)

/-- `a * b` in words of `w` bits. -/
def mul (m : Arith) (w a b : ℕ) : Checked ℕ :=
  if a * b < 2 ^ w then .ok (a * b)
  else match m with
    | .checked => .error .overflow
    | .wrapping => .ok (a * b % 2 ^ w)

/-- The result `r` of an operation on signed words of `w` bits. -/
def signed (m : Arith) (w : ℕ) (r : ℤ) : Checked ℤ :=
  if -2 ^ (w - 1) ≤ r ∧ r < 2 ^ (w - 1) then .ok r
  else match m with
    | .checked => .error .overflow
    | .wrapping => .ok (r.bmod (2 ^ w))

/-- `a / b`: a division by zero panics in every build. -/
def div (a b : ℕ) : Checked ℕ := if b = 0 then .error .overflow else .ok (a / b)

variable {m : Arith} {w a b c : ℕ}

@[simp] theorem mul_of_lt (h : a * b < 2 ^ w) : m.mul w a b = .ok (a * b) := if_pos h

theorem signed_of_mem {r : ℤ} (hlo : -2 ^ (w - 1) ≤ r) (hhi : r < 2 ^ (w - 1)) :
    m.signed w r = .ok r := if_pos ⟨hlo, hhi⟩

theorem div_of_pos (h : 0 < b) : div a b = .ok (a / b) := if_neg (by omega)

@[simp] theorem add_of_lt (h : a + b < 2 ^ w) : m.add w a b = .ok (a + b) := if_pos h

@[simp] theorem sub_of_le (h : b ≤ a) : m.sub w a b = .ok (a - b) := if_pos h

theorem add_eq_ok : add .checked w a b = .ok c ↔ a + b < 2 ^ w ∧ c = a + b := by
  unfold add
  split
  · next h => rw [Except.ok.injEq, and_iff_right h, eq_comm]
  · next h => exact iff_of_false (by intro h'; cases h') fun h' => h h'.1

theorem safe_add : (add .checked w a b).Safe ↔ a + b < 2 ^ w := by
  simp [Checked.Safe, add_eq_ok]

/-- Only a checked difference fails. -/
theorem safe_sub : (m.sub w a b).Safe ↔ (m = .checked → b ≤ a) := by
  unfold Checked.Safe sub
  split
  · next h => exact iff_of_true ⟨_, rfl⟩ fun _ => h
  · next h =>
    cases m with
    | checked => exact iff_of_false (by rintro ⟨c, hc⟩; cases hc) fun h' => h (h' rfl)
    | wrapping => exact iff_of_true ⟨_, rfl⟩ fun h' => by cases h'

theorem sub_eq_ok : sub .checked w a b = .ok c ↔ b ≤ a ∧ c = a - b := by
  unfold sub
  split
  · next h => rw [Except.ok.injEq, and_iff_right h, eq_comm]
  · next h => exact iff_of_false (by intro h'; cases h') fun h' => h h'.1

theorem add_returns (h : a + b < 2 ^ w) : Checked.Returns (m.add w a b) (· = a + b) :=
  ⟨a + b, add_of_lt h, rfl⟩

/-- A sum that wraps around is less than its parts. -/
theorem add_wrapping_lt (ha : a < 2 ^ w) (hb : b < 2 ^ w) (h : 2 ^ w ≤ a + b) :
    ∃ c < a, add .wrapping w a b = .ok c := by
  refine ⟨a + b - 2 ^ w, by omega, ?_⟩
  rw [add, if_neg (Nat.not_lt.mpr h)]
  show Except.ok ((a + b) % 2 ^ w) = _
  rw [Nat.mod_eq_sub_mod h, Nat.mod_eq_of_lt (by omega)]

/-- A number from `a` on is below a sum that begins at `a` when it is so in the numbers and
the sum stays in the type. -/
theorem lt_add_iff {x : ℕ} (ha : a < 2 ^ w) (hb : b < 2 ^ w) (hx : a ≤ x)
    (h : m.add w a b = .ok c) : x < c ↔ a + b < 2 ^ w ∧ x < a + b := by
  by_cases hsum : a + b < 2 ^ w
  · obtain rfl := Except.ok.inj ((add_of_lt hsum).symm.trans h)
    rw [and_iff_right hsum]
  · refine iff_of_false (fun hlt => ?_) fun h' => hsum h'.1
    cases m with
    | checked => exact hsum (add_eq_ok.mp h).1
    | wrapping =>
      obtain ⟨d, hd, heq⟩ := add_wrapping_lt ha hb (Nat.not_lt.mp hsum)
      obtain rfl := Except.ok.inj (heq.symm.trans h)
      omega

end Arith

/-- `n`, moved into the range from `lo` to `hi`. -/
def clamp (n lo hi : ℕ) : ℕ := max lo (min n hi)

/-! ### Slices -/

/-- `&l[start..stop]`. -/
def checkedRange (l : List α) (start stop : ℕ) : Checked (List α) :=
  if start ≤ stop ∧ stop ≤ l.length then .ok ((l.take stop).drop start) else .error .range

/-- `l[i]`. -/
def checkedIndex (l : List α) (i : ℕ) : Checked α :=
  match l[i]? with
  | some a => .ok a
  | none => .error .range

theorem checkedIndex_of_lt {l : List α} {i : ℕ} (h : i < l.length) (d : α) :
    checkedIndex l i = .ok (l.getD i d) := by
  rw [checkedIndex, List.getD_eq_getElem?_getD, List.getElem?_eq_getElem h]
  rfl

/-- `&l[start..(start + size).min(l.len())]`. -/
def clampedSlice (m : Arith) (l : List α) (start size : ℕ) : Checked (List α) := do
  let stop ← m.add 64 start size
  checkedRange l start (min stop l.length)

section Slices

variable {m : Arith} {l s : List α} {start stop size : ℕ}

theorem checkedRange_eq_ok : checkedRange l start stop = .ok s ↔
    (start ≤ stop ∧ stop ≤ l.length) ∧ s = (l.take stop).drop start := by
  unfold checkedRange
  split
  · next h => rw [Except.ok.injEq, and_iff_right h, eq_comm]
  · next h => exact iff_of_false (by intro h'; cases h') fun h' => h h'.1

/-- A range in bounds is read. -/
theorem checkedRange_of_le (h : start ≤ stop) (h' : stop ≤ l.length) :
    checkedRange l start stop = .ok ((l.take stop).drop start) :=
  checkedRange_eq_ok.mpr ⟨⟨h, h'⟩, rfl⟩

theorem checkedRange_eq_take (h : start ≤ stop) (h' : stop ≤ l.length) :
    checkedRange l start stop = .ok ((l.drop start).take (stop - start)) := by
  rw [checkedRange_of_le h h', List.drop_take]

theorem checkedRange_returns (h : start ≤ stop) (h' : stop ≤ l.length) :
    Checked.Returns (checkedRange l start stop) fun s => s.length = stop - start := by
  refine ⟨_, checkedRange_of_le h h', ?_⟩
  show ((l.take stop).drop start).length = stop - start
  rw [List.length_drop, List.length_take, Nat.min_eq_left h']

theorem take_drop_min : (l.take (min (start + size) l.length)).drop start =
    (l.drop start).take size := by
  rw [List.drop_take, List.take_eq_take_iff, List.length_drop]
  omega

/-- A range whose end is clamped is in bounds when its start is, in either arithmetic: a
sum that wraps around ends before the start. -/
theorem clampedSlice_eq_ok (hstart : start < 2 ^ 64) (hsize : size < 2 ^ 64) :
    clampedSlice m l start size = .ok s ↔
      start + size < 2 ^ 64 ∧ start ≤ l.length ∧ s = (l.drop start).take size := by
  rw [clampedSlice, Checked.bind_eq_ok]
  by_cases hsum : start + size < 2 ^ 64
  · rw [Arith.add_of_lt hsum, and_iff_right hsum]
    constructor
    · rintro ⟨stop, hstop, h⟩
      obtain rfl := Except.ok.inj hstop
      obtain ⟨⟨hle, -⟩, rfl⟩ := checkedRange_eq_ok.mp h
      exact ⟨by omega, take_drop_min⟩
    · rintro ⟨hle, rfl⟩
      exact ⟨_, rfl, checkedRange_eq_ok.mpr ⟨⟨by omega, by omega⟩, take_drop_min.symm⟩⟩
  · refine iff_of_false ?_ fun h => hsum h.1
    rintro ⟨stop, hstop, h⟩
    cases m with
    | checked => exact hsum (Arith.add_eq_ok.mp hstop).1
    | wrapping =>
      obtain ⟨c, hc, heq⟩ := Arith.add_wrapping_lt hstart hsize (Nat.not_lt.mp hsum)
      obtain rfl := Except.ok.inj (heq.symm.trans hstop)
      obtain ⟨⟨hle, -⟩, -⟩ := checkedRange_eq_ok.mp h
      omega

theorem safe_clampedSlice (hstart : start < 2 ^ 64) (hsize : size < 2 ^ 64) :
    (clampedSlice m l start size).Safe ↔ start + size < 2 ^ 64 ∧ start ≤ l.length := by
  simp only [Checked.Safe, clampedSlice_eq_ok hstart hsize]
  constructor
  · rintro ⟨s, hsum, hle, -⟩
    exact ⟨hsum, hle⟩
  · rintro ⟨hsum, hle⟩
    exact ⟨_, hsum, hle, rfl⟩

end Slices
