/-
Regular expressions as they are written: character classes, optional groups, and groups
repeated a bounded number of times.

Each is a regular expression of Mathlib; what it matches is said of the text.

* `mem_oneOf` — a class matches its characters;
* `mem_upTo` — `P{0,n}` matches up to `n` texts of `P` behind one another;
* `mem_upTo_oneOf` — a bounded run of a class is a short text over the class;
* `utf8ByteSize_of_ascii` — a text of ASCII characters has a byte for each.
-/
import Mathlib.Computability.RegularExpressions
import Mathlib.Data.String.Basic

namespace RegularExpression

variable {α : Type*}

/-- `[...]`: one of the characters. -/
def oneOf (l : List α) : RegularExpression α := l.foldr (fun a P => char a + P) 0

/-- `P?`. -/
def opt (P : RegularExpression α) : RegularExpression α := 1 + P

/-- `P{0,n}`. -/
def upTo (P : RegularExpression α) : ℕ → RegularExpression α
  | 0 => 1
  | n + 1 => 1 + P * upTo P n

theorem mem_oneOf {l : List α} {x : List α} : x ∈ (oneOf l).matches' ↔ ∃ a ∈ l, x = [a] := by
  induction l with
  | nil =>
    rw [oneOf, List.foldr_nil, matches'_zero]
    simp
  | cons a l ih =>
    have hstep : oneOf (a :: l) = char a + oneOf l := rfl
    rw [hstep, matches'_add, Language.mem_add, ih, matches'_char, List.exists_mem_cons_iff]
    exact Iff.rfl

theorem mem_opt {P : RegularExpression α} {x : List α} :
    x ∈ (opt P).matches' ↔ x = [] ∨ x ∈ P.matches' := by
  rw [opt, matches'_add, Language.mem_add, matches'_epsilon, Language.mem_one]

theorem mem_mul {P Q : RegularExpression α} {x : List α} :
    x ∈ (P * Q).matches' ↔ ∃ y ∈ P.matches', ∃ z ∈ Q.matches', y ++ z = x := by
  rw [matches'_mul, Language.mem_mul]

/-- A bounded repetition is one of the powers. -/
theorem mem_upTo {P : RegularExpression α} {n : ℕ} : ∀ {x : List α},
    x ∈ (upTo P n).matches' ↔ ∃ k ≤ n, x ∈ P.matches' ^ k := by
  induction n with
  | zero =>
    intro x
    rw [upTo, matches'_epsilon]
    simp
  | succ n ih =>
    intro x
    rw [upTo, matches'_add, Language.mem_add, matches'_epsilon, mem_mul]
    constructor
    · rintro (hx | ⟨y, hy, z, hz, rfl⟩)
      · exact ⟨0, by omega, by rwa [pow_zero]⟩
      · obtain ⟨k, hk, hz⟩ := ih.mp hz
        refine ⟨k + 1, by omega, ?_⟩
        rw [pow_succ']
        exact Language.mem_mul.mpr ⟨y, hy, z, hz, rfl⟩
    · rintro ⟨k, hk, hx⟩
      cases k with
      | zero => exact .inl (by rwa [pow_zero] at hx)
      | succ k =>
        rw [pow_succ'] at hx
        obtain ⟨y, hy, z, hz, rfl⟩ := Language.mem_mul.mp hx
        exact .inr ⟨y, hy, z, ih.mpr ⟨k, by omega, hz⟩, rfl⟩

theorem mem_oneOf_pow {l : List α} {k : ℕ} : ∀ {x : List α},
    x ∈ (oneOf l).matches' ^ k ↔ x.length = k ∧ ∀ a ∈ x, a ∈ l := by
  induction k with
  | zero =>
    intro x
    rw [pow_zero, Language.mem_one, List.length_eq_zero_iff]
    constructor
    · rintro rfl
      exact ⟨rfl, by simp⟩
    · exact And.left
  | succ k ih =>
    intro x
    rw [pow_succ', Language.mem_mul]
    constructor
    · rintro ⟨y, hy, z, hz, rfl⟩
      obtain ⟨a, ha, rfl⟩ := mem_oneOf.mp hy
      obtain ⟨hlen, hall⟩ := ih.mp hz
      refine ⟨by simp [hlen], ?_⟩
      simp only [List.singleton_append, List.forall_mem_cons]
      exact ⟨ha, hall⟩
    · rintro ⟨hlen, hall⟩
      cases x with
      | nil => simp at hlen
      | cons a x =>
        obtain ⟨ha, hall⟩ := List.forall_mem_cons.mp hall
        refine ⟨[a], mem_oneOf.mpr ⟨a, ha, rfl⟩, x, ih.mpr ⟨?_, hall⟩, rfl⟩
        simpa using hlen

/-- A class repeated up to `n` times matches the texts over the class of at most that length. -/
theorem mem_upTo_oneOf {l : List α} {n : ℕ} {x : List α} :
    x ∈ (upTo (oneOf l) n).matches' ↔ x.length ≤ n ∧ ∀ a ∈ x, a ∈ l := by
  rw [mem_upTo]
  constructor
  · rintro ⟨k, hk, hx⟩
    obtain ⟨hlen, hall⟩ := mem_oneOf_pow.mp hx
    exact ⟨by omega, hall⟩
  · rintro ⟨hlen, hall⟩
    exact ⟨x.length, hlen, mem_oneOf_pow.mpr ⟨rfl, hall⟩⟩

end RegularExpression

/-- The characters from `lo` to `hi`, in the order of their codes. -/
def Char.span (lo hi : Char) : List Char :=
  (List.range' lo.toNat (hi.toNat + 1 - lo.toNat)).map Char.ofNat

theorem Char.toNat_ofNat_of_valid {n : ℕ} (h : n.isValidChar) : (Char.ofNat n).toNat = n := by
  rw [Char.ofNat, dif_pos h]
  rfl

/-- Below the surrogates a range of characters is a range of codes. -/
theorem Char.mem_span {lo hi c : Char} (hhi : hi.toNat < 0xd800) :
    c ∈ Char.span lo hi ↔ lo ≤ c ∧ c ≤ hi := by
  have hle : ∀ a b : Char, a ≤ b ↔ a.toNat ≤ b.toNat := fun a b => Iff.rfl
  rw [Char.span, List.mem_map, hle, hle]
  constructor
  · rintro ⟨n, hn, rfl⟩
    rw [List.mem_range'_1] at hn
    rw [Char.toNat_ofNat_of_valid (.inl (by omega))]
    omega
  · rintro ⟨hlo, hc⟩
    refine ⟨c.toNat, ?_, Char.ofNat_toNat c⟩
    rw [List.mem_range'_1]
    omega

/-- A text of ASCII characters has a byte for each. -/
theorem String.utf8ByteSize_of_ascii {s : String} (h : ∀ c ∈ s.toList, c.toNat < 128) :
    s.utf8ByteSize = s.toList.length := by
  have hlen : ∀ l : List Char, (∀ c ∈ l, c.toNat < 128) → String.utf8Len l = l.length := by
    intro l
    induction l with
    | nil => simp
    | cons c l ih =>
      intro h
      obtain ⟨hc, hl⟩ := List.forall_mem_cons.mp h
      have hone : c.utf8Size = 1 := Char.utf8Size_eq_one_iff.mpr (Nat.le_of_lt_succ hc)
      rw [String.utf8Len_cons, ih hl, hone, List.length_cons]
  have hs : String.ofList s.toList = s := String.ofList_toList
  rw [← hlen _ h, ← String.utf8ByteSize_ofList, hs]
