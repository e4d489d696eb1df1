/-
Hex digits, white space and little-endian integers, as the standard library has them.

* `hexValue_hexDigit` — a digit that is written is read back;
* `trimMatches`, `trim` — a text without what stands at its two ends;
* `fromLe_toLe`, `toLe_fromLe` — the bytes of an unsigned integer, both ways.
-/
import Mathlib.Algebra.Group.Nat.Defs
import Mathlib.Data.Int.Notation
import Mathlib.Data.List.Basic

namespace Encodings

/-! ### Hex digits -/

/-- One lower-case hex digit. -/
def hexDigit (n : ℕ) : Char :=
  if n < 10 then Char.ofNat (48 + n) else Char.ofNat (87 + n)

/-- The value of a hex digit in either case. -/
def hexValue (c : Char) : Option ℕ :=
  if '0' ≤ c ∧ c ≤ '9' then some (c.toNat - 48)
  else if 'a' ≤ c ∧ c ≤ 'f' then some (c.toNat - 87)
  else if 'A' ≤ c ∧ c ≤ 'F' then some (c.toNat - 55)
  else none

theorem hexValue_hexDigit : ∀ n < 16, hexValue (hexDigit n) = some n := by decide

/-! ### White space -/

/-- Unicode `White_Space`, as `char::is_whitespace` has it. -/
def isWhiteSpace (c : Char) : Bool :=
  let n := c.toNat
  (9 ≤ n && n ≤ 13) || n = 0x20 || n = 0x85 || n = 0xa0 || n = 0x1680 ||
    (0x2000 ≤ n && n ≤ 0x200a) || n = 0x2028 || n = 0x2029 || n = 0x202f || n = 0x205f || n = 0x3000

/-- `str::trim_matches`. -/
def trimMatches (p : Char → Bool) (s : String) : String :=
  String.ofList ((s.toList.dropWhile p).reverse.dropWhile p).reverse

/-- `str::trim`. -/
def trim (s : String) : String := trimMatches isWhiteSpace s

/-! ### Little-endian integers -/

/-- `from_le_bytes`, of any width. -/
def fromLe : List UInt8 → ℕ
  | [] => 0
  | b :: bs => b.toNat + 256 * fromLe bs

/-- `to_le_bytes`, of `n` bytes. -/
def toLe : ℕ → ℕ → List UInt8
  | 0, _ => []
  | n + 1, x => UInt8.ofNat x :: toLe n (x / 256)

/-- The integer in the `n` bytes from `off` on. -/
def fieldAt (buf : List UInt8) (off n : ℕ) : ℕ := fromLe ((buf.drop off).take n)

theorem length_toLe (n x : ℕ) : (toLe n x).length = n := by
  induction n generalizing x with
  | zero => rfl
  | succ n ih => rw [toLe, List.length_cons, ih]

theorem fromLe_lt (bytes : List UInt8) : fromLe bytes < 256 ^ bytes.length := by
  induction bytes with
  | nil => exact Nat.one_pos
  | cons b bytes ih =>
    have hb := b.toNat_lt
    rw [fromLe, List.length_cons, Nat.pow_succ]
    omega

theorem fieldAt_lt (buf : List UInt8) (off n : ℕ) : fieldAt buf off n < 256 ^ n :=
  Nat.lt_of_lt_of_le (fromLe_lt _) (Nat.pow_le_pow_right (by decide) (List.length_take_le _ _))

theorem fromLe_toLe_mod (n x : ℕ) : fromLe (toLe n x) = x % 256 ^ n := by
  induction n generalizing x with
  | zero =>
    rw [Nat.pow_zero, Nat.mod_one]
    rfl
  | succ n ih =>
    rw [toLe, fromLe, ih, UInt8.toNat_ofNat']
    show x % 256 + 256 * (x / 256 % 256 ^ n) = x % 256 ^ (n + 1)
    rw [Nat.pow_succ, Nat.mul_comm _ 256, Nat.mod_mul]

theorem fromLe_toLe {n x : ℕ} (h : x < 256 ^ n) : fromLe (toLe n x) = x := by
  rw [fromLe_toLe_mod, Nat.mod_eq_of_lt h]

theorem toLe_fromLe : ∀ bytes : List UInt8, toLe bytes.length (fromLe bytes) = bytes := by
  intro bytes
  induction bytes with
  | nil => rfl
  | cons b bytes ih =>
    have hb := b.toNat_lt
    have hhead : UInt8.ofNat (b.toNat + 256 * fromLe bytes) = b := by
      rw [← UInt8.toNat_inj, UInt8.toNat_ofNat']
      show (b.toNat + 256 * fromLe bytes) % 256 = b.toNat
      omega
    have htail : (b.toNat + 256 * fromLe bytes) / 256 = fromLe bytes := by omega
    rw [List.length_cons, fromLe, toLe, hhead, htail, ih]

end Encodings
