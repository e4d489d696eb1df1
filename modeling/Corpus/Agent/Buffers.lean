/-
Buffers of the change sensors: fields at offsets, and names in UTF-16.

* `checkedField` — a field of a buffer, read with the operations that may panic;
* `toLe`, `encodeUtf16`, `wideBytes` — how Windows writes integers and names;
* `fieldAt_parts`, `decodeName_nameBytes` — what is written is read again.
-/
import Corpus.Agent.Usn
import Corpus.Rounds
import Mathlib.Algebra.BigOperators.Group.List.Basic

namespace Corpus.Agent

open Checked

/-! ### Fields -/

/-- `from_le_bytes(buf[offset + k..offset + k + n])`. -/
def checkedField (m : Arith) (buf : Bytes) (offset k n : ℕ) : Checked ℕ := do
  let start ← m.add 64 offset k
  let stop ← m.add 64 offset (k + n)
  let bytes ← checkedRange buf start stop
  return fromLe bytes

section Fields

variable {m : Arith} {buf : Bytes} {offset k n x : ℕ}

/-- A field inside the buffer is read. -/
theorem checkedField_of_le (hbuf : buf.length < 2 ^ 63) (h : offset + (k + n) ≤ buf.length) :
    checkedField m buf offset k n = .ok (fieldAt (buf.drop offset) k n) := by
  have hlen : offset + (k + n) - (offset + k) = n := by omega
  unfold checkedField
  rw [Arith.add_of_lt (by omega), ok_bind, Arith.add_of_lt (by omega), ok_bind,
    checkedRange_eq_take (by omega) h, ok_bind, hlen, fieldAt, List.drop_drop]
  rfl

section Parts

variable {parts : List Bytes} {i : ℕ} {part : Bytes}

/-- A buffer of parts, from one of them on. -/
theorem drop_parts (hpart : parts[i]? = some part) (hk : ((parts.map List.length).take i).sum = k)
    (rest : Bytes) :
    (parts.flatten ++ rest).drop k = part ++ ((parts.drop (i + 1)).flatten ++ rest) := by
  obtain ⟨hi, rfl⟩ := List.getElem?_eq_some_iff.mp hpart
  have hdrop := List.drop_sum_flatten parts i
  rw [hk] at hdrop
  have hle : k ≤ parts.flatten.length := by
    rw [← hk, List.length_flatten]
    rw [← List.take_append_drop i (parts.map List.length), List.sum_append, List.take_append_drop]
    omega
  rw [List.drop_append_of_le_length hle, hdrop, List.drop_eq_getElem_cons hi, List.flatten_cons,
    List.append_assoc]

/-- A part that is an integer is the field where it lies. -/
theorem fieldAt_parts (hpart : parts[i]? = some (toLe n x))
    (hk : ((parts.map List.length).take i).sum = k) (hx : x < 256 ^ n) (rest : Bytes) :
    fieldAt (parts.flatten ++ rest) k n = x := by
  rw [fieldAt, drop_parts hpart hk, List.take_left' (length_toLe n x), fromLe_toLe hx]

end Parts

theorem toNat_emod_lt (z : ℤ) : (z % 2 ^ 64).toNat < 2 ^ 64 := by
  have hnonneg : 0 ≤ z % 2 ^ 64 := Int.emod_nonneg _ (by decide)
  have hlt : z % 2 ^ 64 < 2 ^ 64 := Int.emod_lt_of_pos _ (by decide)
  rw [Int.toNat_lt hnonneg]
  exact hlt

/-- A signed integer, as its bytes are written. -/
theorem bmod_toNat_emod {z : ℤ} (hlo : -2 ^ 63 ≤ z) (hhi : z < 2 ^ 63) :
    Int.bmod ((z % 2 ^ 64).toNat : ℤ) (2 ^ 64) = z := by
  unfold Int.bmod
  dsimp only
  split <;> omega

end Fields

/-! ### Names -/

/-- `encode_utf16`. -/
def encodeUtf16 : List Char → List ℕ
  | [] => []
  | c :: cs =>
    if c.toNat < 0x10000 then c.toNat :: encodeUtf16 cs
    else (0xD800 + (c.toNat - 0x10000) / 0x400) :: (0xDC00 + (c.toNat - 0x10000) % 0x400) ::
      encodeUtf16 cs

/-- Each unit, little endian. -/
def wideBytes (units : List ℕ) : Bytes := units.flatMap (toLe 2)

/-- The bytes of a name. -/
def nameBytes (name : String) : Bytes := wideBytes (encodeUtf16 name.toList)

/-- The name in so many bytes. -/
def decodeName (bytes : Bytes) : String := String.ofList (utf16Lossy (wideChars bytes))

theorem encodeUtf16_lt (cs : List Char) : ∀ u ∈ encodeUtf16 cs, u < 2 ^ 16 := by
  induction cs with
  | nil => exact fun u h => absurd h List.not_mem_nil
  | cons c cs ih =>
    have hvalid : c.toNat < 0xD800 ∨ 0xDFFF < c.toNat ∧ c.toNat < 0x110000 := c.valid
    intro u hu
    rw [encodeUtf16] at hu
    split at hu
    · rcases List.mem_cons.mp hu with rfl | hu
      · next hsmall => exact hsmall
      · exact ih u hu
    · simp only [List.mem_cons] at hu
      rcases hu with hlead | htrail | hu
      · omega
      · omega
      · exact ih u hu

theorem length_wideBytes (units : List ℕ) : (wideBytes units).length = 2 * units.length := by
  induction units with
  | nil => rfl
  | cons u units ih =>
    show (toLe 2 u ++ wideBytes units).length = _
    rw [List.length_append, length_toLe, ih, List.length_cons]
    omega

theorem wideChars_wideBytes {units : List ℕ} (h : ∀ u ∈ units, u < 2 ^ 16) :
    wideChars (wideBytes units) = units := by
  induction units with
  | nil => rfl
  | cons u units ih =>
    have hu : u < 2 ^ 16 := h u List.mem_cons_self
    have hunit : (UInt8.ofNat u).toNat + 256 * (UInt8.ofNat (u / 256)).toNat = u := by
      simp only [UInt8.toNat_ofNat']
      omega
    show (_ + 256 * _) :: wideChars (wideBytes units) = _
    rw [hunit, ih fun v hv => h v (List.mem_cons_of_mem _ hv)]

theorem utf16Lossy_cons {u : ℕ} (us : List ℕ) (h : u < 0xD800 ∨ 0xE000 ≤ u) :
    utf16Lossy (u :: us) = Char.ofNat u :: utf16Lossy us := by
  rw [utf16Lossy.eq_def]
  exact if_pos h

theorem utf16Lossy_pair {u v : ℕ} (vs : List ℕ) (hlo : 0xD800 ≤ u) (hhi : u < 0xDC00)
    (hv : 0xDC00 ≤ v) (hv' : v < 0xE000) : utf16Lossy (u :: v :: vs) =
      Char.ofNat (0x10000 + (u - 0xD800) * 0x400 + (v - 0xDC00)) :: utf16Lossy vs := by
  rw [utf16Lossy.eq_def]
  dsimp only
  rw [if_neg (by omega), if_pos ⟨hhi, hv, hv'⟩]

/-- No character is lost. -/
theorem utf16Lossy_encodeUtf16 (cs : List Char) : utf16Lossy (encodeUtf16 cs) = cs := by
  induction cs with
  | nil => rfl
  | cons c cs ih =>
    have hvalid : c.toNat < 0xD800 ∨ 0xDFFF < c.toNat ∧ c.toNat < 0x110000 := c.valid
    rw [encodeUtf16]
    split
    · rw [utf16Lossy_cons _ (by omega), Char.ofNat_toNat, ih]
    · next hbig =>
      have hsum : 0x10000 + (0xD800 + (c.toNat - 0x10000) / 0x400 - 0xD800) * 0x400 +
          (0xDC00 + (c.toNat - 0x10000) % 0x400 - 0xDC00) = c.toNat := by omega
      rw [utf16Lossy_pair _ (by omega) (by omega) (by omega) (by omega), hsum, Char.ofNat_toNat, ih]

/-- A name is read as it was written. -/
theorem decodeName_nameBytes (name : String) : decodeName (nameBytes name) = name := by
  rw [decodeName, nameBytes, wideChars_wideBytes (encodeUtf16_lt _), utf16Lossy_encodeUtf16,
    String.ofList_toList]

theorem length_nameBytes (name : String) :
    (nameBytes name).length = 2 * (encodeUtf16 name.toList).length := length_wideBytes _

end Corpus.Agent
