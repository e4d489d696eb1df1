/-
The notations of a UUID (`Uuid::parse_str` and `Display` of the `uuid` crate).

Thirty-two hexadecimal digits in either case, plain or in the five groups of the hyphenated
notation; the hyphenated one also in braces or behind `urn:uuid:`.

* `parseUuidText_printUuid` — what is printed reads as the identifier;
* `parseUuidText_lowercase` — the case of a text of letters, digits and hyphens does not matter.
-/
import Corpus.Basic
import Mathlib.Algebra.Group.Nat.Defs

namespace Corpus

/-- The number spelled by hexadecimal digits. -/
def hexNumber (cs : List Char) : Option ℕ :=
  cs.foldlM (fun n c => (hexValue c).map (16 * n + ·)) 0

/-- The digits of the hyphenated notation. -/
def parseHyphenated (cs : List Char) : Option Uuid :=
  if cs.length = 36 ∧ cs[8]? = some '-' ∧ cs[13]? = some '-' ∧ cs[18]? = some '-' ∧
      cs[23]? = some '-' then
    hexNumber (cs.take 8 ++ (cs.drop 9).take 4 ++ (cs.drop 14).take 4 ++ (cs.drop 19).take 4 ++
      cs.drop 24)
  else none

/-- `Uuid::parse_str`. -/
def parseUuidText (s : String) : Option Uuid :=
  let cs := s.toList
  if cs.length = 32 then hexNumber cs
  else if cs.length = 36 then parseHyphenated cs
  else if cs.length = 38 ∧ cs.head? = some '{' ∧ cs.getLast? = some '}' then
    parseHyphenated (cs.drop 1).dropLast
  else if cs.length = 45 ∧ cs.take 9 = "urn:uuid:".toList then parseHyphenated (cs.drop 9)
  else none

/-- The lowest `n` hexadecimal digits, the first the highest. -/
def hexDigits : ℕ → ℕ → List Char
  | 0, _ => []
  | n + 1, x => hexDigits n (x / 16) ++ [hexDigit (x % 16)]

/-- `Display`: the hyphenated notation in lower case. -/
def printUuid (id : Uuid) : String :=
  let ds := hexDigits 32 id
  String.ofList (ds.take 8 ++ '-' :: ((ds.drop 8).take 4 ++ '-' :: ((ds.drop 12).take 4 ++
    '-' :: ((ds.drop 16).take 4 ++ '-' :: ds.drop 20))))

section Printing

theorem length_hexDigits (n : ℕ) : ∀ x, (hexDigits n x).length = n := by
  induction n with
  | zero => exact fun _ => rfl
  | succ n ih =>
    intro x
    rw [hexDigits, List.length_append, ih, List.length_singleton]

theorem hexNumber_append {xs : List Char} {c : Char} {m d : ℕ} (hxs : hexNumber xs = some m)
    (hc : hexValue c = some d) : hexNumber (xs ++ [c]) = some (16 * m + d) := by
  unfold hexNumber at hxs ⊢
  rw [List.foldlM_append, hxs]
  simp [hc]

/-- The digits spell the number, as far as they reach. -/
theorem hexNumber_hexDigits (n : ℕ) : ∀ x, hexNumber (hexDigits n x) = some (x % 16 ^ n) := by
  induction n with
  | zero =>
    intro x
    rw [Nat.pow_zero, Nat.mod_one]
    rfl
  | succ n ih =>
    intro x
    have hdigit := hexValue_hexDigit (x % 16) (by omega)
    rw [hexDigits, hexNumber_append (ih (x / 16)) hdigit, Nat.pow_succ, Nat.mul_comm (16 ^ n),
      Nat.mod_mul, Nat.add_comm]

theorem parseHyphenated_groups {a b c d e : List Char} (ha : a.length = 8) (hb : b.length = 4)
    (hc : c.length = 4) (hd : d.length = 4) (he : e.length = 12) :
    parseHyphenated (a ++ '-' :: (b ++ '-' :: (c ++ '-' :: (d ++ '-' :: e)))) =
      hexNumber (a ++ b ++ c ++ d ++ e) := by
  unfold parseHyphenated
  rw [if_pos]
  · simp [List.drop_append, List.drop_eq_nil_of_le, ha, hb, hc, hd]
  · simp [ha, hb, hc, hd, he]

/-- **What is printed reads as the identifier.** -/
theorem parseUuidText_printUuid {id : Uuid} (h : id < 2 ^ 128) :
    parseUuidText (printUuid id) = some id := by
  have hlen := length_hexDigits 32 id
  have hnumber := hexNumber_hexDigits 32 id
  unfold printUuid parseUuidText
  generalize hexDigits 32 id = ds at hlen hnumber ⊢
  dsimp only
  rw [String.toList_ofList, if_neg, if_pos, parseHyphenated_groups]
  · have hds : ds.take 8 ++ (ds.drop 8).take 4 ++ (ds.drop 12).take 4 ++ (ds.drop 16).take 4 ++
        ds.drop 20 = ds := by
      have htail : ∀ i, (ds.drop i).take 4 ++ ds.drop (i + 4) = ds.drop i := by
        intro i
        rw [← List.drop_drop]
        exact List.take_append_drop 4 (ds.drop i)
      simp only [List.append_assoc]
      rw [htail 16, htail 12, htail 8, List.take_append_drop]
    rw [hds, hnumber, Nat.mod_eq_of_lt (by omega)]
  all_goals simp [hlen]

theorem mem_hexDigits {c : Char} (n : ℕ) : ∀ x, c ∈ hexDigits n x → ∃ d < 16, c = hexDigit d := by
  induction n with
  | zero => exact fun _ h => absurd h List.not_mem_nil
  | succ n ih =>
    intro x h
    rw [hexDigits, List.mem_append, List.mem_singleton] at h
    rcases h with h | rfl
    · exact ih _ h
    · exact ⟨x % 16, by omega, rfl⟩

/-- The characters of the printed text. -/
theorem mem_printUuid {id : Uuid} {c : Char} (h : c ∈ (printUuid id).toList) :
    c = '-' ∨ ∃ d < 16, c = hexDigit d := by
  have hdigit : ∀ i k, c ∈ ((hexDigits 32 id).drop i).take k → ∃ d < 16, c = hexDigit d :=
    fun i k hc => mem_hexDigits 32 id (List.mem_of_mem_drop (List.mem_of_mem_take hc))
  unfold printUuid at h
  rw [String.toList_ofList] at h
  simp only [List.mem_append, List.mem_cons] at h
  rcases h with h | h | h | h | h | h | h | h | h
  · exact .inr (hdigit 0 8 h)
  · exact .inl h
  · exact .inr (hdigit 8 4 h)
  · exact .inl h
  · exact .inr (hdigit 12 4 h)
  · exact .inl h
  · exact .inr (hdigit 16 4 h)
  · exact .inl h
  · exact .inr (mem_hexDigits 32 id (List.mem_of_mem_drop h))

end Printing

section Case

theorem toLower_of_not_upper {c : Char} (h : ¬ ('A' ≤ c ∧ c ≤ 'Z')) : c.toLower = c := by
  unfold Char.toLower
  exact dif_neg h

theorem toLower_of_ge {c : Char} (h : 128 ≤ c.toNat) : c.toLower = c := by
  refine toLower_of_not_upper fun hupper => ?_
  have hle : c.toNat ≤ 'Z'.toNat := hupper.2
  have hcode : 'Z'.toNat = 90 := by decide
  omega

/-- A fact about the characters up to 127 and their lower case, and about the others as they are. -/
theorem toLower_induction {P : Char → Char → Prop}
    (hlow : ∀ n < 128, P (Char.ofNat n) (Char.ofNat n).toLower) (hhigh : ∀ c, 128 ≤ c.toNat → P c c)
    (c : Char) : P c c.toLower := by
  by_cases h : c.toNat < 128
  · have hc := hlow _ h
    rwa [Char.ofNat_toNat] at hc
  · rw [toLower_of_ge (by omega)]
    exact hhigh c (by omega)

/-- The digits are those of either case. -/
theorem hexValue_toLower (c : Char) : hexValue c.toLower = hexValue c :=
  toLower_induction (P := fun c d => hexValue d = hexValue c) (by decide) (fun _ _ => rfl) c

/-- Only the character itself has a mark of the notations as its lower case. -/
theorem toLower_mark {d : Char} (hd : d = '-' ∨ d = '{' ∨ d = ':') (c : Char) :
    c.toLower = d ↔ c = d := by
  refine toLower_induction (P := fun c e => e = d ↔ c = d) ?_ (fun _ _ => Iff.rfl) c
  obtain rfl | rfl | rfl := hd <;> decide

theorem hexNumber_lowercase (cs : List Char) : hexNumber (cs.map Char.toLower) = hexNumber cs := by
  unfold hexNumber
  simp only [List.foldlM_map, hexValue_toLower]

theorem parseHyphenated_lowercase (cs : List Char) :
    parseHyphenated (cs.map Char.toLower) = parseHyphenated cs := by
  have hmark : ∀ i : ℕ, (cs.map Char.toLower)[i]? = some '-' ↔ cs[i]? = some '-' := by
    intro i
    rw [List.getElem?_map]
    cases cs[i]? with
    | none => simp
    | some c => simp [toLower_mark (.inl rfl)]
  unfold parseHyphenated
  simp only [List.length_map, hmark, ← List.map_take, ← List.map_drop, ← List.map_append,
    hexNumber_lowercase]

/-- **The case of a text without brace and colon does not matter.** -/
theorem parseUuidText_lowercase {s : String} (hbrace : '{' ∉ s.toList) (hcolon : ':' ∉ s.toList) :
    parseUuidText (asciiLowercase s) = parseUuidText s := by
  -- Text without the mark is in none of the longer notations.
  have hnone : ∀ {cs : List Char}, '{' ∉ cs → ':' ∉ cs →
      ¬ (cs.length = 38 ∧ cs.head? = some '{' ∧ cs.getLast? = some '}') ∧
        ¬ (cs.length = 45 ∧ cs.take 9 = "urn:uuid:".toList) := by
    intro cs hb hc
    refine ⟨fun h => hb (List.mem_of_mem_head? h.2.1), fun h => hc ?_⟩
    have htake : ':' ∈ cs.take 9 := by
      rw [h.2]
      decide
    exact List.mem_of_mem_take htake
  have hmem : ∀ {d : Char}, (d = '-' ∨ d = '{' ∨ d = ':') → d ∉ s.toList →
      d ∉ s.toList.map Char.toLower := by
    intro d hd hs hlow
    obtain ⟨c, hc, heq⟩ := List.mem_map.mp hlow
    rw [(toLower_mark hd c).mp heq] at hc
    exact hs hc
  have hs := hnone hbrace hcolon
  have hlow := hnone (hmem (.inr (.inl rfl)) hbrace) (hmem (.inr (.inr rfl)) hcolon)
  unfold parseUuidText asciiLowercase
  dsimp only
  rw [String.toList_ofList, if_neg hs.1, if_neg hs.2, if_neg hlow.1, if_neg hlow.2,
    List.length_map, hexNumber_lowercase, parseHyphenated_lowercase]

end Case

end Corpus
