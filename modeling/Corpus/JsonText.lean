/-
JSON texts, printed with an indentation, and the reading of their strings.

A text is a list of characters.  `quote` prints a string and `block` an array or an object, whose
items are texts.

* `readChar_escape` — a character is read back, whatever follows;
* `quote_append_inj` — so a string is read off any text that begins with it;
* `Literal`, `Reads` — what may stand between the quotes, and what it stands for;
* `Reads.length_le` — no other way to write a string is shorter;
* `plain_of_length_le` — a string that is printed at its own length needs no escape;
* `items_append` — the items of a list are printed one after the other.
-/
import Corpus.Encodings
import Mathlib.Data.List.Nodup

namespace JsonText

open Encodings

/-! ### Strings -/

/-- The characters with a short escape, and its letter. -/
def shorts : List (Char × Char) :=
  [('"', '"'), ('\\', '\\'), ('\x08', 'b'), ('\t', 't'), ('\n', 'n'), ('\x0c', 'f'), ('\r', 'r')]

/-- A character inside a string. -/
def escape (c : Char) : List Char :=
  match shorts.find? fun p => p.1 = c with
  | some p => ['\\', p.2]
  | none =>
    if c.toNat < 32 then
      ['\\', 'u', '0', '0', Nat.digitChar (c.toNat / 16), Nat.digitChar (c.toNat % 16)]
    else [c]

/-- A string, without its quotes. -/
def body (s : String) : List Char := s.toList.flatMap escape

/-- A string. -/
def quote (s : String) : List Char := '"' :: (body s ++ ['"'])

theorem escape_cases (c : Char) : (∃ e, (c, e) ∈ shorts ∧ escape c = ['\\', e]) ∨
    (c.toNat < 32 ∧ escape c =
      ['\\', 'u', '0', '0', Nat.digitChar (c.toNat / 16), Nat.digitChar (c.toNat % 16)]) ∨
    (c ≠ '\\' ∧ c ≠ '"' ∧ 32 ≤ c.toNat ∧ escape c = [c]) := by
  unfold escape
  cases hfind : shorts.find? fun p => p.1 = c with
  | some p =>
    have hmem := List.mem_of_find?_eq_some hfind
    have hc : p.1 = c := by simpa using List.find?_some hfind
    exact .inl ⟨p.2, hc ▸ hmem, rfl⟩
  | none =>
    -- Backslash and quote have short escapes.
    have hnone := List.find?_eq_none.mp hfind
    by_cases hctrl : c.toNat < 32
    · exact .inr (.inl ⟨hctrl, if_pos hctrl⟩)
    · refine .inr (.inr ⟨?_, ?_, by omega, if_neg hctrl⟩)
      · rintro rfl
        exact hnone ('\\', '\\') (by decide) (by decide)
      · rintro rfl
        exact hnone ('"', '"') (by decide) (by decide)

/-- Most characters are printed as they are. -/
theorem escape_plain {c : Char} (hback : c ≠ '\\') (hquote : c ≠ '"') (hctrl : 32 ≤ c.toNat) :
    escape c = [c] := by
  obtain ⟨e, hc, -⟩ | ⟨hc, -⟩ | ⟨-, -, -, hec⟩ := escape_cases c
  · have hall : ∀ p ∈ shorts, p.1 = '\\' ∨ p.1 = '"' ∨ p.1.toNat < 32 := by decide
    obtain h | h | h := hall _ hc
    · exact absurd h hback
    · exact absurd h hquote
    · exact absurd hctrl (Nat.not_le.mpr h)
  · omega
  · exact hec

/-! ### Reading a character -/

/-- Four hexadecimal digits. -/
def readHex : List Char → Option (ℕ × List Char)
  | a :: b :: c :: d :: rest => do
    let a ← hexValue a
    let b ← hexValue b
    let c ← hexValue c
    let d ← hexValue d
    some (((a * 16 + b) * 16 + c) * 16 + d, rest)
  | _ => none

/-- Behind `\u`: a code unit, or two that are a surrogate pair. -/
def readUnit (x : List Char) : Option (Char × List Char) := do
  let (n, rest) ← readHex x
  if n < 0xD800 ∨ 0xE000 ≤ n then some (Char.ofNat n, rest)
  else if 0xDC00 ≤ n then none
  else match rest with
    | '\\' :: 'u' :: rest => do
      let (m, rest) ← readHex rest
      if 0xDC00 ≤ m ∧ m < 0xE000 then
        some (Char.ofNat (0x10000 + (n - 0xD800) * 0x400 + (m - 0xDC00)), rest)
      else none
    | _ => none

/-- Behind a backslash; a slash may be escaped too. -/
def readEscape : List Char → Option (Char × List Char)
  | [] => none
  | e :: rest =>
    if e = 'u' then readUnit rest
    else ((shorts ++ [('/', '/')]).find? fun p => p.2 = e).map fun p => (p.1, rest)

/-- The first character of what stands between the quotes. -/
def readChar : List Char → Option (Char × List Char)
  | [] => none
  | c :: rest =>
    if c = '\\' then readEscape rest
    else if c = '"' ∨ c.toNat < 32 then none
    else some (c, rest)

theorem readChar_plain {c : Char} (hback : c ≠ '\\') (hquote : c ≠ '"') (hctrl : 32 ≤ c.toNat)
    (x : List Char) : readChar (c :: x) = some (c, x) := by
  rw [readChar, if_neg hback, if_neg]
  rintro (h | h)
  · exact hquote h
  · omega

theorem readEscape_short {c e : Char} (h : (c, e) ∈ shorts) (x : List Char) :
    readEscape (e :: x) = some (c, x) := by
  have hall : ∀ p ∈ shorts, p.2 ≠ 'u' ∧
      ((shorts ++ [('/', '/')]).find? fun q => q.2 = p.2) = some p := by decide
  obtain ⟨hu, hfind⟩ := hall _ h
  rw [readEscape, if_neg hu, hfind]
  rfl

theorem hexValue_digitChar {n : ℕ} (h : n < 16) : hexValue (Nat.digitChar n) = some n := by
  have hall : ∀ n < 16, hexValue (Nat.digitChar n) = some n := by decide
  exact hall n h

theorem readUnit_of_readHex {n : ℕ} {x rest : List Char} (h : readHex x = some (n, rest))
    (hn : n < 0xD800) : readUnit x = some (Char.ofNat n, rest) := by
  rw [readUnit, h]
  exact if_pos (.inl hn)

/-- What is printed is read back. -/
theorem readChar_escape (c : Char) (x : List Char) : readChar (escape c ++ x) = some (c, x) := by
  -- A short escape, a control character in hexadecimal digits, or itself.
  obtain ⟨e, hc, hec⟩ | ⟨hc, hec⟩ | ⟨hback, hquote, hctrl, hec⟩ := escape_cases c
  · rw [hec]
    exact readEscape_short hc x
  · rw [hec]
    have hzero : hexValue '0' = some 0 := by decide
    have hhi := hexValue_digitChar (show c.toNat / 16 < 16 by omega)
    have hlo := hexValue_digitChar (show c.toNat % 16 < 16 by omega)
    have hn : ((0 * 16 + 0) * 16 + c.toNat / 16) * 16 + c.toNat % 16 = c.toNat := by omega
    have hread : readHex ('0' :: '0' :: Nat.digitChar (c.toNat / 16) ::
        Nat.digitChar (c.toNat % 16) :: x) = some (c.toNat, x) := by
      simp only [readHex, hzero, hhi, hlo, Option.bind_eq_bind, Option.bind_some, hn]
    have hunit := readUnit_of_readHex hread (by omega)
    rwa [Char.ofNat_toNat] at hunit
  · rw [hec]
    exact readChar_plain hback hquote hctrl x

/-- A character is read off what begins with it. -/
theorem escape_append_inj {c d : Char} {x y : List Char} (h : escape c ++ x = escape d ++ y) :
    c = d ∧ x = y := by
  have hread := congrArg readChar h
  rw [readChar_escape, readChar_escape] at hread
  exact Prod.mk.inj (Option.some.inj hread)

/-- No character is printed as the end of the string. -/
theorem escape_append_ne (c : Char) (x y : List Char) : escape c ++ x ≠ '"' :: y := by
  intro h
  have hread := congrArg readChar h
  rw [readChar_escape] at hread
  exact absurd hread (by simp [readChar])

theorem flatMap_escape_inj : ∀ {a b x y : List Char},
    a.flatMap escape ++ '"' :: x = b.flatMap escape ++ '"' :: y → a = b
  | [], [], _, _, _ => rfl
  | [], d :: b, x, y, h => by
    rw [List.flatMap_cons, List.append_assoc] at h
    exact absurd h.symm (escape_append_ne d _ _)
  | c :: a, [], x, y, h => by
    rw [List.flatMap_cons, List.append_assoc] at h
    exact absurd h (escape_append_ne c _ _)
  | c :: a, d :: b, x, y, h => by
    rw [List.flatMap_cons, List.flatMap_cons, List.append_assoc, List.append_assoc] at h
    obtain ⟨rfl, hrest⟩ := escape_append_inj h
    rw [flatMap_escape_inj hrest]

/-- A string is read off what begins with it. -/
theorem quote_append_inj {a b : String} {x y : List Char} (h : quote a ++ x = quote b ++ y) :
    a = b := by
  simp only [quote, body, List.cons_append, List.append_assoc, List.cons.injEq, true_and,
    List.nil_append] at h
  exact String.ext (flatMap_escape_inj h)

/-! ### Literals -/

/-- What may stand between two quotes: a quote only behind a backslash. -/
inductive Literal : List Char → Prop where
  | nil : Literal []
  | char (c : Char) {x : List Char} : c ≠ '\\' → c ≠ '"' → Literal x → Literal (c :: x)
  | escape (c : Char) {x : List Char} : Literal x → Literal ('\\' :: c :: x)

/-- The characters that a literal stands for. -/
inductive Reads : List Char → List Char → Prop where
  | nil : Reads [] []
  | char {x rest s : List Char} {c : Char} :
      readChar x = some (c, rest) → Reads rest s → Reads x (c :: s)

theorem reads_flatMap_escape (s : List Char) : Reads (s.flatMap escape) s := by
  induction s with
  | nil => exact .nil
  | cons c s ih =>
    rw [List.flatMap_cons]
    exact .char (readChar_escape c _) ih

theorem reads_body (s : String) : Reads (body s) s.toList := reads_flatMap_escape s.toList

theorem Literal.escape_append (c : Char) {x : List Char} (h : Literal x) :
    Literal (JsonText.escape c ++ x) := by
  obtain ⟨e, -, hec⟩ | ⟨hc, hec⟩ | ⟨hback, hquote, -, hec⟩ := escape_cases c
  · rw [hec]
    exact .escape e h
  · rw [hec]
    have hdigit : ∀ n < 16, Nat.digitChar n ≠ '\\' ∧ Nat.digitChar n ≠ '"' := by decide
    obtain ⟨hhi, hhi'⟩ := hdigit (c.toNat / 16) (by omega)
    obtain ⟨hlo, hlo'⟩ := hdigit (c.toNat % 16) (by omega)
    exact .escape 'u' (.char '0' (by decide) (by decide) (.char '0' (by decide) (by decide)
      (.char _ hhi hhi' (.char _ hlo hlo' h))))
  · rw [hec]
    exact .char c hback hquote h

theorem literal_flatMap_escape (s : List Char) : Literal (s.flatMap JsonText.escape) := by
  induction s with
  | nil => exact .nil
  | cons c s ih =>
    rw [List.flatMap_cons]
    exact ih.escape_append c

theorem literal_body (s : String) : Literal (body s) := literal_flatMap_escape s.toList

/-- A literal is read off what begins with it and a quote. -/
theorem Literal.append_inj {a : List Char} (ha : Literal a) : ∀ {b x y : List Char}, Literal b →
    a ++ '"' :: x = b ++ '"' :: y → a = b ∧ x = y := by
  -- Both literals end at the first quote that no backslash is before.
  induction ha with
  | nil =>
    intro b x y hb h
    cases hb with
    | nil => exact ⟨rfl, (List.cons.inj h).2⟩
    | char c _ hquote _ => exact absurd (List.cons.inj h).1.symm hquote
    | escape c _ => exact absurd (List.cons.inj h).1 (by decide)
  | char c hback hquote _ ih =>
    intro b x y hb h
    cases hb with
    | nil => exact absurd (List.cons.inj h).1 hquote
    | char d _ _ hb =>
      obtain ⟨rfl, htail⟩ := List.cons.inj h
      obtain ⟨rfl, rfl⟩ := ih hb htail
      exact ⟨rfl, rfl⟩
    | escape d _ => exact absurd (List.cons.inj h).1 hback
  | escape c _ ih =>
    intro b x y hb h
    cases hb with
    | nil => exact absurd (List.cons.inj h).1 (by decide)
    | char d hback _ _ => exact absurd (List.cons.inj h).1.symm hback
    | escape d hb =>
      obtain ⟨rfl, htail⟩ := List.cons.inj (List.cons.inj h).2
      obtain ⟨rfl, rfl⟩ := ih hb htail
      exact ⟨rfl, rfl⟩

theorem Reads.of_nil {s : List Char} (h : Reads [] s) : s = [] := by
  cases h with
  | nil => rfl
  | char hread _ => exact absurd hread (by simp [readChar])

theorem Reads.to_nil {x : List Char} (h : Reads x []) : x = [] := by
  cases h
  rfl

theorem Reads.plain {c : Char} (hback : c ≠ '\\') (hquote : c ≠ '"') (hctrl : 32 ≤ c.toNat)
    {x s : List Char} (h : Reads (c :: x) s) : ∃ s', s = c :: s' ∧ Reads x s' := by
  cases h with
  | char hread hrest =>
    rw [readChar_plain hback hquote hctrl] at hread
    obtain ⟨rfl, rfl⟩ := Prod.mk.inj (Option.some.inj hread)
    exact ⟨_, rfl, hrest⟩

theorem Reads.escape {c : Char} {x s : List Char} (h : Reads (JsonText.escape c ++ x) s) :
    ∃ s', s = c :: s' ∧ Reads x s' := by
  generalize hy : JsonText.escape c ++ x = y at h
  cases h with
  | nil =>
    have hread := congrArg readChar hy
    rw [readChar_escape] at hread
    exact absurd hread (by simp [readChar])
  | char hread hrest =>
    rw [← hy, readChar_escape] at hread
    obtain ⟨rfl, rfl⟩ := Prod.mk.inj (Option.some.inj hread)
    exact ⟨_, rfl, hrest⟩

/-! ### Other ways to write a string -/

theorem length_escape_le (c : Char) : (escape c).length ≤ 6 := by
  obtain ⟨e, -, hec⟩ | ⟨-, hec⟩ | ⟨-, -, -, hec⟩ := escape_cases c
  · simp [hec]
  · simp [hec]
  · simp [hec]

theorem length_readHex {x rest : List Char} {n : ℕ} (h : readHex x = some (n, rest)) :
    x.length = rest.length + 4 := by
  unfold readHex at h
  split at h
  · obtain ⟨a, -, h⟩ := Option.bind_eq_some_iff.mp h
    obtain ⟨b, -, h⟩ := Option.bind_eq_some_iff.mp h
    obtain ⟨c, -, h⟩ := Option.bind_eq_some_iff.mp h
    obtain ⟨d, -, h⟩ := Option.bind_eq_some_iff.mp h
    obtain ⟨-, rfl⟩ := Prod.mk.inj (Option.some.inj h)
    rfl
  · exact absurd h (by simp)

theorem length_readUnit {x rest : List Char} {c : Char} (h : readUnit x = some (c, rest)) :
    rest.length + 4 ≤ x.length := by
  obtain ⟨⟨n, y⟩, hy, h⟩ := Option.bind_eq_some_iff.mp h
  have hlength := length_readHex hy
  dsimp only at h
  split_ifs at h
  · obtain ⟨-, rfl⟩ := Prod.mk.inj (Option.some.inj h)
    omega
  -- Behind a first half of a pair comes a second one.
  · split at h
    · obtain ⟨⟨m, z⟩, hz, h⟩ := Option.bind_eq_some_iff.mp h
      have hlength' := length_readHex hz
      dsimp only at h
      split_ifs at h
      obtain ⟨-, rfl⟩ := Prod.mk.inj (Option.some.inj h)
      simp only [List.length_cons] at hlength
      omega
    · exact absurd h (by simp)

/-- No way to write a character is shorter. -/
theorem length_readChar {x rest : List Char} {c : Char} (h : readChar x = some (c, rest)) :
    (escape c).length + rest.length ≤ x.length := by
  cases x with
  | nil => exact absurd h (by simp [readChar])
  | cons a x =>
    rw [readChar] at h
    split_ifs at h with hback hplain
    · cases x with
      | nil => exact absurd h (by simp [readEscape])
      | cons e x =>
        rw [readEscape] at h
        split_ifs at h
        · have hlength := length_readUnit h
          have hle := length_escape_le c
          simp only [List.length_cons]
          omega
        · obtain ⟨p, hp, hc⟩ := Option.map_eq_some_iff.mp h
          obtain ⟨rfl, rfl⟩ := Prod.mk.inj hc
          -- An escape of two characters is of one that is printed so, or of a slash.
          have hall : ∀ p ∈ shorts ++ [('/', '/')], (escape p.1).length ≤ 2 := by decide
          have hle := hall p (List.mem_of_find?_eq_some hp)
          simp only [List.length_cons]
          omega
    · obtain ⟨rfl, rfl⟩ := Prod.mk.inj (Option.some.inj h)
      rw [not_or, Nat.not_lt] at hplain
      rw [escape_plain hback hplain.1 hplain.2]
      simp only [List.length_cons, List.length_nil]
      omega

/-- No way to write a string is shorter. -/
theorem Reads.length_le {x s : List Char} (h : Reads x s) :
    (s.flatMap JsonText.escape).length ≤ x.length := by
  induction h with
  | nil => exact Nat.le_refl _
  | char hread _ ih =>
    have hle := length_readChar hread
    rw [List.flatMap_cons, List.length_append]
    omega

theorem readHex_slash (a : List Char) (h : a.length < 4) (x : List Char) :
    readHex (a ++ '/' :: x) = none := by
  have hslash : hexValue '/' = none := by decide
  unfold readHex
  split
  · next b c d e rest heq =>
    -- The slash is one of the four.
    have hmem : '/' ∈ [b, c, d, e] := by
      have htake := congrArg (List.take 4) heq
      rw [List.take_append] at htake
      have hpos : ∃ k, 4 - a.length = k + 1 := ⟨3 - a.length, by omega⟩
      obtain ⟨k, hk⟩ := hpos
      rw [hk, List.take_succ_cons] at htake
      have hin : '/' ∈ List.take 4 (b :: c :: d :: e :: rest) := by
        rw [← htake]
        simp
      simpa using hin
    simp only [List.mem_cons, List.not_mem_nil, or_false] at hmem
    obtain rfl | rfl | rfl | rfl := hmem
    · simp [hslash]
    · simp [hslash]
    · simp [hslash]
    · simp [hslash]
  · rfl

/-- An escape that is cut short by a slash is of another character, or of none. -/
theorem readChar_cut {c : Char} {a b x rest : List Char} (h : escape c = a ++ b) (ha : a ≠ [])
    (hb : b ≠ []) : readChar (a ++ '/' :: x) ≠ some (c, rest) := by
  have hlength := congrArg List.length h
  have hpos := List.length_pos_of_ne_nil ha
  have hpos' := List.length_pos_of_ne_nil hb
  rw [List.length_append] at hlength
  -- Behind the backslash alone, a slash is read.
  have hslash (hne : c ≠ '/') : readChar ('\\' :: '/' :: x) ≠ some (c, rest) := by
    intro hread
    have hread' : some ('/', x) = some (c, rest) := hread
    exact hne (Prod.mk.inj (Option.some.inj hread')).1.symm
  cases a with
  | nil => exact absurd rfl ha
  | cons d a =>
    obtain ⟨e, hc, hec⟩ | ⟨hc, hec⟩ | ⟨-, -, -, hec⟩ := escape_cases c
    · rw [hec] at h hlength
      obtain ⟨rfl, -⟩ := List.cons.inj h
      simp only [List.length_cons, List.length_nil] at hlength
      obtain rfl : a = [] := List.eq_nil_of_length_eq_zero (by omega)
      refine hslash fun heq => ?_
      have hall : ∀ p ∈ shorts, p.1 ≠ '/' := by decide
      exact hall _ hc heq
    · rw [hec] at h hlength
      obtain ⟨rfl, htail⟩ := List.cons.inj h
      cases a with
      | nil =>
        refine hslash fun heq => ?_
        rw [heq] at hc
        exact absurd hc (by decide)
      | cons u a =>
        obtain ⟨rfl, -⟩ := List.cons.inj htail
        simp only [List.length_cons, List.length_nil] at hlength
        have hnone : readUnit (a ++ '/' :: x) = none := by
          rw [readUnit, readHex_slash a (by omega)]
          rfl
        intro hread
        exact absurd (hnone.symm.trans hread) (by simp)
    · rw [hec, List.length_singleton] at hlength
      omega

/-! ### Strings that are written as they are -/

/-- No character needs an escape. -/
def Plain (s : List Char) : Prop := ∀ c ∈ s, c ≠ '\\' ∧ c ≠ '"' ∧ 32 ≤ c.toNat

instance (s : List Char) : Decidable (Plain s) :=
  decidable_of_iff ((s.all fun c => decide (c ≠ '\\' ∧ c ≠ '"' ∧ 32 ≤ c.toNat)) = true) (by
    simp only [List.all_eq_true, decide_eq_true_eq, Plain])

theorem Plain.reads {s : List Char} (h : Plain s) : Reads s s := by
  induction s with
  | nil => exact .nil
  | cons c s ih =>
    obtain ⟨⟨hback, hquote, hctrl⟩, hs⟩ := List.forall_mem_cons.mp h
    exact .char (readChar_plain hback hquote hctrl s) (ih hs)

theorem length_escape (c : Char) : 1 ≤ (escape c).length ∧
    ((escape c).length ≤ 1 → c ≠ '\\' ∧ c ≠ '"' ∧ 32 ≤ c.toNat) := by
  obtain ⟨e, -, hec⟩ | ⟨-, hec⟩ | ⟨hback, hquote, hctrl, hec⟩ := escape_cases c
  · simp [hec]
  · simp [hec]
  · simp [hec, hback, hquote, hctrl]

theorem length_le_flatMap_escape (s : List Char) : s.length ≤ (s.flatMap escape).length := by
  induction s with
  | nil => exact Nat.le_refl _
  | cons c s ih =>
    have hc := (length_escape c).1
    rw [List.flatMap_cons, List.length_append, List.length_cons]
    omega

/-- A string that is as long as when it is printed needs no escape. -/
theorem plain_of_length_le {s : List Char} (h : (s.flatMap escape).length ≤ s.length) :
    Plain s := by
  induction s with
  | nil => exact fun c hc => absurd hc List.not_mem_nil
  | cons c s ih =>
    have hc := length_escape c
    have hs := length_le_flatMap_escape s
    rw [List.flatMap_cons, List.length_append, List.length_cons] at h
    exact List.forall_mem_cons.mpr ⟨hc.2 (by omega), ih (by omega)⟩

/-- A literal read from left to right, in at most `n` characters. -/
def readAll : ℕ → List Char → Option (List Char)
  | _, [] => some []
  | 0, _ => none
  | n + 1, x => do
    let (c, rest) ← readChar x
    let s ← readAll n rest
    some (c :: s)

theorem reads_of_readAll {n : ℕ} : ∀ {x s : List Char}, readAll n x = some s → Reads x s := by
  induction n with
  | zero =>
    intro x s h
    cases x with
    | nil =>
      obtain rfl := Option.some.inj h
      exact .nil
    | cons c x => cases h
  | succ n ih =>
    intro x s h
    cases x with
    | nil =>
      obtain rfl := Option.some.inj h
      exact .nil
    | cons c x =>
      obtain ⟨⟨d, rest⟩, hread, h⟩ := Option.bind_eq_some_iff.mp h
      obtain ⟨s', hs', h⟩ := Option.bind_eq_some_iff.mp h
      obtain rfl := Option.some.inj h
      exact .char hread (ih hs')

theorem readAll_of_reads {x s : List Char} (h : Reads x s) : ∀ n, x.length ≤ n →
    readAll n x = some s := by
  induction h with
  | nil =>
    intro n _
    rw [readAll]
  | @char x rest s c hread _ ih =>
    intro n hn
    have hlength := length_readChar hread
    have hpos := (length_escape c).1
    cases n with
    | zero => omega
    | succ n =>
      cases x with
      | nil => simp [readChar] at hread
      | cons d x =>
        rw [readAll, hread]
        · simp [ih n (by omega)]
        · simp

/-! ### Arrays and objects -/

/-- An item begins on a line of its own, behind a comma unless it is the first. -/
def items (indent : ℕ) : Bool → List (List Char) → List Char
  | _, [] => []
  | first, x :: xs =>
    (if first then [] else [',']) ++ '\n' :: (List.replicate indent ' ' ++ (x ++ items indent false xs))

/-- Items between brackets; `indent` is that of the closing one. -/
def block (left right : Char) (indent : ℕ) (xs : List (List Char)) : List Char :=
  if xs.isEmpty then [left, right]
  else left :: (items (indent + 2) true xs ++ '\n' :: (List.replicate indent ' ' ++ [right]))

def array : ℕ → List (List Char) → List Char := block '[' ']'

/-- An object, of its names and the texts of their values. -/
def object (indent : ℕ) (fields : List (String × List Char)) : List Char :=
  block '{' '}' indent (fields.map fun f => quote f.1 ++ (": ".toList ++ f.2))

theorem items_append (indent : ℕ) (xs ys : List (List Char)) : ∀ first : Bool,
    items indent first (xs ++ ys) =
      items indent first xs ++ items indent (first && xs.isEmpty) ys := by
  induction xs with
  | nil =>
    intro first
    rw [List.nil_append, List.isEmpty_nil, Bool.and_true]
    rfl
  | cons x xs ih =>
    intro first
    rw [List.cons_append, items, ih false, items, List.isEmpty_cons, Bool.and_false, Bool.false_and]
    simp only [List.append_assoc, List.cons_append]

theorem block_of_ne_nil {left right : Char} {indent : ℕ} {xs : List (List Char)} (h : xs ≠ []) :
    block left right indent xs =
      left :: (items (indent + 2) true xs ++ '\n' :: (List.replicate indent ' ' ++ [right])) := by
  rw [block, if_neg]
  rwa [List.isEmpty_iff]

/-- Behind the same items, the next one begins at the same place. -/
theorem block_append_inj {left right : Char} {indent : ℕ} (xs : List (List Char))
    {x x' : List Char} {ys ys' : List (List Char)} {y y' : List Char}
    (h : block left right indent (xs ++ x :: ys) ++ y =
      block left right indent (xs ++ x' :: ys') ++ y') : ∃ z z', x ++ z = x' ++ z' := by
  rw [block_of_ne_nil (by simp), block_of_ne_nil (by simp), items_append, items_append, items,
    items] at h
  simp only [List.append_assoc, List.cons_append, List.cons.injEq, true_and,
    List.append_cancel_left_eq] at h
  exact ⟨_, _, h⟩

/-- Behind the same members, the next value begins at the same place. -/
theorem object_append_inj {indent : ℕ} (fs : List (String × List Char)) {name : String}
    {v v' : List Char} {gs gs' : List (String × List Char)} {y y' : List Char}
    (h : object indent (fs ++ (name, v) :: gs) ++ y =
      object indent (fs ++ (name, v') :: gs') ++ y') : ∃ z z', v ++ z = v' ++ z' := by
  rw [object, object, List.map_append, List.map_append, List.map_cons, List.map_cons] at h
  obtain ⟨z, z', hz⟩ := block_append_inj _ h
  simp only [List.append_assoc, List.append_cancel_left_eq] at hz
  exact ⟨z, z', hz⟩

end JsonText
