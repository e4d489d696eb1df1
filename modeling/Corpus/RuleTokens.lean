/-
What `parse_rule_name` takes for the rule of a source (`rules.rs`).

`tokensOf` is what the source says: words and symbols outside comments, with string literals and
regular expressions as tokens of their own.  `parse_rule_name` sees the words that are left when
comments have been cut out without regard to literals, and nothing else.

Where no literal holds a comment mark and no comment stands between two letters, these are the
words of the tokens, those of the literals included.

* `parseRuleName_spec` — the result, by the words that are seen;
* `words_tokensOf` — the words that are seen, by the tokens;
* `recognises_rule_iff` — when the rule of such a source is recognised.
-/
import Corpus.Rules

namespace Corpus

/-! ### Tokens -/

/-- A byte of the source, as the character it is pushed as. -/
def byteChar (b : UInt8) : Char := Char.ofNat b.toNat

/-- A byte of code, of a comment, or of a literal. -/
inductive Mark where
  | code (c : Char)
  | comment (c : Char)
  | literal (c : Char)

def Mark.char : Mark → Char
  | code c | comment c | literal c => c

/-- What the source is in the middle of.  A literal knows the mark that ends it. -/
inductive LexMode where
  | code
  | line
  | opening
  | block
  | closing
  | quoted (mark : UInt8)
  | escaped (mark : UInt8)

/-- A quotation mark opens a string, and a slash that opens no comment a regular expression.
A literal ends with its line at the latest. -/
def marksFrom : LexMode → Bytes → List Mark
  | _, [] => []
  | .code, b :: rest =>
    if b = '/'.toUInt8 ∧ rest.head? = some '/'.toUInt8 then
      .comment (byteChar b) :: marksFrom .line rest
    else if b = '/'.toUInt8 ∧ rest.head? = some '*'.toUInt8 then
      .comment (byteChar b) :: marksFrom .opening rest
    else if b = '"'.toUInt8 ∨ b = '/'.toUInt8 then .literal (byteChar b) :: marksFrom (.quoted b) rest
    else .code (byteChar b) :: marksFrom .code rest
  | .line, b :: rest =>
    if b = '\n'.toUInt8 then .code (byteChar b) :: marksFrom .code rest
    else .comment (byteChar b) :: marksFrom .line rest
  | .opening, b :: rest => .comment (byteChar b) :: marksFrom .block rest
  | .block, b :: rest =>
    if b = '*'.toUInt8 ∧ rest.head? = some '/'.toUInt8 then
      .comment (byteChar b) :: marksFrom .closing rest
    else .comment (byteChar b) :: marksFrom .block rest
  | .closing, b :: rest => .comment (byteChar b) :: marksFrom .code rest
  | .quoted q, b :: rest =>
    if b = '\\'.toUInt8 then .literal (byteChar b) :: marksFrom (.escaped q) rest
    else if b = q ∨ b = '\n'.toUInt8 then .literal (byteChar b) :: marksFrom .code rest
    else .literal (byteChar b) :: marksFrom (.quoted q) rest
  | .escaped q, b :: rest =>
    if b = '\n'.toUInt8 then .literal (byteChar b) :: marksFrom .code rest
    else .literal (byteChar b) :: marksFrom (.quoted q) rest

/-- The parts of a source. -/
def marksOf (source : String) : List Mark := marksFrom .code (utf8 source)

/-- A word, a symbol that is no space, or a literal. -/
inductive Token where
  | word (w : List Char)
  | symbol
  | literal (text : List Char)
  deriving DecidableEq

/-- The token of what has been read, if it is not empty. -/
def flushToken (literal : Bool) (w : List Char) : List Token :=
  if w.isEmpty then [] else if literal then [.literal w] else [.word w]

/-- The tokens of the parts of a source, after a word or a literal that is being read. -/
def tokensFrom : List Char → Bool → List Mark → List Token
  | w, literal, [] => flushToken literal w
  | w, literal, .comment _ :: rest => flushToken literal w ++ tokensFrom [] false rest
  | w, true, .literal c :: rest => tokensFrom (w ++ [c]) true rest
  | w, false, .literal c :: rest => flushToken false w ++ tokensFrom [c] true rest
  | w, literal, .code c :: rest =>
    if isWordChar c then
      if literal then flushToken true w ++ tokensFrom [c] false rest
      else tokensFrom (w ++ [c]) false rest
    else flushToken literal w ++ (if c.isWhitespace then [] else [.symbol]) ++ tokensFrom [] false rest

/-- The tokens of a source. -/
def tokensOf (source : String) : List Token := tokensFrom [] false (marksOf source)

/-! ### Rules -/

/-- The word begins like an identifier. -/
def isIdentifier (w : List Char) : Bool := w.head?.any fun c => isAsciiAlphabetic c || c == '_'

/-- The word `rule`. -/
def ruleWord : Token := .word "rule".toList

/-- Exactly one token is the word `rule`, and it is followed by the identifier. -/
def Declares (tokens : List Token) (name : List Char) : Prop :=
  ∃ before after, tokens = before ++ ruleWord :: .word name :: after ∧ ruleWord ∉ before ∧
    ruleWord ∉ Token.word name :: after ∧ isIdentifier name = true

/-- Exactly one token is the word `rule`, and nothing follows. -/
def EndsInRule (tokens : List Token) : Prop :=
  ∃ before, tokens = before ++ [ruleWord] ∧ ruleWord ∉ before

/-- The rule of the source is recognised: there is no panic, and the result is a name exactly
when the source has the one rule of that name. -/
def RecognisesRule (debug : String → String) (source : String) : Prop :=
  parseRuleName debug source ≠ .error .indexOutOfBounds ∧
    ∀ name, parseRuleName debug source = .ok name ↔ Declares (tokensOf source) name.toList

/-! ### What can be misread -/

/-- A comment mark begins in a literal. -/
def opensInLiteral : List Mark → Bool
  | [] => false
  | .literal c :: rest =>
    (c = '/' && rest.head?.any fun m => m.char = '/' || m.char = '*') || opensInLiteral rest
  | _ :: rest => opensInLiteral rest

/-- The part is no comment, and its character. -/
def Mark.uncommented? : Mark → Option Char
  | code c | literal c => some c
  | comment _ => none

/-- The source without its comments. -/
def uncommented (marks : List Mark) : List Char := marks.filterMap Mark.uncommented?

/-- No comment stands between two characters of words; `before` says whether such a character
comes before. -/
def keepsApart : Bool → List Mark → Bool
  | _, [] => true
  | before, .comment _ :: rest =>
    !(before && (uncommented rest).head?.any isWordChar) && keepsApart before rest
  | _, .code c :: rest | _, .literal c :: rest => keepsApart (isWordChar c) rest

/-- The words of a text. -/
def wordsOf (text : List Char) : List (List Char) :=
  (text.splitOnP fun c => !isWordChar c).filter fun t => !t.isEmpty

/-- The words of a token: those of a literal are in its text. -/
def Token.words : Token → List (List Char)
  | word w => [w]
  | symbol => []
  | literal text => wordsOf text

/-- What the words `rule` of a source are followed by, and where they stand. -/
structure RuleStands (tokens : List Token) : Prop where
  /-- where one rule is declared, no literal holds the word -/
  unquoted : ∀ {name text}, Declares tokens name → .literal text ∈ tokens →
    "rule".toList ∉ wordsOf text
  /-- the only `rule`, in code, has a word behind it; an identifier follows at once -/
  followed : ∀ {before after}, tokens = before ++ ruleWord :: after →
    "rule".toList ∉ before.flatMap Token.words → "rule".toList ∉ after.flatMap Token.words →
      ∃ w, (after.flatMap Token.words).head? = some w ∧
        (isIdentifier w = true → after.head? = some (.word w))
  /-- the only `rule`, in a literal, has a word behind it that is no identifier -/
  quoted : ∀ {before after}, ruleWord ∉ tokens →
    tokens.flatMap Token.words = before ++ "rule".toList :: after →
    "rule".toList ∉ before → "rule".toList ∉ after →
      ∃ w, after.head? = some w ∧ isIdentifier w = false

/-! ### The words that are seen -/

/-- One index is found: where the list is cut. -/
theorem findIdxs_eq_singleton_iff {α : Type} {p : α → Bool} {l : List α} {i : ℕ} :
    l.findIdxs p = [i] ↔ ∃ before a after, l = before ++ a :: after ∧ before.length = i ∧
      p a = true ∧ (∀ x ∈ before, p x = false) ∧ ∀ x ∈ after, p x = false := by
  constructor
  · intro h
    obtain ⟨hi, hp⟩ := List.mem_findIdxs_iff_exists_getElem_pos.mp (h ▸ List.mem_singleton_self i)
    have hcut : l = l.take i ++ l[i] :: l.drop (i + 1) := by
      rw [← List.drop_eq_getElem_cons hi, List.take_append_drop]
    have hlen : (l.take i).length = i := List.length_take_of_le (Nat.le_of_lt hi)
    have hfind := h
    rw [hcut, List.findIdxs_append, List.findIdxs_cons, if_pos hp, hlen, Nat.zero_add] at hfind
    have hbefore : (l.take i).findIdxs p = [] := by
      have hcount := congrArg List.length hfind
      rw [List.length_append, List.length_cons, List.length_singleton] at hcount
      exact List.length_eq_zero_iff.mp (by omega)
    rw [hbefore, List.nil_append] at hfind
    exact ⟨_, _, _, hcut, hlen, hp, List.findIdxs_eq_nil_iff.mp hbefore,
      List.findIdxs_eq_nil_iff.mp (List.cons.inj hfind).2⟩
  · rintro ⟨before, a, after, rfl, rfl, hp, hbefore, hafter⟩
    rw [List.findIdxs_append, List.findIdxs_cons, if_pos hp, List.findIdxs_eq_nil_iff.mpr hbefore,
      List.findIdxs_eq_nil_iff.mpr hafter, Nat.zero_add]
    rfl

/-- A list of words, with each as a token. -/
theorem ruleWord_mem_map {ws : List (List Char)} :
    ruleWord ∈ ws.map Token.word ↔ "rule".toList ∈ ws := by
  rw [ruleWord, List.mem_map_of_injective fun a b h => Token.word.inj h]

/-- The search for `rule` finds one word: where the words are cut. -/
theorem findIdxs_rule_iff {ws : List (List Char)} {i : ℕ} :
    (ws.findIdxs fun t => t = "rule".toList) = [i] ↔
      ∃ before after, ws = before ++ "rule".toList :: after ∧ before.length = i ∧
        "rule".toList ∉ before ∧ "rule".toList ∉ after := by
  have hnone (l : List (List Char)) :
      (∀ x ∈ l, decide (x = "rule".toList) = false) ↔ "rule".toList ∉ l := by
    simp only [decide_eq_false_iff_not]
    exact ⟨fun h hmem => h _ hmem rfl, fun h x hx heq => h (heq ▸ hx)⟩
  rw [findIdxs_eq_singleton_iff]
  simp only [hnone, decide_eq_true_eq]
  constructor
  · rintro ⟨before, a, after, hws, hlen, rfl, hb, ha⟩
    exact ⟨before, after, hws, hlen, hb, ha⟩
  · rintro ⟨before, after, hws, hlen, hb, ha⟩
    exact ⟨before, _, after, hws, hlen, rfl, hb, ha⟩

/-- The words declare a rule where they are cut. -/
theorem declares_map_iff {ws : List (List Char)} {w : List Char} :
    Declares (ws.map .word) w ↔ ∃ before after, ws = before ++ "rule".toList :: w :: after ∧
      "rule".toList ∉ before ∧ "rule".toList ∉ w :: after ∧ isIdentifier w = true := by
  constructor
  · rintro ⟨before, after, heq, hb, ha, hw⟩
    obtain ⟨before, rest, rfl, rfl, hrest⟩ := List.map_eq_append_iff.mp heq
    obtain ⟨r, rest, rfl, hr, hrest⟩ := List.map_eq_cons_iff.mp hrest
    obtain ⟨v, after, rfl, hv, rfl⟩ := List.map_eq_cons_iff.mp hrest
    obtain rfl := Token.word.inj hr
    obtain rfl := Token.word.inj hv
    rw [ruleWord_mem_map] at hb
    rw [← List.map_cons, ruleWord_mem_map] at ha
    exact ⟨before, after, rfl, hb, ha, hw⟩
  · rintro ⟨before, after, rfl, hb, ha, hw⟩
    refine ⟨before.map .word, after.map .word, ?_, ?_, ?_, hw⟩
    · rw [List.map_append]
      rfl
    · rwa [ruleWord_mem_map]
    · rwa [← List.map_cons, ruleWord_mem_map]

theorem endsInRule_map_iff {ws : List (List Char)} : EndsInRule (ws.map .word) ↔
    ∃ before, ws = before ++ ["rule".toList] ∧ "rule".toList ∉ before := by
  constructor
  · rintro ⟨before, heq, hb⟩
    obtain ⟨before, rest, rfl, rfl, hrest⟩ := List.map_eq_append_iff.mp heq
    obtain ⟨r, rest, rfl, hr, hnil⟩ := List.map_eq_cons_iff.mp hrest
    obtain rfl := Token.word.inj hr
    obtain rfl := List.map_eq_nil_iff.mp hnil
    exact ⟨before, rfl, ruleWord_mem_map.not.mp hb⟩
  · rintro ⟨before, rfl, hb⟩
    refine ⟨before.map .word, ?_, ruleWord_mem_map.not.mpr hb⟩
    rw [List.map_append]
    rfl

section Cut

variable {ws before after : List (List Char)} {w : List Char}

/-- There is one cut at the word `rule`. -/
theorem cut_unique {before' after' : List (List Char)} (hb : "rule".toList ∉ before)
    (ha : "rule".toList ∉ after)
    (h : before ++ "rule".toList :: after = before' ++ "rule".toList :: after') :
    before = before' ∧ after = after' := by
  obtain ⟨hbefore, -, hafter⟩ := (List.append_cons_inj_of_notMem hb ha).mp h
  exact ⟨hbefore, hafter⟩

theorem declares_cut_iff (hb : "rule".toList ∉ before) (ha : "rule".toList ∉ after) :
    Declares ((before ++ "rule".toList :: after).map .word) w ↔
      after.head? = some w ∧ isIdentifier w = true := by
  rw [declares_map_iff]
  constructor
  · rintro ⟨before', after', heq, -, -, hw⟩
    obtain ⟨-, rfl⟩ := cut_unique hb ha heq
    exact ⟨rfl, hw⟩
  · rintro ⟨hhead, hw⟩
    obtain ⟨rest, rfl⟩ := List.head?_eq_some_iff.mp hhead
    exact ⟨before, rest, rfl, hb, ha, hw⟩

theorem endsInRule_cut_iff (hb : "rule".toList ∉ before) (ha : "rule".toList ∉ after) :
    EndsInRule ((before ++ "rule".toList :: after).map .word) ↔ after = [] := by
  rw [endsInRule_map_iff]
  constructor
  · rintro ⟨before', heq, -⟩
    exact (cut_unique hb ha heq).2
  · rintro rfl
    exact ⟨before, rfl, hb⟩

/-- Words that are not cut once neither declare a rule nor end in one. -/
theorem not_cut (h : ∀ i, (ws.findIdxs fun t => t = "rule".toList) ≠ [i]) :
    ¬ Declares (ws.map .word) w ∧ ¬ EndsInRule (ws.map .word) := by
  rw [declares_map_iff, endsInRule_map_iff]
  constructor
  · rintro ⟨before, after, hws, hb, ha, -⟩
    exact h _ (findIdxs_rule_iff.mpr ⟨before, _, hws, rfl, hb, ha⟩)
  · rintro ⟨before, hws, hb⟩
    exact h _ (findIdxs_rule_iff.mpr ⟨before, [], hws, rfl, hb, List.not_mem_nil⟩)

end Cut

/-- The result is the name of the one rule that the seen words declare, and a panic when they
end in `rule`. -/
theorem parseRuleName_spec (debug : String → String) (source : String) :
    (∀ name, parseRuleName debug source = .ok name ↔
        Declares ((ruleTokens source).map .word) name.toList) ∧
      (parseRuleName debug source = .error .indexOutOfBounds ↔
        EndsInRule ((ruleTokens source).map .word)) := by
  unfold parseRuleName
  dsimp only
  split
  · next i hfind =>
    obtain ⟨before, after, hws, rfl, hb, ha⟩ := findIdxs_rule_iff.mp hfind
    have hnext : (ruleTokens source)[before.length + 1]? = after.head? := by
      rw [hws, List.getElem?_append_right (Nat.le_succ _), Nat.succ_sub (Nat.le_refl _), Nat.sub_self,
        List.getElem?_cons_succ, List.head?_eq_getElem?]
    simp only [hnext]
    simp only [hws, declares_cut_iff hb ha, endsInRule_cut_iff hb ha]
    cases after with
    | nil => simp
    | cons w after =>
      simp only [List.head?_cons, Option.some.injEq]
      split
      · next hw =>
        refine ⟨fun name => ?_, iff_of_false (by simp) (List.cons_ne_nil _ _)⟩
        rw [Except.ok.injEq]
        constructor
        · rintro rfl
          rw [String.toList_ofList]
          exact ⟨rfl, hw⟩
        · rintro ⟨rfl, -⟩
          exact String.ofList_toList
      · next hw =>
        refine ⟨fun name => iff_of_false (by simp) ?_, iff_of_false (by simp) (List.cons_ne_nil _ _)⟩
        rintro ⟨rfl, hname⟩
        exact hw hname
  · next hfind =>
    have hnone : ∀ i, ((ruleTokens source).findIdxs fun t => t = "rule".toList) ≠ [i] := by
      intro i h
      rw [hfind] at h
      cases h
    have hnot := fun w => not_cut (w := w) hnone
    exact ⟨fun name => iff_of_false (by simp) (hnot _).1, iff_of_false (by simp) (hnot []).2⟩
  · next ps hone hnil =>
    have hmany : ∀ i, ((ruleTokens source).findIdxs fun t => t = "rule".toList) ≠ [i] := hone
    have hnot := fun w => not_cut (w := w) hmany
    exact ⟨fun name => iff_of_false (by simp) (hnot _).1, iff_of_false (by simp) (hnot []).2⟩

/-! ### Words of a text -/

/-- A text is split at a character that is not of words. -/
theorem splitOnP_at (u v : List Char) {a : Char} (ha : isWordChar a = false) :
    (u ++ a :: v).splitOnP (fun c => !isWordChar c) =
      u.splitOnP (fun c => !isWordChar c) ++ v.splitOnP (fun c => !isWordChar c) :=
  List.splitOnP_append_cons (p := fun c => !isWordChar c) u v (by simp [ha])

theorem wordsOf_append {u v : List Char}
    (h : u.getLast?.any isWordChar = false ∨ v.head?.any isWordChar = false) :
    wordsOf (u ++ v) = wordsOf u ++ wordsOf v := by
  unfold wordsOf
  rcases h with h | h
  · rcases List.eq_nil_or_concat u with rfl | ⟨u, a, rfl⟩
    · rfl
    · have ha : isWordChar a = false := by simpa using h
      rw [List.concat_eq_append, List.append_assoc, List.singleton_append, splitOnP_at _ _ ha,
        splitOnP_at _ [] ha]
      simp
  · cases v with
    | nil => simp
    | cons a v =>
      have ha : isWordChar a = false := by simpa using h
      have hhead := splitOnP_at [] v ha
      rw [List.nil_append] at hhead
      rw [splitOnP_at _ _ ha, hhead]
      simp

theorem wordsOf_cons {c : Char} (h : isWordChar c = false) (v : List Char) :
    wordsOf (c :: v) = wordsOf v := by
  have hhead := splitOnP_at [] v h
  rw [List.nil_append] at hhead
  unfold wordsOf
  rw [hhead]
  simp

/-- Characters of words are one word. -/
theorem wordsOf_word {w : List Char} (h : ∀ c ∈ w, isWordChar c = true) (hne : w ≠ []) :
    wordsOf w = [w] := by
  unfold wordsOf
  rw [List.splitOnP_eq_singleton fun c hc => by simp [h c hc]]
  simp [hne]

/-- The words of what has been read. -/
theorem words_flushToken {literal : Bool} {w : List Char}
    (h : literal = false → ∀ c ∈ w, isWordChar c = true) :
    (flushToken literal w).flatMap Token.words = wordsOf w := by
  unfold flushToken
  cases w with
  | nil => rfl
  | cons c w =>
    cases literal with
    | true => simp [Token.words]
    | false =>
      rw [wordsOf_word (h rfl) (List.cons_ne_nil _ _)]
      rfl

/-! ### The words that are seen, by the tokens -/

/-- The next part is the next byte. -/
theorem head_marksFrom (m : LexMode) (bytes : Bytes) :
    (marksFrom m bytes).head?.map Mark.char = bytes.head?.map byteChar := by
  cases bytes with
  | nil => cases m <;> rfl
  | cons b rest =>
    cases m <;> unfold marksFrom <;> (repeat' split) <;> rfl

/-- What `strip_comments` takes the source to be in the middle of. -/
def LexMode.stripped : LexMode → CommentMode
  | code | quoted _ | escaped _ => .code
  | line => .line
  | opening => .opening
  | block => .block
  | closing => .closing

/-- A byte of a literal opens no comment, so it is kept. -/
theorem stripFrom_literal {m : LexMode} {b : UInt8} {rest : Bytes}
    (h : (byteChar b = '/' && (marksFrom m rest).head?.any fun m => m.char = '/' || m.char = '*') =
      false) : stripFrom .code (b :: rest) = byteChar b :: stripFrom .code rest := by
  have hnext : ∀ {x : UInt8}, rest.head? = some x →
      ((marksFrom m rest).head?.any fun m => m.char = '/' || m.char = '*') =
        (byteChar x = '/' || byteChar x = '*') := by
    intro x hx
    have hhead := head_marksFrom m rest
    rw [hx] at hhead
    cases hmarks : (marksFrom m rest).head? with
    | none =>
      rw [hmarks] at hhead
      cases hhead
    | some y =>
      rw [hmarks] at hhead
      obtain hy : y.char = byteChar x := Option.some.inj hhead
      rw [Option.any_some, hy]
  conv_lhs => unfold stripFrom
  split
  · next hopen =>
    obtain ⟨rfl, hx⟩ := hopen
    rw [hnext hx] at h
    exact absurd h (by decide)
  · split
    · next hopen =>
      obtain ⟨rfl, hx⟩ := hopen
      rw [hnext hx] at h
      exact absurd h (by decide)
    · rfl

/-- What has been read of the token in the middle of which the source is: a literal that has
ended does not end in a word, and the mark that ends one is not of words. -/
def Reading : LexMode → Bool → List Char → Prop
  | .code, false, w => ∀ c ∈ w, isWordChar c = true
  | .code, true, w => w.getLast?.any isWordChar = false
  | .quoted q, literal, _ | .escaped q, literal, _ => literal = true ∧ isWordChar (byteChar q) = false
  | _, literal, w => literal = false ∧ w = []

/-- A word that is being read consists of characters of words. -/
theorem Reading.word {m : LexMode} {literal : Bool} {w : List Char} (h : Reading m literal w) :
    literal = false → ∀ c ∈ w, isWordChar c = true := by
  rintro rfl
  cases m with
  | code => exact h
  | quoted q => cases h.1
  | escaped q => cases h.1
  | line | opening | block | closing =>
    obtain ⟨-, rfl⟩ := h
    exact fun c hc => absurd hc List.not_mem_nil

/-- The next byte is of a comment, of code, or of a literal; what `strip_comments` makes of it,
and what is being read after it. -/
inductive NextMark (m : LexMode) (b : UInt8) (rest : Bytes) : List Mark → Prop where
  | comment (m' : LexMode) (hread : Reading m' false [])
      (hstrip : stripFrom m.stripped (b :: rest) = stripFrom m'.stripped rest) :
      NextMark m b rest (.comment (byteChar b) :: marksFrom m' rest)
  | code (hread : ∀ {literal w}, Reading m literal w → Reading .code literal w)
      (hstrip : stripFrom m.stripped (b :: rest) = byteChar b :: stripFrom .code rest) :
      NextMark m b rest (.code (byteChar b) :: marksFrom .code rest)
  | literal (m' : LexMode) (hm : m.stripped = .code) (hm' : m'.stripped = .code)
      (hnext : ∀ {w}, Reading m true w → Reading m' true (w ++ [byteChar b]))
      (hfirst : ∀ {w}, Reading m false w →
        (∀ c ∈ w, isWordChar c = true) ∧ isWordChar (byteChar b) = false ∧
          Reading m' true [byteChar b]) :
      NextMark m b rest (.literal (byteChar b) :: marksFrom m' rest)

/-- A literal that goes on, or ends with its mark or its line. -/
theorem nextMark_quoted {m m' : LexMode} {q b : UInt8} {rest : Bytes}
    (hm : m = .quoted q ∨ m = .escaped q)
    (hm' : m' = .quoted q ∨ m' = .escaped q ∨
      m' = .code ∧ (isWordChar (byteChar q) = false → isWordChar (byteChar b) = false)) :
    NextMark m b rest (.literal (byteChar b) :: marksFrom m' rest) := by
  have hmode : m.stripped = .code := by rcases hm with rfl | rfl <;> rfl
  have hmode' : m'.stripped = .code := by rcases hm' with rfl | rfl | ⟨rfl, -⟩ <;> rfl
  have hread : ∀ {literal w}, Reading m literal w →
      literal = true ∧ isWordChar (byteChar q) = false := by
    intro literal w h
    rcases hm with rfl | rfl <;> exact h
  refine .literal m' hmode hmode' (fun {w} h => ?_) fun h => absurd (hread h).1 Bool.false_ne_true
  obtain ⟨-, hq⟩ := hread h
  rcases hm' with rfl | rfl | ⟨rfl, hlast⟩
  · exact ⟨rfl, hq⟩
  · exact ⟨rfl, hq⟩
  · show (w ++ [byteChar b]).getLast?.any isWordChar = false
    rw [List.getLast?_concat]
    exact hlast hq

/-- **One byte is lexed.** -/
theorem nextMark (m : LexMode) (b : UInt8) (rest : Bytes) :
    NextMark m b rest (marksFrom m (b :: rest)) := by
  have hempty : Reading .code false [] := fun _ h => absurd h List.not_mem_nil
  cases m with
  | code =>
    unfold marksFrom
    split
    · next hopen =>
      refine .comment .line ⟨rfl, rfl⟩ ?_
      rw [LexMode.stripped, stripFrom, if_pos hopen]
      rfl
    next hline =>
    split
    · next hopen =>
      refine .comment .opening ⟨rfl, rfl⟩ ?_
      rw [LexMode.stripped, stripFrom, if_neg hline, if_pos hopen]
      rfl
    next hblock =>
    split
    · next hquote =>
      have hmark : isWordChar (byteChar b) = false := by
        rcases hquote with rfl | rfl <;> rfl
      exact .literal (.quoted b) rfl rfl (fun _ => ⟨rfl, hmark⟩) fun hw => ⟨hw, hmark, rfl, hmark⟩
    · refine .code id ?_
      rw [LexMode.stripped, stripFrom, if_neg hline, if_neg hblock]
      rfl
  | line =>
    unfold marksFrom
    split
    · next hend =>
      refine .code ?_ ?_
      · rintro literal w ⟨rfl, rfl⟩
        exact hempty
      · rw [LexMode.stripped, stripFrom, if_pos hend]
        rfl
    · next hend => exact .comment .line ⟨rfl, rfl⟩ (by rw [LexMode.stripped, stripFrom, if_neg hend])
  | opening => exact .comment .block ⟨rfl, rfl⟩ rfl
  | block =>
    unfold marksFrom
    split
    · next hend =>
      refine .comment .closing ⟨rfl, rfl⟩ ?_
      rw [LexMode.stripped, LexMode.stripped, stripFrom, if_pos hend]
    · next hend => exact .comment .block ⟨rfl, rfl⟩ (by rw [LexMode.stripped, stripFrom, if_neg hend])
  | closing => exact .comment .code hempty rfl
  | quoted q =>
    unfold marksFrom
    split
    · exact nextMark_quoted (.inl rfl) (.inr (.inl rfl))
    split
    · next hend =>
      refine nextMark_quoted (.inl rfl) (.inr (.inr ⟨rfl, fun hq => ?_⟩))
      rcases hend with rfl | rfl
      · exact hq
      · rfl
    · exact nextMark_quoted (.inl rfl) (.inl rfl)
  | escaped q =>
    unfold marksFrom
    split
    · next hend =>
      refine nextMark_quoted (.inr rfl) (.inr (.inr ⟨rfl, fun _ => ?_⟩))
      rw [hend]
      rfl
    · exact nextMark_quoted (.inr rfl) (.inl rfl)

/-- **Comments are stripped as they are lexed**, where no literal holds a comment mark. -/
theorem uncommented_marksFrom : ∀ (bytes : Bytes) (m : LexMode),
    opensInLiteral (marksFrom m bytes) = false →
      uncommented (marksFrom m bytes) = stripFrom m.stripped bytes := by
  intro bytes
  induction bytes with
  | nil =>
    intro m _
    cases m <;> rfl
  | cons b rest ih =>
    intro m hmarks
    have hone := nextMark m b rest
    generalize marksFrom m (b :: rest) = marks at hmarks hone ⊢
    cases hone with
    | comment m' _ hstrip =>
      rw [hstrip]
      exact ih m' hmarks
    | code _ hstrip =>
      rw [hstrip]
      exact congrArg (byteChar b :: ·) (ih .code hmarks)
    | literal m' hm hm' =>
      obtain ⟨hhere, hrest⟩ := Bool.or_eq_false_iff.mp hmarks
      rw [hm, stripFrom_literal hhere, ← hm', ← ih m' hrest]
      rfl

section Steps

variable {literal before : Bool} {w : List Char} {c : Char} {rest : List Mark}

/-- A comment ends what is being read. -/
theorem words_comment (hw : literal = false → ∀ c ∈ w, isWordChar c = true)
    (hbefore : w.getLast?.any isWordChar = true → before = true)
    (hapart : keepsApart before (.comment c :: rest) = true)
    (ih : (tokensFrom [] false rest).flatMap Token.words = wordsOf (uncommented rest)) :
    (tokensFrom w literal (.comment c :: rest)).flatMap Token.words =
      wordsOf (w ++ uncommented (.comment c :: rest)) := by
  have hsplit : w.getLast?.any isWordChar = false ∨
      (uncommented rest).head?.any isWordChar = false := by
    obtain ⟨hhere, -⟩ := Bool.and_eq_true_iff.mp hapart
    cases hlast : w.getLast?.any isWordChar with
    | false => exact .inl rfl
    | true =>
      rw [hbefore hlast] at hhere
      exact .inr (by simpa using hhere)
  have htokens : tokensFrom w literal (.comment c :: rest) =
      flushToken literal w ++ tokensFrom [] false rest := by
    cases literal <;> rfl
  show _ = wordsOf (w ++ uncommented rest)
  rw [htokens, List.flatMap_append, words_flushToken hw, ih, wordsOf_append hsplit]

/-- A byte of code goes on with a word, or ends what is being read. -/
theorem words_code (hw : Reading .code literal w)
    (ih : ∀ {w'}, (∀ c ∈ w', isWordChar c = true) → (w'.getLast?.any isWordChar = true →
      isWordChar c = true) →
        (tokensFrom w' false rest).flatMap Token.words = wordsOf (w' ++ uncommented rest)) :
    (tokensFrom w literal (.code c :: rest)).flatMap Token.words =
      wordsOf (w ++ uncommented (.code c :: rest)) := by
  show _ = wordsOf (w ++ c :: uncommented rest)
  by_cases hc : isWordChar c = true
  · cases literal with
    | false =>
      have hread : ∀ x ∈ w, isWordChar x = true := hw
      have hword : ∀ x ∈ w ++ [c], isWordChar x = true := by
        simpa [or_imp, forall_and] using And.intro hread hc
      rw [tokensFrom, if_pos hc, if_neg Bool.false_ne_true, ih hword fun _ => hc, List.append_assoc]
      rfl
    | true =>
      have hword : ∀ x ∈ [c], isWordChar x = true := by simpa using hc
      rw [tokensFrom, if_pos hc, if_pos rfl, List.flatMap_append, words_flushToken (fun h => by cases h),
        ih hword fun _ => hc, wordsOf_append (.inl hw)]
      rfl
  · have hnot : isWordChar c = false := by simpa using hc
    have hsymbol : (if c.isWhitespace then [] else [Token.symbol]).flatMap Token.words = [] := by
      split <;> rfl
    have hrest : (tokensFrom [] false rest).flatMap Token.words = wordsOf (uncommented rest) :=
      ih (fun _ h => absurd h List.not_mem_nil) fun h => by cases h
    have hsplit : wordsOf (w ++ c :: uncommented rest) = wordsOf w ++ wordsOf (c :: uncommented rest) :=
      wordsOf_append (.inr (by simpa using hnot))
    rw [tokensFrom, if_neg hc, List.flatMap_append, List.flatMap_append, hsymbol, List.append_nil,
      words_flushToken hw.word, hrest, hsplit, wordsOf_cons hnot]

/-- A byte of a literal that is being read. -/
theorem words_literal_next
    (ih : (tokensFrom (w ++ [c]) true rest).flatMap Token.words =
      wordsOf (w ++ [c] ++ uncommented rest)) :
    (tokensFrom w true (.literal c :: rest)).flatMap Token.words =
      wordsOf (w ++ uncommented (.literal c :: rest)) := by
  show _ = wordsOf (w ++ c :: uncommented rest)
  rw [tokensFrom, ih, List.append_assoc]
  rfl

/-- The mark that begins a literal ends a word. -/
theorem words_literal_first (hw : ∀ c ∈ w, isWordChar c = true) (hc : isWordChar c = false)
    (ih : (tokensFrom [c] true rest).flatMap Token.words = wordsOf ([c] ++ uncommented rest)) :
    (tokensFrom w false (.literal c :: rest)).flatMap Token.words =
      wordsOf (w ++ uncommented (.literal c :: rest)) := by
  show _ = wordsOf (w ++ c :: uncommented rest)
  have hsplit : wordsOf (w ++ c :: uncommented rest) = wordsOf w ++ wordsOf (c :: uncommented rest) :=
    wordsOf_append (.inr (by simpa using hc))
  rw [tokensFrom, List.flatMap_append, words_flushToken fun _ => hw, ih, hsplit]
  rfl

end Steps

/-- **The words of the tokens are those of the source without its comments**, where comments
keep words apart. -/
theorem words_tokensFrom : ∀ (bytes : Bytes) (m : LexMode) (literal before : Bool) (w : List Char),
    Reading m literal w → (w.getLast?.any isWordChar = true → before = true) →
      keepsApart before (marksFrom m bytes) = true →
      (tokensFrom w literal (marksFrom m bytes)).flatMap Token.words =
        wordsOf (w ++ uncommented (marksFrom m bytes)) := by
  intro bytes
  induction bytes with
  | nil =>
    intro m literal before w hw _ _
    have hmarks : marksFrom m [] = [] := by cases m <;> rfl
    have htokens : tokensFrom w literal [] = flushToken literal w := by cases literal <;> rfl
    rw [hmarks, htokens, words_flushToken hw.word, uncommented, List.filterMap_nil, List.append_nil]
  | cons b rest ih =>
    intro m literal before w hw hbefore hapart
    have hone := nextMark m b rest
    generalize marksFrom m (b :: rest) = marks at hapart hone ⊢
    cases hone with
    | comment m' hread =>
      obtain ⟨-, hrest⟩ := Bool.and_eq_true_iff.mp hapart
      exact words_comment hw.word hbefore hapart
        (ih m' false before [] hread (fun h => by cases h) hrest)
    | code hread =>
      exact words_code (hread hw) fun hword hlast => ih .code false _ _ hword hlast hapart
    | literal m' _ _ hnext hfirst =>
      cases literal with
      | true => exact words_literal_next (ih m' true _ _ (hnext hw) (by simp) hapart)
      | false =>
        obtain ⟨hword, hmark, hread⟩ := hfirst hw
        exact words_literal_first hword hmark (ih m' true _ _ hread (by simp) hapart)

/-- **What `parse_rule_name` sees are the words of the tokens**, those of literals included. -/
theorem words_tokensOf {source : String} (hmarks : opensInLiteral (marksOf source) = false)
    (hapart : keepsApart false (marksOf source) = true) :
    ruleTokens source = (tokensOf source).flatMap Token.words := by
  have hwords := words_tokensFrom (utf8 source) .code false false []
    (fun _ h => absurd h List.not_mem_nil) (fun h => by cases h) hapart
  have huncommented := uncommented_marksFrom (utf8 source) .code hmarks
  rw [List.nil_append, huncommented] at hwords
  exact hwords.symm

/-! ### Recognised rules -/

/-- The word `rule` is a word of a token where it is one of code, or in a literal. -/
theorem rule_mem_words {tokens : List Token} : "rule".toList ∈ tokens.flatMap Token.words ↔
    ruleWord ∈ tokens ∨ ∃ text, .literal text ∈ tokens ∧ "rule".toList ∈ wordsOf text := by
  rw [List.mem_flatMap]
  constructor
  · rintro ⟨t, ht, hrule⟩
    cases t with
    | word w =>
      obtain rfl := List.mem_singleton.mp hrule
      exact .inl ht
    | symbol => cases hrule
    | literal text => exact .inr ⟨text, ht, hrule⟩
  · rintro (h | ⟨text, ht, hrule⟩)
    · exact ⟨_, h, List.mem_singleton_self _⟩
    · exact ⟨_, ht, hrule⟩

theorem flatMap_words_cut (before after : List Token) :
    (before ++ ruleWord :: after).flatMap Token.words =
      before.flatMap Token.words ++ "rule".toList :: after.flatMap Token.words := by
  rw [List.flatMap_append, List.flatMap_cons]
  rfl

section Words

variable {tokens : List Token}

/-- Where the seen words are recognised, the words `rule` stand as they must. -/
theorem RuleStands.of_recognised (hend : ¬ EndsInRule ((tokens.flatMap Token.words).map .word))
    (hname : ∀ name, Declares ((tokens.flatMap Token.words).map .word) name ↔ Declares tokens name) :
    RuleStands tokens where
  unquoted := by
    intro name text hdecl hmem hrule
    obtain ⟨before', after', hcut, hb', ha', -⟩ := declares_map_iff.mp ((hname name).mpr hdecl)
    obtain ⟨before, after, rfl, hb, ha, -⟩ := hdecl
    rw [flatMap_words_cut] at hcut
    obtain ⟨hbefore, hafter⟩ := cut_unique hb' ha' hcut.symm
    rcases List.mem_append.mp hmem with hmem | hmem
    · exact hb' (hbefore ▸ rule_mem_words.mpr (.inr ⟨text, hmem, hrule⟩))
    · cases hmem with
      | tail _ hmem => exact ha' (hafter ▸ rule_mem_words.mpr (.inr ⟨text, hmem, hrule⟩))
  followed := by
    rintro before after rfl hb ha
    rw [flatMap_words_cut] at hend hname
    rw [endsInRule_cut_iff hb ha] at hend
    obtain ⟨w, rest, hafter⟩ := List.exists_cons_of_ne_nil hend
    have hhead : (after.flatMap Token.words).head? = some w := by rw [hafter, List.head?_cons]
    refine ⟨w, hhead, fun hw => ?_⟩
    -- the seen words declare a rule, so the tokens do, and there is one cut
    obtain ⟨before', after', hcut, hb', ha', -⟩ :=
      (hname w).mp ((declares_cut_iff hb ha).mpr ⟨hhead, hw⟩)
    obtain ⟨-, -, hafter'⟩ := (List.append_cons_inj_of_notMem hb' ha').mp hcut.symm
    rw [← hafter', List.head?_cons]
  quoted := by
    intro before after hnot hcut hb ha
    rw [hcut] at hend hname
    rw [endsInRule_cut_iff hb ha] at hend
    obtain ⟨w, rest, rfl⟩ := List.exists_cons_of_ne_nil hend
    refine ⟨w, rfl, Bool.eq_false_iff.mpr fun hw => ?_⟩
    obtain ⟨b, a, htokens, -, -, -⟩ := (hname w).mp ((declares_cut_iff hb ha).mpr ⟨rfl, hw⟩)
    exact hnot (htokens ▸ List.mem_append_right _ List.mem_cons_self)

variable (h : RuleStands tokens) {before after : List (List Char)}

include h in
/-- The only `rule` that is seen has a word behind it; where that is an identifier, the tokens
declare the rule. -/
theorem RuleStands.behind (hcut : tokens.flatMap Token.words = before ++ "rule".toList :: after)
    (hb : "rule".toList ∉ before) (ha : "rule".toList ∉ after) :
    ∃ w, after.head? = some w ∧ (isIdentifier w = true → Declares tokens w) := by
  by_cases hmem : ruleWord ∈ tokens
  · obtain ⟨b, a, rfl⟩ := List.append_of_mem hmem
    rw [flatMap_words_cut] at hcut
    obtain ⟨rfl, rfl⟩ := cut_unique hb ha hcut.symm
    obtain ⟨w, hhead, hnext⟩ := h.followed rfl hb ha
    refine ⟨w, hhead, fun hw => ?_⟩
    obtain ⟨rest, rfl⟩ := List.head?_eq_some_iff.mp (hnext hw)
    exact ⟨b, rest, rfl, fun hr => hb (rule_mem_words.mpr (.inl hr)),
      fun hr => ha (rule_mem_words.mpr (.inl hr)), hw⟩
  · obtain ⟨w, hhead, hw⟩ := h.quoted hmem hcut hb ha
    exact ⟨w, hhead, fun hident => by rw [hw] at hident; cases hident⟩

include h in
/-- Where the words `rule` stand as they must, the seen words are recognised. -/
theorem RuleStands.recognised : ¬ EndsInRule ((tokens.flatMap Token.words).map .word) ∧
    ∀ name, Declares ((tokens.flatMap Token.words).map .word) name ↔ Declares tokens name := by
  constructor
  · intro hend
    obtain ⟨before, hcut, hb⟩ := endsInRule_map_iff.mp hend
    obtain ⟨w, hhead, -⟩ := h.behind hcut hb List.not_mem_nil
    cases hhead
  · intro name
    constructor
    · intro hdecl
      obtain ⟨before, after, hcut, hb, ha, hw⟩ := declares_map_iff.mp hdecl
      obtain ⟨w, hhead, hdeclares⟩ := h.behind hcut hb ha
      obtain rfl := Option.some.inj hhead
      exact hdeclares hw
    · intro hdecl
      have hliteral : ∀ {text}, Token.literal text ∈ tokens → "rule".toList ∉ wordsOf text :=
        h.unquoted hdecl
      obtain ⟨b, a, rfl, hb, ha, hw⟩ := hdecl
      rw [flatMap_words_cut]
      refine (declares_cut_iff (fun hr => ?_) fun hr => ?_).mpr ⟨rfl, hw⟩
      · obtain hr | ⟨text, hmem, hrule⟩ := rule_mem_words.mp hr
        · exact hb hr
        · exact hliteral (List.mem_append_left _ hmem) hrule
      · obtain hr | ⟨text, hmem, hrule⟩ := rule_mem_words.mp hr
        · exact ha hr
        · exact hliteral (List.mem_append_right _ (List.mem_cons_of_mem _ hmem)) hrule

end Words

/-- A declared rule is the only one. -/
theorem Declares.count {tokens : List Token} {name : List Char} (h : Declares tokens name) :
    tokens.count ruleWord = 1 := by
  obtain ⟨before, after, rfl, hb, ha, -⟩ := h
  rw [List.count_append, List.count_cons_self, List.count_eq_zero.mpr hb, List.count_eq_zero.mpr ha]

end Corpus
