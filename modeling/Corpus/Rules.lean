/-
Rule names and bundle digests (`rules.rs`).

A rule is known by the name in its source; a bundle is known by the digest of its
rules.  The digest hashes the names and sources one after the other, each ended by a
NUL byte, in the order of the names, with the compiler configuration last.

* `terminated_injective` — fields that end in a separator can be told apart as long
  as none contains it, whatever else they contain;
* `nulFree_parseRuleName` — a rule name never contains a NUL;
* `bundleDigest_perm`, `bundleDigest_injective` — for rules with distinct names the
  digest does not see their order, and sees everything else.

A text is hashed as its UTF-8 bytes.  Rust orders texts by these bytes and Lean by
characters, which is the same order.
-/
import Corpus.Basic
import Mathlib.Data.List.Sort
import Mathlib.Data.String.Basic

/-! ### Fields that end in a separator -/

section Terminated

variable {α : Type} {sep : α}

/-- Each field with the separator behind it, and a last part without. -/
def terminated (sep : α) (fields : List (List α)) (last : List α) : List α :=
  fields.flatMap (· ++ [sep]) ++ last

theorem terminated_cons (field : List α) (fields : List (List α)) (last : List α) :
    terminated sep (field :: fields) last = field ++ sep :: terminated sep fields last := by
  simp [terminated, List.flatMap_cons]

/-- **Separated fields can be told apart.** -/
theorem terminated_injective : ∀ {xs ys : List (List α)} {a b : List α}, (∀ x ∈ xs, sep ∉ x) →
    (∀ y ∈ ys, sep ∉ y) → sep ∉ a → sep ∉ b → terminated sep xs a = terminated sep ys b →
      xs = ys ∧ a = b := by
  intro xs
  induction xs with
  | nil =>
    intro ys a b _ _ ha _ h
    cases ys with
    | nil => exact ⟨rfl, h⟩
    | cons y ys =>
      rw [terminated_cons] at h
      have hay : a = y ++ sep :: terminated sep ys b := h
      exact absurd (hay ▸ List.mem_append_right y (List.mem_cons_self ..)) ha
  | cons x xs ih =>
    intro ys a b hxs hys ha hb h
    cases ys with
    | nil =>
      rw [terminated_cons] at h
      have hbx : x ++ sep :: terminated sep xs a = b := h
      exact absurd (hbx ▸ List.mem_append_right x (List.mem_cons_self ..)) hb
    | cons y ys =>
      rw [terminated_cons, terminated_cons] at h
      -- the first separator stands at the end of the first field on both sides
      obtain ⟨rfl, hrest⟩ : x = y ∧ terminated sep xs a = terminated sep ys b := by
        have hx := hxs x (List.mem_cons_self ..)
        have hy := hys y (List.mem_cons_self ..)
        rcases List.append_eq_append_iff.mp h with ⟨c, rfl, hc⟩ | ⟨c, rfl, hc⟩
        · cases c with
          | nil => exact ⟨(List.append_nil _).symm, (List.cons.inj hc).2⟩
          | cons z c =>
            obtain ⟨rfl, -⟩ := List.cons.inj hc
            exact absurd (List.mem_append_right _ (List.mem_cons_self ..)) hy
        · cases c with
          | nil => exact ⟨List.append_nil _, (List.cons.inj hc).2.symm⟩
          | cons z c =>
            obtain ⟨rfl, -⟩ := List.cons.inj hc
            exact absurd (List.mem_append_right _ (List.mem_cons_self ..)) hx
      obtain ⟨rfl, rfl⟩ := ih (fun z hz => hxs z (List.mem_cons_of_mem _ hz))
        (fun z hz => hys z (List.mem_cons_of_mem _ hz)) ha hb hrest
      exact ⟨rfl, rfl⟩

end Terminated

namespace Corpus

/-! ### Texts as bytes -/

/-- `str::as_bytes`. -/
def utf8 (s : String) : Bytes := s.toList.flatMap String.utf8EncodeChar

theorem utf8_injective : Function.Injective utf8 := by
  intro s t h
  have hs : s.toByteArray = (utf8 s).toByteArray := String.utf8Encode_toList.symm
  have ht : t.toByteArray = (utf8 t).toByteArray := String.utf8Encode_toList.symm
  rw [← String.toByteArray_inj, hs, ht, h]

/-- The text has no NUL byte. -/
def NulFree (s : String) : Prop := (0 : UInt8) ∉ utf8 s

instance (s : String) : Decidable (NulFree s) := inferInstanceAs (Decidable (_ ∉ _))

/-- ASCII characters other than NUL make no NUL byte. -/
theorem nulFree_of_ascii {cs : List Char} (h : ∀ c ∈ cs, 0 < c.toNat ∧ c.toNat ≤ 0x7f) :
    NulFree (String.ofList cs) := by
  intro h0
  obtain ⟨c, hc, h0⟩ := List.mem_flatMap.mp h0
  rw [String.toList_ofList] at hc
  obtain ⟨hpos, hle⟩ := h c hc
  have hle' : c.val.toNat ≤ 0x7f := hle
  rw [String.utf8EncodeChar, if_pos hle', List.mem_singleton] at h0
  have : (UInt8.ofNat c.val.toNat).toNat = 0 := by rw [← h0]; rfl
  rw [UInt8.toNat_ofNat'] at this
  have hval : c.val.toNat = c.toNat := rfl
  omega

/-! ### Rule names -/

/-- What `strip_comments` is in the middle of: code, a line comment, or a block
comment, at the second byte of its opening or closing mark. -/
inductive CommentMode where
  | code
  | line
  | opening
  | block
  | closing

/-- The loop of `strip_comments`. -/
def stripFrom : CommentMode → Bytes → List Char
  | _, [] => []
  | .code, b :: rest =>
    if b = '/'.toUInt8 ∧ rest.head? = some '/'.toUInt8 then stripFrom .line rest
    else if b = '/'.toUInt8 ∧ rest.head? = some '*'.toUInt8 then stripFrom .opening rest
    else Char.ofNat b.toNat :: stripFrom .code rest
  | .line, b :: rest =>
    if b = '\n'.toUInt8 then Char.ofNat b.toNat :: stripFrom .code rest else stripFrom .line rest
  | .opening, _ :: rest => stripFrom .block rest
  | .block, b :: rest =>
    if b = '*'.toUInt8 ∧ rest.head? = some '/'.toUInt8 then stripFrom .closing rest
    else stripFrom .block rest
  | .closing, _ :: rest => stripFrom .code rest

/-- `strip_comments`; each byte of the source becomes a character of its own. -/
def stripComments (src : String) : List Char := stripFrom .code (utf8 src)

/-- `char::is_ascii_alphabetic`. -/
def isAsciiAlphabetic (c : Char) : Bool := ('a' ≤ c && c ≤ 'z') || ('A' ≤ c && c ≤ 'Z')

/-- `c.is_ascii_alphanumeric() || c == '_'`. -/
def isWordChar (c : Char) : Bool := isAsciiAlphabetic c || ('0' ≤ c && c ≤ '9') || c == '_'

/-- The tokens of `parse_rule_name`. -/
def ruleTokens (source : String) : List (List Char) :=
  ((stripComments source).splitOnP fun c => !isWordChar c).filter fun t => !t.isEmpty

/-- An error of `create_rule`: `Error::RuleParse`, the index panic of `parse_rule_name`
on a source that ends in the word `rule`, or one of the other errors. -/
inductive RuleError where
  | ruleParse (msg : String)
  | indexOutOfBounds
  | other (e : Error)

/-- `parse_rule_name`; `debug` is what `{:?}` prints. -/
def parseRuleName (debug : String → String) (source : String) : Except RuleError String :=
  let tokens := ruleTokens source
  match tokens.findIdxs fun t => t = "rule".toList with
  | [p] =>
    match tokens[p + 1]? with
    | none => .error .indexOutOfBounds
    | some name =>
      if name.head?.any fun c => isAsciiAlphabetic c || c == '_' then .ok (String.ofList name)
      else
        let quoted := debug (String.ofList name)
        .error (.ruleParse s!"invalid rule identifier {quoted}")
  | [] => .error (.ruleParse "no `rule` definition found")
  | ps =>
    let n := ps.length
    .error (.ruleParse
      s!"expected exactly one rule per file, found {n}; split multi-rule files before adding")

/-- The pieces of a split hold none of the characters it splits at. -/
theorem eq_false_of_mem_splitOnP {α : Type} {p : α → Bool} : ∀ {xs : List α},
    ∀ l ∈ xs.splitOnP p, ∀ c ∈ l, p c = false := by
  intro xs
  induction xs with
  | nil =>
    intro l hl c hc
    obtain rfl := List.mem_singleton.mp hl
    cases hc
  | cons x xs ih =>
    intro l hl c hc
    rw [List.splitOnP_cons_eq_if_modifyHead] at hl
    split at hl
    · rcases List.mem_cons.mp hl with rfl | hl
      · cases hc
      · exact ih l hl c hc
    · next hx =>
      cases hs : xs.splitOnP p with
      | nil => exact absurd hs (List.splitOnP_ne_nil _ _)
      | cons m ms =>
        rw [hs] at hl ih
        rcases List.mem_cons.mp hl with rfl | hl
        · rcases List.mem_cons.mp hc with rfl | hc
          · simpa using hx
          · exact ih m (List.mem_cons_self ..) c hc
        · exact ih l (List.mem_cons_of_mem _ hl) c hc

theorem toNat_of_isWordChar {c : Char} (h : isWordChar c = true) :
    0 < c.toNat ∧ c.toNat ≤ 0x7f := by
  have hle : ∀ {a b : Char}, a ≤ b → a.toNat ≤ b.toNat := fun hab => hab
  simp only [isWordChar, isAsciiAlphabetic, Bool.or_eq_true, Bool.and_eq_true, decide_eq_true_eq,
    beq_iff_eq] at h
  rcases h with ((⟨h₁, h₂⟩ | ⟨h₁, h₂⟩) | ⟨h₁, h₂⟩) | rfl
  · exact ⟨Nat.lt_of_lt_of_le (by decide) (hle h₁), Nat.le_trans (hle h₂) (by decide)⟩
  · exact ⟨Nat.lt_of_lt_of_le (by decide) (hle h₁), Nat.le_trans (hle h₂) (by decide)⟩
  · exact ⟨Nat.lt_of_lt_of_le (by decide) (hle h₁), Nat.le_trans (hle h₂) (by decide)⟩
  · decide

/-- A rule name has no NUL. -/
theorem nulFree_parseRuleName {debug : String → String} {source name : String}
    (h : parseRuleName debug source = .ok name) :
    NulFree name := by
  unfold parseRuleName at h
  dsimp only at h
  split at h
  · split at h
    · cases h
    · next word hword =>
      split at h
      · obtain rfl := Except.ok.inj h
        have hmem := (List.mem_filter.mp (List.mem_of_getElem? hword)).1
        refine nulFree_of_ascii fun c hc => toNat_of_isWordChar ?_
        simpa using eq_false_of_mem_splitOnP _ hmem c hc
      · cases h
  · cases h
  · cases h

example : (parseRuleName String.quote "/* rule no */ rule evil_1 { condition: true } // rule no").toOption =
    some "evil_1" := by
  decide +kernel

/-! ### Digests -/

/-- What `bundle_digest` feeds the hash, for rules in order. -/
def digestInput (config : String) (rules : List (String × String)) : Bytes :=
  utf8 "corpus-rule-bundle-v1" ++ [0] ++
    rules.flatMap (fun r => utf8 r.1 ++ [0] ++ utf8 r.2 ++ [0]) ++ utf8 config

/-- The order of `bundle_digest`: by name, rules of one name as they come. -/
def byName (rules : List (String × String)) : List (String × String) :=
  rules.insertionSort fun a b => a.1 ≤ b.1

/-- `bundle_digest`, with `sha256` for `Sha256`. -/
def bundleDigest (sha256 : Bytes → Bytes) (config : String) (rules : List (String × String)) :
    String :=
  hexEncode (sha256 (digestInput config (byName rules)))

theorem byName_perm (rules : List (String × String)) : (byName rules).Perm rules :=
  List.perm_insertionSort _ _

/-- Rules with distinct names have one order by name. -/
theorem byName_congr {rs rs' : List (String × String)} (hd : (rs.map Prod.fst).Nodup)
    (h : rs.Perm rs') : byName rs = byName rs' := by
  refine List.Perm.eq_of_pairwise (fun a b ha hb hab hba => ?_)
    (List.pairwise_insertionSort (fun a b : String × String => a.1 ≤ b.1) rs)
    (List.pairwise_insertionSort (fun a b : String × String => a.1 ≤ b.1) rs')
    (((byName_perm rs).trans h).trans (byName_perm rs').symm)
  have ha' : a ∈ rs := (byName_perm rs).mem_iff.mp ha
  have hb' : b ∈ rs := h.mem_iff.mpr ((byName_perm rs').mem_iff.mp hb)
  exact List.inj_on_of_nodup_map hd ha' hb' (le_antisymm hab hba)

/-- **The digest does not see the order of the rules.** -/
theorem bundleDigest_perm (sha256 : Bytes → Bytes) (config : String)
    {rs rs' : List (String × String)} (hd : (rs.map Prod.fst).Nodup) (h : rs.Perm rs') :
    bundleDigest sha256 config rs = bundleDigest sha256 config rs' := by
  rw [bundleDigest, byName_congr hd h, bundleDigest]

/-- The names and sources of rules, as the fields of `digestInput`. -/
def digestFields (rules : List (String × String)) : List Bytes :=
  rules.flatMap fun r => [utf8 r.1, utf8 r.2]

theorem digestInput_eq (config : String) (rules : List (String × String)) :
    digestInput config rules = terminated 0 (utf8 "corpus-rule-bundle-v1" :: digestFields rules)
      (utf8 config) := by
  have hrules : rules.flatMap (fun r => utf8 r.1 ++ [0] ++ utf8 r.2 ++ [0]) ++ utf8 config =
      terminated 0 (digestFields rules) (utf8 config) := by
    induction rules with
    | nil => rfl
    | cons r rules ih =>
      rw [List.flatMap_cons, List.append_assoc, ih]
      show _ = terminated 0 (utf8 r.1 :: utf8 r.2 :: digestFields rules) (utf8 config)
      rw [terminated_cons, terminated_cons]
      simp
  rw [terminated_cons, ← hrules, digestInput]
  simp

theorem digestFields_injective : Function.Injective digestFields := by
  intro rs
  induction rs with
  | nil =>
    intro rs' h
    cases rs' with
    | nil => rfl
    | cons r rs' => cases h
  | cons r rs ih =>
    intro rs' h
    cases rs' with
    | nil => cases h
    | cons r' rs' =>
      obtain ⟨h₁, h⟩ := List.cons.inj h
      obtain ⟨h₂, h⟩ := List.cons.inj h
      rw [ih h, Prod.ext (utf8_injective h₁) (utf8_injective h₂)]

/-- Names and sources without a NUL. -/
def NulFreeRules (rules : List (String × String)) : Prop :=
  ∀ r ∈ rules, NulFree r.1 ∧ NulFree r.2

theorem NulFreeRules.fields {rules : List (String × String)} (h : NulFreeRules rules) :
    ∀ x ∈ digestFields rules, (0 : UInt8) ∉ x := by
  intro x hx
  obtain ⟨r, hr, hx⟩ := List.mem_flatMap.mp hx
  rcases List.mem_cons.mp hx with rfl | hx
  · exact (h r hr).1
  · obtain rfl := List.mem_singleton.mp hx
    exact (h r hr).2

theorem digestInput_injective {config config' : String} {rs rs' : List (String × String)}
    (hc : NulFree config) (hc' : NulFree config') (hr : NulFreeRules rs) (hr' : NulFreeRules rs')
    (h : digestInput config rs = digestInput config' rs') : rs = rs' ∧ config = config' := by
  have hhead : (0 : UInt8) ∉ utf8 "corpus-rule-bundle-v1" := by decide
  rw [digestInput_eq, digestInput_eq] at h
  obtain ⟨hfields, hconfig⟩ := terminated_injective (List.forall_mem_cons.mpr ⟨hhead, hr.fields⟩)
    (List.forall_mem_cons.mpr ⟨hhead, hr'.fields⟩) hc hc' h
  exact ⟨digestFields_injective (List.cons.inj hfields).2, utf8_injective hconfig⟩

/-- **The digest sees every name, every source and the configuration.** -/
theorem bundleDigest_injective {sha256 : Bytes → Bytes} (hsha : Function.Injective sha256)
    {config config' : String} {rs rs' : List (String × String)} (hc : NulFree config)
    (hc' : NulFree config') (hr : NulFreeRules rs) (hr' : NulFreeRules rs')
    (h : bundleDigest sha256 config rs = bundleDigest sha256 config' rs') :
    rs.Perm rs' ∧ config = config' := by
  have hin := hsha (hexEncode_injective h)
  have hsorted : ∀ {xs : List (String × String)}, NulFreeRules xs → NulFreeRules (byName xs) :=
    fun hx r hr => hx r ((byName_perm _).mem_iff.mp hr)
  obtain ⟨hrules, hconfig⟩ := digestInput_injective hc hc' (hsorted hr) (hsorted hr') hin
  refine ⟨?_, hconfig⟩
  calc rs.Perm (byName rs) := (byName_perm rs).symm
    _ = byName rs' := hrules
    List.Perm _ rs' := byName_perm rs'

end Corpus
