/-
Tenants and their names (`tenant.rs` and the table `tenant` of the first migration).

A slug is checked twice, by a loop over its characters and by the constraint of the table, and
is used once, behind the identifiers: a header is a UUID if it reads as one.

* `validateSlug_iff` — the loop admits what the constraint admits;
* `create_mirrors_constraint` — what that means for the insert;
* `names_unambiguous_iff` — a slug names its tenant unless it reads as another identifier.
-/
import Corpus.Access
import Corpus.CharClasses
import Corpus.UuidText

namespace Corpus

open RegularExpression

/-! ### Slugs -/

/-- A letter or digit of a slug. -/
def isSlugAlnum (c : Char) : Bool :=
  ('a' ≤ c && c ≤ 'z') || ('0' ≤ c && c ≤ '9')

/-- One step of the loop, for text of `len` bytes. -/
def slugChar (len : ℕ) (e : Char × ℕ) : Bool :=
  if isSlugAlnum e.1 then true
  else if e.1 = '-' then decide (e.2 > 0) && decide (e.2 + 1 < len)
  else false

/-- The refusal of `validate_slug`; `debug` is what `{:?}` prints. -/
def invalidSlug (debug : String → String) (slug : String) : Error :=
  let quoted := debug slug
  .badRequest
    s!"invalid tenant slug {quoted}: use lowercase alphanumeric, optional internal hyphens, max 63 chars"

/-- `validate_slug`. -/
def validateSlug (debug : String → String) (slug : String) : Except Error Unit :=
  let ok := decide (slug.utf8ByteSize ≤ 63) && !slug.isEmpty &&
    slug.toList.zipIdx.all (slugChar slug.utf8ByteSize)
  if ok then .ok () else .error (invalidSlug debug slug)

/-- `[a-z0-9]`. -/
def alnumClass : List Char := Char.span 'a' 'z' ++ Char.span '0' '9'

/-- `^[a-z0-9]([a-z0-9-]{0,61}[a-z0-9])?$`, the constraint `tenant_slug_format`. -/
def slugPattern : RegularExpression Char :=
  oneOf alnumClass * opt (upTo (oneOf (alnumClass ++ ['-'])) 61 * oneOf alnumClass)

/-- What both say: letters, digits and hyphens, no hyphen at either end, at most 63. -/
structure IsSlug (l : List Char) : Prop where
  chars : ∀ c ∈ l, isSlugAlnum c = true ∨ c = '-'
  length : l.length ≤ 63
  head : ∃ c l', l = c :: l' ∧ isSlugAlnum c = true
  last : ∃ l' c, l = l' ++ [c] ∧ isSlugAlnum c = true

section Slugs

variable {l : List Char} {slug : String}

theorem mem_alnumClass {c : Char} : c ∈ alnumClass ↔ isSlugAlnum c = true := by
  rw [alnumClass, List.mem_append, Char.mem_span (by decide), Char.mem_span (by decide)]
  simp [isSlugAlnum]

theorem isSlugAlnum_lt {c : Char} (h : isSlugAlnum c = true) : c.toNat < 128 := by
  simp only [isSlugAlnum, Bool.or_eq_true, Bool.and_eq_true, decide_eq_true_eq] at h
  have hz : ∀ d : Char, c ≤ d → c.toNat ≤ d.toNat := fun d hd => hd
  rcases h with ⟨-, h⟩ | ⟨-, h⟩
  · exact lt_of_le_of_lt (hz _ h) (by decide)
  · exact lt_of_le_of_lt (hz _ h) (by decide)

/-- The constraint matches slugs. -/
theorem mem_slugPattern : l ∈ slugPattern.matches' ↔ IsSlug l := by
  have hclass : ∀ {m : List Char}, (∀ c ∈ m, c ∈ alnumClass ++ ['-']) ↔
      ∀ c ∈ m, isSlugAlnum c = true ∨ c = '-' := by
    intro m
    simp only [List.mem_append, mem_alnumClass, List.mem_singleton]
  rw [slugPattern, mem_mul]
  simp only [mem_opt, mem_mul, mem_oneOf, mem_upTo_oneOf, mem_alnumClass, hclass]
  constructor
  · rintro ⟨-, ⟨c, hc, rfl⟩, z, hz | ⟨m, ⟨hlen, hm⟩, -, ⟨d, hd, rfl⟩, hz⟩, rfl⟩
    · -- The group is left out.
      subst hz
      exact ⟨by simp [hc], by simp, ⟨c, [], by simp, hc⟩, ⟨[], c, by simp, hc⟩⟩
    · subst hz
      refine ⟨?_, ?_, ⟨c, m ++ [d], by simp, hc⟩, ⟨c :: m, d, by simp, hd⟩⟩
      · intro x hx
        simp only [List.singleton_append, List.mem_cons, List.mem_append, List.not_mem_nil,
          or_false] at hx
        rcases hx with rfl | hx | rfl
        · exact .inl hc
        · exact hm x hx
        · exact .inl hd
      · simp only [List.length_append, List.length_singleton]
        omega
  · intro h
    obtain ⟨c, l', rfl, hc⟩ := h.head
    refine ⟨[c], ⟨c, hc, rfl⟩, l', ?_, rfl⟩
    obtain ⟨m, d, hl, hd⟩ := h.last
    cases m with
    | nil =>
      obtain ⟨-, rfl⟩ := List.cons_eq_cons.mp hl
      exact .inl rfl
    | cons x m =>
      obtain ⟨rfl, htail⟩ := List.cons_eq_cons.mp hl
      obtain rfl : l' = m ++ [d] := htail
      have hlen := h.length
      simp only [List.length_cons, List.length_append, List.length_nil] at hlen
      refine .inr ⟨m, ⟨by omega, fun y hy => ?_⟩, [d], ⟨d, hd, rfl⟩, rfl⟩
      exact h.chars y (by simp [hy])

/-- The characters that the loop lets through at any place. -/
theorem chars_of_loop {n : ℕ} (h : l.zipIdx.all (slugChar n) = true) :
    ∀ c ∈ l, isSlugAlnum c = true ∨ c = '-' := by
  intro c hc
  obtain ⟨i, hi, rfl⟩ := List.mem_iff_getElem.mp hc
  have hmem : (l[i], i) ∈ l.zipIdx := List.mk_mem_zipIdx_iff_getElem?.mpr (List.getElem?_eq_getElem hi)
  have hchar := List.all_eq_true.mp h _ hmem
  unfold slugChar at hchar
  split_ifs at hchar with halnum hhyphen
  · exact .inl halnum
  · exact .inr hhyphen

/-- The loop over a text of as many bytes as characters. -/
theorem loop_iff : (l ≠ [] ∧ l.length ≤ 63 ∧ l.zipIdx.all (slugChar l.length) = true) ↔
    IsSlug l := by
  have hmem : ∀ {i} (hi : i < l.length), (l[i], i) ∈ l.zipIdx := fun hi =>
    List.mk_mem_zipIdx_iff_getElem?.mpr (List.getElem?_eq_getElem hi)
  have hhyphen : isSlugAlnum '-' = false := by decide
  constructor
  · rintro ⟨hne, hlen, hall⟩
    have hat : ∀ i (hi : i < l.length), i = 0 ∨ i + 1 = l.length → isSlugAlnum l[i] = true := by
      intro i hi hend
      have hchar := List.all_eq_true.mp hall _ (hmem hi)
      unfold slugChar at hchar
      split_ifs at hchar with halnum heq
      · exact halnum
      · simp only [Bool.and_eq_true, decide_eq_true_eq] at hchar
        omega
    have hpos := List.length_pos_iff.mpr hne
    refine ⟨chars_of_loop hall, hlen, ?_, ?_⟩
    · refine ⟨l[0], l.tail, ?_, hat 0 hpos (.inl rfl)⟩
      rw [← List.head_eq_getElem_zero hne, List.cons_head_tail]
    · refine ⟨l.dropLast, l[l.length - 1], ?_, hat _ (by omega) (.inr (by omega))⟩
      rw [← List.getLast_eq_getElem hne, List.dropLast_append_getLast]
  · intro h
    obtain ⟨c, l', hhead, hc⟩ := h.head
    obtain ⟨m, d, hlast, hd⟩ := h.last
    refine ⟨by simp [hhead], h.length, List.all_eq_true.mpr ?_⟩
    rintro ⟨x, i⟩ hx
    have hget := List.mk_mem_zipIdx_iff_getElem?.mp hx
    obtain ⟨hi, rfl⟩ := List.getElem?_eq_some_iff.mp hget
    unfold slugChar
    dsimp only
    split_ifs with halnum heq
    · rfl
    · -- A hyphen is neither the first nor the last character.
      simp only [Bool.and_eq_true, decide_eq_true_eq]
      have hfirst : i ≠ 0 := by
        rintro rfl
        have h0 : l[0] = c := by simp [hhead]
        rw [h0, hc] at halnum
        exact halnum rfl
      have hfinal : i + 1 ≠ l.length := by
        intro hend
        have hsize : i = m.length := by
          rw [hlast] at hend
          simpa using hend
        have hL : l[i] = d := by
          simp [hlast, hsize]
        rw [hL, hd] at halnum
        exact halnum rfl
      omega
    · exact absurd (h.chars _ (List.getElem_mem hi)) (by simp [halnum, heq])

/-- `validate_slug` admits slugs: behind its loop there are as many bytes as characters. -/
theorem validateSlug_iff_isSlug (debug : String → String) :
    validateSlug debug slug = .ok () ↔ IsSlug slug.toList := by
  have hascii : (∀ c ∈ slug.toList, isSlugAlnum c = true ∨ c = '-') →
      slug.utf8ByteSize = slug.toList.length := by
    intro h
    refine String.utf8ByteSize_of_ascii fun c hc => ?_
    rcases h c hc with halnum | rfl
    · exact isSlugAlnum_lt halnum
    · decide
  have hempty : slug.isEmpty = false ↔ slug.toList ≠ [] := by
    rw [← Bool.not_eq_true, String.isEmpty_iff, ne_eq, String.toList_eq_nil_iff]
  unfold validateSlug
  simp only [ite_eq_left_iff, reduceCtorEq, imp_false, Decidable.not_not, Bool.and_eq_true,
    decide_eq_true_eq, Bool.not_eq_true', hempty]
  rw [← loop_iff]
  constructor
  · rintro ⟨⟨hlen, hne⟩, hall⟩
    rw [hascii (chars_of_loop hall)] at hlen hall
    exact ⟨hne, hlen, hall⟩
  · rintro ⟨hne, hlen, hall⟩
    rw [hascii (chars_of_loop hall)]
    exact ⟨⟨hlen, hne⟩, hall⟩

end Slugs

/-! ### The insert -/

/-- `TenantCreateRequest`. -/
structure TenantCreateRequest where
  slug : String
  name : String

/-- `TenantResponse`. -/
structure TenantResponse where
  id : Uuid
  slug : String
  name : String
  status : String
  createdAt : Time

/-- `into_response`. -/
def TenantRow.intoResponse (row : TenantRow) : TenantResponse :=
  ⟨row.id, row.slug, row.name, row.status, row.createdAt⟩

/-- The slug that a request asks for. -/
def TenantCreateRequest.slugText (req : TenantCreateRequest) : String :=
  asciiLowercase (trim req.slug)

/-- The checks of `create_tenant`, with the slug and the name it goes on with. -/
def checkTenant (debug : String → String) (req : TenantCreateRequest) :
    Except Error (String × String) :=
  match validateSlug debug req.slugText with
  | .error e => .error e
  | .ok _ =>
    let name := trim req.name
    if name.isEmpty then .error (.badRequest "tenant name must not be empty")
    else if name.utf8ByteSize > 200 then .error (.badRequest "tenant name too long (max 200)")
    else .ok (req.slugText, name)

/-- `INSERT INTO tenant`: the check, then the two keys. -/
def insertTenant (debug : String → String) (row : TenantRow) (s : AccessDb) :
    Except Error (TenantRow × AccessDb) :=
  if row.slug.toList ∉ slugPattern.matches' then .error (.db "tenant_slug_format")
  else if (s.tenants.get row.id).isSome then .error (.db "tenant_pkey")
  else if s.tenants.rows.any fun r => r.slug = row.slug then
    let quoted := debug row.slug
    .error (.conflict s!"tenant slug {quoted} already exists")
  else .ok (row, { s with tenants := s.tenants.insertNew row })

/-- The row that a call inserts. -/
def newTenant (env : Env) (slug name : String) : TenantRow :=
  { id := env.uuid 0, slug, name, status := "active", createdAt := env.now }

/-- `create_tenant`. -/
def createTenant (debug : String → String) (req : TenantCreateRequest) :
    Prog Unit AccessDb Env Error TenantResponse :=
  match checkTenant debug req with
  | .error e => Prog.err e
  | .ok (slug, name) => do
    let row ← Prog.exec () fun s env => insertTenant debug (newTenant env slug name) s
    return row.intoResponse

section Create

variable {debug : String → String} {req : TenantCreateRequest} {env : Env} {s : AccessDb}

theorem checkTenant_ok {slug name : String} (h : checkTenant debug req = .ok (slug, name)) :
    slug = req.slugText ∧ IsSlug slug.toList := by
  unfold checkTenant at h
  cases hslug : validateSlug debug req.slugText with
  | error e =>
    rw [hslug] at h
    cases h
  | ok u =>
    rw [hslug] at h
    dsimp only at h
    split_ifs at h
    obtain ⟨rfl, -⟩ := Prod.mk.inj (Except.ok.inj h)
    exact ⟨rfl, (validateSlug_iff_isSlug debug).mp hslug⟩

/-- The refusal of the name is another than the refusal of the slug. -/
theorem invalidSlug_ne (debug : String → String) (slug : String) :
    invalidSlug debug slug ≠ .badRequest "tenant name must not be empty" ∧
      invalidSlug debug slug ≠ .badRequest "tenant name too long (max 200)" := by
  have hhead : ∀ msg, invalidSlug debug slug = .badRequest msg → msg.toList.head? = some 'i' := by
    intro msg h
    rw [← Error.badRequest.inj h]
    simp only [String.toList_append, List.append_assoc, List.head?_append]
    rfl
  exact ⟨fun h => absurd (hhead _ h) (by decide), fun h => absurd (hhead _ h) (by decide)⟩

/-- What is refused before the insert is a bad request. -/
theorem checkTenant_error {e : Error} (h : checkTenant debug req = .error e) :
    ∃ msg, e = .badRequest msg := by
  unfold checkTenant validateSlug at h
  dsimp only at h
  split_ifs at h <;> exact ⟨_, (Except.error.inj h).symm⟩

/-- The slug is refused for itself when it is none, and only then. -/
theorem checkTenant_refuses_iff :
    checkTenant debug req = .error (invalidSlug debug req.slugText) ↔ ¬ IsSlug req.slugText.toList := by
  rw [← validateSlug_iff_isSlug debug]
  unfold checkTenant
  cases hslug : validateSlug debug req.slugText with
  | error e =>
    have he : e = invalidSlug debug req.slugText := by
      unfold validateSlug at hslug
      dsimp only at hslug
      split_ifs at hslug
      exact (Except.error.inj hslug).symm
    simp [he]
  | ok u =>
    obtain ⟨hempty, hlong⟩ := invalidSlug_ne debug req.slugText
    dsimp only
    split_ifs
    · simp [Ne.symm hempty]
    · simp [Ne.symm hlong]
    · simp

/-- The insert of a slug goes through when neither key is taken. -/
theorem insertTenant_new (debug : String → String) {s : AccessDb} {row : TenantRow}
    (h : IsSlug row.slug.toList) (hid : s.tenants.get row.id = none)
    (hslug : ∀ r ∈ s.tenants.rows, r.slug ≠ row.slug) :
    insertTenant debug row s = .ok (row, { s with tenants := s.tenants.insertNew row }) := by
  unfold insertTenant
  rw [if_neg (not_not_intro (mem_slugPattern.mpr h)), if_neg (by simp [hid]), if_neg]
  rw [List.any_eq_true]
  rintro ⟨r, hr, heq⟩
  exact hslug r hr (of_decide_eq_true heq)

/-- The insert of a slug: it goes through, or one of the keys is taken. -/
theorem insertTenant_cases (debug : String → String) (s : AccessDb) {row : TenantRow}
    (h : IsSlug row.slug.toList) :
    insertTenant debug row s = .error (.db "tenant_pkey") ∨
      (∃ msg, insertTenant debug row s = .error (.conflict msg)) ∨
      s.tenants.get row.id = none ∧ (∀ r ∈ s.tenants.rows, r.slug ≠ row.slug) ∧
        insertTenant debug row s = .ok (row, { s with tenants := s.tenants.insertNew row }) := by
  have hcheck : ¬ row.slug.toList ∉ slugPattern.matches' := not_not_intro (mem_slugPattern.mpr h)
  by_cases hid : s.tenants.get row.id = none
  · by_cases hslug : ∀ r ∈ s.tenants.rows, r.slug ≠ row.slug
    · exact .inr (.inr ⟨hid, hslug, insertTenant_new debug h hid hslug⟩)
    · push Not at hslug
      obtain ⟨r, hr, heq⟩ := hslug
      have htaken : (s.tenants.rows.any fun r => r.slug = row.slug) = true :=
        List.any_eq_true.mpr ⟨r, hr, decide_eq_true heq⟩
      unfold insertTenant
      rw [if_neg hcheck, if_neg (by simp [hid]), if_pos htaken]
      exact .inr (.inl ⟨_, rfl⟩)
  · unfold insertTenant
    rw [if_neg hcheck, if_pos (Option.isSome_iff_ne_none.mpr hid)]
    exact .inl rfl

/-- A call is its checks, then one statement. -/
theorem createTenant_eval (debug : String → String) (req : TenantCreateRequest) (env : Env)
    (s : AccessDb) :
    (createTenant debug req).eval env s =
      match checkTenant debug req with
      | .error e => (.error e, s)
      | .ok (slug, name) =>
        match insertTenant debug (newTenant env slug name) s with
        | .error e => (.error e, s)
        | .ok r => (.ok r.1.intoResponse, r.2) := by
  unfold createTenant
  cases checkTenant debug req with
  | error e => rfl
  | ok texts =>
    obtain ⟨slug, name⟩ := texts
    simp only [Prog.exec_bind, Prog.eval_stmt]
    cases insertTenant debug (newTenant env slug name) s <;> rfl

/-- `validate_slug` returns `Ok` exactly for the text that the constraint matches: the constraint
never fails an insert of `create_tenant`, and a slug is refused exactly if the constraint rejects
it. -/
theorem create_mirrors_constraint (debug : String → String) :
    (∀ slug, validateSlug debug slug = .ok () ↔ slug.toList ∈ slugPattern.matches') ∧
      ∀ (req : TenantCreateRequest) (env : Env) (s : AccessDb),
        ((createTenant debug req).eval env s).1 ≠ .error (.db "tenant_slug_format") ∧
        (((createTenant debug req).eval env s).1 = .error (invalidSlug debug req.slugText) ↔
          req.slugText.toList ∉ slugPattern.matches') := by
  refine ⟨fun slug => by rw [mem_slugPattern, validateSlug_iff_isSlug], fun req env s => ?_⟩
  rw [mem_slugPattern, ← checkTenant_refuses_iff, createTenant_eval]
  cases hcheck : checkTenant debug req with
  | error e =>
    obtain ⟨msg, rfl⟩ := checkTenant_error hcheck
    simp
  | ok texts =>
    obtain ⟨slug, name⟩ := texts
    obtain ⟨rfl, hslug⟩ := checkTenant_ok hcheck
    have hrow : IsSlug (newTenant env req.slugText name).slug.toList := hslug
    dsimp only
    -- Whatever the insert answers, it is neither the check nor a bad request.
    obtain h | ⟨msg, h⟩ | ⟨-, -, h⟩ := insertTenant_cases debug s hrow
    · rw [h]
      simp [invalidSlug]
    · rw [h]
      simp [invalidSlug]
    · rw [h]
      simp

end Create

/-! ### Names -/

/-- The tenant that the migration inserts. -/
def defaultRow : TenantRow :=
  { id := defaultTenant, slug := "default", name := "Default tenant", status := "active",
    createdAt := 1767225600000000 }

/-- The store with the tenants of a fresh database. -/
def seeded (s : AccessDb) : AccessDb := { s with tenants := Table.empty.insertNew defaultRow }

/-- A call of `create_tenant`; what it draws is 128 bits long. -/
structure CreateCall where
  env : Env
  req : TenantCreateRequest
  id_lt : env.uuid 0 < 2 ^ 128

/-- The store behind a call, which may have failed. -/
def afterCall (debug : String → String) (s : AccessDb) (c : CreateCall) : AccessDb :=
  ((createTenant debug c.req).eval c.env s).2

/-- The store behind calls to a fresh database. -/
def registered (debug : String → String) (s : AccessDb) (calls : List CreateCall) : AccessDb :=
  calls.foldl (afterCall debug) (seeded s)

/-- `resolve_active_tenant` returns the identifier. -/
def Resolves (cfg : AccessConfig) (s : AccessDb) (header : String) (id : Uuid) : Prop :=
  ∀ env, ((resolveActiveTenant cfg (some header)).eval env s).1 = .ok id

/-- Every tenant is found under its slug, in either case and between blanks, and under its
identifier, and no tenant under the slug of another. -/
structure Unambiguous (cfg : AccessConfig) (s : AccessDb) : Prop where
  slug : ∀ t ∈ s.tenants.rows, t.status = "active" → ∀ b w b' : String,
    (∀ c ∈ b.toList, isWhiteSpace c = true) → (∀ c ∈ b'.toList, isWhiteSpace c = true) →
      asciiLowercase w = t.slug → Resolves cfg s (b ++ w ++ b') t.id
  id : ∀ t ∈ s.tenants.rows, t.status = "active" → Resolves cfg s (cfg.showUuid t.id) t.id
  other : ∀ t ∈ s.tenants.rows, ∀ u ∈ s.tenants.rows, t.id ≠ u.id → ∀ header ≠ "",
    asciiLowercase (trim header) = t.slug → ¬ Resolves cfg s header u.id

/-- What the `uuid` crate documents: the printed identifier is read again, it has no blanks,
and the case of letters does not matter. -/
structure UuidNotation (cfg : AccessConfig) : Prop where
  parse_show : ∀ id < 2 ^ 128, cfg.parseUuid (cfg.showUuid id) = some id
  parse_empty : cfg.parseUuid "" = none
  show_blank : ∀ id, ∀ c ∈ (cfg.showUuid id).toList, isWhiteSpace c = false
  parse_lowercase : ∀ s : String, '{' ∉ s.toList → ':' ∉ s.toList →
    cfg.parseUuid (asciiLowercase s) = cfg.parseUuid s

/-- What calls keep of the tenants. -/
structure Registry (s : AccessDb) : Prop where
  slug : ∀ t ∈ s.tenants.rows, IsSlug t.slug.toList
  active : ∀ t ∈ s.tenants.rows, t.status = "active"
  id_lt : ∀ t ∈ s.tenants.rows, t.id < 2 ^ 128
  unique : ∀ t ∈ s.tenants.rows, ∀ u ∈ s.tenants.rows, t.slug = u.slug → t = u

section Blanks

/-- `trim` takes the blanks around a text without blanks. -/
theorem trim_padded {b w b' : String} (hb : ∀ c ∈ b.toList, isWhiteSpace c = true)
    (hb' : ∀ c ∈ b'.toList, isWhiteSpace c = true) (hw : ∀ c ∈ w.toList, isWhiteSpace c = false)
    (hne : w ≠ "") : trim (b ++ w ++ b') = w := by
  have hkeep : ∀ l m : List Char, l ≠ [] → (∀ c ∈ l, isWhiteSpace c = false) →
      (l ++ m).dropWhile isWhiteSpace = l ++ m := by
    intro l m hl hall
    obtain ⟨c, l, rfl⟩ := List.exists_cons_of_ne_nil hl
    refine List.dropWhile_cons_of_neg ?_
    simp [hall c List.mem_cons_self]
  have hwne : w.toList ≠ [] := by
    rwa [ne_eq, String.toList_eq_nil_iff]
  unfold trim trimMatches
  rw [String.toList_append, String.toList_append, List.append_assoc,
    List.dropWhile_append_of_pos hb, hkeep _ _ hwne hw, List.reverse_append,
    List.dropWhile_append_of_pos (by simpa using hb'), ← List.append_nil w.toList.reverse,
    hkeep _ _ (by simpa using hwne) (by simpa using hw), List.append_nil, List.reverse_reverse,
    String.ofList_toList]

theorem trim_of_no_blank {w : String} (hw : ∀ c ∈ w.toList, isWhiteSpace c = false) :
    trim w = w := by
  by_cases hne : w = ""
  · subst hne
    rfl
  · have h := @trim_padded "" w "" (by simp) (by simp) hw hne
    simpa using h

/-- A text whose lower case is a slug has no blank, brace or colon. -/
theorem chars_of_lower {w : String} (h : IsSlug (asciiLowercase w).toList) :
    (∀ c ∈ w.toList, isWhiteSpace c = false) ∧ '{' ∉ w.toList ∧ ':' ∉ w.toList := by
  have hchar : ∀ c : Char, (isSlugAlnum c.toLower = true ∨ c.toLower = '-') →
      isWhiteSpace c = false ∧ c ≠ '{' ∧ c ≠ ':' := by
    refine toLower_induction (P := fun c d => (isSlugAlnum d = true ∨ d = '-') →
      isWhiteSpace c = false ∧ c ≠ '{' ∧ c ≠ ':') ?_ ?_
    · decide
    · intro c hc halnum
      exfalso
      rcases halnum with halnum | rfl
      · have hlt := isSlugAlnum_lt halnum
        omega
      · exact absurd hc (by decide)
  have hall : ∀ c ∈ w.toList, isWhiteSpace c = false ∧ c ≠ '{' ∧ c ≠ ':' := by
    intro c hc
    refine hchar c (h.chars _ ?_)
    unfold asciiLowercase
    rw [String.toList_ofList]
    exact List.mem_map_of_mem hc
  exact ⟨fun c hc => (hall c hc).1, fun hb => (hall _ hb).2.1 rfl, fun hc => (hall _ hc).2.2 rfl⟩

/-- A slug is in lower case. -/
theorem lowercase_slug {slug : String} (h : IsSlug slug.toList) : asciiLowercase slug = slug := by
  have hmap : slug.toList.map Char.toLower = slug.toList := by
    refine (List.map_congr_left fun c hc => ?_).trans (List.map_id _)
    refine toLower_of_not_upper ?_
    rintro ⟨hA, hZ⟩
    rcases h.chars c hc with halnum | rfl
    · simp only [isSlugAlnum, Bool.or_eq_true, Bool.and_eq_true, decide_eq_true_eq] at halnum
      rcases halnum with ⟨ha, -⟩ | ⟨-, h9⟩
      · exact absurd (le_trans ha hZ) (by decide)
      · exact absurd (le_trans hA h9) (by decide)
    · exact absurd hA (by decide)
  unfold asciiLowercase
  rw [hmap, String.ofList_toList]

/-- A slug in either case and between blanks is that slug. -/
theorem spelled_slug {b w b' slug : String} (hslug : IsSlug slug.toList)
    (hb : ∀ c ∈ b.toList, isWhiteSpace c = true) (hb' : ∀ c ∈ b'.toList, isWhiteSpace c = true)
    (hw : asciiLowercase w = slug) :
    b ++ w ++ b' ≠ "" ∧ asciiLowercase (trim (b ++ w ++ b')) = slug := by
  subst hw
  have hne : w ≠ "" := by
    rintro rfl
    obtain ⟨c, l, hl, -⟩ := hslug.head
    cases hl
  refine ⟨fun h => hne ?_, by rw [trim_padded hb hb' (chars_of_lower hslug).1 hne]⟩
  have hlen := congrArg (fun s => s.toList) h
  simp only [String.toList_append] at hlen
  have hnil : w.toList = [] := by
    have h' := List.append_eq_nil_iff.mp hlen
    exact (List.append_eq_nil_iff.mp h'.1).2
  exact String.toList_eq_nil_iff.mp hnil

end Blanks

section Resolve

variable {cfg : AccessConfig} {s : AccessDb}

/-- A header resolves to the active tenant that is looked up for it. -/
theorem resolves_iff {header : String} {id : Uuid} :
    Resolves cfg s header id ↔
      ∃ row, lookupRow cfg s (some header) = some row ∧ row.status = "active" ∧ row.id = id := by
  constructor
  · intro h
    have env : AccessEnv := ⟨Env.drawing 0, ⟨.ok [], 0⟩⟩
    have heval := h env
    unfold resolveActiveTenant at heval
    rw [Prog.eval_bind] at heval
    cases hrow : lookupRow cfg s (some header) with
    | none =>
      obtain ⟨e, he⟩ := eval_lookupTenant_none env hrow
      rw [he] at heval
      cases heval
    | some row =>
      rw [eval_lookupTenant env hrow] at heval
      dsimp only at heval
      obtain ⟨hact, hreq⟩ | ⟨-, e, hreq⟩ := requireActive_cases row
      · rw [hreq] at heval
        exact ⟨row, rfl, hact, Except.ok.inj heval⟩
      · rw [hreq] at heval
        cases heval
  · rintro ⟨row, hrow, hact, rfl⟩ env
    rw [eval_resolveActiveTenant env hrow hact]

theorem lookupRow_some {header : String} (hne : header ≠ "") :
    lookupRow cfg s (some header) = match cfg.parseUuid (trim header) with
      | some id => s.tenants.get id
      | none => s.tenants.rows.find? fun r => r.slug = asciiLowercase (trim header) := by
  unfold lookupRow
  split
  · next h => cases h
  · next h => exact absurd (Option.some.inj h) hne
  · next h =>
    obtain rfl := Option.some.inj h
    rfl

variable (hreg : Registry s) {t : TenantRow} (ht : t ∈ s.tenants.rows)

include hreg ht

/-- A tenant is found under its slug only if that reads as no other identifier. -/
theorem parse_of_resolves (h : Resolves cfg s t.slug t.id) :
    cfg.parseUuid t.slug = none ∨ cfg.parseUuid t.slug = some t.id := by
  have hslug := hreg.slug t ht
  have hlow := lowercase_slug hslug
  have hblank := (chars_of_lower (w := t.slug) (by rwa [hlow])).1
  have hne : t.slug ≠ "" := by
    intro heq
    obtain ⟨c, l, hl, -⟩ := hslug.head
    rw [heq] at hl
    cases hl
  obtain ⟨row, hrow, -, hid⟩ := resolves_iff.mp h
  rw [lookupRow_some hne, trim_of_no_blank hblank] at hrow
  cases hparse : cfg.parseUuid t.slug with
  | none => exact .inl rfl
  | some id =>
    rw [hparse] at hrow
    rw [← hid, ← (Table.mem_of_get hrow).2]
    exact .inr rfl

variable (huuid : UuidNotation cfg)

include huuid

/-- A tenant whose slug reads as no other identifier is found under its slug. -/
theorem resolves_slug (hslug : cfg.parseUuid t.slug = none ∨ cfg.parseUuid t.slug = some t.id)
    {header : String} (hne : header ≠ "") (hspell : asciiLowercase (trim header) = t.slug) :
    Resolves cfg s header t.id := by
  have hlower : IsSlug (asciiLowercase (trim header)).toList := by
    rw [hspell]
    exact hreg.slug t ht
  obtain ⟨-, hbrace, hcolon⟩ := chars_of_lower hlower
  have hparse := huuid.parse_lowercase (trim header) hbrace hcolon
  rw [hspell] at hparse
  refine resolves_iff.mpr ⟨t, ?_, hreg.active t ht, rfl⟩
  rw [lookupRow_some hne, ← hparse, hspell]
  rcases hslug with hnone | hid
  · rw [hnone]
    dsimp only
    -- No other tenant has the slug.
    cases hfind : s.tenants.rows.find? fun r => r.slug = t.slug with
    | none => exact absurd (decide_eq_true rfl) (List.find?_eq_none.mp hfind t ht)
    | some u =>
      have hu := List.find?_some hfind
      rw [hreg.unique u (List.mem_of_find?_eq_some hfind) t ht (of_decide_eq_true hu)]
  · rw [hid]
    exact Table.mem_rows_iff.mp ht

/-- A tenant is found under its identifier. -/
theorem resolves_id : Resolves cfg s (cfg.showUuid t.id) t.id := by
  have hparse := huuid.parse_show t.id (hreg.id_lt t ht)
  have hne : cfg.showUuid t.id ≠ "" := by
    intro heq
    rw [heq, huuid.parse_empty] at hparse
    cases hparse
  refine resolves_iff.mpr ⟨t, ?_, hreg.active t ht, rfl⟩
  rw [lookupRow_some hne, trim_of_no_blank (huuid.show_blank t.id), hparse]
  exact Table.mem_rows_iff.mp ht

end Resolve

/-- Where the names are unambiguous a slug reads as no other identifier. -/
theorem Unambiguous.parse_slug {cfg : AccessConfig} {s : AccessDb} {t : TenantRow}
    (h : Unambiguous cfg s) (hreg : Registry s) (ht : t ∈ s.tenants.rows) :
    cfg.parseUuid t.slug = none ∨ cfg.parseUuid t.slug = some t.id := by
  have hslug := h.slug t ht (hreg.active t ht) "" t.slug "" (by simp) (by simp)
    (lowercase_slug (hreg.slug t ht))
  rw [String.empty_append, String.append_empty] at hslug
  exact parse_of_resolves hreg ht hslug

theorem unambiguous_of_parse {cfg : AccessConfig} {s : AccessDb} (hreg : Registry s)
    (huuid : UuidNotation cfg)
    (h : ∀ t ∈ s.tenants.rows, cfg.parseUuid t.slug = none ∨ cfg.parseUuid t.slug = some t.id) :
    Unambiguous cfg s where
  slug := by
    intro t ht _ b w b' hb hb' hw
    obtain ⟨hne, hspell⟩ := spelled_slug (hreg.slug t ht) hb hb' hw
    exact resolves_slug hreg ht huuid (h t ht) hne hspell
  id := fun t ht _ => resolves_id hreg ht huuid
  other := by
    intro t ht u hu hids header hne hspell hother
    obtain ⟨row, hrow, -, hid⟩ := resolves_iff.mp (resolves_slug hreg ht huuid (h t ht) hne hspell)
    obtain ⟨row', hrow', -, hid'⟩ := resolves_iff.mp hother
    obtain rfl := Option.some.inj (hrow.symm.trans hrow')
    exact hids (hid.symm.trans hid')

section Register

variable {s : AccessDb}

theorem registry_seeded (s : AccessDb) : Registry (seeded s) := by
  have hrows : (seeded s).tenants.rows = [defaultRow] := rfl
  have hslug : validateSlug id defaultRow.slug = .ok () := by decide
  refine ⟨?_, ?_, ?_, ?_⟩
  · rw [hrows, List.forall_mem_singleton]
    exact (validateSlug_iff_isSlug id).mp hslug
  · rw [hrows, List.forall_mem_singleton]
    rfl
  · rw [hrows, List.forall_mem_singleton]
    decide
  · intro t ht u hu _
    rw [hrows, List.mem_singleton] at ht hu
    rw [ht, hu]

/-- A call whose keys are free adds its row. -/
theorem rows_afterCall {debug : String → String} {c : CreateCall} {slug name : String}
    (hcheck : checkTenant debug c.req = .ok (slug, name))
    (hid : s.tenants.get (c.env.uuid 0) = none) (hslug : ∀ r ∈ s.tenants.rows, r.slug ≠ slug) :
    (afterCall debug s c).tenants.rows = s.tenants.rows ++ [newTenant c.env slug name] := by
  obtain ⟨-, hvalid⟩ := checkTenant_ok hcheck
  have hok := @insertTenant_new debug s (newTenant c.env slug name) hvalid hid hslug
  unfold afterCall
  rw [createTenant_eval, hcheck]
  dsimp only
  rw [hok]
  exact Table.rows_insertNew_of_none hid

/-- A call keeps the registry: it inserts a slug that is in no other row. -/
theorem Registry.afterCall (h : Registry s) (debug : String → String) (c : CreateCall) :
    Registry (afterCall debug s c) := by
  unfold Corpus.afterCall
  rw [createTenant_eval]
  cases hcheck : checkTenant debug c.req with
  | error e => exact h
  | ok texts =>
    obtain ⟨slug, name⟩ := texts
    obtain ⟨-, hslug⟩ := checkTenant_ok hcheck
    obtain herr | ⟨msg, herr⟩ | ⟨hid, hnew, hok⟩ :=
      insertTenant_cases debug s (show IsSlug (newTenant c.env slug name).slug.toList from hslug)
    · dsimp only
      rw [herr]
      exact h
    · dsimp only
      rw [herr]
      exact h
    · dsimp only
      rw [hok]
      have hmem : ∀ t, t ∈ (s.tenants.insertNew (newTenant c.env slug name)).rows ↔
          t ∈ s.tenants.rows ∨ t = newTenant c.env slug name :=
        fun t => Table.mem_insertNew_of_none hid
      refine ⟨?_, ?_, ?_, ?_⟩
      all_goals simp only [hmem]
      · rintro t (ht | rfl)
        · exact h.slug t ht
        · exact hslug
      · rintro t (ht | rfl)
        · exact h.active t ht
        · rfl
      · rintro t (ht | rfl)
        · exact h.id_lt t ht
        · exact c.id_lt
      · rintro t (ht | rfl) u (hu | rfl) heq
        · exact h.unique t ht u hu heq
        · exact absurd heq (hnew t ht)
        · exact absurd heq.symm (hnew u hu)
        · rfl

theorem registry_registered (debug : String → String) (s : AccessDb) (calls : List CreateCall) :
    Registry (registered debug s calls) := by
  have hrun : ∀ s, Registry s → Registry (calls.foldl (afterCall debug) s) := by
    induction calls with
    | nil => exact fun _ h => h
    | cons c calls ih =>
      intro s h
      rw [List.foldl_cons]
      exact ih _ (h.afterCall debug c)
  exact hrun _ (registry_seeded s)

end Register

/-- After any calls, the names are unambiguous if and only if no tenant's slug reads as the
identifier of anything but that tenant. -/
theorem names_unambiguous_iff {cfg : AccessConfig} (huuid : UuidNotation cfg)
    (debug : String → String) (s : AccessDb) (calls : List CreateCall) :
    Unambiguous cfg (registered debug s calls) ↔
      ∀ t ∈ (registered debug s calls).tenants.rows,
        cfg.parseUuid t.slug = none ∨ cfg.parseUuid t.slug = some t.id := by
  have hreg := registry_registered debug s calls
  constructor
  · exact fun h t ht => h.parse_slug hreg ht
  · exact unambiguous_of_parse hreg huuid

/-- The configuration with the notations of the crate. -/
def AccessConfig.withUuidText : AccessConfig :=
  { AccessConfig.plain with parseUuid := parseUuidText, showUuid := printUuid }

theorem parseUuid_withUuidText (s : String) :
    AccessConfig.withUuidText.parseUuid s = parseUuidText s := rfl

theorem showUuid_withUuidText (id : Uuid) :
    AccessConfig.withUuidText.showUuid id = printUuid id := rfl

theorem uuidNotation_withUuidText : UuidNotation AccessConfig.withUuidText where
  parse_show := by
    intro id h
    rw [parseUuid_withUuidText, showUuid_withUuidText]
    exact parseUuidText_printUuid h
  parse_empty := by decide
  show_blank := by
    intro id c hc
    rw [showUuid_withUuidText] at hc
    rcases mem_printUuid hc with rfl | ⟨d, hd, rfl⟩
    · decide
    · have hall : ∀ d < 16, isWhiteSpace (hexDigit d) = false := by decide
      exact hall d hd
  parse_lowercase := by
    intro s hbrace hcolon
    rw [parseUuid_withUuidText, parseUuid_withUuidText]
    exact parseUuidText_lowercase hbrace hcolon

/-- A call for a name in plain letters. -/
def acmeCall : CreateCall where
  env := Env.drawing 7
  req := ⟨" Acme-Corp ", "Acme"⟩
  id_lt := by decide

/-- A call for the name that is the identifier of the default tenant; the row gets another. -/
def hexCall : CreateCall where
  env := Env.drawing 7
  req := ⟨"00000000-0000-0000-0000-000000000001", "Hex"⟩
  id_lt := by decide

/-- A store without rows. -/
def noRows : AccessDb := ⟨.empty, .empty, .empty, .empty⟩

/-- The rows behind one call to a fresh database. -/
theorem rows_registered {c : CreateCall} {slug name : String}
    (hcheck : checkTenant id c.req = .ok (slug, name)) (hid : c.env.uuid 0 ≠ defaultTenant)
    (hslug : "default" ≠ slug) :
    (registered id noRows [c]).tenants.rows = [defaultRow, newTenant c.env slug name] := by
  have hrows : (seeded noRows).tenants.rows = [defaultRow] := rfl
  have hget : (seeded noRows).tenants.get (c.env.uuid 0) = none := by
    rw [Table.get, hrows]
    simp [defaultRow, hid.symm]
  have hfresh : ∀ r ∈ (seeded noRows).tenants.rows, r.slug ≠ slug := by
    rw [hrows, List.forall_mem_singleton]
    exact hslug
  rw [registered, List.foldl_cons, List.foldl_nil, rows_afterCall hcheck hget hfresh, hrows]
  rfl

theorem names_unambiguous_acme :
    Unambiguous AccessConfig.withUuidText (registered id noRows [acmeCall]) := by
  refine (names_unambiguous_iff uuidNotation_withUuidText id noRows [acmeCall]).mpr ?_
  have hcheck : checkTenant id acmeCall.req = .ok ("acme-corp", "Acme") := by decide
  rw [rows_registered hcheck (by decide) (by decide)]
  simp only [List.forall_mem_cons, List.not_mem_nil, false_imp_iff, implies_true, and_true]
  exact ⟨.inl (by decide), .inl (by decide)⟩

/-- The new tenant's name reads as the identifier of the default tenant. -/
theorem hex_slug_ambiguous :
    ¬ ∀ (debug : String → String) (s : AccessDb) (calls : List CreateCall),
      Unambiguous AccessConfig.withUuidText (registered debug s calls) := by
  intro h
  have hcheck : checkTenant id hexCall.req =
      .ok ("00000000-0000-0000-0000-000000000001", "Hex") := by decide
  have hrows := rows_registered hcheck (by decide) (by decide)
  have hmem : newTenant hexCall.env "00000000-0000-0000-0000-000000000001" "Hex" ∈
      (registered id noRows [hexCall]).tenants.rows := by
    rw [hrows]
    simp
  have hparse := (h id noRows [hexCall]).parse_slug (registry_registered id noRows [hexCall]) hmem
  exact absurd hparse (by decide)

end Corpus
