/-
References of container images (`oci.rs`).

`parse_image_ref` reads a reference `[registry/]path[:tag][@digest]`.  It splits at the first
`@`, or else at the last colon if no slash follows it, and tells a registry from the first
component of the path by its characters.

* `parseImageRef_printed` — how a printed reference is read;
* `parseImageRef_printed_iff` — it is read back exactly when it has no tag beside a digest, and
  no empty tag.

`{:?}` of a text is arbitrary.
-/
import Corpus.Basic
import Mathlib.Data.List.Infix

namespace Corpus.Oci

/-! ### Splitting at a separator -/

section Split

variable {α : Type*} [DecidableEq α] (sep : α)

/-- `str::split_once`: before and after the first separator. -/
def splitOnce : List α → Option (List α × List α)
  | [] => none
  | x :: rest =>
    if x = sep then some ([], rest) else (splitOnce rest).map fun p => (x :: p.1, p.2)

/-- `str::rsplit_once`: before and after the last separator. -/
def rsplitOnce (l : List α) : Option (List α × List α) :=
  (splitOnce sep l.reverse).map fun p => (p.2.reverse, p.1.reverse)

variable {sep}

theorem splitOnce_append {a : List α} (b : List α) (ha : sep ∉ a) :
    splitOnce sep (a ++ sep :: b) = some (a, b) := by
  induction a with
  | nil => simp [splitOnce]
  | cons x a ih =>
    rw [List.mem_cons, not_or] at ha
    rw [List.cons_append, splitOnce, if_neg (Ne.symm ha.1), ih ha.2]
    rfl

theorem splitOnce_of_not_mem {l : List α} (hl : sep ∉ l) : splitOnce sep l = none := by
  induction l with
  | nil => rfl
  | cons x l ih =>
    rw [List.mem_cons, not_or] at hl
    rw [splitOnce, if_neg (Ne.symm hl.1), ih hl.2]
    rfl

theorem rsplitOnce_append (a : List α) {b : List α} (hb : sep ∉ b) :
    rsplitOnce sep (a ++ sep :: b) = some (a, b) := by
  -- The last separator is the first of the reversed list.
  have hrev : (a ++ sep :: b).reverse = b.reverse ++ sep :: a.reverse := by simp
  rw [rsplitOnce, hrev, splitOnce_append _ (by simpa using hb)]
  simp

theorem rsplitOnce_of_not_mem {l : List α} (hl : sep ∉ l) : rsplitOnce sep l = none := by
  rw [rsplitOnce, splitOnce_of_not_mem (by simpa using hl)]
  rfl

/-- A list that holds the separator ends in one part without it. -/
theorem exists_rsplit {l : List α} (hl : sep ∈ l) : ∃ a b, l = a ++ sep :: b ∧ sep ∉ b := by
  induction l with
  | nil => cases hl
  | cons x l ih =>
    by_cases hrest : sep ∈ l
    · obtain ⟨a, b, rfl, hb⟩ := ih hrest
      exact ⟨x :: a, b, rfl, hb⟩
    · obtain rfl | hrest' := List.mem_cons.mp hl
      · exact ⟨[], l, rfl, hrest⟩
      · exact absurd hrest' hrest

end Split

/-! ### Image references -/

@[ext] structure ImageRef where
  registry : String
  repository : String
  /-- Tag or digest. -/
  reference : String
  deriving DecidableEq

/-- The registry of Docker Hub. -/
def hub : String := "registry-1.docker.io"

/-- The name of an image and its reference, before the name is taken apart. -/
def nameAndReference (s : List Char) : List Char × List Char :=
  match splitOnce '@' s with
  | some (n, d) => (n, d)
  | none =>
    match rsplitOnce ':' s with
    -- A colon before a slash is that of a port.
    | some (n, t) => if '/' ∈ t then (s, "latest".toList) else (n, t)
    | none => (s, "latest".toList)

/-- Registry and repository of a name; nothing, when the name starts with a slash or is empty. -/
def registryAndRepository (name : List Char) : Option (List Char × List Char) :=
  let (first, rest) := match splitOnce '/' name with
    | some (f, r) => (f, some r)
    | none => (name, none)
  if first = [] then none
  else match rest with
    | some r =>
      -- A registry is told from a namespace of the Hub by its characters.
      if '.' ∈ first ∨ ':' ∈ first ∨ first = "localhost".toList then some (first, r)
      else some (hub.toList, first ++ '/' :: r)
    | none => some (hub.toList, "library/".toList ++ first)

/-- `parse_image_ref`. -/
def parseImageRef (debug : String → String) (s : String) : Except Error ImageRef :=
  let (name, reference) := nameAndReference s.toList
  match registryAndRepository name with
  | none => .error (.badRequest s!"invalid image ref {debug s}")
  | some (registry, repository) =>
    if repository = [] ∨ reference = [] then .error (.badRequest s!"invalid image ref {debug s}")
    else .ok ⟨String.ofList registry, String.ofList repository, String.ofList reference⟩

/-- The parts of a reference of the grammar. -/
structure RefParts where
  registry : Option String
  path : List String
  tag : Option String
  digest : Option String
  /-- A registry is `localhost`, or has a dot or a port. -/
  host : ∀ r ∈ registry, ('.' ∈ r.toList ∨ ':' ∈ r.toList ∨ r = "localhost") ∧
    '/' ∉ r.toList ∧ '@' ∉ r.toList
  path_ne_nil : path ≠ []
  component : ∀ c ∈ path, c ≠ "" ∧ '/' ∉ c.toList ∧ ':' ∉ c.toList ∧ '@' ∉ c.toList
  /-- On the Hub, the first of several components could not be a registry. -/
  first : registry = none → 2 ≤ path.length → ∀ c ∈ path.head?, '.' ∉ c.toList ∧ c ≠ "localhost"
  tag_text : ∀ t ∈ tag, '/' ∉ t.toList ∧ ':' ∉ t.toList ∧ '@' ∉ t.toList
  digest_text : ∀ d ∈ digest, "sha256:".toList <+: d.toList

namespace RefParts

/-- The components, with slashes between them. -/
def pathText (p : RefParts) : List Char := ['/'].intercalate (p.path.map String.toList)

/-- What stands before the tag. -/
def nameText (p : RefParts) : List Char :=
  match p.registry with
  | some r => r.toList ++ '/' :: p.pathText
  | none => p.pathText

/-- `[registry/]path[:tag][@digest]`. -/
def printed (p : RefParts) : String := String.ofList <| p.nameText ++
  (match p.tag with
    | some t => ':' :: t.toList
    | none => []) ++
  (match p.digest with
    | some d => '@' :: d.toList
    | none => [])

/-- What the reference means. -/
def meaning (p : RefParts) : ImageRef where
  registry := p.registry.getD hub
  repository :=
    if p.registry = none ∧ p.path.length = 1 then "library/" ++ String.ofList p.pathText
    else String.ofList p.pathText
  reference := (p.digest.or p.tag).getD "latest"

/-- A character of the joined components is a slash or in a component. -/
theorem mem_intercalate {c : Char} {l : List (List Char)} (h : c ∈ ['/'].intercalate l) :
    c = '/' ∨ ∃ x ∈ l, c ∈ x := by
  induction l with
  | nil => cases h
  | cons x l ih =>
    cases l with
    | nil =>
      rw [List.intercalate_singleton] at h
      exact .inr ⟨x, List.mem_singleton_self x, h⟩
    | cons y l =>
      rw [List.intercalate_cons_cons, List.mem_append, List.mem_append, List.mem_singleton] at h
      obtain (h | h) | h := h
      · exact .inr ⟨x, List.mem_cons_self, h⟩
      · exact .inl h
      · obtain rfl | ⟨z, hz, hc⟩ := ih h
        · exact .inl rfl
        · exact .inr ⟨z, List.mem_cons_of_mem x hz, hc⟩

variable (p : RefParts)

/-- The text of the tag, with its colon. -/
def tagText : List Char :=
  match p.tag with
  | some t => ':' :: t.toList
  | none => []

theorem colon_not_mem_pathText : ':' ∉ p.pathText := by
  intro h
  obtain h | ⟨x, hx, hc⟩ := mem_intercalate h
  · exact absurd h (by decide)
  · obtain ⟨c, hcomp, rfl⟩ := List.mem_map.mp hx
    exact (p.component c hcomp).2.2.1 hc

theorem at_not_mem_pathText : '@' ∉ p.pathText := by
  intro h
  obtain h | ⟨x, hx, hc⟩ := mem_intercalate h
  · exact absurd h (by decide)
  · obtain ⟨c, hcomp, rfl⟩ := List.mem_map.mp hx
    exact (p.component c hcomp).2.2.2 hc

theorem at_not_mem_nameText : '@' ∉ p.nameText := by
  unfold nameText
  split
  · next r hr =>
    intro h
    obtain h | h := List.mem_append.mp h
    · exact (p.host r hr).2.2 h
    · exact p.at_not_mem_pathText (List.mem_of_ne_of_mem (by decide) h)
  · exact p.at_not_mem_pathText

theorem at_not_mem_tagText : '@' ∉ p.tagText := by
  unfold tagText
  split
  · next t ht =>
    rw [List.mem_cons, not_or]
    exact ⟨by decide, (p.tag_text t ht).2.2⟩
  · exact List.not_mem_nil

/-- The slash of a tag would end the name: it has none. -/
theorem slash_not_mem_tagText : '/' ∉ p.tagText := by
  unfold tagText
  split
  · next t ht =>
    rw [List.mem_cons, not_or]
    exact ⟨by decide, (p.tag_text t ht).1⟩
  · exact List.not_mem_nil

theorem toList_printed : p.printed.toList = p.nameText ++ p.tagText ++
    (match p.digest with
      | some d => '@' :: d.toList
      | none => []) := by
  rw [printed, String.toList_ofList, tagText]

/-- What stands before the tag keeps its port: the last colon is followed by a slash. -/
theorem rsplitOnce_nameText :
    rsplitOnce ':' p.nameText = none ∨ ∃ n t, rsplitOnce ':' p.nameText = some (n, t) ∧ '/' ∈ t := by
  by_cases hcolon : ':' ∈ p.nameText
  · right
    unfold nameText at hcolon ⊢
    split at hcolon
    · next r hr =>
      -- The colon stands in the registry, since no component has one.
      have hr' : ':' ∈ r.toList := by
        obtain h | h := List.mem_append.mp hcolon
        · exact h
        · exact absurd (List.mem_of_ne_of_mem (by decide) h) p.colon_not_mem_pathText
      obtain ⟨a, b, hab, hb⟩ := exists_rsplit hr'
      have hrest : ':' ∉ b ++ '/' :: p.pathText := by
        rw [List.mem_append, List.mem_cons]
        rintro (h | h | h)
        · exact hb h
        · exact absurd h (by decide)
        · exact p.colon_not_mem_pathText h
      refine ⟨a, b ++ '/' :: p.pathText, ?_, by simp⟩
      rw [hab, List.append_assoc, List.cons_append, rsplitOnce_append a hrest]
    · exact absurd hcolon p.colon_not_mem_pathText
  · exact .inl (rsplitOnce_of_not_mem hcolon)

/-- What comes before the first `@`; the tag is cut off when there is none. -/
theorem nameAndReference_printed : nameAndReference p.printed.toList =
    (if p.digest = none then p.nameText else p.nameText ++ p.tagText,
      ((p.digest.or p.tag).getD "latest").toList) := by
  rw [toList_printed]
  have hname : '@' ∉ p.nameText ++ p.tagText := by
    rw [List.mem_append, not_or]
    exact ⟨p.at_not_mem_nameText, p.at_not_mem_tagText⟩
  cases hd : p.digest with
  | some d =>
    simp only [nameAndReference, splitOnce_append _ hname]
    rfl
  | none =>
    simp only [List.append_nil, nameAndReference, splitOnce_of_not_mem hname, if_true]
    cases ht : p.tag with
    | some t =>
      have htext : p.tagText = ':' :: t.toList := by rw [tagText, ht]
      obtain ⟨hslash, hcolon, -⟩ := p.tag_text t ht
      rw [htext, rsplitOnce_append _ hcolon]
      simp only [hslash, if_false]
      rfl
    | none =>
      have htext : p.tagText = [] := by rw [tagText, ht]
      rw [htext, List.append_nil]
      -- Without a tag the last colon, if any, is that of the port.
      obtain hnone | ⟨n, t, hsome, hslash⟩ := p.rsplitOnce_nameText
      · rw [hnone]
        rfl
      · rw [hsome]
        simp only [hslash, if_true]
        rfl

/-- The path starts with a component that is not empty. -/
theorem exists_path_eq_cons : ∃ c rest, p.path = c :: rest ∧ c.toList ≠ [] ∧ '/' ∉ c.toList ∧
    ':' ∉ c.toList := by
  obtain ⟨c, rest, hpath⟩ := List.exists_cons_of_ne_nil p.path_ne_nil
  obtain ⟨hne, hslash, hcolon, -⟩ := p.component c (hpath ▸ List.mem_cons_self)
  exact ⟨c, rest, hpath, fun h => hne (String.toList_inj.mp h), hslash, hcolon⟩

theorem pathText_of_singleton {c : String} (hpath : p.path = [c]) : p.pathText = c.toList := by
  rw [pathText, hpath, List.map_cons, List.map_nil, List.intercalate_singleton]

theorem pathText_of_cons_cons {c d : String} {rest : List String} (hpath : p.path = c :: d :: rest) :
    p.pathText = c.toList ++ '/' :: ['/'].intercalate ((d :: rest).map String.toList) := by
  rw [pathText, hpath, List.map_cons, List.map_cons, List.intercalate_cons_cons, List.append_assoc,
    List.singleton_append]

/-- A registry is told from a component of the path by its characters. -/
theorem registryAndRepository_of_registry {r : String} (hr : p.registry = some r) (w : List Char) :
    registryAndRepository (r.toList ++ '/' :: (p.pathText ++ w)) =
      some (r.toList, p.pathText ++ w) := by
  obtain ⟨hhost, hslash, -⟩ := p.host r hr
  have hne : r.toList ≠ [] := by
    intro h
    obtain h' | h' | rfl := hhost
    · exact absurd h' (h ▸ List.not_mem_nil)
    · exact absurd h' (h ▸ List.not_mem_nil)
    · exact absurd h (by decide)
  have hreg : '.' ∈ r.toList ∨ ':' ∈ r.toList ∨ r.toList = "localhost".toList := by
    rw [String.toList_inj]
    exact hhost
  simp only [registryAndRepository, splitOnce_append _ hslash, hne, hreg, if_true, if_false]

/-- A single component is an image of the library, with all that follows it. -/
theorem registryAndRepository_of_single {c : String} (hpath : p.path = [c]) {w : List Char}
    (hw : '/' ∉ w) : registryAndRepository (p.pathText ++ w) =
      some (hub.toList, "library/".toList ++ (p.pathText ++ w)) := by
  obtain ⟨c', rest, hcons, hne, hslash, -⟩ := p.exists_path_eq_cons
  obtain ⟨rfl, -⟩ := List.cons.inj (hpath.symm.trans hcons)
  have hslash' : '/' ∉ c.toList ++ w := by
    rw [List.mem_append, not_or]
    exact ⟨hslash, hw⟩
  have hne' : c.toList ++ w ≠ [] := List.append_ne_nil_of_left_ne_nil hne w
  rw [pathText_of_singleton p hpath]
  simp only [registryAndRepository, splitOnce_of_not_mem hslash', hne', if_false]

/-- The first of several components is no registry. -/
theorem registryAndRepository_of_several {c d : String} {rest : List String}
    (hr : p.registry = none) (hpath : p.path = c :: d :: rest) (w : List Char) :
    registryAndRepository (p.pathText ++ w) = some (hub.toList, p.pathText ++ w) := by
  obtain ⟨c', rest', hcons, hne, hslash, hcolon⟩ := p.exists_path_eq_cons
  obtain ⟨rfl, -⟩ := List.cons.inj (hpath.symm.trans hcons)
  obtain ⟨hdot, hlocal⟩ := p.first hr (by rw [hpath]; simp) c (by rw [hpath]; rfl)
  -- By the grammar, and because no component has a colon.
  have hnot : ¬ ('.' ∈ c.toList ∨ ':' ∈ c.toList ∨ c.toList = "localhost".toList) := by
    rw [String.toList_inj]
    rintro (h | h | h)
    · exact hdot h
    · exact hcolon h
    · exact hlocal h
  rw [pathText_of_cons_cons p hpath, List.append_assoc, List.cons_append]
  simp only [registryAndRepository, splitOnce_append _ hslash, hne, hnot, if_false]

/-- The registry is read back, and the repository with what follows it. -/
theorem registryAndRepository_nameText {w : List Char} (hw : '/' ∉ w) :
    registryAndRepository (p.nameText ++ w) =
      some (p.meaning.registry.toList, p.meaning.repository.toList ++ w) := by
  unfold nameText meaning
  cases hr : p.registry with
  | some r =>
    rw [List.append_assoc, List.cons_append, p.registryAndRepository_of_registry hr]
    simp
  | none =>
    obtain ⟨c, rest, hpath, -⟩ := p.exists_path_eq_cons
    cases rest with
    | nil =>
      rw [p.registryAndRepository_of_single hpath hw]
      simp [hpath]
    | cons d rest =>
      rw [p.registryAndRepository_of_several hr hpath]
      simp [hpath]

theorem repository_ne_nil : p.meaning.repository.toList ≠ [] := by
  have htext : p.pathText ≠ [] := by
    obtain ⟨c, rest, hpath, hne, -⟩ := p.exists_path_eq_cons
    cases rest with
    | nil => rwa [p.pathText_of_singleton hpath]
    | cons d rest =>
      rw [p.pathText_of_cons_cons hpath]
      exact List.append_ne_nil_of_left_ne_nil hne _
  unfold meaning
  split
  · simp
  · rwa [String.toList_ofList]

/-- A reference is empty only as an empty tag. -/
theorem reference_eq_empty_iff :
    p.meaning.reference = "" ↔ p.digest = none ∧ p.tag = some "" := by
  unfold meaning
  cases hd : p.digest with
  | some d =>
    have hne : d ≠ "" := by
      rintro rfl
      have hstart := p.digest_text "" hd
      exact absurd hstart (by decide)
    simpa using hne
  | none =>
    cases ht : p.tag with
    | some t => simp
    | none => simp

/-- How a printed reference is read: beside a digest, the tag stays in the repository. -/
theorem parseImageRef_printed (debug : String → String) :
    parseImageRef debug p.printed =
      if p.meaning.reference = "" then
        .error (.badRequest s!"invalid image ref {debug p.printed}")
      else .ok { p.meaning with
        repository := p.meaning.repository ++
          String.ofList (if p.digest = none then [] else p.tagText) } := by
  have hname : (if p.digest = none then p.nameText else p.nameText ++ p.tagText) =
      p.nameText ++ (if p.digest = none then [] else p.tagText) := by
    split
    · rw [List.append_nil]
    · rfl
  have hslash : '/' ∉ (if p.digest = none then [] else p.tagText) := by
    split
    · exact List.not_mem_nil
    · exact p.slash_not_mem_tagText
  have hreference : p.meaning.reference.toList = [] ↔ p.meaning.reference = "" := by
    rw [← String.toList_inj]
    rfl
  have hne := List.append_ne_nil_of_left_ne_nil p.repository_ne_nil
    (if p.digest = none then [] else p.tagText)
  unfold parseImageRef
  rw [p.nameAndReference_printed, hname]
  simp only [p.registryAndRepository_nameText hslash, hne, false_or]
  change (if p.meaning.reference.toList = [] then _ else _) = _
  simp only [hreference, String.ofList_append, String.ofList_toList]
  rfl

/-- Parsing inverts printing exactly when no tag stands beside a digest, and no tag is empty. -/
theorem parseImageRef_printed_iff (debug : String → String) :
    parseImageRef debug p.printed = .ok p.meaning ↔
      p.tag = none ∨ (p.digest = none ∧ p.tag ≠ some "") := by
  rw [parseImageRef_printed]
  by_cases hempty : p.meaning.reference = ""
  · -- An empty tag is an error.
    obtain ⟨hd, ht⟩ := p.reference_eq_empty_iff.mp hempty
    simp [hempty, hd, ht]
  · rw [if_neg hempty, Except.ok.injEq]
    -- What is appended to the repository is nothing only when there is no tag or no digest.
    have hkept (w : List Char) :
        { p.meaning with repository := p.meaning.repository ++ String.ofList w } = p.meaning ↔
          w = [] := by
      rw [ImageRef.ext_iff]
      simp [← String.toList_inj]
    have htext : p.tagText = [] ↔ p.tag = none := by
      unfold tagText
      cases p.tag <;> simp
    rw [hkept, ite_eq_left_iff, htext]
    rw [p.reference_eq_empty_iff] at hempty
    tauto

/-- `alpine:3.20`, with the digest of no bytes: the tag is in the repository. -/
def tagged : RefParts where
  registry := none
  path := ["alpine"]
  tag := some "3.20"
  digest := some "sha256:e3b0c44298fc1c149afbf4c8996fb92427ae41e4649b934ca495991b7852b855"
  host := by simp
  path_ne_nil := by simp
  component := by decide
  first := by simp
  tag_text := by decide
  digest_text := by decide

/-- A tag beside a digest is taken for a part of the repository. -/
theorem tagged_not_read : let debug : String → String := fun s => s!"\"{s}\""
    parseImageRef debug tagged.printed = .ok { tagged.meaning with
      repository := "library/alpine:3.20" } ∧
    parseImageRef debug tagged.printed ≠ .ok tagged.meaning := by
  intro debug
  have hread : parseImageRef debug tagged.printed = .ok { tagged.meaning with
      repository := "library/alpine:3.20" } := by
    rw [parseImageRef_printed, if_neg (by decide)]
    rfl
  refine ⟨hread, ?_⟩
  rw [hread, Ne, Except.ok.injEq, ImageRef.ext_iff]
  rintro ⟨-, hrepository, -⟩
  exact absurd hrepository (by decide)

end RefParts

end Corpus.Oci
