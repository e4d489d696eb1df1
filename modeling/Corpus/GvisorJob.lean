/-
The job of a scan under gVisor (`sandbox.rs`).

`scan_gvisor` prints a job that names a placeholder, and `run_via_docker_runsc` rewrites it: the
text of the path on the host is replaced by the path in the container, and a job without a path in
the container is built again.  The placeholder is such a path, so no job is ever built again.

* `dockerJob` — the text that is written to the container;
* `NamesSample` — it parses to the rules and the path of the sample there;
* `rewriteJob_plain` — a path of plain characters is replaced in each string on its own;
* `name_eq_of_parse` — what must hold of a path by which the job is rewritten to such a text;
* `names_sample_iff` — a job names the sample when that is called like the placeholder and its
  path is not part of the job, and, for paths of plain characters, only then.
-/
import Corpus.JsonText
import Corpus.ReplaceText

namespace Corpus.Gvisor

open JsonText ReplaceText

/-! ### Jobs -/

/-- `Job` of the scanner. -/
structure Job where
  rules : List (String × String)
  samplePath : String
  deriving DecidableEq

/-- The rest of a job behind some of its rules; each is two strings without their quotes. -/
def rulesText (path : List Char) : Bool → List (List Char × List Char) → List Char
  | first, [] => (if first then ":[],".toList else "]],".toList) ++ '"' ::
      ("sample_path".toList ++ '"' :: (":".toList ++ '"' :: (path ++ '"' :: "\x7d".toList)))
  | first, (ns, source) :: rules =>
    (if first then ":[[".toList else "],[".toList) ++ '"' ::
      (ns ++ '"' :: (",".toList ++ '"' :: (source ++ '"' :: rulesText path false rules)))

/-- A job, of the texts of its strings. -/
def jobWith (rules : List (List Char × List Char)) (path : List Char) : List Char :=
  "\x7b".toList ++ '"' :: ("rules".toList ++ '"' :: rulesText path true rules)

/-- A job as `serde_json` prints it. -/
def Job.text (j : Job) : List Char :=
  jobWith (j.rules.map fun r => (body r.1, body r.2)) (body j.samplePath)

/-- What `serde_json::from_str` reads, of texts that look like a job: what it has printed, and
otherwise no more than what the strings stand for. -/
structure Parser (parse : List Char → Option Job) : Prop where
  printed : ∀ j : Job, parse j.text = some j
  literals : ∀ rules path j, (∀ r ∈ rules, Literal r.1 ∧ Literal r.2) → Literal path →
    parse (jobWith rules path) = some j →
      List.Forall₂ (fun r s => Reads r.1 s.1.toList ∧ Reads r.2 s.2.toList) rules j.rules ∧
        Reads path j.samplePath.toList

/-! ### The scan -/

/-- A sample path with a name that is UTF-8 and a parent: its text, and those of the two. -/
structure SamplePath where
  text : String
  dir : String
  name : String

/-- `sample_dir.join(sample_name)`. -/
def SamplePath.joined (p : SamplePath) : String :=
  if p.dir.isEmpty then p.name
  else if p.dir.toList.getLast? = some '/' then p.dir ++ p.name
  else p.dir ++ "/" ++ p.name

/-- What a scan finds on the host. -/
structure Host where
  scanner : String
  scannerExists : Bool
  runscOnPath : Bool
  dockerOnPath : Bool
  runscBundle : Option String
  dockerRuntimes : Except String String

/-- The job in `run_via_docker_runsc`, for a sample of that path and name. -/
def rewriteJob (parse : List Char → Option Job) (path name : String) (job : List Char) :
    List Char :=
  let container := "/sample/" ++ name
  let rewritten := replaceAll path.toList container.toList job
  -- A job without a path in the container is parsed and printed again.
  if "/sample/".toList <:+: rewritten then rewritten
  else match parse job with
    | some j => (Job.mk j.rules container).text
    | none => "\x7b\"rules\":null,\"sample_path\":".toList ++ quote container ++ "\x7d".toList

/-- `run_via_docker_runsc`, up to what is written to the container. -/
def dockerJob (parse : List Char → Option Job) (host : Host) (path name : String)
    (job : List Char) : Except String (List Char) :=
  match host.dockerRuntimes with
  | .error e => .error s!"docker info: {e}"
  | .ok runtimes =>
    if "runsc".toList <:+: runtimes.toList then .ok (rewriteJob parse path name job)
    else .error (s!"docker has no runsc runtime (runtimes={runtimes.trimAscii}); " ++
      "install gVisor and register runsc (docs/deploy.md)")

/-- `run_via_runsc`. -/
def runscJob (parse : List Char → Option Job) (host : Host) (p : SamplePath) (job : List Char) :
    Except String (List Char) :=
  match host.runscBundle with
  | some bundle => .error (s!"runsc bundle mode configured ({bundle}) but OCI bundle execution " ++
      "is not wired in this build; use docker --runtime=runsc")
  | none =>
    if host.dockerOnPath then dockerJob parse host p.joined p.name job
    else .error ("runsc is on PATH but CORPUS_RUNSC_BUNDLE is unset and docker is " ++
      "unavailable; register runsc as a Docker runtime (docs/deploy.md)")

/-- `scan_gvisor`, up to what is written to the container. -/
def scanGvisor (parse : List Char → Option Job) (host : Host) (rules : List (String × String))
    (p : SamplePath) : Except String (List Char) :=
  if !host.scannerExists then .error s!"corpus-scanner binary not found at {host.scanner}"
  else
    -- The path that `run_via_docker_runsc` is to replace.
    let job := (Job.mk rules "/sample/artifact").text
    if host.runscOnPath then runscJob parse host p job
    else if host.dockerOnPath then dockerJob parse host p.text p.name job
    else .error ("gvisor tier: neither `runsc` nor `docker` found on PATH; " ++
      "install gVisor on a Linux host (docs/deploy.md)")

/-- On every host, the job that is written to the container has the rules and names the sample. -/
def NamesSample (parse : List Char → Option Job) (rules : List (String × String))
    (p : SamplePath) : Prop :=
  ∀ host text, scanGvisor parse host rules p = .ok text →
    parse text = some ⟨rules, "/sample/" ++ p.name⟩

/-- The sample is called like the placeholder, and its path does not occur in the job, or is that
of the placeholder. -/
def LikePlaceholder (rules : List (String × String)) (p : SamplePath) : Prop :=
  p.name = "artifact" ∧ ∀ path ∈ [p.text, p.joined], path = "/sample/artifact" ∨
    ¬ path.toList <:+: (Job.mk rules "/sample/artifact").text

/-! ### A job that is not rewritten -/

theorem infix_rulesText (path : List Char) (rules : List (List Char × List Char)) :
    ∀ first, path <:+: rulesText path first rules := by
  induction rules with
  | nil =>
    intro first
    rw [rulesText]
    refine List.IsInfix.trans ?_ (List.suffix_append _ _).isInfix
    refine ⟨"\"sample_path\":\"".toList, "\"\x7d".toList, ?_⟩
    simp
  | cons r rules ih =>
    intro first
    rw [rulesText]
    refine (ih false).trans (List.IsSuffix.isInfix ?_)
    refine .trans ?_ (List.suffix_append _ _)
    refine .trans ?_ (List.suffix_cons _ _)
    refine .trans ?_ (List.suffix_append _ _)
    refine .trans ?_ (List.suffix_cons _ _)
    refine .trans ?_ (List.suffix_append _ _)
    refine .trans ?_ (List.suffix_cons _ _)
    refine .trans ?_ (List.suffix_append _ _)
    exact List.suffix_cons _ _

theorem infix_jobWith (path : List Char) (rules : List (List Char × List Char)) :
    path <:+: jobWith rules path := by
  refine (infix_rulesText path rules true).trans (List.IsSuffix.isInfix ?_)
  refine .trans ?_ (List.suffix_append _ _)
  refine .trans ?_ (List.suffix_cons _ _)
  refine .trans ?_ (List.suffix_append _ _)
  exact List.suffix_cons _ _

theorem body_placeholder : body "/sample/artifact" = "/sample/artifact".toList := by decide

theorem placeholder_contains : "/sample/".toList <:+: "/sample/artifact".toList := by decide

theorem job_contains (rules : List (String × String)) :
    "/sample/".toList <:+: (Job.mk rules "/sample/artifact").text := by
  refine placeholder_contains.trans ?_
  show _ <:+: jobWith _ (body "/sample/artifact")
  rw [body_placeholder]
  exact infix_jobWith _ _

theorem rewriteJob_eq {parse : List Char → Option Job} {path name : String}
    {rules : List (String × String)}
    (h : (path = "/sample/artifact" ∧ name = "artifact") ∨
      ¬ path.toList <:+: (Job.mk rules "/sample/artifact").text) :
    rewriteJob parse path name (Job.mk rules "/sample/artifact").text =
      (Job.mk rules "/sample/artifact").text := by
  have hsame : replaceAll path.toList ("/sample/" ++ name).toList
      (Job.mk rules "/sample/artifact").text = (Job.mk rules "/sample/artifact").text := by
    -- A path that is replaced by itself, or that does not occur.
    obtain ⟨rfl, rfl⟩ | habsent := h
    · exact replaceAll_self (by decide) _
    · exact replaceAll_of_absent habsent
  unfold rewriteJob
  dsimp only
  rw [hsame]
  exact if_pos (job_contains rules)

/-- Where a job comes from that is written to the container. -/
theorem scanGvisor_ok {parse : List Char → Option Job} {host : Host}
    {rules : List (String × String)} {p : SamplePath} {text : List Char}
    (h : scanGvisor parse host rules p = .ok text) : ∃ path ∈ [p.text, p.joined],
      text = rewriteJob parse path p.name (Job.mk rules "/sample/artifact").text := by
  have hdocker {path : String}
      (h : dockerJob parse host path p.name (Job.mk rules "/sample/artifact").text = .ok text) :
      text = rewriteJob parse path p.name (Job.mk rules "/sample/artifact").text := by
    unfold dockerJob at h
    split at h
    · exact absurd h (by simp)
    · split at h
      · exact (Except.ok.inj h).symm
      · exact absurd h (by simp)
  -- All branches without docker are errors.
  unfold scanGvisor runscJob at h
  split at h
  · exact absurd h (by simp)
  · dsimp only at h
    split at h
    · split at h
      · exact absurd h (by simp)
      · split at h
        · exact ⟨p.joined, by simp, hdocker h⟩
        · exact absurd h (by simp)
    · split at h
      · exact ⟨p.text, by simp, hdocker h⟩
      · exact absurd h (by simp)

theorem namesSample_of_likePlaceholder {parse : List Char → Option Job} (hparse : Parser parse)
    {rules : List (String × String)} {p : SamplePath} (h : LikePlaceholder rules p) :
    NamesSample parse rules p := by
  intro host text hok
  obtain ⟨hname, hpaths⟩ := h
  obtain ⟨path, hpath, rfl⟩ := scanGvisor_ok hok
  rw [rewriteJob_eq ((hpaths path hpath).imp_left fun heq => ⟨heq, hname⟩), hname]
  exact hparse.printed _

/-! ### A path of plain characters -/

/-- A character that is printed as it is. -/
def Plain (c : Char) : Prop := c ≠ '\\' ∧ c ≠ '"' ∧ 32 ≤ c.toNat

/-- The path of that name in a directory; `Path` drops what stands behind it. -/
def Below (path name : String) : Prop :=
  ∃ e t, path.toList = e ++ '/' :: (name.toList ++ t) ∧ ∀ c ∈ t, c = '/' ∨ c = '.'

/-- A sample in a directory, with paths of plain characters. -/
structure SamplePath.IsPlain (p : SamplePath) : Prop where
  name : '/' ∉ p.name.toList
  below : ∀ path ∈ [p.text, p.joined], Below path p.name
  plain : ∀ path ∈ [p.text, p.joined], ∀ c ∈ path.toList, Plain c

section Plain

variable {part put x s : List Char}

theorem reads_plain_append (a : List Char) (ha : ∀ c ∈ a, Plain c) : ∀ {s : List Char},
    Reads (a ++ x) s → ∃ s', s = a ++ s' ∧ Reads x s' := by
  induction a with
  | nil => exact fun {s} h => ⟨s, rfl, h⟩
  | cons c a ih =>
    intro s h
    obtain ⟨hback, hquote, hctrl⟩ := ha c List.mem_cons_self
    obtain ⟨s', rfl, hrest⟩ := h.plain hback hquote hctrl
    obtain ⟨s'', rfl, hx⟩ := ih (fun d hd => ha d (List.mem_cons_of_mem c hd)) hrest
    exact ⟨s'', rfl, hx⟩

theorem reads_escape_append (a : List Char) : ∀ {s : List Char},
    Reads (a.flatMap escape ++ x) s → ∃ s', s = a ++ s' ∧ Reads x s' := by
  induction a with
  | nil => exact fun {s} h => ⟨s, rfl, h⟩
  | cons c a ih =>
    intro s h
    rw [List.flatMap_cons, List.append_assoc] at h
    obtain ⟨s', rfl, hrest⟩ := h.escape
    obtain ⟨s'', rfl, hx⟩ := ih hrest
    exact ⟨s'', rfl, hx⟩

theorem flatMap_escape_plain (a : List Char) (ha : ∀ c ∈ a, Plain c) : a.flatMap escape = a := by
  induction a with
  | nil => rfl
  | cons c a ih =>
    obtain ⟨hback, hquote, hctrl⟩ := ha c List.mem_cons_self
    rw [List.flatMap_cons, escape_plain hback hquote hctrl,
      ih fun d hd => ha d (List.mem_cons_of_mem c hd)]
    rfl

/-- A printed string that is cut in two is cut between two characters, or inside the escape of
one. -/
theorem flatMap_escape_cut (s : List Char) : ∀ {a b : List Char}, s.flatMap escape = a ++ b →
    (∃ s₁ s₂, s = s₁ ++ s₂ ∧ a = s₁.flatMap escape ∧ b = s₂.flatMap escape) ∨
    ∃ s₁ c s₂ e f, s = s₁ ++ c :: s₂ ∧ escape c = e ++ f ∧ e ≠ [] ∧ f ≠ [] ∧
      a = s₁.flatMap escape ++ e ∧ b = f ++ s₂.flatMap escape := by
  induction s with
  | nil =>
    intro a b h
    obtain ⟨rfl, rfl⟩ := List.append_eq_nil_iff.mp h.symm
    exact .inl ⟨[], [], rfl, rfl, rfl⟩
  | cons c s ih =>
    intro a b h
    rw [List.flatMap_cons] at h
    obtain ⟨a', rfl, hrest⟩ | ⟨e, he, rfl⟩ := List.append_eq_append_iff.mp h
    · -- The cut is behind this character.
      obtain ⟨s₁, s₂, rfl, rfl, rfl⟩ | ⟨s₁, d, s₂, e, f, rfl, hd, he, hf, rfl, rfl⟩ := ih hrest
      · exact .inl ⟨c :: s₁, s₂, rfl, by rw [List.flatMap_cons], rfl⟩
      · refine .inr ⟨c :: s₁, d, s₂, e, f, rfl, hd, he, hf, ?_, rfl⟩
        rw [List.flatMap_cons, List.append_assoc]
    · by_cases ha : a = []
      · subst ha
        exact .inl ⟨[], c :: s, rfl, rfl, by rw [List.flatMap_cons, he]; rfl⟩
      · by_cases hb : e = []
        · subst hb
          rw [List.append_nil] at he
          exact .inl ⟨[c], s, rfl, by rw [← he]; simp, rfl⟩
        · exact .inr ⟨[], c, s, a, e, rfl, he, ha, hb, rfl, rfl⟩

theorem literal_plain_append (a : List Char) (ha : ∀ c ∈ a, Plain c) :
    Literal (a ++ x) ↔ Literal x := by
  induction a with
  | nil => exact Iff.rfl
  | cons c a ih =>
    obtain ⟨hback, hquote, -⟩ := ha c List.mem_cons_self
    rw [← ih fun d hd => ha d (List.mem_cons_of_mem c hd), List.cons_append]
    constructor
    · intro h
      generalize a ++ x = y at h
      cases h with
      | char _ _ _ h => exact h
      | escape _ _ => exact absurd rfl hback
    · exact .char c hback hquote

/-- A literal in which a part of plain characters is replaced by such is one. -/
theorem literal_replaceAll (hpart : part ≠ []) (hput : put ≠ []) (hplain : ∀ c ∈ part, Plain c)
    (hplain' : ∀ c ∈ put, Plain c) (hx : Literal x) : Literal (replaceAll part put x) := by
  -- By the length: what stands behind a part that is replaced is shorter, and so is what stands
  -- behind an escape.
  induction hlength : x.length using Nat.strong_induction_on generalizing x with
  | h n ih =>
    have hpos := List.length_pos_of_ne_nil hpart
    have hshorter {w : List Char} (hw : x = part ++ w) (hlit : Literal w) :
        Literal (replaceAll part put w) := by
      have hlen := congrArg List.length hw
      rw [List.length_append] at hlen
      exact ih w.length (by omega) hlit rfl
    cases hx with
    | nil => exact .nil
    | @char c y hback hquote hy =>
      by_cases hp : part <+: c :: y
      · obtain ⟨w, hw⟩ := hp
        have hlit := (literal_plain_append part hplain).mp (hw ▸ Literal.char c hback hquote hy)
        rw [← hw, replaceAll_append hpart]
        exact (literal_plain_append put hplain').mpr (hshorter hw.symm hlit)
      · rw [replaceAll_cons_of_not hp]
        have hlen : y.length < n := by
          rw [← hlength]
          exact Nat.lt_succ_self _
        exact .char c hback hquote (ih y.length hlen hy rfl)
    | @escape c y hy =>
      -- No plain character is a backslash.
      have hnot : ¬ part <+: '\\' :: c :: y := by
        intro hp
        obtain ⟨d, part', rfl⟩ := List.exists_cons_of_ne_nil hpart
        exact (hplain d List.mem_cons_self).1 (List.cons_prefix_cons.mp hp).1
      rw [replaceAll_cons_of_not hnot]
      by_cases hp : part <+: c :: y
      · -- The backslash escapes the first character of what is put there.
        obtain ⟨w, hw⟩ := hp
        obtain ⟨d, part', rfl⟩ := List.exists_cons_of_ne_nil hpart
        obtain ⟨e, put', rfl⟩ := List.exists_cons_of_ne_nil hput
        obtain ⟨rfl, rfl⟩ := List.cons.inj hw
        have hlit := (literal_plain_append part' fun c hc =>
          hplain c (List.mem_cons_of_mem d hc)).mp hy
        have hlen : w.length < n := by
          have hsuffix : w.length ≤ (part'.append w).length :=
            (List.suffix_append part' w).length_le
          rw [← hlength]
          simp only [List.length_cons]
          omega
        rw [← hw, replaceAll_append hpart]
        exact .escape e ((literal_plain_append put' fun c hc =>
          hplain' c (List.mem_cons_of_mem e hc)).mpr (ih w.length hlen hlit rfl))
      · rw [replaceAll_cons_of_not hp]
        have hlen : y.length < n := by
          rw [← hlength]
          exact Nat.lt_of_lt_of_le (Nat.lt_succ_self _) (Nat.le_succ _)
        exact .escape c (ih y.length hlen hy rfl)

/-! A part with a slash and without quotes is replaced in each string on its own. -/

theorem replaceAll_rulesText (hslash : '/' ∈ part) (hquote : '"' ∉ part) (path : List Char)
    (rules : List (List Char × List Char)) : ∀ first : Bool,
    replaceAll part put (rulesText path first rules) =
      rulesText (replaceAll part put path) first
        (rules.map fun r => (replaceAll part put r.1, replaceAll part put r.2)) := by
  have hpart := List.ne_nil_of_mem hslash
  -- Between the strings there is no slash, hence nothing to replace.
  have hseg {a : List Char} (ha : '/' ∉ a) : replaceAll part put a = a :=
    replaceAll_of_absent fun hi => ha (hi.subset hslash)
  induction rules with
  | nil =>
    intro first
    have hfirst : '/' ∉ (if first then ":[],".toList else "]],".toList) := by
      cases first <;> decide
    have hname : '/' ∉ "sample_path".toList := by decide
    have hcolon : '/' ∉ ":".toList := by decide
    have hend : '/' ∉ "\x7d".toList := by decide
    rw [rulesText, replaceAll_append_cons hpart hquote, replaceAll_append_cons hpart hquote,
      replaceAll_append_cons hpart hquote, replaceAll_append_cons hpart hquote, hseg hfirst,
      hseg hname, hseg hcolon, hseg hend]
    rfl
  | cons r rules ih =>
    intro first
    have hfirst : '/' ∉ (if first then ":[[".toList else "],[".toList) := by
      cases first <;> decide
    have hcomma : '/' ∉ ",".toList := by decide
    rw [rulesText, replaceAll_append_cons hpart hquote, replaceAll_append_cons hpart hquote,
      replaceAll_append_cons hpart hquote, replaceAll_append_cons hpart hquote, hseg hfirst,
      hseg hcomma, ih false]
    rfl

theorem replaceAll_jobWith (hslash : '/' ∈ part) (hquote : '"' ∉ part) (path : List Char)
    (rules : List (List Char × List Char)) :
    replaceAll part put (jobWith rules path) = jobWith
      (rules.map fun r => (replaceAll part put r.1, replaceAll part put r.2))
      (replaceAll part put path) := by
  have hpart := List.ne_nil_of_mem hslash
  have hseg {a : List Char} (ha : '/' ∉ a) : replaceAll part put a = a :=
    replaceAll_of_absent fun hi => ha (hi.subset hslash)
  rw [jobWith, replaceAll_append_cons hpart hquote, replaceAll_append_cons hpart hquote,
    hseg (by decide), hseg (by decide), replaceAll_rulesText hslash hquote]
  rfl

theorem infix_of_rulesText (hslash : '/' ∈ part) (hquote : '"' ∉ part) {path : List Char}
    {rules : List (List Char × List Char)} : ∀ {first : Bool},
    part <:+: rulesText path first rules →
      (∃ r ∈ rules, part <:+: r.1 ∨ part <:+: r.2) ∨ part <:+: path := by
  have hpart := List.ne_nil_of_mem hslash
  induction rules with
  | nil =>
    intro first h
    have hfirst : '/' ∉ (if first then ":[],".toList else "]],".toList) := by
      cases first <;> decide
    obtain h | h := infix_append_cons hpart hquote h
    · exact absurd (h.subset hslash) hfirst
    obtain h | h := infix_append_cons hpart hquote h
    · exact absurd (h.subset hslash) (by decide)
    obtain h | h := infix_append_cons hpart hquote h
    · exact absurd (h.subset hslash) (by decide)
    obtain h | h := infix_append_cons hpart hquote h
    · exact .inr h
    · exact absurd (h.subset hslash) (by decide)
  | cons r rules ih =>
    intro first h
    have hfirst : '/' ∉ (if first then ":[[".toList else "],[".toList) := by
      cases first <;> decide
    obtain h | h := infix_append_cons hpart hquote h
    · exact absurd (h.subset hslash) hfirst
    obtain h | h := infix_append_cons hpart hquote h
    · exact .inl ⟨r, List.mem_cons_self, .inl h⟩
    obtain h | h := infix_append_cons hpart hquote h
    · exact absurd (h.subset hslash) (by decide)
    obtain h | h := infix_append_cons hpart hquote h
    · exact .inl ⟨r, List.mem_cons_self, .inr h⟩
    obtain ⟨r', hr', h⟩ | h := ih h
    · exact .inl ⟨r', List.mem_cons_of_mem r hr', h⟩
    · exact .inr h

theorem infix_of_jobWith (hslash : '/' ∈ part) (hquote : '"' ∉ part) {path : List Char}
    {rules : List (List Char × List Char)} (h : part <:+: jobWith rules path) :
    (∃ r ∈ rules, part <:+: r.1 ∨ part <:+: r.2) ∨ part <:+: path := by
  have hpart := List.ne_nil_of_mem hslash
  obtain h | h := infix_append_cons hpart hquote h
  · exact absurd (h.subset hslash) (by decide)
  obtain h | h := infix_append_cons hpart hquote h
  · exact absurd (h.subset hslash) (by decide)
  exact infix_of_rulesText hslash hquote h

/-! ### A job that is rewritten -/

theorem placeholder_eq :
    "/sample/artifact".toList = "/sample".toList ++ '/' :: "artifact".toList := by
  decide

theorem plain_placeholder : ∀ c ∈ "/sample/artifact".toList, Plain c := by
  rw [show "/sample/artifact".toList = ['/', 's', 'a', 'm', 'p', 'l', 'e', '/', 'a', 'r', 't', 'i',
    'f', 'a', 'c', 't'] from rfl]
  simp [Plain]

/-- What is read is the same, and shorter by what has been replaced by a longer text. -/
theorem eq_of_reads {w : List Char} (hname : "artifact".toList <:+: part) (hpart : part ≠ [])
    (hw : part ++ w = "/sample/artifact".toList ++ s.flatMap escape)
    (hs : Reads (replaceAll part "/sample/artifact".toList w) s) :
    part = "/sample/artifact".toList := by
  have hlength := congrArg List.length hw
  rw [List.length_append, List.length_append] at hlength
  by_cases hle : "/sample/artifact".toList.length ≤ part.length
  · have hread := hs.length_le
    have hreplace := length_replaceAll_le hle hpart w
    exact (List.append_inj hw (by omega)).1
  · -- Otherwise the part is a beginning of the placeholder, without its last character.
    have hlast : "/sample/artifact".toList = "/sample/artifac".toList ++ ['t'] := by decide
    have hnot : ¬ "artifact".toList <:+: "/sample/artifac".toList := by decide
    have hprefix : part <+: "/sample/artifac".toList := by
      have hlen := congrArg List.length hlast
      rw [List.length_append, List.length_singleton] at hlen
      have hbegin : "/sample/artifac".toList <+: part ++ w := by
        rw [hw, hlast, List.append_assoc]
        exact List.prefix_append _ _
      exact List.prefix_of_prefix_length_le (List.prefix_append part w) hbegin (by omega)
    exact absurd (hname.trans hprefix.isInfix) hnot

/-- A string is not read from what is printed of it with a part replaced. -/
theorem absent_of_reads (hname : "artifact".toList <:+: part) (hpart : part ≠ [])
    (hs : Reads (replaceAll part "/sample/artifact".toList (s.flatMap escape)) s) :
    part = "/sample/artifact".toList ∨ ¬ part <:+: s.flatMap escape := by
  by_cases hpresent : part <:+: s.flatMap escape
  · left
    -- At its first occurrence, the part starts at a character of the string or inside an escape.
    obtain ⟨u, w, hx, hrest⟩ := replaceAll_of_present "/sample/artifact".toList hpart hpresent
    rw [hrest] at hs
    obtain ⟨s₁, s₂, rfl, rfl, htail⟩ | ⟨s₁, c, s₂, a, b, rfl, hc, ha, hb, rfl, -⟩ :=
      flatMap_escape_cut s hx
    · obtain ⟨t, ht, hread⟩ := reads_escape_append s₁ hs
      rw [← List.append_cancel_left ht] at hread
      obtain ⟨s₃, rfl, hread'⟩ := reads_plain_append _ plain_placeholder hread
      rw [List.flatMap_append, flatMap_escape_plain _ plain_placeholder] at htail
      exact eq_of_reads hname hpart htail hread'
    · -- The slash that is put there stands inside an escape.
      rw [List.append_assoc] at hs
      obtain ⟨t, ht, hread⟩ := reads_escape_append s₁ hs
      rw [← List.append_cancel_left ht, placeholder_eq] at hread
      generalize hy : a ++ _ = y at hread
      cases hread with
      | char hread _ =>
        rw [← hy] at hread
        exact absurd hread (readChar_cut hc ha hb)
  · exact .inr hpresent

/-- What is put there is all that is read, so it has been put in place of everything. -/
theorem eq_placeholder_of_reads (hpart : part ≠ []) (hput : put ≠ [])
    (hplain : ∀ c ∈ put, Plain c) (hs : Reads (replaceAll part put "/sample/artifact".toList) put)
    (h : part <:+: "/sample/artifact".toList) : part = "/sample/artifact".toList := by
  obtain ⟨u, w, hx, hrest⟩ := replaceAll_of_present put hpart h
  have hu : ∀ c ∈ u, Plain c := fun c hc =>
    plain_placeholder c (hx ▸ List.mem_append_left _ hc)
  rw [hrest] at hs
  obtain ⟨s, hs', hread⟩ := reads_plain_append u hu hs
  obtain ⟨t, rfl, hread'⟩ := reads_plain_append _ hplain hread
  -- Nothing else can be read, by the lengths.
  have hlength := congrArg List.length hs'
  simp only [List.length_append] at hlength
  obtain rfl : u = [] := List.eq_nil_of_length_eq_zero (by omega)
  obtain rfl : t = [] := List.eq_nil_of_length_eq_zero (by omega)
  rw [eq_nil_of_replaceAll hput hread'.to_nil, List.append_nil, List.nil_append] at hx
  exact hx.symm

theorem eq_of_last_slash {a b x y : List Char} (hx : '/' ∉ x) (hy : '/' ∉ y)
    (h : a ++ '/' :: x = b ++ '/' :: y) : x = y := by
  obtain ⟨c, -, h⟩ | ⟨c, -, h⟩ := List.append_eq_append_iff.mp h
  · cases c with
    | nil => exact (List.cons.inj h).2
    | cons d c =>
      rw [(List.cons.inj h).2] at hx
      exact absurd (by simp) hx
  · cases c with
    | nil => exact (List.cons.inj h).2.symm
    | cons d c =>
      rw [(List.cons.inj h).2] at hy
      exact absurd (by simp) hy

end Plain

section Rewritten

variable {parse : List Char → Option Job} {rules : List (String × String)} {path name : String}

theorem Below.slash (h : Below path name) : '/' ∈ path.toList := by
  obtain ⟨e, t, he, -⟩ := h
  rw [he]
  exact List.mem_append_right _ List.mem_cons_self

theorem Below.contains (h : Below path name) : name.toList <:+: path.toList := by
  obtain ⟨e, t, he, -⟩ := h
  exact ⟨e ++ ['/'], t, by rw [he]; simp⟩

/-- The placeholder is called so. -/
theorem Below.of_placeholder (hname : '/' ∉ name.toList) (h : Below "/sample/artifact" name) :
    name = "artifact" := by
  have hartifact : '/' ∉ "artifact".toList := by decide
  -- The path ends in the name, but for slashes and dots behind it.
  obtain ⟨e, t, he, ht⟩ := h
  obtain rfl | ⟨t, c, rfl⟩ := List.eq_nil_or_concat t
  · rw [List.append_nil, placeholder_eq] at he
    exact String.ext (eq_of_last_slash hartifact hname he).symm
  · -- Nothing is behind the name, for the last character is neither a slash nor a dot.
    have hlast : "/sample/artifact".toList = "/sample/artifac".toList ++ ['t'] := by decide
    rw [hlast, List.concat_eq_append, ← List.append_assoc, ← List.cons_append,
      ← List.append_assoc] at he
    have hc : 't' = c := (List.cons.inj (List.append_inj' he rfl).2).1
    obtain h | h := ht c (by simp)
    · exact absurd (hc.trans h) (by decide)
    · exact absurd (hc.trans h) (by decide)

theorem container_ne_nil (name : String) : ("/sample/" ++ name).toList ≠ [] := by
  have hne : "/sample/".toList ≠ [] := by decide
  rw [String.toList_append]
  exact List.append_ne_nil_of_left_ne_nil hne _

theorem plain_container (hname : ∀ c ∈ name.toList, Plain c) :
    ∀ c ∈ ("/sample/" ++ name).toList, Plain c := by
  intro c hc
  rw [String.toList_append] at hc
  obtain hc | hc := List.mem_append.mp hc
  · exact plain_placeholder c (placeholder_contains.subset hc)
  · exact hname c hc

/-- The path of the placeholder is replaced by that of the sample. -/
theorem name_eq_of_reads (hbelow : Below path name) (hname : '/' ∉ name.toList)
    (hplain : ∀ c ∈ name.toList, Plain c)
    (hs : Reads (replaceAll path.toList ("/sample/" ++ name).toList "/sample/artifact".toList)
      ("/sample/" ++ name).toList) :
    name = "artifact" ∧ (path = "/sample/artifact" ∨
      ¬ path.toList <:+: "/sample/artifact".toList) := by
  -- Either the path is part of the placeholder, or that is left as it is.
  by_cases hpresent : path.toList <:+: "/sample/artifact".toList
  · obtain rfl := String.ext (eq_placeholder_of_reads (List.ne_nil_of_mem hbelow.slash)
      (container_ne_nil name) (plain_container hplain) hs hpresent)
    exact ⟨hbelow.of_placeholder hname, .inl rfl⟩
  · rw [replaceAll_of_absent hpresent, ← List.append_nil "/sample/artifact".toList] at hs
    obtain ⟨t, ht, hread⟩ := reads_plain_append _ plain_placeholder hs
    have hartifact : "/sample/artifact".toList = "/sample/".toList ++ "artifact".toList := by
      decide
    rw [hread.of_nil, List.append_nil, hartifact, String.toList_append] at ht
    exact ⟨String.ext (List.append_cancel_left ht), .inr hpresent⟩

theorem text_eq (rules : List (String × String)) : (Job.mk rules "/sample/artifact").text =
    jobWith (rules.map fun r => (body r.1, body r.2)) "/sample/artifact".toList := by
  show jobWith _ (body "/sample/artifact") = _
  rw [body_placeholder]

/-- The job is rewritten as it is printed, string by string. -/
theorem rewriteJob_plain (hslash : '/' ∈ path.toList) (hquote : '"' ∉ path.toList) :
    rewriteJob parse path name (Job.mk rules "/sample/artifact").text =
      jobWith (rules.map fun r => (replaceAll path.toList ("/sample/" ++ name).toList (body r.1),
          replaceAll path.toList ("/sample/" ++ name).toList (body r.2)))
        (replaceAll path.toList ("/sample/" ++ name).toList "/sample/artifact".toList) := by
  -- The job is not built again: it has a path in the container, put there or printed.
  have hcontains : "/sample/".toList <:+: replaceAll path.toList
      ("/sample/" ++ name).toList (Job.mk rules "/sample/artifact").text := by
    by_cases hpresent : path.toList <:+: (Job.mk rules "/sample/artifact").text
    · obtain ⟨u, w, -, hrest⟩ := replaceAll_of_present ("/sample/" ++ name).toList
        (List.ne_nil_of_mem hslash) hpresent
      rw [hrest, String.toList_append, List.append_assoc]
      exact ⟨u, _, List.append_assoc _ _ _⟩
    · rw [replaceAll_of_absent hpresent]
      exact job_contains rules
  unfold rewriteJob
  dsimp only
  rw [if_pos hcontains, text_eq, replaceAll_jobWith hslash hquote, List.map_map]
  rfl

/-- A path by which the job is rewritten to one that names the sample. -/
theorem name_eq_of_parse (hparse : Parser parse) (hname : '/' ∉ name.toList)
    (hbelow : Below path name) (hplain : ∀ c ∈ path.toList, Plain c)
    (h : parse (rewriteJob parse path name (Job.mk rules "/sample/artifact").text) =
      some ⟨rules, "/sample/" ++ name⟩) :
    name = "artifact" ∧ (path = "/sample/artifact" ∨
      ¬ path.toList <:+: (Job.mk rules "/sample/artifact").text) := by
  have hne := List.ne_nil_of_mem hbelow.slash
  have hquote : '"' ∉ path.toList := fun h => (hplain _ h).2.1 rfl
  have hplain' : ∀ c ∈ name.toList, Plain c := fun c hc =>
    hplain c (hbelow.contains.subset hc)
  have hliteral {x : List Char} (hx : Literal x) :
      Literal (replaceAll path.toList ("/sample/" ++ name).toList x) :=
    literal_replaceAll hne (container_ne_nil name) hplain (plain_container hplain') hx
  -- What is parsed is read string by string, the path of the sample among them.
  rw [rewriteJob_plain hbelow.slash hquote] at h
  obtain ⟨hrules, hread⟩ := hparse.literals _ _ _ (fun r hr => by
      obtain ⟨s, -, rfl⟩ := List.mem_map.mp hr
      exact ⟨hliteral (literal_body s.1), hliteral (literal_body s.2)⟩)
    (hliteral (body_placeholder ▸ literal_body "/sample/artifact")) h
  obtain ⟨rfl, hpath⟩ := name_eq_of_reads hbelow hname hplain' hread
  rw [List.forall₂_map_left_iff, List.forall₂_same] at hrules
  have habsent {s : String} (hs : Reads (replaceAll path.toList
      ("/sample/" ++ "artifact").toList (body s)) s.toList) :
      path = "/sample/artifact" ∨ ¬ path.toList <:+: body s :=
    (absent_of_reads hbelow.contains hne hs).imp_left String.ext
  refine ⟨rfl, ?_⟩
  -- A string of a rule that holds the path is not read back, and the path is not in the
  -- placeholder either.
  by_cases heq : path = "/sample/artifact"
  · exact .inl heq
  · right
    rw [text_eq]
    intro hin
    obtain ⟨r, hr, hin⟩ | hin := infix_of_jobWith hbelow.slash hquote hin
    · obtain ⟨s, hs, rfl⟩ := List.mem_map.mp hr
      obtain ⟨hfst, hsnd⟩ := hrules s hs
      obtain hin | hin := hin
      · exact (habsent hfst).elim heq fun hnot => hnot hin
      · exact (habsent hsnd).elim heq fun hnot => hnot hin
    · exact hpath.elim heq fun hnot => hnot hin

end Rewritten

/-! ### Hosts -/

/-- A host on which docker runs the scanner under gVisor; `runsc` may be on its path too. -/
def dockerHost (runscOnPath : Bool) : Host where
  scanner := "/usr/local/bin/corpus-scanner"
  scannerExists := true
  runscOnPath := runscOnPath
  dockerOnPath := true
  runscBundle := none
  dockerRuntimes := .ok "runsc"

theorem scanGvisor_dockerHost (parse : List Char → Option Job) (rules : List (String × String))
    (p : SamplePath) (runscOnPath : Bool) : scanGvisor parse (dockerHost runscOnPath) rules p =
      .ok (rewriteJob parse (if runscOnPath then p.joined else p.text) p.name
        (Job.mk rules "/sample/artifact").text) := by
  have hrunsc : "runsc".toList <:+: "runsc".toList := List.infix_rfl
  cases runscOnPath with
  | true =>
    show dockerJob parse (dockerHost true) p.joined p.name _ = _
    unfold dockerJob
    exact if_pos hrunsc
  | false =>
    show dockerJob parse (dockerHost false) p.text p.name _ = _
    unfold dockerJob
    exact if_pos hrunsc

theorem likePlaceholder_of_namesSample {parse : List Char → Option Job} (hparse : Parser parse)
    {rules : List (String × String)} {p : SamplePath} (hp : p.IsPlain)
    (h : NamesSample parse rules p) : LikePlaceholder rules p := by
  have htext : p.text ∈ [p.text, p.joined] := by simp
  have hjoined : p.joined ∈ [p.text, p.joined] := by simp
  have hparse' (path : String) (hpath : path ∈ [p.text, p.joined])
      (hrewritten : parse (rewriteJob parse path p.name (Job.mk rules "/sample/artifact").text) =
        some ⟨rules, "/sample/" ++ p.name⟩) := name_eq_of_parse hparse hp.name
    (hp.below path hpath) (hp.plain path hpath) hrewritten
  -- Which of the two paths is replaced depends on the host, so both are tried.
  obtain ⟨hname, hnot⟩ := hparse' p.text htext (h _ _ (scanGvisor_dockerHost parse rules p false))
  obtain ⟨-, hnot'⟩ := hparse' p.joined hjoined (h _ _ (scanGvisor_dockerHost parse rules p true))
  refine ⟨hname, fun path hmem => ?_⟩
  obtain rfl | rfl : path = p.text ∨ path = p.joined := by simpa using hmem
  · exact hnot
  · exact hnot'

/-! ### A parser of printed jobs -/

theorem rulesText_inj {path path' : List Char} (hpath : Literal path) (hpath' : Literal path')
    {rules : List (List Char × List Char)} : ∀ {rules' : List (List Char × List Char)}
    {first : Bool}, (∀ r ∈ rules, Literal r.1 ∧ Literal r.2) →
    (∀ r ∈ rules', Literal r.1 ∧ Literal r.2) →
    rulesText path first rules = rulesText path' first rules' → rules = rules' ∧ path = path' := by
  induction rules with
  | nil =>
    intro rules' first _ _ h
    cases rules' with
    | nil =>
      rw [rulesText, rulesText, List.append_cancel_left_eq] at h
      simp only [List.cons.injEq, true_and, List.append_cancel_left_eq] at h
      exact ⟨rfl, (hpath.append_inj hpath' h).1⟩
    | cons r rules' => cases first <;> simp [rulesText] at h
  | cons r rules ih =>
    intro rules' first hr hr' h
    cases rules' with
    | nil => cases first <;> simp [rulesText] at h
    | cons r' rules' =>
      rw [rulesText, rulesText, List.append_cancel_left_eq] at h
      obtain ⟨hns, h⟩ := (hr r List.mem_cons_self).1.append_inj
        (hr' r' List.mem_cons_self).1 (List.cons.inj h).2
      rw [List.append_cancel_left_eq] at h
      obtain ⟨hsource, h⟩ := (hr r List.mem_cons_self).2.append_inj
        (hr' r' List.mem_cons_self).2 (List.cons.inj h).2
      obtain ⟨rfl, rfl⟩ := ih (fun s hs => hr s (List.mem_cons_of_mem r hs))
        (fun s hs => hr' s (List.mem_cons_of_mem r' hs)) h
      exact ⟨by rw [Prod.ext hns hsource], rfl⟩

theorem text_eq_jobWith {j : Job} {rules : List (List Char × List Char)} {path : List Char}
    (hrules : ∀ r ∈ rules, Literal r.1 ∧ Literal r.2) (hpath : Literal path)
    (h : j.text = jobWith rules path) :
    rules = j.rules.map (fun r => (body r.1, body r.2)) ∧ path = body j.samplePath := by
  unfold Job.text jobWith at h
  simp only [List.append_cancel_left_eq, List.cons.injEq, true_and] at h
  refine (rulesText_inj hpath (literal_body _) hrules (fun r hr => ?_) h.symm)
  obtain ⟨s, -, rfl⟩ := List.mem_map.mp hr
  exact ⟨literal_body s.1, literal_body s.2⟩

theorem body_injective : Function.Injective body := fun a b h =>
  quote_append_inj (x := []) (y := []) (by rw [quote, quote, h])

theorem text_injective : Function.Injective Job.text := by
  intro j k h
  obtain ⟨hrules, hpath⟩ := text_eq_jobWith (fun r hr => by
      obtain ⟨s, -, rfl⟩ := List.mem_map.mp hr
      exact ⟨literal_body s.1, literal_body s.2⟩) (literal_body _) h
  have hbodies : Function.Injective fun r : String × String => (body r.1, body r.2) := by
    intro r s hrs
    obtain ⟨h₁, h₂⟩ := Prod.mk.inj hrs
    exact Prod.ext (body_injective h₁) (body_injective h₂)
  obtain ⟨rules, path⟩ := j
  obtain rfl : k.rules = rules := List.map_injective_iff.mpr hbodies hrules
  obtain rfl : k.samplePath = path := body_injective hpath
  rfl

open Classical in
/-- What has been printed is read, and nothing else. -/
noncomputable def readPrinted (text : List Char) : Option Job :=
  if h : ∃ j : Job, j.text = text then some h.choose else none

theorem isParser_readPrinted : Parser readPrinted where
  printed j := by
    have hex : ∃ k : Job, k.text = j.text := ⟨j, rfl⟩
    rw [readPrinted, dif_pos hex, text_injective hex.choose_spec]
  literals rules path j hrules hpath h := by
    unfold readPrinted at h
    split_ifs at h with hex
    have hspec := hex.choose_spec
    rw [Option.some.inj h] at hspec
    -- A text that is printed is printed of one job only.
    obtain ⟨rfl, rfl⟩ := text_eq_jobWith hrules hpath hspec
    rw [List.forall₂_map_left_iff, List.forall₂_same]
    exact ⟨fun r _ => ⟨reads_body r.1, reads_body r.2⟩, reads_body _⟩

/-! ### The job that is written -/

/-- The job names the sample when it is called like the placeholder and its path is not part of the
job; when its paths are of plain characters, only then. -/
theorem names_sample_iff {parse : List Char → Option Job} (hparse : Parser parse)
    (rules : List (String × String)) (p : SamplePath) :
    (LikePlaceholder rules p → NamesSample parse rules p) ∧
      (p.IsPlain → (NamesSample parse rules p ↔ LikePlaceholder rules p)) :=
  ⟨namesSample_of_likePlaceholder hparse, fun hp =>
    ⟨likePlaceholder_of_namesSample hparse hp, namesSample_of_likePlaceholder hparse⟩⟩

/-- A sample that is called like the placeholder, and a rule. -/
theorem names_sample_iff_artifact :
    NamesSample readPrinted [("team", "rule any \x7b condition: true \x7d")]
        ⟨"/srv/artifact", "/srv", "artifact"⟩ ∧
      (NamesSample readPrinted [("team", "// /srv/artifact")]
          ⟨"/srv/artifact", "/srv", "artifact"⟩ ↔
        LikePlaceholder [("team", "// /srv/artifact")] ⟨"/srv/artifact", "/srv", "artifact"⟩) := by
  have hjoined : SamplePath.joined ⟨"/srv/artifact", "/srv", "artifact"⟩ = "/srv/artifact" := by
    decide
  have hsplit : "/srv/artifact".toList = "/srv".toList ++ '/' :: ("artifact".toList ++ []) := by
    decide
  have hchars : ∀ c ∈ "/srv/artifact".toList, Plain c := by
    rw [show "/srv/artifact".toList = ['/', 's', 'r', 'v', '/', 'a', 'r', 't', 'i', 'f', 'a', 'c',
      't'] from rfl]
    simp [Plain]
  have hone : ∀ path ∈ ["/srv/artifact",
      SamplePath.joined ⟨"/srv/artifact", "/srv", "artifact"⟩], path = "/srv/artifact" := by
    rw [hjoined]
    simp
  have hbelow : Below "/srv/artifact" "artifact" := ⟨_, [], hsplit, by simp⟩
  have hplain : SamplePath.IsPlain ⟨"/srv/artifact", "/srv", "artifact"⟩ :=
    ⟨by decide, fun path hp => hone path hp ▸ hbelow, fun path hp => hone path hp ▸ hchars⟩
  exact ⟨(names_sample_iff isParser_readPrinted _ _).1 (by unfold LikePlaceholder; decide +kernel),
    (names_sample_iff isParser_readPrinted _ _).2 hplain⟩

/-- A job for another sample still names the placeholder. -/
theorem job_keeps_placeholder :
    scanGvisor readPrinted (dockerHost false) [] ⟨"/cas/ab/evil.bin", "/cas/ab", "evil.bin"⟩ =
        .ok (Job.mk [] "/sample/artifact").text ∧
      ¬ NamesSample readPrinted [] ⟨"/cas/ab/evil.bin", "/cas/ab", "evil.bin"⟩ := by
  have habsent : ¬ "/cas/ab/evil.bin".toList <:+: (Job.mk [] "/sample/artifact").text := by
    decide +kernel
  have hkept : rewriteJob readPrinted "/cas/ab/evil.bin" "evil.bin"
      (Job.mk [] "/sample/artifact").text = (Job.mk [] "/sample/artifact").text := by
    unfold rewriteJob
    dsimp only
    rw [replaceAll_of_absent habsent]
    exact if_pos (job_contains [])
  have hscan := scanGvisor_dockerHost readPrinted []
    ⟨"/cas/ab/evil.bin", "/cas/ab", "evil.bin"⟩ false
  have hscan' := hscan.trans (congrArg Except.ok hkept)
  refine ⟨hscan', fun h => ?_⟩
  have hnamed := (isParser_readPrinted.printed _).symm.trans (h _ _ hscan')
  exact absurd hnamed (by decide)

end Corpus.Gvisor
