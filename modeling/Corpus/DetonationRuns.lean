/-
What holds of detonations, whatever calls run.

* `egress_audited` — no bytes leave without an audit row of their own, and the polls are bounded;
* `Answered` — one call has looked an artifact up, read its object, posted the bytes and got the
  report of the task;
* `Sound` — every run has such a call behind it, and its findings are those that its one owner has
  come to; `reach_sound`;
* `findings_faithful` — so the findings of an artifact are of one run, and begin as a report says
  that the sandbox gave for the artifact's bytes.

The first is an account over the calls in flight, the second an invariant of each of them.
-/
import Corpus.Census
import Corpus.Detonation

namespace Corpus.Detonation

/-! ### Egress -/

/-- The audit rows for a digest. -/
def DetonationDb.auditsOf (s : DetonationDb) (sha : String) : ℕ :=
  s.audits.rows.countP fun a => a.action = "detonate.submit" && a.target = sha

/-- The requests that carry bytes under a digest. -/
def DetonationDb.postsOf (s : DetonationDb) (sha : String) : ℕ :=
  s.requests.countP fun e => e.1.file.any fun f => f.1 = sha

/-- The requests that carry bytes. -/
def DetonationDb.posts (s : DetonationDb) : ℕ := s.requests.countP fun e => e.1.file.isSome

/-- The requests that carry none. -/
def DetonationDb.gets (s : DetonationDb) : ℕ := s.requests.countP fun e => e.1.file.isNone

/-- Calls that will post bytes under a digest. -/
def submits (sha : String) : DetonationPt → ℕ
  | .submit j => if j.artifactSha = sha then 1 else 0
  | .artifact _ _ _ | .readObject _ _ _ | .audit _ | .view _ _ _ | .report _ _ _ | .sleep _ _ _
  | .run _ _ | .finding _ _ _ _ _ => 0

/-- The most requests that a call may still make for its task. -/
def remaining : DetonationPt → ℕ
  | .view _ _ left => left + 2
  | .report _ _ _ => 1
  | .sleep _ _ left => left + 1
  | .artifact _ _ _ | .readObject _ _ _ | .audit _ | .submit _ | .run _ _ | .finding _ _ _ _ _ => 0

/-- Statements before the audit. -/
def DetonationPt.early : DetonationPt → Bool
  | artifact _ _ _ | readObject _ _ _ => true
  | audit _ | submit _ | view _ _ _ | report _ _ _ | sleep _ _ _ | run _ _ | finding _ _ _ _ _ => false

/-- A request that the provider makes. -/
structure CapeProvider.Makes (p : CapeProvider) (q : HttpRequest) : Prop where
  authorization : q.authorization = p.auth
  url : q.file ≠ none → q.url = p.base ++ "/api/tasks/create/file/"

/-- The account of what leaves. -/
structure Egress (cfg : DetonationConfig) (s : DetonationDb) (m : Multiset DetonationPt) : Prop where
  audited : ∀ sha, s.postsOf sha + m.tally (submits sha) ≤ s.auditsOf sha
  polls : s.gets + m.tally remaining ≤ (cfg.maxPolls + 1) * s.posts
  made : ∀ e ∈ s.requests, cfg.provider.Makes e.1
  disabled : cfg.enabled = false → s = .empty ∧ ∀ l ∈ m, l.early = true

section Egress

variable {cfg : DetonationConfig} {s s' : DetonationDb} {m : Multiset DetonationPt}
  {l : DetonationPt} {c : Ctl DetonationPt (Option DetonationResult)}

theorem request_makes {q : HttpRequest} (h : l.request cfg = some q) : cfg.provider.Makes q := by
  cases l with
  | submit j =>
    obtain rfl := Option.some.inj h
    exact ⟨rfl, fun _ => rfl⟩
  | view j task left =>
    obtain rfl := Option.some.inj h
    exact ⟨rfl, fun hfile => absurd rfl hfile⟩
  | report j task left =>
    obtain rfl := Option.some.inj h
    exact ⟨rfl, fun hfile => absurd rfl hfile⟩
  | artifact | readObject | audit | sleep | run | finding => cases h

theorem request_of_early (h : l.early = true) : l.request cfg = none := by
  cases l with
  | artifact | readObject => rfl
  | audit | submit | view | report | sleep | run | finding => cases h

theorem weights_of_early (h : l.early = true) : (∀ sha, submits sha l = 0) ∧ remaining l = 0 := by
  cases l with
  | artifact | readObject => exact ⟨fun _ => rfl, rfl⟩
  | audit | submit | view | report | sleep | run | finding => cases h

/-- A statement of a call that goes on, in the place of one that made no request. -/
theorem Egress.goes (h : Egress cfg s (l ::ₘ m)) (henabled : cfg.enabled = true)
    (hrequests : s'.requests = s.requests)
    (haudits : ∀ sha, s.auditsOf sha + c.next.tally (submits sha) ≤ s'.auditsOf sha + submits sha l)
    (hpolls : c.next.tally remaining ≤ remaining l) : Egress cfg s' (c.next + m) := by
  have hposts : ∀ sha, s'.postsOf sha = s.postsOf sha := by
    intro sha
    rw [DetonationDb.postsOf, hrequests]
    rfl
  refine ⟨fun sha => ?_, ?_, fun e he => ?_, fun hoff => ?_⟩
  · have haudited := h.audited sha
    have hnext := haudits sha
    rw [Multiset.tally_cons] at haudited
    rw [Multiset.tally_add, hposts]
    omega
  · have hold := h.polls
    rw [Multiset.tally_cons] at hold
    rw [Multiset.tally_add, DetonationDb.gets, DetonationDb.posts, hrequests]
    exact le_trans (by unfold DetonationDb.gets; omega) hold
  · rw [hrequests] at he
    exact h.made e he
  · rw [henabled] at hoff
    cases hoff

/-- A request without a file. -/
theorem Egress.asks (h : Egress cfg s (l ::ₘ m)) {q : HttpRequest} (hq : l.request cfg = some q)
    (hfile : q.file = none) (answer : HttpAnswer) (hsubmits : ∀ sha, c.next.tally (submits sha) = 0)
    (hpolls : c.next.tally remaining + 1 ≤ remaining l) :
    Egress cfg (s.requested q answer) (c.next + m) := by
  have hgets : (s.requested q answer).gets = s.gets + 1 := by
    rw [DetonationDb.gets, DetonationDb.requested, List.countP_append, List.countP_singleton,
      hfile]
    rfl
  have hposts : (s.requested q answer).posts = s.posts := by
    rw [DetonationDb.posts, DetonationDb.requested, List.countP_append, List.countP_singleton,
      hfile]
    rfl
  have hpostsOf : ∀ sha, (s.requested q answer).postsOf sha = s.postsOf sha := by
    intro sha
    rw [DetonationDb.postsOf, DetonationDb.requested, List.countP_append, List.countP_singleton,
      hfile]
    rfl
  refine ⟨fun sha => ?_, ?_, fun e he => ?_, fun hoff => ?_⟩
  · have haudited := h.audited sha
    rw [Multiset.tally_cons] at haudited
    rw [Multiset.tally_add, hpostsOf, hsubmits]
    exact le_trans (by omega) haudited
  · have hold := h.polls
    rw [Multiset.tally_cons] at hold
    rw [Multiset.tally_add, hgets, hposts]
    omega
  · rcases List.mem_append.mp he with he | he
    · exact h.made e he
    · obtain rfl := List.mem_singleton.mp he
      exact request_makes hq
  · have hearly := (h.disabled hoff).2 l (Multiset.mem_cons_self l m)
    rw [request_of_early hearly] at hq
    cases hq

/-- The request with the file. -/
theorem Egress.posted {j : Job} (h : Egress cfg s (.submit j ::ₘ m)) (answer : HttpAnswer)
    (hsubmits : ∀ sha, c.next.tally (submits sha) = 0)
    (hpolls : c.next.tally remaining ≤ cfg.maxPolls + 1) :
    Egress cfg (s.requested (cfg.provider.submitRequest j.artifactSha j.bytes) answer)
      (c.next + m) := by
  have hgets : (s.requested (cfg.provider.submitRequest j.artifactSha j.bytes) answer).gets =
      s.gets := by
    rw [DetonationDb.gets, DetonationDb.requested, List.countP_append, List.countP_singleton]
    rfl
  have hposts : (s.requested (cfg.provider.submitRequest j.artifactSha j.bytes) answer).posts =
      s.posts + 1 := by
    rw [DetonationDb.posts, DetonationDb.requested, List.countP_append, List.countP_singleton]
    rfl
  have hpostsOf : ∀ sha, (s.requested (cfg.provider.submitRequest j.artifactSha j.bytes)
      answer).postsOf sha = s.postsOf sha + submits sha (.submit j) := by
    intro sha
    rw [DetonationDb.postsOf, DetonationDb.requested, List.countP_append, List.countP_singleton]
    show s.postsOf sha + (if decide (j.artifactSha = sha) = true then 1 else 0) = _
    simp only [decide_eq_true_eq]
    rfl
  refine ⟨fun sha => ?_, ?_, fun e he => ?_, fun hoff => ?_⟩
  · have haudited := h.audited sha
    rw [Multiset.tally_cons] at haudited
    rw [Multiset.tally_add, hpostsOf, hsubmits]
    exact le_trans (by omega) haudited
  · have hold := h.polls
    rw [Multiset.tally_cons] at hold
    rw [Multiset.tally_add, hgets, hposts, Nat.mul_succ]
    omega
  · rcases List.mem_append.mp he with he | he
    · exact h.made e he
    · obtain rfl := List.mem_singleton.mp he
      exact request_makes (l := .submit j) rfl
  · have hearly := (h.disabled hoff).2 (.submit j) (Multiset.mem_cons_self _ m)
    cases hearly

/-- A call that is given up. -/
theorem Egress.dropped (h : Egress cfg s (l ::ₘ m)) : Egress cfg s m := by
  refine ⟨fun sha => ?_, ?_, h.made, fun hoff => ?_⟩
  · have haudited := h.audited sha
    rw [Multiset.tally_cons] at haudited
    omega
  · have hold := h.polls
    rw [Multiset.tally_cons] at hold
    omega
  · obtain ⟨hempty, hearly⟩ := h.disabled hoff
    exact ⟨hempty, fun l' hl' => hearly l' (Multiset.mem_cons_of_mem hl')⟩

/-- A call that begins, or looks on. -/
theorem Egress.begins (h : Egress cfg s m) (hl : l.early = true) : Egress cfg s ({l} + m) := by
  obtain ⟨hsubmits, hremaining⟩ := weights_of_early hl
  refine ⟨fun sha => ?_, ?_, h.made, fun hoff => ⟨(h.disabled hoff).1, fun l' hl' => ?_⟩⟩
  · rw [Multiset.tally_add, Multiset.tally_singleton, hsubmits, Nat.zero_add]
    exact h.audited sha
  · rw [Multiset.tally_add, Multiset.tally_singleton, hremaining, Nat.zero_add]
    exact h.polls
  · rcases Multiset.mem_add.mp hl' with hl' | hl'
    · rw [Multiset.mem_singleton.mp hl']
      exact hl
    · exact (h.disabled hoff).2 l' hl'

/-- A call that is past the lookups is one of a server that detonates. -/
theorem Egress.enabled (h : Egress cfg s (l ::ₘ m)) (hl : l.early = false) :
    cfg.enabled = true := by
  by_contra hoff
  have hearly := (h.disabled (by simpa using hoff)).2 l (Multiset.mem_cons_self l m)
  rw [hl] at hearly
  cases hearly

theorem polling_next {j : Job} {task : String} {left : ℕ} (hc : Polling j task left c) :
    (∀ sha, c.next.tally (submits sha) = 0) ∧ c.next.tally remaining ≤ left + 1 := by
  cases left with
  | zero =>
    obtain rfl : c = .failed := hc
    exact ⟨fun _ => rfl, Nat.zero_le _⟩
  | succ left =>
    obtain rfl : c = .at (.view j task left) := hc
    exact ⟨fun _ => rfl, le_rfl⟩

theorem storing_next {j : Job} {run : Uuid} {report : Json} {rest : List Json}
    (hc : Storing j run report rest c) :
    (∀ sha, c.next.tally (submits sha) = 0) ∧ c.next.tally remaining = 0 := by
  cases rest with
  | nil =>
    obtain rfl : c = _ := hc
    exact ⟨fun _ => rfl, rfl⟩
  | cons f rest =>
    obtain rfl : c = _ := hc
    exact ⟨fun _ => rfl, rfl⟩

theorem Move.egress {i : DetonationInput} (hmove : Move cfg l i s s' c)
    (h : Egress cfg s (l ::ₘ m)) : Egress cfg s' (c.next + m) := by
  cases hmove with
  | fails =>
    rw [Ctl.next_failed, zero_add]
    exact h.dropped
  | idle =>
    rw [Ctl.next_done, zero_add]
    exact h.dropped
  | @refused _ _ _ q hl =>
    cases l with
    | submit j =>
      obtain rfl := Option.some.inj hl
      exact h.posted _ (fun _ => rfl) (Nat.zero_le _)
    | view j task left =>
      obtain rfl := Option.some.inj hl
      exact h.asks rfl rfl _ (fun _ => rfl) (Nat.le_add_left 1 (left + 1))
    | report j task left =>
      obtain rfl := Option.some.inj hl
      exact h.asks rfl rfl _ (fun _ => rfl) le_rfl
    | artifact | readObject | audit | sleep | run | finding => cases hl
  | found => exact h.dropped.begins rfl
  | read henabled hobject hl =>
    subst hl
    exact h.goes henabled rfl (fun _ => le_rfl) le_rfl
  | @audited j _ _ hid =>
    refine h.goes (h.enabled rfl) rfl (fun sha => ?_) (Nat.zero_le _)
    have hrows : (s.audits.insertNew (auditEvent cfg.provider.capabilities j i)).rows =
        s.audits.rows ++ [auditEvent cfg.provider.capabilities j i] :=
      Table.rows_insertNew_of_none hid
    show s.auditsOf sha + ({.submit j} : Multiset DetonationPt).tally (submits sha) ≤
      (s.audits.insertNew (auditEvent cfg.provider.capabilities j i)).rows.countP _ + 0
    rw [hrows, List.countP_append, List.countP_singleton, Multiset.tally_singleton]
    show _ + (if j.artifactSha = sha then 1 else 0) ≤
      s.auditsOf sha + (if (decide ("detonate.submit" = "detonate.submit") &&
        decide (j.artifactSha = sha)) = true then 1 else 0) + 0
    rw [decide_eq_true rfl, Bool.true_and]
    simp only [decide_eq_true_eq]
    exact le_rfl
  | submitted htask hc => exact h.posted _ (polling_next hc).1 (polling_next hc).2
  | @pending j task left => exact h.asks rfl rfl _ (fun _ => rfl) le_rfl
  | @finished j task left => exact h.asks rfl rfl _ (fun _ => rfl) (Nat.le_add_left 2 left)
  | reported hreport => exact h.asks rfl rfl _ (fun _ => rfl) le_rfl
  | slept hc =>
    refine h.goes (h.enabled rfl) rfl (fun sha => ?_) (polling_next hc).2
    rw [(polling_next hc).1]
    exact le_rfl
  | ran hid hkey hc =>
    refine h.goes (h.enabled rfl) rfl (fun sha => ?_) (storing_next hc).2.le
    rw [(storing_next hc).1]
    exact le_rfl
  | stored hid hc =>
    refine h.goes (h.enabled rfl) rfl (fun sha => ?_) (storing_next hc).2.le
    rw [(storing_next hc).1]
    exact le_rfl

theorem reach_egress {h : Pool.Hist DetonationCall DetonationPt DetonationDb DetonationInput Error
      (Option DetonationResult)}
    {p : Pool DetonationCall DetonationPt DetonationDb DetonationInput Error
      (Option DetonationResult)}
    (hr : Pool.Reach (DetonationCall.body cfg) .empty h p) : Egress cfg p.store p.census := by
  refine hr.counted takes_body (fun _ _ _ => True) (fun s m _ => Egress cfg s m) ?_ ?_ ?_ ?_
    fun _ _ => trivial
  · exact ⟨fun _ => le_rfl, Nat.zero_le _, nofun, fun _ => ⟨rfl, nofun⟩⟩
  · intro s m d c _ h
    obtain hc | hc | ⟨t, sha, known, hc⟩ := ctl_body cfg c
    · rw [hc, Ctl.next_failed, zero_add]
      exact h
    · rw [hc, Ctl.next_done, zero_add]
      exact h
    · rw [hc]
      exact h.begins rfl
  · intro s s' m d l n i c _ h hmove
    exact hmove.egress h
  · intro s m d l n _ h
    exact h.dropped

end Egress

/-- **No bytes leave unaudited.**  At every moment of every run, with any number of calls at once,
each cut off anywhere: under a digest no more requests with bytes have been made than there are
audit rows for it; every request with bytes went to the provider's task list, with its token; for
each there were at most `maxPolls + 1` other requests; and a server that is not to detonate has
written nothing and asked for nothing. -/
theorem egress_audited {cfg : DetonationConfig}
    {h : Pool.Hist DetonationCall DetonationPt DetonationDb DetonationInput Error
      (Option DetonationResult)}
    {p : Pool DetonationCall DetonationPt DetonationDb DetonationInput Error
      (Option DetonationResult)}
    (hr : Pool.Reach (DetonationCall.body cfg) .empty h p) :
    (∀ sha, p.store.postsOf sha ≤ p.store.auditsOf sha) ∧
    (∀ e ∈ p.store.requests, cfg.provider.Makes e.1) ∧
    p.store.gets ≤ (cfg.maxPolls + 1) * p.store.posts ∧
    (cfg.enabled = false → p.store = .empty) := by
  have hegress := reach_egress hr
  refine ⟨fun sha => ?_, hegress.made, ?_, fun hoff => (hegress.disabled hoff).1⟩
  · exact le_trans (Nat.le_add_right _ _) (hegress.audited sha)
  · exact le_trans (Nat.le_add_right _ _) hegress.polls

/-- A sandbox without a token, polled twice at most, and used on every bad verdict. -/
def labConfig : DetonationConfig :=
  { enabled := true
    capeUrl := some "http://cape/"
    capeToken := none
    maxPolls := 2
    allowNoAuth := true
    auto := true
    display := fun _ => "" }

/-- An answer of the sandbox, and an identifier; all else goes well. -/
def inputAt (id : Uuid) (body : Json) : DetonationInput :=
  ⟨id, 0, none, .ok ⟨200, "200 OK", .ok body⟩, some (7, "sha256/00"), .ok [1, 2]⟩

/-- An artifact is detonated by hand, and the policy detonates it at the same time: both make a
task, and the first one's report becomes a run; the other's is refused. -/
def twoDetonations : List (Act DetonationCall DetonationInput) :=
  let task := inputAt 10 (.obj [("data", .obj [("task_ids", .arr [.num 5])])])
  let task' := inputAt 20 (.obj [("task_id", .num 6)])
  let done := inputAt 0 (.obj [("task", .obj [("status", .str "reported")])])
  let report := inputAt 0 (.obj [("signatures", .arr [.obj [("name", .str "autorun")]]),
    ("ttps", .arr [.obj [("ttp", .str "T1547")]])])
  let store := fun id => inputAt id .null
  [.spawn (.detonateArtifact 1 "00"), .spawn (.autoSubmit 1 7 "00" "malicious"),
    .exec 0 task, .exec 0 task, .exec 0 task, .exec 1 task', .exec 1 task', .exec 1 task',
    .exec 0 task, .exec 1 task', .exec 0 (store 0), .exec 0 (store 0), .exec 0 done,
    .exec 1 done, .exec 0 report, .exec 1 report,
    .exec 0 (store 11), .exec 1 (store 21), .exec 0 (store 12), .exec 0 (store 13)]

theorem egress_audited_twice : ∃ h p, Pool.Reach (DetonationCall.body labConfig) .empty h p ∧
    p.store.postsOf "00" = 2 ∧ p.store.gets = 5 ∧
    (∀ sha, p.store.postsOf sha ≤ p.store.auditsOf sha) ∧
    p.store.gets ≤ 3 * p.store.posts := by
  obtain ⟨h, p, hr, hchk⟩ := Pool.exists_reach (DetonationCall.body labConfig) .empty twoDetonations
    (fun _ p => p.store.postsOf "00" = 2 ∧ p.store.gets = 5) (by decide +kernel)
  obtain ⟨hposts, hgets⟩ := of_decide_eq_true hchk
  obtain ⟨haudited, -, hpolls, -⟩ := egress_audited hr
  exact ⟨h, p, hr, hposts, hgets, haudited, hpolls⟩

/-! ### Findings -/

/-- What the findings of a run say, in the order in which they were stored. -/
def DetonationDb.findingsOf (s : DetonationDb) (run : Uuid) : List Json :=
  (s.findings.rows.filter fun f => f.analysisRun = run).map Finding.detail

/-- The statements that each call has executed, and what they took from outside. -/
abbrev Done := ℕ → DetonationPt → DetonationInput → Prop

/-- Those of a history. -/
def doneIn (h : Pool.Hist DetonationCall DetonationPt DetonationDb DetonationInput Error
    (Option DetonationResult)) : Done :=
  fun n l i => ∃ p, (p, Act.exec n i) ∈ h ∧ p.ctl n = .at l

/-- The artifact is the one that the caller has named, or that was found for the digest. -/
def Looked (done : Done) (n : ℕ) (t : Uuid) (sha : String) (artifact : Uuid) : Prop :=
  ∃ known i, done n (.artifact t sha known) i ∧ known.or (i.artifact.map Prod.fst) = some artifact

/-- The call has looked the job's artifact up, and its bytes are those of the artifact's object. -/
structure Prepared (done : Done) (n : ℕ) (j : Job) : Prop where
  looked : Looked done n j.tenant j.artifactSha j.artifact
  read : ∃ i, done n (.readObject j.tenant j.artifact j.artifactSha) i ∧ i.object = .ok j.bytes

/-- The call has posted these bytes, and the answer named the task. -/
structure Submitted (cfg : DetonationConfig) (s : DetonationDb) (done : Done) (n : ℕ) (j : Job)
    (task : String) : Prop where
  prepared : Prepared done n j
  posted : ∃ i, done n (.submit j) i ∧ CapeProvider.submitted cfg.display i.answer = .ok task ∧
    (cfg.provider.submitRequest j.artifactSha j.bytes, i.answer) ∈ s.requests

/-- The call has asked for the report of that task, and the answer was this one. -/
def Answered (cfg : DetonationConfig) (s : DetonationDb) (done : Done) (n : ℕ) (j : Job)
    (report : Json) : Prop :=
  ∃ task, Submitted cfg s done n j task ∧ ∃ left i, done n (.report j task left) i ∧
    CapeProvider.body "report" i.answer = .ok report ∧
    (cfg.provider.reportRequest task, i.answer) ∈ s.requests

/-- The run is one of the job's artifact. -/
def RunOf (s : DetonationDb) (j : Job) (run : Uuid) : Prop :=
  ∃ r, s.runs.get run = some r ∧ r.tenant = j.tenant ∧ r.artifact = j.artifact

/-- What is unique about the run of an artifact. -/
def runKey (t artifact : Uuid) : Uuid × Uuid × String × String × Bytes × Bytes :=
  (t, artifact, "cape", dummyText, List.replicate 32 0, List.replicate 32 0)

/-- What holds of a statement that is next in a call. -/
def PtSound (cfg : DetonationConfig) (s : DetonationDb) (done : Done) (n : ℕ) :
    DetonationPt → Prop
  | .artifact _ _ _ => True
  | .readObject t artifact sha => Looked done n t sha artifact
  | .audit j | .submit j => Prepared done n j
  | .view j task _ | .report j task _ | .sleep j task _ => Submitted cfg s done n j task
  | .run j report => Answered cfg s done n j report
  | .finding j run report f rest => RunOf s j run ∧ Answered cfg s done n j report ∧
      s.findingsOf run ++ f :: rest = mapReportToFindings report

/-- What holds of a result. -/
structure Complete (s : DetonationDb) (res : DetonationResult) : Prop where
  run : s.runs.get res.analysisRunId ≠ none
  findings : s.findingsOf res.analysisRunId = res.findings
  count : res.findingCount = res.findings.length

/-- What holds of a call. -/
structure CallSound (cfg : DetonationConfig) (s : DetonationDb) (done : Done) (n : ℕ)
    (c : Ctl DetonationPt (Option DetonationResult)) : Prop where
  pt : ∀ l, c = .at l → PtSound cfg s done n l
  result : ∀ res, c = .done (some res) → Complete s res

/-- The call has made the run. -/
def Owns (c : Ctl DetonationPt (Option DetonationResult)) (run : Uuid) : Prop :=
  (∃ j report f rest, c = .at (.finding j run report f rest)) ∨
    ∃ res, c = .done (some res) ∧ res.analysisRunId = run

/-- What holds of a run. -/
structure RunSound (cfg : DetonationConfig) (s : DetonationDb) (done : Done) (r : AnalysisRun) :
    Prop where
  key : r.key = runKey r.tenant r.artifact
  answered : ∃ n j report, j.tenant = r.tenant ∧ j.artifact = r.artifact ∧
    Answered cfg s done n j report ∧ s.findingsOf r.id <+: mapReportToFindings report

/-- What holds of the tables. -/
structure DbSound (cfg : DetonationConfig) (s : DetonationDb) (done : Done) : Prop where
  runs : ∀ r ∈ s.runs.rows, RunSound cfg s done r
  unique : ∀ r ∈ s.runs.rows, ∀ r' ∈ s.runs.rows, r.tenant = r'.tenant →
    r.artifact = r'.artifact → r = r'
  findings : ∀ f ∈ s.findings.rows, f.evidenceType = "DYNAMIC_BEHAVIOR" ∧
    ∃ r, s.runs.get f.analysisRun = some r ∧ r.tenant = f.tenant ∧ r.artifact = f.artifact

/-- The tables and the calls; each run has one owner at most. -/
structure Sound (cfg : DetonationConfig) (done : Done)
    (v : View DetonationPt DetonationDb (Option DetonationResult)) : Prop where
  db : DbSound cfg v.store done
  calls : ∀ n, CallSound cfg v.store done n (v.pts n)
  apart : ∀ n n' run, Owns (v.pts n) run → Owns (v.pts n') run → n = n'

/-- Requests, runs and what has been done stay. -/
structure Grows (s s' : DetonationDb) (done done' : Done) : Prop where
  requests : ∀ e ∈ s.requests, e ∈ s'.requests
  runs : ∀ id r, s.runs.get id = some r → s'.runs.get id = some r
  done : ∀ n l i, done n l i → done' n l i

section Findings

variable {cfg : DetonationConfig} {s s' : DetonationDb} {done done' : Done} {l : DetonationPt}
  {c : Ctl DetonationPt (Option DetonationResult)} {run : Uuid} {j : Job} {report : Json} {n : ℕ}

theorem Grows.looked (h : Grows s s' done done') {t artifact : Uuid} {sha : String}
    (hl : Looked done n t sha artifact) : Looked done' n t sha artifact := by
  obtain ⟨known, i, hdone, hfound⟩ := hl
  exact ⟨known, i, h.done _ _ _ hdone, hfound⟩

theorem Grows.prepared (h : Grows s s' done done') (hj : Prepared done n j) :
    Prepared done' n j := by
  obtain ⟨i, hdone, hobject⟩ := hj.read
  exact ⟨h.looked hj.looked, i, h.done _ _ _ hdone, hobject⟩

theorem Grows.submitted (h : Grows s s' done done') {task : String}
    (hj : Submitted cfg s done n j task) : Submitted cfg s' done' n j task := by
  obtain ⟨i, hdone, htask, hmem⟩ := hj.posted
  exact ⟨h.prepared hj.prepared, i, h.done _ _ _ hdone, htask, h.requests _ hmem⟩

theorem Grows.answered (h : Grows s s' done done') (hj : Answered cfg s done n j report) :
    Answered cfg s' done' n j report := by
  obtain ⟨task, hsubmitted, left, i, hdone, hreport, hmem⟩ := hj
  exact ⟨task, h.submitted hsubmitted, left, i, h.done _ _ _ hdone, hreport, h.requests _ hmem⟩

theorem Grows.runOf (h : Grows s s' done done') (hj : RunOf s j run) : RunOf s' j run := by
  obtain ⟨r, hr, hrun⟩ := hj
  exact ⟨r, h.runs _ _ hr, hrun⟩

/-- A call goes by what it has made. -/
theorem Grows.callSound (h : Grows s s' done done')
    (hown : ∀ run, Owns c run → s'.findingsOf run = s.findingsOf run)
    (hc : CallSound cfg s done n c) : CallSound cfg s' done' n c := by
  refine ⟨fun l hl => ?_, fun res hres => ?_⟩
  · have hpt := hc.pt l hl
    cases l with
    | artifact => trivial
    | readObject t artifact sha => exact h.looked hpt
    | audit j | submit j => exact h.prepared hpt
    | view j task left | report j task left | sleep j task left => exact h.submitted hpt
    | run j report => exact h.answered hpt
    | finding j run report f rest =>
      obtain ⟨hrun, hanswered, hfindings⟩ := hpt
      refine ⟨h.runOf hrun, h.answered hanswered, ?_⟩
      rw [hown run (.inl ⟨_, _, _, _, hl⟩)]
      exact hfindings
  · obtain ⟨hrun, hfindings, hcount⟩ := hc.result res hres
    refine ⟨fun hnone => ?_, ?_, hcount⟩
    · obtain ⟨r, hr⟩ := Option.ne_none_iff_exists'.mp hrun
      rw [h.runs _ _ hr] at hnone
      cases hnone
    · rw [hown _ (.inr ⟨res, hres, rfl⟩)]
      exact hfindings

/-- The runs and the findings stay what they are. -/
theorem DbSound.same (hdb : DbSound cfg s done) (h : Grows s s' done done')
    (hruns : s'.runs = s.runs) (hfindings : s'.findings = s.findings) : DbSound cfg s' done' := by
  refine ⟨fun r hr => ?_, fun r hr r' hr' => ?_, fun f hf => ?_⟩
  · rw [hruns] at hr
    obtain ⟨hkey, n, j, report, htenant, hartifact, hanswered, hprefix⟩ := hdb.runs r hr
    refine ⟨hkey, n, j, report, htenant, hartifact, h.answered hanswered, ?_⟩
    rw [DetonationDb.findingsOf, hfindings]
    exact hprefix
  · rw [hruns] at hr hr'
    exact hdb.unique r hr r' hr'
  · rw [hfindings] at hf
    rw [hruns]
    exact hdb.findings f hf

/-- A row of a finding is one more of its run, and of no other. -/
theorem findingsOf_insert {row : Finding} (hid : s.findings.get row.id = none) (run : Uuid) :
    { s with findings := s.findings.insertNew row }.findingsOf run =
      s.findingsOf run ++ if row.analysisRun = run then [row.detail] else [] := by
  have hrows : (s.findings.insertNew row).rows = s.findings.rows ++ [row] :=
    Table.rows_insertNew_of_none hid
  rw [DetonationDb.findingsOf, hrows, List.filter_append, List.map_append]
  by_cases hrun : row.analysisRun = run
  · rw [if_pos hrun, List.filter_cons_of_pos (by simpa using hrun)]
    rfl
  · rw [if_neg hrun, List.filter_cons_of_neg (by simpa using hrun)]
    rfl

/-- A run that is not there has no findings. -/
theorem DbSound.findingsOf_eq_nil (hdb : DbSound cfg s done) (hrun : s.runs.get run = none) :
    s.findingsOf run = [] := by
  rw [DetonationDb.findingsOf, List.map_eq_nil_iff, List.filter_eq_nil_iff]
  intro f hf hmine
  obtain ⟨-, r, hr, -⟩ := hdb.findings f hf
  rw [of_decide_eq_true hmine, hrun] at hr
  cases hr

/-- The `INSERT` of a run. -/
theorem DbSound.ran (hdb : DbSound cfg s done) {i : DetonationInput}
    (hdone : ∀ n l i, done n l i → done' n l i) (hid : s.runs.get i.id = none)
    (hkey : ∀ r ∈ s.runs.rows, r.key ≠ (analysisRun j i).key)
    (hj : Answered cfg s done n j report) :
    Grows s { s with runs := s.runs.insertNew (analysisRun j i) } done done' ∧
      DbSound cfg { s with runs := s.runs.insertNew (analysisRun j i) } done' := by
  have hgrows : Grows s { s with runs := s.runs.insertNew (analysisRun j i) } done done' := by
    refine ⟨fun e he => he, fun id r hr => ?_, hdone⟩
    show (s.runs.insertNew (analysisRun j i)).get id = some r
    rw [Table.get_insertNew, hr]
    rfl
  have hnew : ∀ r ∈ s.runs.rows, r.tenant = j.tenant → r.artifact ≠ j.artifact := by
    intro r hr htenant hartifact
    refine hkey r hr ?_
    rw [(hdb.runs r hr).key, htenant, hartifact]
    rfl
  have hmem : ∀ r ∈ (s.runs.insertNew (analysisRun j i)).rows,
      r ∈ s.runs.rows ∨ r = analysisRun j i :=
    fun r hr => Table.mem_insertNew hr
  refine ⟨hgrows, fun r hr => ?_, fun r hr r' hr' htenant hartifact => ?_, fun f hf => ?_⟩
  · obtain hr | rfl := hmem r hr
    · obtain ⟨hkey, n', j', report', htenant, hartifact, hanswered, hprefix⟩ := hdb.runs r hr
      exact ⟨hkey, n', j', report', htenant, hartifact, hgrows.answered hanswered, hprefix⟩
    · refine ⟨rfl, n, j, report, rfl, rfl, hgrows.answered hj, ?_⟩
      have hnil : s.findingsOf i.id = [] := hdb.findingsOf_eq_nil hid
      show s.findingsOf i.id <+: _
      rw [hnil]
      exact List.nil_prefix
  · obtain hr | rfl := hmem r hr <;> obtain hr' | rfl := hmem r' hr'
    · exact hdb.unique r hr r' hr' htenant hartifact
    · exact absurd hartifact (hnew r hr htenant)
    · exact absurd hartifact.symm (hnew r' hr' htenant.symm)
    · rfl
  · obtain ⟨htype, r, hr, hrun⟩ := hdb.findings f hf
    exact ⟨htype, r, hgrows.runs _ _ hr, hrun⟩

/-- The `INSERT` of a finding. -/
theorem DbSound.stored (hdb : DbSound cfg s done) {i : DetonationInput} {f : Json}
    {rest : List Json} (hdone : ∀ n l i, done n l i → done' n l i)
    (hid : s.findings.get i.id = none)
    (hpt : PtSound cfg s done n (.finding j run report f rest)) :
    Grows s { s with findings := s.findings.insertNew (findingRow j run f i) } done done' ∧
      DbSound cfg { s with findings := s.findings.insertNew (findingRow j run f i) } done' := by
  obtain ⟨⟨r₀, hr₀, htenant₀, hartifact₀⟩, hanswered, hfindings⟩ := hpt
  have hgrows : Grows s { s with findings := s.findings.insertNew (findingRow j run f i) }
      done done' := ⟨fun e he => he, fun _ _ h => h, hdone⟩
  have hinsert : ∀ run', { s with findings := s.findings.insertNew (findingRow j run f i) }.findingsOf
      run' = s.findingsOf run' ++ if run = run' then [f] else [] :=
    fun run' => findingsOf_insert hid run'
  refine ⟨hgrows, fun r hr => ?_, hdb.unique, fun x hx => ?_⟩
  · obtain ⟨hkey, n', j', report', htenant, hartifact, hanswered', hprefix⟩ := hdb.runs r hr
    by_cases hrun : run = r.id
    · obtain rfl : r = r₀ := by
        rw [hrun, Table.mem_rows_iff.mp hr] at hr₀
        exact Option.some.inj hr₀
      refine ⟨hkey, n, j, report, htenant₀.symm, hartifact₀.symm, hgrows.answered hanswered, ?_⟩
      rw [hinsert, if_pos hrun, ← hfindings, hrun]
      exact ⟨rest, by rw [List.append_assoc]; rfl⟩
    · refine ⟨hkey, n', j', report', htenant, hartifact, hgrows.answered hanswered', ?_⟩
      rw [hinsert, if_neg hrun, List.append_nil]
      exact hprefix
  · obtain hx | rfl := Table.mem_insertNew hx
    · exact hdb.findings x hx
    · exact ⟨rfl, r₀, hr₀, htenant₀, hartifact₀⟩

/-- A call that stores findings. -/
theorem storing_sound {rest : List Json} (hrun : RunOf s j run)
    (hj : Answered cfg s done n j report)
    (hfindings : s.findingsOf run ++ rest = mapReportToFindings report)
    (hc : Storing j run report rest c) :
    CallSound cfg s done n c ∧ ∀ run', Owns c run' → run' = run := by
  cases rest with
  | nil =>
    obtain rfl : c = _ := hc
    refine ⟨⟨fun l hl => (by cases hl), fun res hres => ?_⟩, fun run' hown => ?_⟩
    · obtain rfl := Option.some.inj (Ctl.done.inj hres)
      obtain ⟨r, hr, -⟩ := hrun
      rw [List.append_nil] at hfindings
      refine ⟨fun hnone => ?_, hfindings, rfl⟩
      rw [hr] at hnone
      cases hnone
    · obtain ⟨_, _, _, _, h⟩ | ⟨res, hres, rfl⟩ := hown
      · cases h
      · obtain rfl := Option.some.inj (Ctl.done.inj hres)
        rfl
  | cons f rest =>
    obtain rfl : c = _ := hc
    refine ⟨⟨fun l hl => ?_, fun res hres => by cases hres⟩, fun run' hown => ?_⟩
    · obtain rfl := Ctl.at.inj hl
      exact ⟨hrun, hj, hfindings⟩
    · obtain ⟨_, _, _, _, h⟩ | ⟨res, hres, -⟩ := hown
      · obtain ⟨-, rfl, -⟩ := DetonationPt.finding.inj (Ctl.at.inj h)
        rfl
      · cases hres

theorem polling_sound {task : String} {left : ℕ} (hj : Submitted cfg s done n j task)
    (hc : Polling j task left c) : CallSound cfg s done n c ∧ ∀ run, ¬ Owns c run := by
  cases left with
  | zero =>
    obtain rfl : c = .failed := hc
    refine ⟨⟨fun l hl => (by cases hl), fun res hres => by cases hres⟩, fun run hown => ?_⟩
    obtain ⟨_, _, _, _, h⟩ | ⟨_, h, _⟩ := hown <;> cases h
  | succ left =>
    obtain rfl : c = .at (.view j task left) := hc
    refine ⟨⟨fun l hl => ?_, fun res hres => by cases hres⟩, fun run hown => ?_⟩
    · obtain rfl := Ctl.at.inj hl
      exact hj
    · obtain ⟨_, _, _, _, h⟩ | ⟨_, h, _⟩ := hown <;> cases h

/-- A call that has made nothing and of which nothing is claimed. -/
def Plain (c : Ctl DetonationPt (Option DetonationResult)) : Prop :=
  c = .failed ∨ c = .done none ∨ c = .idle ∨ ∃ t sha known, c = .at (.artifact t sha known)

theorem Plain.sound (h : Plain c) : CallSound cfg s done n c ∧ ∀ run, ¬ Owns c run := by
  refine ⟨⟨fun l hl => ?_, fun res hres => ?_⟩, fun run hown => ?_⟩
  · subst hl
    obtain h | h | h | ⟨_, _, _, h⟩ := h <;> cases h
    trivial
  · subst hres
    obtain h | h | h | ⟨_, _, _, h⟩ := h <;> cases h
  · obtain ⟨_, _, _, _, rfl⟩ | ⟨_, rfl, -⟩ := hown <;>
      obtain h | h | h | ⟨_, _, _, h⟩ := h <;> cases h

/-- A statement that makes no finding owns nothing. -/
theorem not_owns_at (hl : ∀ j run report f rest, l ≠ .finding j run report f rest) (run : Uuid) :
    ¬ Owns (.at l) run := by
  rintro (⟨j, report, f, rest, h⟩ | ⟨res, h, -⟩)
  · exact hl _ _ _ _ _ (Ctl.at.inj h)
  · cases h

/-- A call that is next at a statement that makes no finding. -/
theorem at_sound (hpt : PtSound cfg s done n l)
    (hl : ∀ j run report f rest, l ≠ .finding j run report f rest) :
    CallSound cfg s done n (.at l) ∧ ∀ run, ¬ Owns (.at l) run := by
  refine ⟨⟨fun l' hl' => ?_, fun res hres => by cases hres⟩, not_owns_at hl⟩
  obtain rfl := Ctl.at.inj hl'
  exact hpt

/-- One call goes on; what the others have made stays what it is. -/
theorem Sound.step {v : View DetonationPt DetonationDb (Option DetonationResult)} {k : ℕ}
    (h : Sound cfg done v) (hgrows : Grows v.store s' done done') (hdb : DbSound cfg s' done')
    (hothers : ∀ m run, m ≠ n → Owns (v.pts m) run →
      s'.findingsOf run = v.store.findingsOf run ∧ ¬ Owns c run)
    (hc : CallSound cfg s' done' n c) : Sound cfg done' ⟨s', Function.update v.pts n c, k⟩ := by
  refine ⟨hdb, fun m => ?_, fun m m' run hm hm' => ?_⟩
  · show CallSound cfg s' done' m (Function.update v.pts n c m)
    rcases eq_or_ne m n with rfl | hne
    · rw [Function.update_self]
      exact hc
    · rw [Function.update_of_ne hne]
      exact hgrows.callSound (fun run hown => (hothers m run hne hown).1) (h.calls m)
  · dsimp only at hm hm'
    rcases eq_or_ne m n with rfl | hne <;> rcases eq_or_ne m' m with rfl | hne'
    · rfl
    · rw [Function.update_self] at hm
      rw [Function.update_of_ne hne'] at hm'
      exact absurd hm (hothers m' run hne' hm').2
    · rfl
    · rw [Function.update_of_ne hne] at hm
      rcases eq_or_ne m' n with rfl | hne''
      · rw [Function.update_self] at hm'
        exact absurd hm' (hothers m run hne hm).2
      · rw [Function.update_of_ne hne''] at hm'
        exact h.apart m m' run hm hm'

/-- A step that leaves the runs and the findings alone, and makes nothing. -/
theorem Sound.aside {v : View DetonationPt DetonationDb (Option DetonationResult)} {k : ℕ}
    (h : Sound cfg done v) (hgrows : Grows v.store s' done done')
    (hruns : s'.runs = v.store.runs) (hfindings : s'.findings = v.store.findings)
    (hc : CallSound cfg s' done' n c ∧ ∀ run, ¬ Owns c run) :
    Sound cfg done' ⟨s', Function.update v.pts n c, k⟩ := by
  refine h.step hgrows (h.db.same hgrows hruns hfindings) (fun m run _ _ => ⟨?_, hc.2 run⟩) hc.1
  rw [DetonationDb.findingsOf, hfindings]
  rfl

theorem mem_requested (s : DetonationDb) (q : HttpRequest) (answer : HttpAnswer) :
    (q, answer) ∈ (s.requested q answer).requests :=
  List.mem_append_right _ (List.mem_singleton_self _)

theorem Move.sound {v : View DetonationPt DetonationDb (Option DetonationResult)}
    {i : DetonationInput} (hmove : Move cfg l i v.store s' c) (hn : v.pts n = .at l)
    (hdone : ∀ n l i, done n l i → done' n l i) (hlast : done' n l i) (h : Sound cfg done v) :
    Sound cfg done' ⟨s', Function.update v.pts n c, v.size⟩ := by
  have hsame : Grows v.store v.store done done' := ⟨fun _ he => he, fun _ _ h => h, hdone⟩
  have hasked : ∀ q answer, Grows v.store (v.store.requested q answer) done done' :=
    fun q answer => ⟨fun _ he => List.mem_append_left _ he, fun _ _ h => h, hdone⟩
  have hpt := (h.calls n).pt l hn
  cases hmove with
  | fails => exact h.aside hsame rfl rfl (Plain.sound (.inl rfl))
  | refused => exact h.aside (hasked _ _) rfl rfl (Plain.sound (.inl rfl))
  | idle => exact h.aside hsame rfl rfl (Plain.sound (.inr (.inl rfl)))
  | found hfound =>
    refine h.aside hsame rfl rfl (at_sound ?_ fun _ _ _ _ _ h => by cases h)
    exact ⟨_, i, hlast, hfound⟩
  | @read _ j _ _ _ hobject hl =>
    subst hl
    refine h.aside hsame rfl rfl (at_sound ?_ fun _ _ _ _ _ h => by cases h)
    exact ⟨hsame.looked hpt, i, hlast, hobject⟩
  | @audited j _ _ _ =>
    have hgrows : Grows v.store { v.store with
        audits := v.store.audits.insertNew (auditEvent cfg.provider.capabilities j i) } done done' :=
      ⟨fun _ he => he, fun _ _ h => h, hdone⟩
    exact h.aside hgrows rfl rfl (at_sound (hgrows.prepared hpt) fun _ _ _ _ _ h => by cases h)
  | submitted htask hc =>
    refine h.aside (hasked _ _) rfl rfl (polling_sound ?_ hc)
    exact ⟨hsame.prepared hpt, i, hlast, htask, mem_requested _ _ _⟩
  | pending =>
    exact h.aside (hasked _ _) rfl rfl
      (at_sound ((hasked _ _).submitted hpt) fun _ _ _ _ _ h => by cases h)
  | finished =>
    exact h.aside (hasked _ _) rfl rfl
      (at_sound ((hasked _ _).submitted hpt) fun _ _ _ _ _ h => by cases h)
  | @reported j task left report _ _ hreport =>
    refine h.aside (hasked _ _) rfl rfl (at_sound ?_ fun _ _ _ _ _ h => by cases h)
    exact ⟨task, (hasked _ _).submitted hpt, left, i, hlast, hreport, mem_requested _ _ _⟩
  | slept hc => exact h.aside hsame rfl rfl (polling_sound (hsame.submitted hpt) hc)
  | @ran j report _ _ _ hid hkey hc =>
    obtain ⟨hgrows, hdb⟩ := h.db.ran hdone hid hkey hpt
    have hnil : v.store.findingsOf i.id = [] := h.db.findingsOf_eq_nil hid
    have hget : (v.store.runs.insertNew (analysisRun j i)).get i.id = some (analysisRun j i) := by
      rw [Table.get_insertNew, hid, Option.none_or]
      exact if_pos rfl
    obtain ⟨hsound, howns⟩ := storing_sound (s := { v.store with
      runs := v.store.runs.insertNew (analysisRun j i) }) ⟨_, hget, rfl, rfl⟩
      (hgrows.answered hpt) (by
        show v.store.findingsOf i.id ++ _ = _
        rw [hnil, List.nil_append]) hc
    refine h.step hgrows hdb (fun m run _ hown => ⟨rfl, fun hc => ?_⟩) hsound
    -- The run is new, so nobody has made it.
    obtain rfl := howns run hc
    obtain ⟨j', report', f, rest, hm⟩ | ⟨res, hm, hres⟩ := hown
    · obtain ⟨⟨r, hr, -⟩, -⟩ := (h.calls m).pt _ hm
      rw [hid] at hr
      cases hr
    · rw [← hres] at hid
      exact ((h.calls m).result res hm).run hid
  | @stored j run report f rest _ _ _ hid hc =>
    obtain ⟨hgrows, hdb⟩ := h.db.stored hdone hid hpt
    obtain ⟨hrun, hanswered, hfindings⟩ := hpt
    have hinsert : ∀ run', { v.store with
        findings := v.store.findings.insertNew (findingRow j run f i) }.findingsOf run' =
          v.store.findingsOf run' ++ if run = run' then [f] else [] :=
      fun run' => findingsOf_insert hid run'
    obtain ⟨hsound, howns⟩ := storing_sound (s := { v.store with
      findings := v.store.findings.insertNew (findingRow j run f i) }) (hgrows.runOf hrun)
      (hgrows.answered hanswered) (by
        rw [hinsert, if_pos rfl, List.append_assoc]
        exact hfindings) hc
    have hmine : Owns (v.pts n) run := .inl ⟨_, _, _, _, hn⟩
    refine h.step hgrows hdb (fun m run' hne hown => ?_) hsound
    have hrun' : run ≠ run' := by
      rintro rfl
      exact hne (h.apart m n run hown hmine)
    refine ⟨?_, fun hc => hrun' (howns run' hc).symm⟩
    rw [hinsert, if_neg hrun', List.append_nil]

/-- What the trace of a machine says was done. -/
def doneAlong (tr : List (View DetonationPt DetonationDb (Option DetonationResult) ×
    Act DetonationCall DetonationInput)) : Done :=
  fun n l i => ∃ v, (v, Act.exec n i) ∈ tr ∧ v.pts n = .at l

theorem doneAlong_view {h : Pool.Hist DetonationCall DetonationPt DetonationDb DetonationInput Error
    (Option DetonationResult)} : doneAlong (h.map fun e => (e.1.view, e.2)) = doneIn h := by
  funext n l i
  refine propext ⟨?_, ?_⟩
  · rintro ⟨v, hmem, hn⟩
    obtain ⟨⟨p, a⟩, he, heq⟩ := List.mem_map.mp hmem
    obtain ⟨rfl, rfl⟩ := Prod.mk.inj heq
    exact ⟨p, he, hn⟩
  · rintro ⟨p, hmem, hn⟩
    exact ⟨p.view, List.mem_map.mpr ⟨_, hmem, rfl⟩, hn⟩

theorem reach_sound {h : Pool.Hist DetonationCall DetonationPt DetonationDb DetonationInput Error
      (Option DetonationResult)}
    {p : Pool DetonationCall DetonationPt DetonationDb DetonationInput Error
      (Option DetonationResult)}
    (hr : Pool.Reach (DetonationCall.body cfg) .empty h p) : Sound cfg (doneIn h) p.view := by
  have hmore : ∀ {tr e} n l i, doneAlong tr n l i → doneAlong (tr ++ [e]) n l i := by
    rintro tr e n l i ⟨v, hmem, hn⟩
    exact ⟨v, List.mem_append_left _ hmem, hn⟩
  have hsame : ∀ {s tr e}, Grows s s (doneAlong tr) (doneAlong (tr ++ [e])) :=
    ⟨fun e he => he, fun _ _ h => h, hmore⟩
  rw [← doneAlong_view]
  refine View.VReach.invariant (fun _ _ => True) (fun tr v => Sound cfg (doneAlong tr) v) ?_ ?_ ?_ ?_
    (hr.view takes_body) fun _ _ => trivial
  · have hidle : ∀ n, CallSound cfg .empty (doneAlong []) n .idle ∧ ∀ run, ¬ Owns .idle run :=
      fun n => Plain.sound (.inr (.inr (.inl rfl)))
    refine ⟨⟨?_, ?_, ?_⟩, fun n => (hidle n).1, fun n n' run hown => absurd hown ((hidle n).2 run)⟩
    · intro r hr
      exact absurd hr List.not_mem_nil
    · intro r hr
      exact absurd hr List.not_mem_nil
    · intro f hf
      exact absurd hf List.not_mem_nil
  · intro tr v c hsound _ _
    refine hsound.aside hsame rfl rfl (Plain.sound ?_)
    obtain hc | hc | ⟨t, sha, known, hc⟩ := ctl_body cfg c
    · exact .inl hc
    · exact .inr (.inl hc)
    · exact .inr (.inr (.inr ⟨t, sha, known, hc⟩))
  · intro tr v n l c s' i hsound hn hmove _
    exact hmove.sound hn hmore ⟨v, List.mem_append_right _ (List.mem_singleton_self _), hn⟩ hsound
  · intro tr v n l hsound hn _
    exact hsound.aside hsame rfl rfl (Plain.sound (.inl rfl))

end Findings

/-- **Findings say what the sandbox said.**  At every moment of every run: an artifact has one run
at most; every finding is of a run of its own tenant and artifact; the findings of a run are the
first ones, fifty at most, of those that one report maps to.  One call got that report, for a task
that it had made of bytes that it had posted, and these are what it had read of the object of the
run's artifact, which it had looked up.  And a call that has returned a result has stored all the
findings it returns, and its run has no others. -/
theorem findings_faithful {cfg : DetonationConfig}
    {h : Pool.Hist DetonationCall DetonationPt DetonationDb DetonationInput Error
      (Option DetonationResult)}
    {p : Pool DetonationCall DetonationPt DetonationDb DetonationInput Error
      (Option DetonationResult)}
    (hr : Pool.Reach (DetonationCall.body cfg) .empty h p) :
    (∀ r ∈ p.store.runs.rows, ∀ r' ∈ p.store.runs.rows, r.tenant = r'.tenant →
      r.artifact = r'.artifact → r = r') ∧
    (∀ f ∈ p.store.findings.rows, ∃ r, p.store.runs.get f.analysisRun = some r ∧
      r.tenant = f.tenant ∧ r.artifact = f.artifact) ∧
    (∀ r ∈ p.store.runs.rows, ∃ n j report, j.tenant = r.tenant ∧ j.artifact = r.artifact ∧
      Answered cfg p.store (doneIn h) n j report ∧
      p.store.findingsOf r.id <+: mapReportToFindings report ∧
      (p.store.findingsOf r.id).length ≤ 50) ∧
    ∀ n res, p.ctl n = .done (some res) → p.store.findingsOf res.analysisRunId = res.findings ∧
      res.findingCount = res.findings.length := by
  have hsound := reach_sound hr
  refine ⟨hsound.db.unique, fun f hf => (hsound.db.findings f hf).2, fun r hr => ?_, fun n res hn => ?_⟩
  · obtain ⟨-, n, j, report, htenant, hartifact, hanswered, hprefix⟩ := hsound.db.runs r hr
    refine ⟨n, j, report, htenant, hartifact, hanswered, hprefix, ?_⟩
    exact le_trans hprefix.length_le (length_mapReportToFindings_le report)
  · obtain ⟨-, hfindings, hcount⟩ := (hsound.calls n).result res hn
    exact ⟨hfindings, hcount⟩

theorem findings_faithful_twice : ∃ h p, Pool.Reach (DetonationCall.body labConfig) .empty h p ∧
    p.store.posts = 2 ∧ p.store.findings.rows.length = 2 ∧
    (∀ r ∈ p.store.runs.rows, r.artifact = 7 ∧ ∃ n j report, j.tenant = r.tenant ∧
      j.artifact = r.artifact ∧ Answered labConfig p.store (doneIn h) n j report) ∧
    ∀ n res, p.ctl n = .done (some res) →
      p.store.findingsOf res.analysisRunId = res.findings := by
  obtain ⟨h, p, hr, hchk⟩ := Pool.exists_reach (DetonationCall.body labConfig) .empty twoDetonations
    (fun _ p => p.store.posts = 2 ∧ p.store.findings.rows.length = 2 ∧
      ∀ r ∈ p.store.runs.rows, r.artifact = 7) (by decide +kernel)
  obtain ⟨hposts, hrows, hseven⟩ := of_decide_eq_true hchk
  obtain ⟨-, -, hruns, hresults⟩ := findings_faithful hr
  refine ⟨h, p, hr, hposts, hrows, fun r hrow => ⟨hseven r hrow, ?_⟩,
    fun n res hn => (hresults n res hn).1⟩
  obtain ⟨n, j, report, htenant, hartifact, hanswered, -⟩ := hruns r hrow
  exact ⟨n, j, report, htenant, hartifact, hanswered⟩

end Corpus.Detonation
