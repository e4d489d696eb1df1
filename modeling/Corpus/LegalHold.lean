/-
The guard of a cleanup (`similarity/lifecycle.rs`).

`cleanup_artifact` asks whether the artifact is under legal hold: a member of its provenance,
whose text is cast to a boolean.  The client has chosen the provenance.  A text that is no
boolean makes the query fail, and a query that fails is taken for "not held".

* `holdRead` — what the query answers, if it answers;
* `fails_closed_iff` — a cleanup leaves everything alone unless it has read that the artifact is
  not held, exactly when the query does not fail.
-/
import Corpus.Cleanup

namespace Prog

variable {L σ ι ε α : Type} {P : L → σ → Prop} {Q : Except ε α → σ → Prop}

/-- A program that is fed one input ends, in what its precondition promises. -/
theorem exists_runPart_ends (i : ι) {p : Prog L σ ι ε α} : ∀ {s : σ}, wp P Q p s →
    ∃ n r s', (p.runPart (List.replicate n i) s).2 = (match r with
      | .ok a => ret a
      | .error e => err e, s') ∧ Q r s' := by
  induction p with
  | ret a => exact fun {s} h => ⟨0, .ok a, s, rfl, h⟩
  | err e => exact fun {s} h => ⟨0, .error e, s, rfl, h⟩
  | stmt l f k ih =>
    intro s h
    obtain ⟨n, r, s', hend, hQ⟩ := ih s i (h.2 i)
    exact ⟨n + 1, r, s', hend, hQ⟩

/-- One statement. -/
def next : Prog L σ ι ε α → σ → ι → Prog L σ ι ε α × σ
  | stmt _ f k, s, i => (k s i, f s i)
  | p, s, _ => (p, s)

theorem runPart_cons (p : Prog L σ ι ε α) (i : ι) (is : List ι) (s : σ) :
    (p.runPart (i :: is) s).2 = ((p.next s i).1.runPart is (p.next s i).2).2 := by
  cases p with
  | ret a => cases is <;> rfl
  | err e => cases is <;> rfl
  | stmt l f k => rfl

end Prog

namespace Corpus

/-! ### What the query answers -/

/-- `(… ->> …)::boolean` of a member: `some none` is NULL, and `none` is an error.  The text of an
array or an object starts with a bracket. -/
def Json.castBoolean : Json → Option (Option Bool)
  | .null => some none
  | .arr _ | .obj _ => none
  | j => (j.asText.bind pgBoolean).map some

/-- The answer of the hold query; nothing, when it fails. -/
def holdRead (env : CleanupEnv) (d : IngestDb) (t x : Uuid) : Option Bool :=
  if env.fails then none
  else match d.artifacts.rows.find? fun a => a.tenant = t && a.id = x with
    | none => some false
    | some a =>
      match a.provenance.get? "legal_hold" with
      | none => some false
      | some j => j.castBoolean.map fun held => held.getD false

/-- `unwrap_or(false)`: the guard goes on with the answer, or with "not held". -/
theorem held_eq (env : CleanupEnv) (d : IngestDb) (t x : Uuid) :
    (if env.fails then false else d.legalHold t x) = (holdRead env d t x).getD false := by
  unfold holdRead IngestDb.legalHold
  by_cases hfails : env.fails
  · rw [if_pos hfails, if_pos hfails]
    rfl
  · rw [if_neg hfails, if_neg hfails]
    cases d.artifacts.rows.find? fun a => a.tenant = t && a.id = x with
    | none => rfl
    | some a =>
      dsimp only
      cases a.provenance.get? "legal_hold" with
      | none => rfl
      | some j =>
        cases j with
        | null => rfl
        | arr _ => rfl
        | obj _ => rfl
        | _ =>
          simp only [Option.bind_some, Json.castBoolean, Json.asText]
          cases pgBoolean _ <;> rfl

/-! ### Failing closed -/

/-- Every run of a cleanup whose hold query gets `env`, wherever it stops: it changes a similarity
table only if it has read that the artifact is not held; else it changes nothing, and returns at
most the counts. -/
def FailsClosed (t x : Uuid) (s : CleanupDb) (env : CleanupEnv) : Prop :=
  ∀ envs : List CleanupEnv,
    let out := ((cleanupArtifact t x false).runPart (env :: envs) s).2
    (out.2.sim ≠ s.sim → holdRead env s.db.ingest t x = some false) ∧
    (holdRead env s.db.ingest t x ≠ some false →
      out.2 = s ∧ ∀ report, out.1 = .ret report → report.dryRun = true)

section Guard

variable {t x : Uuid} {s : CleanupDb} {env : CleanupEnv}

/-- What a cleanup that was not stopped has done: it returned a report that is not a dry run, or it
failed on the way, when the memberships were already deleted. -/
def Acted (d : SimDb) (r : Except Error CleanupReport) (s : CleanupDb) : Prop :=
  match r with
  | .ok report => report.dryRun = false
  | .error _ => s.sim.members ≠ d.members

/-- The repair can fail: then the membership that named the group is gone. -/
theorem wp_repairAndCount_acted {d : SimDb} {s : CleanupDb} (counts : CleanupCounts)
    (hgone : ∀ m ∈ s.sim.members.rows, ¬ (m.tenant = t ∧ m.artifactId = x)) :
    Prog.wp (fun _ _ => True) (fun r s => match r with
      | .ok _ => True
      | .error _ => s.sim.members ≠ d.members) (repairAndCount t counts (d.groupOf t x)) s := by
  -- Without a group there is nothing to repair.
  cases hg : d.groupOf t x with
  | none => trivial
  | some g =>
    refine Prog.wp_seq (fun _ _ => True) ?_ fun _ _ _ => trivial
    unfold repairGroup
    rw [Prog.query_bind, Prog.wp_stmt]
    refine ⟨trivial, fun _ => ?_⟩
    split
    · refine Prog.wp_seq (fun _ s' => ∀ m ∈ s'.sim.members.rows,
        ¬ (m.tenant = t ∧ m.artifactId = x)) ?_ fun _ s' hgone => ?_
      · exact wp_delete trivial fun m hm => hgone m (Table.mem_deleteWhere.mp hm).1
      · refine Prog.wp_exec_bind.mpr ⟨trivial, fun _ => ?_⟩
        split
        · trivial
        -- The membership of the artifact was read before, and is gone.
        · intro hsame
          rw [hsame] at hgone
          exact hgone ⟨t, g, x⟩ (SimDb.mem_members.mpr hg) ⟨rfl, rfl⟩
    · trivial

/-- The deletes, whatever they find. -/
theorem wp_deleteRows_acted (counts : CleanupCounts) (s : CleanupDb) :
    Prog.wp (fun _ _ => True) (Acted s.sim) (deleteRows t x counts) s := by
  unfold deleteRows
  rw [Prog.query_bind, Prog.wp_stmt]
  refine ⟨trivial, fun _ => ?_⟩
  refine Prog.wp_seq (fun _ _ => True) (wp_delete trivial trivial) fun _ s₁ _ => ?_
  refine Prog.wp_seq (fun _ _ => True) (wp_delete trivial trivial) fun _ s₂ _ => ?_
  refine Prog.wp_seq (fun _ _ => True) ⟨trivial, fun _ => trivial⟩ fun _ s₃ _ => ?_
  refine Prog.wp_seq (fun _ _ => True) (wp_delete trivial trivial) fun _ s₄ _ => ?_
  refine Prog.wp_seq (fun _ _ => True) ⟨trivial, fun _ => trivial⟩ fun _ s₅ _ => ?_
  -- From here on the artifact has no membership.
  refine Prog.wp_seq (fun _ s' => ∀ m ∈ s'.sim.members.rows, ¬ (m.tenant = t ∧ m.artifactId = x))
    (wp_delete trivial fun m hm => ?_) fun _ s₆ hgone => ?_
  · simpa using (Table.mem_deleteWhere.mp hm).2
  refine Prog.wp_seq (fun _ s' => ∀ m ∈ s'.sim.members.rows, ¬ (m.tenant = t ∧ m.artifactId = x))
    ⟨trivial, fun env => ?_⟩ fun _ s₇ hgone => ?_
  · show ∀ m ∈ (if env.fails then s₆ else s₆.withSim (s₆.sim.dropReceipts t x)).sim.members.rows, _
    split <;> exact hgone
  refine Prog.wp_seq (fun _ _ => True) ?_ fun counts s₈ _ => ⟨trivial, fun env => rfl⟩
  refine Prog.wp_mono (fun _ _ h => h) ?_ (wp_repairAndCount_acted counts hgone)
  intro r s' h
  cases r with
  | ok c => trivial
  | error e => exact h

/-- The guard stops a cleanup that has read a hold. -/
theorem next_of_held (h : (holdRead env s.db.ingest t x).getD false = true) :
    (cleanupArtifact t x false).next s env =
      (Prog.err (.conflict s!"artifact {printUuid x} is under legal hold; cleanup refused"), s) := by
  rw [← held_eq] at h
  show ((if (if env.fails then false else s.db.ingest.legalHold t x) && !false then _ else _ :
    CleanupProg CleanupReport), s) = _
  rw [h]
  rfl

/-- Behind the guard a cleanup acts. -/
theorem wp_next_acted (h : (holdRead env s.db.ingest t x).getD false = false) :
    Prog.wp (fun _ _ => True) (Acted s.sim) ((cleanupArtifact t x false).next s env).1
      ((cleanupArtifact t x false).next s env).2 := by
  rw [← held_eq] at h
  show Prog.wp _ _ (if (if env.fails then false else s.db.ingest.legalHold t x) && !false then _
    else _) s
  rw [h]
  -- The six counts are read.
  refine ⟨trivial, fun _ => ⟨trivial, fun _ => ⟨trivial, fun _ => ⟨trivial, fun _ =>
    ⟨trivial, fun _ => ⟨trivial, fun _ => ?_⟩⟩⟩⟩⟩⟩
  exact wp_deleteRows_acted _ s

/-- A cleanup fails closed exactly when its hold query answers. -/
theorem fails_closed_iff (t x : Uuid) (s : CleanupDb) (env : CleanupEnv) :
    FailsClosed t x s env ↔ holdRead env s.db.ingest t x ≠ none := by
  unfold FailsClosed
  simp only [Prog.runPart_cons]
  cases hread : holdRead env s.db.ingest t x with
  | none =>
    refine iff_of_false (fun hclosed => ?_) (not_not_intro rfl)
    -- A run to the end: the guard takes the failure for "not held".
    have hacted := wp_next_acted (t := t) (x := x) (s := s) (by rw [hread]; rfl)
    obtain ⟨n, r, s', hend, hQ⟩ := Prog.exists_runPart_ends env hacted
    obtain ⟨hsame, hcounts⟩ := (hclosed (List.replicate n env)).2 (by simp)
    rw [hend] at hsame hcounts
    cases r with
    | ok report =>
      have hdry := hcounts report rfl
      rw [show report.dryRun = false from hQ] at hdry
      cases hdry
    | error e => exact hQ (by rw [show s' = s from hsame])
  | some held =>
    refine iff_of_true (fun envs => ?_) (Option.some_ne_none held)
    cases held with
    | false => exact ⟨fun _ => rfl, fun hne => absurd rfl hne⟩
    | true =>
      rw [next_of_held (by rw [hread]; rfl)]
      have hstop (e : Error) : ((Prog.err e : CleanupProg CleanupReport).runPart envs s).2 =
          (.err e, s) := by
        cases envs <;> rfl
      rw [hstop]
      refine ⟨fun hne => absurd rfl hne, fun _ => ⟨rfl, fun report h => ?_⟩⟩
      cases h

end Guard

/-! ### A hold that is no boolean -/

/-- An artifact whose client wrote "enabled". -/
def enabledHold : Artifact :=
  ⟨1, 0, 1, [1], 1, .pe, .committed, ⟨0, hexEncode [1]⟩, 0, .endpoint,
    .obj [("legal_hold", .str "enabled")]⟩

/-- It has one edge. -/
def heldStore : CleanupDb :=
  let db := ((insertEdge 0 1 2 .exactCopy 1).eval (.drawing 9) Db.empty).2
  ⟨{ db with ingest := { db.ingest with artifacts := Table.empty.insertNew enabledHold } }, []⟩

/-- Its rows are deleted. -/
theorem enabled_hold_ignored : ¬ FailsClosed 0 1 heldStore ⟨false, 0⟩ ∧
    heldStore.sim.edges.rows.length = 1 ∧
    ((cleanupArtifact 0 1 false).eval ⟨false, 0⟩ heldStore).2.sim.edges.rows = [] := by
  have hnone : holdRead ⟨false, 0⟩ heldStore.db.ingest 0 1 = none := by decide
  have hone : heldStore.sim.edges.rows.length = 1 := by rfl
  refine ⟨fun hclosed => ?_, hone, by rfl⟩
  obtain ⟨hread, -⟩ := hclosed (List.replicate 18 ⟨false, 0⟩)
  have hempty : (((cleanupArtifact 0 1 false).runPart (⟨false, 0⟩ :: List.replicate 18 ⟨false, 0⟩)
      heldStore).2).2.sim.edges.rows = [] := by rfl
  have hsome := hread fun hsame => by
    rw [hsame] at hempty
    rw [hempty] at hone
    exact absurd hone (by decide)
  rw [hnone] at hsome
  cases hsome

end Corpus
