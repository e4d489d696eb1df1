/-
Every call makes the moves of the server, and no others.

`serve_follows` is what every statement about the running server rests on: with
`Pool.Reach.view` it turns histories of programs into histories of moves.  A
function that several calls share is taken with what follows it (`k`), and the
lemma asks only where `k` starts.
-/
import Corpus.Server

namespace Corpus

variable {cfg : Config} {t h : Uuid}

/-! ### Announce and upload -/

theorem announce_follows (req : AnnounceRequest) :
    (announce cfg t req >>= fun r => Prog.ret (.announced r)).Follows (Move cfg) := by
  unfold announce
  cases hexToRaw req.sha256 with
  | none => trivial
  | some sha =>
    simp only [Prog.query_bind, Prog.stmt_bind, Prog.follows_stmt]
    intro s env
    cases hget : s.ingest.artifacts.get (t, sha) with
    | some a =>
      exact ⟨.ingest (.annFound hget), fun s env => ⟨.ingest (.annPresent env.now _), trivial⟩⟩
    | none =>
      refine ⟨.ingest (.annMissing hget), ?_⟩
      simp only [Option.map_none, Prog.bind_assoc', Prog.pure_eq, Prog.ret_bind]
      refine Prog.follows_exec_bind fun s env => ?_
      cases hu : s.ingest.sessions.get (env.uuid 0) with
      | some x =>
        simp only [Option.isSome_some, if_true]
        exact .ingest .refused
      | none =>
        simp only [Option.isSome_none, Bool.false_eq_true, if_false]
        exact ⟨.ingest (.annOpen (env.uuid 0) env.now _ hu), trivial⟩

theorem stageUpload_follows (upload : Uuid) (bytes : Bytes) :
    (stageUpload t upload bytes >>= fun _ => Prog.ret .staged).Follows (Move cfg) := by
  simp only [stageUpload, Prog.query_bind, Prog.stmt_bind, Prog.follows_stmt]
  intro s env
  cases s.ingest.sessionOf t upload with
  | none => exact ⟨.ingest .refused, trivial⟩
  | some session =>
    simp only [Option.map_some]
    split
    · exact ⟨.ingest .stageState, fun s env => ⟨.ingest .stageWrite, trivial⟩⟩
    · exact ⟨.ingest .refused, trivial⟩

/-! ### Hooks of finalize -/

/-- The statement belongs to the similarity analysis. -/
def Pt.isSim : Pt → Prop
  | .sim _ => True
  | _ => False

theorem SimFrame.refl (s : Db) : SimFrame s s := ⟨s.sim, s.outbox, rfl⟩

/-- The program touches the similarity tables and the outbox only. -/
def InSim {α : Type} (p : Srv α) : Prop := p.Within Pt.isSim (fun _ => SimFrame) True

theorem InSim.bind {α β : Type} {p : Srv α} {g : α → Srv β} (hp : InSim p)
    (hg : ∀ a, InSim (g a)) : InSim (p >>= g) := Prog.within_bind hp hg

theorem InSim.ret {α : Type} (a : α) : InSim (Prog.ret a) := trivial

theorem InSim.err {α : Type} (e : Error) : InSim (Prog.err e : Srv α) := trivial

theorem InSim.loop {β γ : Type} {body : γ → β → Srv γ} (hbody : ∀ c x, InSim (body c x))
    (xs : List β) (c : γ) : InSim (Prog.loop body xs c) := Prog.within_loop hbody xs c

theorem InSim.query {α : Type} (p : SimPt) (q : Db → α) : InSim (Prog.query (.sim p) q) :=
  Prog.within_query trivial SimFrame.refl

theorem InSim.update (p : SimPt) (f : Db → Env → SimDb) :
    InSim (Prog.update (.sim p) fun s env => { s with sim := f s env }) :=
  Prog.within_update trivial fun s env => ⟨f s env, s.outbox, rfl⟩

theorem InSim.exec {α : Type} (p : SimPt) {f : Db → Env → Except Error (α × Db)}
    (hf : ∀ s env r, f s env = .ok r → SimFrame s r.2) : InSim (Prog.exec (.sim p) f) := by
  refine Prog.within_exec trivial fun s env => ?_
  cases hr : f s env with
  | ok r => exact hf s env r hr
  | error e => exact ⟨.refl s, trivial⟩

theorem InSim.ite {α : Type} {c : Prop} [Decidable c] {p q : Srv α} (hp : InSim p) (hq : InSim q) :
    InSim (if c then p else q) := by
  split
  · exact hp
  · exact hq

/-- Only the groups, the memberships and the outbox have changed. -/
def GroupFrame (s s' : Db) : Prop :=
  ∃ g m o, s' = { s with sim := { s.sim with groups := g, members := m }, outbox := o }

theorem GroupFrame.refl (s : Db) : GroupFrame s s := ⟨s.sim.groups, s.sim.members, s.outbox, rfl⟩

/-- The program touches the groups, the memberships and the outbox only. -/
def InGroups {α : Type} (p : Srv α) : Prop := p.Within Pt.isSim (fun _ => GroupFrame) True

theorem InGroups.inSim {α : Type} {p : Srv α} (hp : InGroups p) : InSim p := by
  refine hp.mono (fun _ hl => hl) fun _ s s' hF => ?_
  obtain ⟨g, m, o, rfl⟩ := hF
  exact ⟨_, _, rfl⟩

theorem InGroups.exec {α : Type} (p : SimPt) {f : Db → Env → Except Error (α × Db)}
    (hf : ∀ s env r, f s env = .ok r → GroupFrame s r.2) : InGroups (Prog.exec (.sim p) f) := by
  refine Prog.within_exec trivial fun s env => ?_
  cases hr : f s env with
  | ok r => exact hf s env r hr
  | error e => exact ⟨.refl s, trivial⟩

theorem fire_inGroups (condition : String) (event : Json) :
    InGroups (fire (.sim (.fire t)) t condition event) := by
  refine Prog.within_bind (Prog.within_query trivial .refl) fun ids =>
    Prog.within_loop (fun n id => ?_) ids 0
  exact ⟨trivial, fun s env => ⟨⟨s.sim.groups, s.sim.members, _, rfl⟩, trivial⟩⟩

theorem addMember_inGroups (p : SimPt) (g x : Uuid) : InGroups (addMember (.sim p) t g x) := by
  refine InGroups.exec p fun s env r hr => ?_
  split at hr
  · cases hr
  · cases hr
    exact ⟨_, _, _, rfl⟩

theorem unionGroups_inGroups (a b : Uuid) : InGroups (unionGroups t a b) := by
  refine Prog.within_bind (Prog.within_query trivial .refl) fun ga =>
    Prog.within_bind (Prog.within_query trivial .refl) fun gb => ?_
  rcases ga with _ | g1 <;> rcases gb with _ | g2
  · refine Prog.within_bind (InGroups.exec _ fun s env r hr => ?_) fun g =>
      Prog.within_bind (addMember_inGroups _ g a) fun _ => addMember_inGroups _ g b
    split at hr
    · cases hr
    · cases hr
      exact ⟨_, _, _, rfl⟩
  · exact Prog.within_bind (addMember_inGroups _ _ _) fun _ =>
      Prog.within_bind (fire_inGroups _ _) fun _ => trivial
  · exact Prog.within_bind (addMember_inGroups _ _ _) fun _ =>
      Prog.within_bind (fire_inGroups _ _) fun _ => trivial
  · show InGroups (if _ then _ else _)
    split
    · refine Prog.within_bind (InGroups.exec _ fun s env r hr => ?_) fun _ =>
        InGroups.exec _ fun s env r hr => ?_
      · split at hr
        · cases hr
        · cases hr
          exact ⟨_, _, _, rfl⟩
      · split at hr
        · cases hr
        · cases hr
          exact ⟨_, _, _, rfl⟩
    · trivial

theorem unionGroups_inSim (a b : Uuid) : InSim (unionGroups t a b) := (unionGroups_inGroups a b).inSim

theorem insertEdge_inSim (a b : Uuid) (ty : EdgeType) (score : ℚ) :
    InSim (insertEdge t a b ty score) := by
  refine InSim.bind (InSim.exec _ fun s env r hr => ?_) fun inserted => ?_
  · generalize (if a < b then a else b) = src at hr
    generalize (if a < b then b else a) = dst at hr
    split at hr
    · cases hr
      exact ⟨_, _, rfl⟩
    · cases hr
  · exact InSim.ite ((unionGroups_inSim _ _).bind fun _ => .ret _) (.ret _)

theorem countEdge_inSim (x : Uuid) (n : ℕ) (other : Uuid) (ty : EdgeType) (score : ℚ) :
    InSim (countEdge t x n other ty score) :=
  (insertEdge_inSim _ _ _ _).bind fun _ => .ret _

theorem bandCandidates_inSim (x : Uuid) (cap : ℕ) (look : Db → ℕ × String → List Uuid)
    (keys : List (ℕ × String)) (out : List Uuid) : InSim (bandCandidates t x cap look keys out) :=
  InSim.loop (fun _ _ => InSim.ite (.ret _) ((InSim.query _ _).bind fun _ => .ret _)) keys out

/-- The lookup in the bands changes nothing. -/
theorem bandCandidates_reads (x : Uuid) (cap : ℕ) (look : Db → ℕ × String → List Uuid)
    (keys : List (ℕ × String)) (out : List Uuid) :
    (bandCandidates t x cap look keys out).Within (fun _ => True) (fun _ s s' => s' = s) True := by
  refine Prog.within_loop (fun out key => ?_) keys out
  split
  · trivial
  · exact Prog.within_bind (Prog.within_query trivial fun _ => rfl) fun _ => trivial

theorem storeFeature_inSim (x : Uuid) (family : Family) (name version : String)
    (value : FeatureValue) : InSim (storeFeature t x family name version value) :=
  InSim.update _ _

theorem extractAndStore_inSim (an : Analyzer) (x : Uuid) (cls : ArtifactClass) (bytes : Bytes) :
    InSim (extractAndStore an t x cls bytes) := by
  refine (storeFeature_inSim _ _ _ _ _).bind fun _ => InSim.ite
    ((storeFeature_inSim _ _ _ _ _).bind fun _ => .ret _) ?_
  cases significantFunctions an (an.functionsFor cls bytes) ([], 0) with
  | error limitation => exact (storeFeature_inSim _ _ _ _ _).bind fun _ => .ret _
  | ok found =>
    refine InSim.bind (InSim.loop (fun _ _ => InSim.update _ _) _ _) fun _ => ?_
    refine InSim.bind ((InSim.update _ _).bind fun _ =>
      InSim.loop (fun _ _ => InSim.update _ _) _ _) fun _ => ?_
    exact (storeFeature_inSim _ _ _ _ _).bind fun _ => .ret _

theorem linkSemantic_inSim (an : Analyzer) (x : Uuid) (cls : ArtifactClass)
    (scoring : List FunctionRow) (n : ℕ) (other : Uuid) :
    InSim (linkSemantic an t x cls scoring n other) := by
  refine (InSim.query _ _).bind fun _ => InSim.ite (.ret _) ((InSim.query _ _).bind fun fs => ?_)
  dsimp only
  cases classifySemanticEdge modelV1 _ with
  | none => exact .ret _
  | some ty => exact countEdge_inSim _ _ _ _ _

theorem semanticCandidates_inSim (an : Analyzer) (x : Uuid) (scoring : List FunctionRow) :
    InSim (semanticCandidates an t x scoring) :=
  (InSim.query _ _).bind fun _ => InSim.bind (InSim.ite (bandCandidates_inSim _ _ _ _ _) (.ret _))
    fun _ => InSim.ite (InSim.query _ _) (.ret _)

theorem analyzeAndLink_inSim (x : Uuid) (cls : ArtifactClass) (bytes : Bytes) :
    InSim (analyzeAndLink cfg t x cls bytes) :=
  InSim.ite (.ret _) <| (extractAndStore_inSim _ _ _ _).bind fun _ =>
    (InSim.update _ _).bind fun _ => InSim.ite (.ret _) <|
      (storeFeature_inSim _ _ _ _ _).bind fun _ => InSim.ite (.ret _) <|
        (semanticCandidates_inSim _ _ _).bind fun _ =>
          (InSim.loop (linkSemantic_inSim _ _ _ _) _ _).bind fun _ =>
            (InSim.update _ _).bind fun _ => .ret _

theorem fuzzyCandidates_inSim (an : Analyzer) (x : Uuid) (cls : ArtifactClass) (ssdeep : String) :
    InSim (fuzzyCandidates an t x cls ssdeep) := by
  refine (InSim.query _ _).bind fun _ => (InSim.query _ _).bind fun _ =>
    InSim.bind (InSim.ite (bandCandidates_inSim _ _ _ _ _) (.ret _)) fun ids =>
      InSim.ite (InSim.query _ _) (InSim.loop (fun out other => ?_) _ _)
  refine (InSim.query _ _).bind fun row => ?_
  rcases row with _ | ⟨digest, entropy, c⟩
  · exact .ret _
  · exact InSim.ite (.ret _) (.ret _)

theorem linkFuzzy_inSim (an : Analyzer) (x : Uuid) (f : ExtractedFeatures) (n : ℕ)
    (c : Uuid × String × ℚ) : InSim (linkFuzzy an t x f n c) := by
  refine (InSim.query _ _).bind fun size => ?_
  cases size with
  | none => exact .err _
  | some size =>
    dsimp only
    cases byteSimilar an f size.toNat c.2.1 c.2.2 with
    | none => exact .ret _
    | some score => exact countEdge_inSim _ _ _ _ _

/-- The analysis touches the similarity tables and the outbox only. -/
theorem analyzeArtifact_inSim (x : Uuid) (cls : ArtifactClass) (bytes : Bytes) :
    InSim (analyzeArtifact cfg t x cls bytes) := by
  refine InSim.bind (InSim.loop (fun _ _ => storeFeature_inSim _ _ _ _ _) _ _) fun _ => ?_
  refine InSim.bind ((InSim.update _ _).bind fun _ =>
    InSim.loop (fun _ _ => InSim.update _ _) _ _) fun _ => ?_
  refine InSim.bind (InSim.loop (fun n feature => (InSim.query _ _).bind fun ids =>
    InSim.loop (fun n other => (InSim.query _ _).bind fun _ =>
      InSim.ite (.ret _) (countEdge_inSim _ _ _ _ _)) _ _) _ _) fun n => ?_
  refine (fuzzyCandidates_inSim _ _ _ _).bind fun bucket => ?_
  refine (InSim.loop (linkFuzzy_inSim _ _ _) _ _).bind fun n =>
    (analyzeAndLink_inSim _ _ _).bind fun _ => ?_
  cases (cfg.analyzer.extract bytes).compilerHint with
  | none => exact .ret _
  | some hint =>
    exact (InSim.query _ _).bind fun _ => InSim.loop (fun _ _ => countEdge_inSim _ _ _ _ _) _ _

/-! ### Forward coverage -/

section Forward

variable {a : Uuid}

theorem ForwardFrame.refl (hunt : Option Uuid) (s : Db) : ForwardFrame hunt s s where
  rest := ⟨_, _, _, _, _, rfl⟩
  cache := fun hk => hk
  hunts := ⟨Hunt.counters, fun h => by simp⟩

/-- A statement that leaves hunts and cached results alone. -/
theorem ForwardFrame.of_scan {hunt : Option Uuid} {s s' : Db} (hs : ScanFrame s s') :
    ForwardFrame hunt s s' := by
  obtain ⟨⟨M, C, D, o, rfl⟩, hcache⟩ := hs
  exact ⟨⟨_, _, _, _, _, rfl⟩, hcache, ⟨Hunt.counters, fun h => by simp⟩⟩

theorem ScanFrame.refl (s : Db) : ScanFrame s s := ⟨⟨_, _, _, _, rfl⟩, fun hk => hk⟩

theorem ScanFrame.commitMatch (s : Db) (row : HuntMatch) :
    ScanFrame s
      { s with hunt := { s.hunt with huntMatches := s.hunt.huntMatches.insertNew row } } :=
  ⟨⟨_, _, _, _, rfl⟩, fun hk => hk⟩

theorem ScanFrame.commitCacheEntry (s : Db) (row : ScanCacheRow) :
    ScanFrame s { s with hunt := { s.hunt with scanCache := s.hunt.scanCache.insertNew row } } where
  rest := ⟨_, _, _, _, rfl⟩
  cache := fun {k r} hk => by
    show (s.hunt.scanCache.insertNew row).get k = _
    rw [Table.get_insertNew, hk]
    rfl

theorem ScanFrame.detection (s : Db) (ds : List Detection) :
    ScanFrame s { s with hunt := { s.hunt with detections := ds } } :=
  ⟨⟨_, _, _, _, rfl⟩, fun hk => hk⟩

theorem ScanFrame.outbox (s : Db) (o : List OutboxRow) : ScanFrame s { s with outbox := o } :=
  ⟨⟨_, _, _, _, rfl⟩, fun hk => hk⟩

/-- The statements of `forward_scan` that write to `hunt`. -/
def InForward (t a : Uuid) (hunt : Option Uuid) {α : Type} (p : Srv α) : Prop :=
  p.Within (fun l => l = .hunt (.forward t a hunt)) (fun _ => ForwardFrame hunt) True

theorem fire_within {K : Pt → Prop} {F : Pt → Db → Db → Prop} {E : Prop} {l : Pt} (hl : K l)
    (hF : ∀ s s' : Db, ScanFrame s s' → F l s s') (condition : String) (event : Json) :
    (fire l t condition event).Within K F E := by
  refine Prog.within_bind (Prog.within_query hl fun s => hF _ _ (.refl s)) fun ids =>
    Prog.within_loop (fun n id => ?_) ids 0
  exact ⟨hl, fun s env => ⟨hF _ _ (.outbox s _), trivial⟩⟩

theorem creditForward_inForward (outcome : ScanOutcome) (f : Hunt) :
    InForward t a (some f.id) (creditForward cfg t a outcome f) := by
  refine Prog.within_bind (Prog.within_loop (fun _ m => ?_) _ _) fun _ => ?_
  · exact ⟨rfl, fun s env => ⟨.of_scan (.commitMatch s _), trivial⟩⟩
  · refine Prog.within_update rfl fun s env => ⟨⟨_, _, _, _, _, rfl⟩, fun hk => hk,
      ⟨fun r => if r.tenant = t then forwardCounters outcome r.counters else r.counters,
        fun h => ?_⟩⟩
    rw [Db.get_updHunt]
    congr 1
    funext r
    by_cases hid : r.id = f.id
    · by_cases ht : r.tenant = t
      · simp [hid, ht]
      · simp [← hid, ht]
    · simp [hid, Ne.symm hid]

theorem reportForward_inForward (b : Bundle) (outcome : ScanOutcome) (all : List String) :
    InForward t a none (reportForward t a b outcome all) := by
  unfold reportForward
  dsimp only
  split
  · trivial
  · refine Prog.within_bind (Prog.within_update rfl fun s env => .of_scan (.detection s _)) fun _ =>
      Prog.within_bind (Prog.within_loop (fun _ m => ?_) _ _) fun _ => trivial
    refine Prog.within_bind (Prog.within_query rfl fun s => .refl _ s) fun f => ?_
    cases f with
    | none => trivial
    | some f =>
      exact Prog.within_bind (fire_within (K := fun l => l = .hunt (.forward t a none))
        (F := fun _ => ForwardFrame none) rfl (fun _ _ hs => .of_scan hs) _ _) fun _ => trivial

/-- Where a call stands that `forward_scan` may hand over to, or go on from. -/
def PastForward (t a : Uuid) (c : Ctl Pt Reply) : Prop :=
  afterForward c ∨ c = .at (.hunt (.forward t a none))

/-- A part of `forward_scan` and what follows it. -/
theorem InForward.follows_bind {α : Type} {hunt : Option Uuid} {p : Srv α} {k : α → Srv Reply}
    (hp : InForward t a hunt p)
    (hk : ∀ x, PastForward t a (k x).ctl ∧ (k x).Follows (Move cfg)) :
    (p >>= k).Follows (Move cfg) := by
  refine Prog.Within.follows_bind hp ?_ fun x => (hk x).2
  rintro l s s' c rfl hF hc
  rcases hc with ⟨_, rfl⟩ | ⟨x, rfl⟩ | ⟨l', rfl, rfl⟩
  · exact .hunt (.forwardDone hF trivial)
  · rcases (hk x).1 with hafter | heq
    · exact .hunt (.forwardDone hF hafter)
    · rw [heq]
      exact .hunt (.forward hF (.inl rfl))
  · exact .hunt (.forward hF (.inr (.inl rfl)))

/-- A part that writes to no hunt can start where `forward_scan` goes on. -/
theorem InForward.past_bind {α : Type} {p : Srv α} {k : α → Srv Reply} (hp : InForward t a none p)
    (hk : ∀ x, PastForward t a (k x).ctl ∧ (k x).Follows (Move cfg)) :
    PastForward t a (p >>= k).ctl ∧ (p >>= k).Follows (Move cfg) := by
  refine ⟨?_, hp.follows_bind hk⟩
  rcases hp.ctl_bind k with ⟨_, heq⟩ | ⟨x, heq⟩ | ⟨l, rfl, heq⟩
  · rw [heq]
    exact .inl trivial
  · rw [heq]
    exact (hk x).1
  · exact .inr heq

theorem forwardBundle_follows {sha bytes : Bytes} {k : List String → Srv Reply}
    (hk : ∀ x, PastForward t a (k x).ctl ∧ (k x).Follows (Move cfg)) (all : List String)
    (b : Bundle) :
    PastForward t a (forwardBundle cfg t a sha bytes all b >>= k).ctl ∧
      (forwardBundle cfg t a sha bytes all b >>= k).Follows (Move cfg) := by
  unfold forwardBundle
  simp only [Prog.bind_assoc']
  refine InForward.past_bind (Prog.within_query rfl fun s => .refl _ s) fun hit => ?_
  cases hit with
  | some row => exact hk all
  | none =>
    simp only [Prog.bind_assoc']
    refine InForward.past_bind (Prog.within_query rfl fun s => .refl _ s) fun sources => ?_
    cases cfg.compileBundle sources with
    | error e => exact ⟨.inl trivial, trivial⟩
    | ok u =>
      simp only [Prog.bind_assoc']
      refine InForward.past_bind ⟨rfl, fun s env => ⟨.refl _ s, trivial⟩⟩ fun outcome => ?_
      refine InForward.past_bind (Prog.within_update rfl fun s env =>
        .of_scan (.commitCacheEntry s _)) fun _ => ?_
      have hreport := (reportForward_inForward (t := t) (a := a) b outcome all).past_bind hk
      refine ⟨.inr rfl, ?_⟩
      simp only [Prog.query_bind, Prog.follows_stmt]
      intro s env
      cases hf : s.forwardHunt t b.id with
      | none =>
        refine ⟨?_, hreport.2⟩
        rcases hreport.1 with hafter | heq
        · exact .hunt (.forwardDone (.refl _ s) hafter)
        · dsimp only
          rw [heq]
          exact .hunt (.forward (.refl _ s) (.inl rfl))
      | some f =>
        simp only [Prog.bind_assoc']
        have hcredit : InForward t a (some f.id) (creditForward cfg t a outcome f) :=
          creditForward_inForward outcome f
        refine ⟨?_, hcredit.follows_bind fun _ => hreport⟩
        have hmem := List.mem_of_find?_eq_some hf
        have hkind := List.find?_some hf
        simp only [Bool.and_eq_true, decide_eq_true_eq] at hkind
        have hctl : (creditForward cfg t a outcome f >>= fun _ =>
            reportForward t a b outcome all >>= k).ctl =
              .at (.hunt (.forward t a (some f.id))) := by
          unfold creditForward
          cases outcome.ruleMatches <;> rfl
        rw [hctl]
        exact .hunt (.forward (.refl _ s) (.inr (.inr ⟨f, Table.mem_rows_iff.mp hmem, hkind.2, rfl⟩)))

/-- `forward_scan` and what follows it. -/
theorem forwardScan_follows {sha bytes : Bytes} {k : List String → Srv Reply}
    (hk : ∀ x, PastForward t a (k x).ctl ∧ (k x).Follows (Move cfg)) :
    PastForward t a (forwardScan cfg t a sha bytes >>= k).ctl ∧
      (forwardScan cfg t a sha bytes >>= k).Follows (Move cfg) := by
  unfold forwardScan
  rw [Prog.bind_assoc']
  refine InForward.past_bind (Prog.within_query rfl fun s => .refl _ s) fun bundles => ?_
  generalize ([] : List String) = all
  induction bundles generalizing all with
  | nil => exact hk all
  | cons b bundles ih =>
    simp only [Prog.loop, Prog.bind_assoc']
    exact forwardBundle_follows ih all b

end Forward

/-! ### Finalize -/

theorem finalized_follows (a : Uuid) (bytes : Bytes) (reply : Reply) (hr : ∃ r, reply = .finalized r) :
    PastForward t a ((analyzeNewArtifact cfg t a (classify bytes) bytes).attempt >>= fun _ =>
      Prog.ret reply).ctl ∧
    ((analyzeNewArtifact cfg t a (classify bytes) bytes).attempt >>= fun _ =>
      Prog.ret reply).Follows (Move cfg) := by
  obtain ⟨r, rfl⟩ := hr
  have hin : (analyzeNewArtifact cfg t a (classify bytes) bytes).attempt.Within Pt.isSim
      (fun _ => SimFrame) False := Prog.within_attempt (analyzeArtifact_inSim _ _ _)
  constructor
  · rcases hin.ctl_bind fun _ => (Prog.ret (.finalized r) : Srv Reply) with
      ⟨hf, _⟩ | ⟨_, heq⟩ | ⟨l, hl, heq⟩
    · exact hf.elim
    · rw [heq]
      exact .inl trivial
    · rw [heq]
      cases l with
      | sim p => exact .inl trivial
      | ingest p => exact hl.elim
      | hunt p => exact hl.elim
  · refine Prog.Within.follows_bind hin ?_ fun _ => trivial
    intro l s s' c hl hF hc
    cases l with
    | ingest p => exact hl.elim
    | hunt p => exact hl.elim
    | sim p =>
      refine .sim hF ?_
      rcases hc with ⟨hf, _⟩ | ⟨_, rfl⟩ | ⟨l', hl', rfl⟩
      · exact hf.elim
      · exact .inr ⟨r, rfl⟩
      · cases l' with
        | sim p' => exact .inl ⟨p', rfl⟩
        | ingest p' => exact hl'.elim
        | hunt p' => exact hl'.elim

theorem commitUpload_follows (req : FinalizeRequest) (key : Uuid) (bytes : Bytes) (scope : Scope) :
    (commitUpload cfg t req key bytes scope >>= fun r => Prog.ret (.finalized r)).Follows
      (Move cfg) := by
  unfold commitUpload
  simp only [Prog.bind_assoc', Prog.stmt_bind, Prog.ret_bind, Prog.pure_eq]
  refine Prog.follows_call_bind fun s env => ?_
  dsimp only
  cases hc : (s.ingest.cas.commit env.cas key ⟨t, hexEncode (cfg.sha256 bytes)⟩).1 with
  | error e => exact .ingest (.finCommitFailed (Prod.ext hc rfl))
  | ok u =>
    refine ⟨.ingest (.finCommit (Prod.ext hc rfl)), fun s env => ⟨.ingest .finNextval, ?_⟩⟩
    generalize s.ingest.nextSeq = seq
    refine Prog.follows_exec_bind fun s env => ?_
    have hnext : ∀ a, (forwardScan cfg t a (cfg.sha256 bytes) bytes >>= fun ms =>
        (analyzeNewArtifact cfg t a (classify bytes) bytes).attempt >>= fun _ =>
          Prog.ret (.finalized ⟨a, hexEncode (cfg.sha256 bytes), .committed, ms⟩)).Follows
        (Move cfg) :=
      fun a => (forwardScan_follows fun ms => finalized_follows a bytes _ ⟨_, rfl⟩).2
    unfold Db.commitArtifact
    cases hget : s.ingest.artifacts.get (t, cfg.sha256 bytes) with
    | some x => exact ⟨.ingest (.finAdopt env.now hget), hnext x.id⟩
    | none =>
      dsimp only
      cases htaken : s.ingest.artifacts.rows.any fun x => x.id = env.uuid 0 with
      | true => exact .ingest .refused
      | false =>
        have hid : ∀ x ∈ s.ingest.artifacts.rows, x.id ≠ env.uuid 0 := by
          simpa using htaken
        exact ⟨.ingest (.finNew (env.uuid 0) env.now hget hid), hnext (env.uuid 0)⟩

theorem verifyAndCommit_follows (cfg : Config) (req : FinalizeRequest) (key : Uuid)
    (bytes : Bytes) :
    (∀ s : Db, s.ingest.cas.staging key = some bytes → Move cfg (.ingest (.finRead t req key)) s s
      (verifyAndCommit cfg t req key bytes >>= fun r => Prog.ret (.finalized r)).ctl) ∧
    (verifyAndCommit cfg t req key bytes >>= fun r => Prog.ret (.finalized r)).Follows
      (Move cfg) := by
  unfold verifyAndCommit
  dsimp only
  split
  · exact ⟨fun s _ => .ingest (.finSize _), fun s env => ⟨.ingest (.finDiscardSize _), fun s env =>
      ⟨.ingest .finFailSize, trivial⟩⟩⟩
  · next hsize =>
    cases verifyUpload cfg.sha256 bytes req.sha256 with
    | error e =>
      exact ⟨fun s _ => .ingest (.finMismatch bytes), fun s env => ⟨.ingest (.finRecordMismatch _),
        fun s env => ⟨.ingest (.finDiscardMismatch _), trivial⟩⟩⟩
    | ok raw =>
      dsimp only
      cases parseScope (req.scope.getD "endpoint") with
      | none =>
        exact ⟨fun s _ => .ingest .finScope, fun s env => ⟨.ingest (.finDiscardScope _), trivial⟩⟩
      | some scope =>
        exact ⟨fun s hread => .ingest (.finVerified hread (not_not.mp hsize)),
          commitUpload_follows req key bytes scope⟩

theorem finalize_follows (req : FinalizeRequest) :
    (finalize cfg t req >>= fun r => Prog.ret (.finalized r)).Follows (Move cfg) := by
  unfold finalize
  simp only [Prog.query_bind, Prog.stmt_bind, Prog.follows_stmt]
  intro s env
  cases s.ingest.sessionOf t req.uploadId with
  | none => exact ⟨.ingest .refused, trivial⟩
  | some session =>
    dsimp only
    split
    · exact ⟨.ingest .refused, trivial⟩
    · refine ⟨.ingest (.finSession session.stagingKey), ?_⟩
      simp only [Prog.stmt_bind, Prog.follows_stmt]
      intro s env
      cases hread : s.ingest.cas.staging session.stagingKey with
      | none => exact ⟨.ingest .refused, trivial⟩
      | some bytes =>
        obtain ⟨hctl, hrest⟩ := verifyAndCommit_follows cfg req session.stagingKey bytes
        exact ⟨hctl s hread, hrest⟩

/-! ### Enqueue -/

theorem getHunt_follows {l : HuntPt} {k : Hunt → Srv Reply}
    (hnone : ∀ s : Db, s.huntOf t h = none → Move cfg (.hunt l) s s .failed)
    (hsome : ∀ (s : Db) r, s.huntOf t h = some r → Move cfg (.hunt l) s s (k r).ctl)
    (hk : ∀ r, (k r).Follows (Move cfg)) : (getHunt l t h >>= k).Follows (Move cfg) := by
  unfold getHunt
  simp only [Prog.query_bind, Prog.stmt_bind, Prog.follows_stmt]
  intro s env
  cases hrow : s.huntOf t h with
  | none => exact ⟨hnone s hrow, trivial⟩
  | some r => exact ⟨hsome s r hrow, hk r⟩

section Enqueue

variable {who : Who} {k : Hunt → Srv Reply}

/-- What may follow `enqueue_hunt` in a call. -/
def AfterEnqueue (cfg : Config) (t h : Uuid) (who : Who) (k : Hunt → Srv Reply) : Prop :=
  ∀ r, (k r).Follows (Move cfg) ∧ ∀ s : Db, s.huntOf t h = some r →
    Move cfg (.hunt (.enqReturn t h who)) s s (k r).ctl

theorem planHunt_follows (hk : AfterEnqueue cfg t h who k) (pinned : Option ℕ) :
    (planHunt who t h pinned >>= k).Follows (Move cfg) := by
  have hplan : ∀ w planned, ((do
      Prog.update (.hunt (.enqPlan t h who pinned w planned)) fun s _ => s.updHunt t h fun r =>
        { r with
          state := .planned, corpusWatermark := some w, plannedArtifacts := planned, counters := {},
          error := none, completedAt := none }
      Prog.update (.hunt (.enqQueue t h who)) fun s _ => s.updHunt t h fun r =>
        { r with state := .queued }
      Prog.update (.hunt (.enqJob t h who)) fun s env => s.upsertJob t h env.now
      getHunt (.enqReturn t h who) t h) >>= k).Follows (Move cfg) := by
    intro w planned
    refine fun s env => ⟨.hunt .enqPlan, fun s env => ⟨.hunt .enqQueue, fun s env =>
      ⟨.hunt (.enqJob env.now), ?_⟩⟩⟩
    exact getHunt_follows (fun s hs => .hunt (.enqReturnLost hs)) (fun s r hr => (hk r).2 s hr)
      fun r => (hk r).1
  cases pinned with
  | none => exact fun s env => ⟨.hunt .enqMax, fun s env => ⟨.hunt .enqCount, hplan _ _⟩⟩
  | some w => exact fun s env => ⟨.hunt .enqCount, hplan _ _⟩

theorem validateHunt_follows (hk : AfterEnqueue cfg t h who k) (pinned : Option ℕ) :
    (validateHunt cfg who t h pinned >>= k).Follows (Move cfg) := by
  unfold validateHunt
  simp only [Prog.update_bind, Prog.query_bind, Prog.stmt_bind, Prog.follows_stmt]
  refine fun s env => ⟨.hunt .enqValidate, fun s env => ?_⟩
  cases hrow : s.huntOf t h with
  | none => exact ⟨.hunt (.enqBundleLost hrow), trivial⟩
  | some r =>
    refine ⟨.hunt (.enqBundle hrow), ?_⟩
    simp only [Option.map_some, Prog.stmt_bind, Prog.follows_stmt]
    intro s env
    cases hcomp : cfg.compileBundle (s.bundleSources t r.bundleId) with
    | error e => exact ⟨.hunt .enqInvalid, fun s env => ⟨.hunt (.enqFail e env.now), trivial⟩⟩
    | ok u =>
      refine ⟨?_, planHunt_follows hk pinned⟩
      cases pinned with
      | none => exact .hunt (.enqFirst hcomp)
      | some w => exact .hunt (.enqAgain hcomp)

/-- `enqueue_hunt` and what follows it. -/
theorem enqueueHunt_follows (hk : AfterEnqueue cfg t h who k) :
    (enqueueHunt cfg who t h >>= k).Follows (Move cfg) := by
  unfold enqueueHunt
  simp only [Prog.bind_assoc']
  refine getHunt_follows (fun s _ => .hunt .enqRefused) (fun s r hrow => ?_) fun r => ?_
  · split
    · exact .hunt .enqRefused
    · next hkind =>
      split
      · exact .hunt .enqRefused
      · next hstate =>
        cases htier : cfg.minTier with
        | some msg => exact .hunt .enqRefused
        | none =>
          rw [not_or] at hstate
          exact .hunt (.enqGet hrow (not_not.mp hkind) hstate.1 hstate.2 htier)
  · split
    · trivial
    · split
      · trivial
      · cases cfg.minTier with
        | some msg => trivial
        | none => exact validateHunt_follows hk r.corpusWatermark

end Enqueue

/-! ### Execute -/

section Execute

variable {who : Who} {k : Hunt → Srv Reply}

/-- The statements of the scan of one artifact. -/
def InItem (t h : Uuid) (who : Who) (c : Counters) {α : Type} (p : Srv α) : Prop :=
  p.Within (fun l => ∃ step, l = .hunt (.exeItem t h who c step)) (fun _ => ScanFrame) False

theorem commitMatches_inItem {c : Counters} (a : Uuid) (ms : List (String × Json)) (c' : Counters) :
    InItem t h who c
      (commitMatches cfg t h a (fun step => .hunt (.exeItem t h who c step)) ms c') := by
  refine Prog.within_loop (fun c m => ?_) ms c'
  refine Prog.within_bind (p := commitMatch ..) ⟨⟨_, rfl⟩, fun s env =>
    ⟨.commitMatch s _, trivial⟩⟩ fun _ => ?_
  exact Prog.within_bind (fire_within ⟨_, rfl⟩ (fun _ _ hs => hs) _ _) fun _ => trivial

theorem huntItem_inItem {digest : String} (c : Counters) (a : Artifact) :
    InItem t h who c (huntItem cfg who t h digest c a) := by
  refine Prog.within_bind (Prog.within_query ⟨_, rfl⟩ fun s => .refl s) fun hit => ?_
  cases hit with
  | some hit =>
    show InItem t h who c (replayItem ..)
    unfold replayItem
    cases hit.status with
    | timeout => trivial
    | error => trivial
    | clean => trivial
    | matched => exact commitMatches_inItem _ _ _
  | none =>
    refine Prog.within_bind (Prog.within_query ⟨_, rfl⟩ fun s => .refl s) fun content => ?_
    cases content with
    | none => exact ⟨⟨_, rfl⟩, fun s env => ⟨.commitCacheEntry s _, trivial⟩⟩
    | some bytes =>
      refine Prog.within_bind (p := scanBytes ..) ⟨⟨_, rfl⟩, fun s env => ⟨.refl s, trivial⟩⟩
        fun outcome => ?_
      refine Prog.within_bind (p := commitCacheEntry ..) ⟨⟨_, rfl⟩, fun s env =>
        ⟨.commitCacheEntry s _, trivial⟩⟩ fun _ => ?_
      cases outcome.status with
      | timeout => trivial
      | error => trivial
      | clean => trivial
      | matched =>
        exact Prog.within_bind (p := recordDetection ..) ⟨⟨_, rfl⟩, fun s env =>
          ⟨.detection s _, trivial⟩⟩ fun _ => commitMatches_inItem _ _ _

/-- What may follow `execute_hunt` in a call. -/
def AfterExecute (k : Hunt → Srv Reply) : Prop :=
  ∀ r, k r = Prog.ret (.ran r) ∨ k r = Prog.ret (.worked (some r))

theorem AfterExecute.follows (hk : AfterExecute k) (r : Hunt) : (k r).Follows (Move cfg) := by
  rcases hk r with heq | heq <;> rw [heq] <;> trivial

theorem AfterExecute.ctl (hk : AfterExecute k) (r : Hunt) :
    ∃ x, (k r).ctl = .done (.ran x) ∨ (k r).ctl = .done (.worked (some x)) := by
  rcases hk r with heq | heq
  · exact ⟨r, .inl (by rw [heq]; rfl)⟩
  · exact ⟨r, .inr (by rw [heq]; rfl)⟩

theorem finishHunt_follows (hk : AfterExecute k) (c : Counters) :
    (finishHunt who t h c >>= k).Follows (Move cfg) := by
  refine fun s env => ⟨.hunt (.exeFinal env.now), fun s env => ⟨.hunt (.exeJobDone env.now), ?_⟩⟩
  exact getHunt_follows (fun s _ => .hunt (.exeReturn (.inl rfl)))
    (fun s r _ => .hunt (.exeReturn (.inr (hk.ctl r)))) hk.follows

/-- The loop over the artifacts still to come, and what follows it: it starts at
the first artifact or, with none left, at the final write. -/
theorem scanLoop_follows (cfg : Config) (t h : Uuid) (who : Who) (digest : String)
    (hk : AfterExecute k) (as : List Artifact) :
    ∀ c : Counters,
    let rest := Prog.loop (huntStep cfg who t h digest) as c >>= fun c => finishHunt who t h c >>= k
    (rest.ctl = .at (.hunt (.exeItem t h who c .lookup)) ∨
      rest.ctl = .at (.hunt (.exeFinal t h who c))) ∧ rest.Follows (Move cfg) := by
  induction as with
  | nil => exact fun c => ⟨.inr rfl, finishHunt_follows hk c⟩
  | cons a as ih =>
    intro c
    refine ⟨.inl rfl, ?_⟩
    simp only [Prog.loop, huntStep, Prog.bind_assoc', Prog.update_bind, Prog.stmt_bind,
      Prog.pure_eq, Prog.ret_bind]
    refine Prog.Within.follows_bind (huntItem_inItem c a) ?_ fun c' s env => ⟨?_, (ih c').2⟩
    · rintro l s s' x ⟨step, rfl⟩ hF hx
      rcases hx with ⟨hfalse, _⟩ | ⟨c', rfl⟩ | ⟨l', ⟨step', rfl⟩, rfl⟩
      · exact hfalse.elim
      · exact .hunt (.exeItemDone hF)
      · exact .hunt (.exeItem hF)
    · rcases (ih c').1 with heq | heq
      · rw [heq]
        exact .hunt .exeProgress
      · rw [heq]
        exact .hunt .exeLast

theorem scanHunt_follows (hk : AfterExecute k) (digest : String) (w : ℕ) :
    (scanHunt cfg who t h digest w >>= k).Follows (Move cfg) := by
  unfold scanHunt
  simp only [Prog.update_bind, Prog.query_bind, Prog.stmt_bind, Prog.bind_assoc',
    Prog.follows_stmt]
  refine fun s env => ⟨.hunt (.exeRunning env.now), fun s env => ⟨.hunt (.exeClaim env.now),
    fun s env => ?_⟩⟩
  obtain ⟨hctl, hrest⟩ := scanLoop_follows cfg t h who digest hk
    ((s.plannedArtifacts t w).insertionSort fun x y => x.seq ≤ y.seq) {}
  refine ⟨?_, hrest⟩
  rcases hctl with heq | heq
  · rw [heq]
    exact .hunt .exeSelect
  · rw [heq]
    exact .hunt .exeSelectNone

/-- `execute_hunt` and what follows it. -/
theorem executeHunt_follows (hk : AfterExecute k) :
    (executeHunt cfg who t h >>= k).Follows (Move cfg) := by
  unfold executeHunt
  simp only [Prog.bind_assoc']
  refine getHunt_follows (fun s hs => .hunt (.exeRefused fun r hr => ?_)) (fun s r hrow => ?_)
    fun r => ?_
  · rw [hs] at hr
    cases hr
  · split
    · next hkind =>
      refine .hunt (.exeRefused fun r' hr' => ?_)
      rw [hrow] at hr'
      cases hr'
      exact hkind
    · next hkind => exact .hunt (.exeGet hrow (not_not.mp hkind))
  · split
    · trivial
    · simp only [Prog.query_bind, Prog.stmt_bind, Prog.follows_stmt]
      intro s env
      cases hrow : s.huntOf t h with
      | none => exact ⟨.hunt (.exeBundleLost hrow), trivial⟩
      | some r' =>
        refine ⟨.hunt (.exeBundle hrow), ?_⟩
        simp only [Option.map_some, Prog.stmt_bind, Prog.follows_stmt]
        intro s env
        cases hcomp : cfg.compileBundle (s.bundleSources t r'.bundleId) with
        | error e =>
          refine ⟨.hunt (.exeInvalid (.inl ?_)), fun s env => ⟨.hunt (.exeFail e env.now), trivial⟩⟩
          rw [hcomp]
          exact fun heq => by cases heq
        | ok u =>
          dsimp only
          cases r.corpusWatermark with
          | none => exact ⟨.hunt .exeUnpinned, trivial⟩
          | some w =>
            dsimp only
            cases htier : cfg.minTier with
            | some msg =>
              refine ⟨.hunt (.exeInvalid (.inr ?_)),
                fun s env => ⟨.hunt (.exeFail msg env.now), trivial⟩⟩
              rw [htier]
              exact fun heq => by cases heq
            | none => exact ⟨.hunt .exeSources, scanHunt_follows hk r.bundleDigest w⟩

end Execute

/-! ### Publish and activate -/

theorem getBundle_follows {l : HuntPt} {digest : String} {k : Bundle → Srv Reply}
    (hnone : ∀ s : Db, Move cfg (.hunt l) s s .failed)
    (hsome : ∀ (s : Db) b, s.hunt.bundles.get (t, digest) = some b →
      Move cfg (.hunt l) s s (k b).ctl)
    (hk : ∀ b, b.digest = digest → (k b).Follows (Move cfg)) :
    (getBundle l t digest >>= k).Follows (Move cfg) := by
  unfold getBundle
  simp only [Prog.query_bind, Prog.stmt_bind, Prog.follows_stmt]
  intro s env
  cases hrow : s.hunt.bundles.get (t, digest) with
  | none => exact ⟨hnone s, trivial⟩
  | some b => exact ⟨hsome s b hrow, hk b (congrArg Prod.snd (Table.mem_of_get hrow).2)⟩

/-- `create_hunt` and what follows it: the reply, or the enqueue of an activation. -/
theorem createHunt_follows {who : Who} {digest : String} {k : Hunt → Srv Reply}
    (hk : ∀ id bundle now, ((k (draftHunt id t bundle digest now)).ctl =
        .done (.created (draftHunt id t bundle digest now)) ∨
      (who = .activation ∧ (k (draftHunt id t bundle digest now)).ctl =
        .at (.hunt (.enqGet t id .activation)))) ∧
      (k (draftHunt id t bundle digest now)).Follows (Move cfg)) :
    (createHunt who t digest >>= k).Follows (Move cfg) := by
  unfold createHunt
  simp only [Prog.bind_assoc']
  refine getBundle_follows (fun s => .hunt .newNone) (fun s b hb => .hunt (.newBundle hb))
    fun b _ => Prog.follows_exec_bind fun s env => ?_
  unfold Db.insertHunt
  cases hid : s.hunt.hunts.get (env.uuid 0) with
  | some r =>
    have hsome : (s.hunt.hunts.get (draftHunt (env.uuid 0) t b.id digest env.now).id).isSome := by
      show (s.hunt.hunts.get (env.uuid 0)).isSome = true
      rw [hid]
      rfl
    rw [if_pos hsome]
    exact .hunt .newRefused
  | none =>
    have hnone : ¬ (s.hunt.hunts.get (draftHunt (env.uuid 0) t b.id digest env.now).id).isSome := by
      show ¬ (s.hunt.hunts.get (env.uuid 0)).isSome = true
      rw [hid]
      simp
    rw [if_neg hnone]
    obtain ⟨hctl, hrest⟩ := hk (env.uuid 0) b.id env.now
    exact ⟨.hunt (.newInsert (env.uuid 0) env.now hid hctl), hrest⟩

theorem recordReanalysis_follows {l : HuntPt} {digest : String} {state : ReanalysisState}
    {k : Unit → Srv Reply}
    (hmove : ∀ (s : Db) rs, Move cfg (.hunt l) s { s with hunt := { s.hunt with reanalyses := rs } }
      (k ()).ctl) (hk : (k ()).Follows (Move cfg)) :
    (recordReanalysis l t digest h state >>= k).Follows (Move cfg) :=
  fun s _ => ⟨hmove s _, hk⟩

theorem onBundleActivated_follows (b : Bundle) (digest : String) :
    (∀ s : Db, Move cfg (.hunt (.pubGet t digest)) s s
      (onBundleActivated cfg t digest >>= fun hunt => Prog.ret (.published b hunt)).ctl) ∧
    (onBundleActivated cfg t digest >>= fun hunt => Prog.ret (.published b hunt)).Follows
      (Move cfg) := by
  unfold onBundleActivated
  split
  · exact ⟨fun s => .hunt (.pubDone b), trivial⟩
  · refine ⟨fun s => .hunt .pubActivate, ?_⟩
    simp only [Prog.query_bind, Prog.stmt_bind, Prog.follows_stmt]
    intro s env
    cases hopen : s.openRetro t digest with
    | some e =>
      refine ⟨.hunt (.actFound hopen), ?_⟩
      have hreuse : ((recordReanalysis (.actReused t digest e.id) t digest e.id .reused >>= fun _ =>
          getHunt (.actReturn t e.id) t e.id >>= fun hunt => pure (some hunt)) >>= fun hunt =>
            Prog.ret (.published b hunt)).Follows (Move cfg) := by
        simp only [Prog.bind_assoc']
        refine recordReanalysis_follows (fun s rs => .hunt (.actReused rs)) ?_
        exact getHunt_follows (fun s _ => .hunt .actReturnLost)
          (fun s r hr => .hunt (.actReturn b hr)) fun r => trivial
      simp only [Prog.bind_assoc'] at hreuse ⊢
      refine getHunt_follows (fun s _ => .hunt .actLost) (fun s r hr => ?_) fun r => ?_
      · split
        · next hdraft => exact .hunt (.actDraft hr hdraft)
        · next hdraft => exact .hunt (.actReuse hr hdraft)
      · split
        · simp only [Prog.bind_assoc']
          exact enqueueHunt_follows fun r => ⟨hreuse, fun s hs =>
            .hunt (.enqReturn hs (.inr (.inr (.inl ⟨rfl, digest, rfl⟩))))⟩
        · simp only [Prog.bind_assoc']
          exact hreuse
    | none =>
      refine ⟨.hunt (.actNew hopen), ?_⟩
      simp only [Prog.bind_assoc']
      refine createHunt_follows fun id bundle now => ⟨.inr ⟨rfl, rfl⟩, enqueueHunt_follows ?_⟩
      refine fun r => ⟨?_, fun s hs => .hunt (.enqReturn hs (.inr (.inr (.inr ⟨rfl, digest, rfl⟩))))⟩
      exact recordReanalysis_follows (fun s rs => .hunt (.actEnqueued b rs)) trivial

theorem bundleMembers_within (ids : List Uuid) (members : List Rule) :
    (bundleMembers t ids members).Within (fun l => ∃ r, l = .hunt (.pubRule t r))
      (fun _ s s' => s' = s) True := by
  refine Prog.within_loop (fun members id => ?_) ids members
  refine Prog.within_bind (Prog.within_query ⟨id, rfl⟩ fun s => rfl) fun r => ?_
  cases r with
  | none => trivial
  | some rule =>
    dsimp only
    split <;> trivial

/-- The part of the publish handler from its transaction on. -/
theorem publishTx_follows (members : List Rule) (digest : String) (activate : Bool) :
    ((Prog.exec (.hunt (.pubTx t digest activate)) fun s env =>
        s.publish cfg t members digest activate env) >>= fun _ =>
      getBundle (.pubGet t digest) t digest >>= fun bundle =>
        (if activate then onBundleActivated cfg t bundle.digest >>= fun hunt => pure (bundle, hunt)
          else pure (bundle, none)) >>= fun r =>
            Prog.ret (.published r.1 r.2)).Follows (Move cfg) := by
  refine Prog.follows_exec_bind fun s env => ?_
  cases hpub : s.publish cfg t members digest activate env with
  | error e => exact .hunt .pubTxRefused
  | ok r =>
    refine ⟨.hunt (.pubTx hpub), getBundle_follows (fun s => .hunt .pubLost) (fun s b hb => ?_)
      fun b hb => ?_⟩
    · have hdigest : b.digest = digest := congrArg Prod.snd (Table.mem_of_get hb).2
      split
      · simp only [Prog.bind_assoc', hdigest]
        exact (onBundleActivated_follows b digest).1 s
      · exact .hunt (.pubDone b)
    · split
      · simp only [Prog.bind_assoc', hb]
        exact (onBundleActivated_follows b digest).2
      · trivial

theorem publishHandler_follows (ruleIds : List Uuid) (activate : Bool) :
    (publishHandler cfg t ruleIds activate >>= fun r => Prog.ret (.published r.1 r.2)).Follows
      (Move cfg) := by
  unfold publishHandler publishBundle
  split
  · trivial
  · simp only [Prog.bind_assoc']
    refine Prog.Within.follows_bind (bundleMembers_within ruleIds []) ?_ fun found => ?_
    · rintro l s s' c ⟨r, rfl⟩ rfl hc
      rcases hc with ⟨_, rfl⟩ | ⟨found, rfl⟩ | ⟨l', ⟨r', rfl⟩, rfl⟩
      · exact .hunt .pubRefused
      · cases cfg.compileBundle ((found.insertionSort fun x y => x.stableId ≤ y.stableId).map
          fun r => (r.ns, r.source)) with
        | error e => exact .hunt .pubRefused
        | ok u => exact .hunt .pubRules
      · exact .hunt .pubRule
    · cases cfg.compileBundle ((found.insertionSort fun x y => x.stableId ≤ y.stableId).map
        fun r => (r.ns, r.source)) with
      | error e => trivial
      | ok u =>
        simp only [Prog.bind_assoc']
        exact publishTx_follows _ _ activate

/-! ### The server -/

/-- **Every call makes the moves of the server.** -/
theorem serve_follows (cfg : Config) (c : Call) : (serve cfg c).Follows (Move cfg) := by
  cases c with
  | announce t req => exact announce_follows req
  | stageUpload t upload bytes => exact stageUpload_follows upload bytes
  | finalize t req => exact finalize_follows req
  | publish t ids activate => exact publishHandler_follows ids activate
  | createHunt t digest => exact createHunt_follows fun id bundle now => ⟨.inl rfl, trivial⟩
  | enqueueHunt t h =>
    exact enqueueHunt_follows fun r => ⟨trivial, fun s hs => .hunt (.enqReturn hs (.inl ⟨rfl, rfl⟩))⟩
  | runHunt t h =>
    show ((enqueueHunt cfg .sync t h >>= fun _ => executeHunt cfg .sync t h) >>= _).Follows _
    rw [Prog.bind_assoc']
    refine enqueueHunt_follows fun r => ⟨executeHunt_follows fun r => .inl rfl, fun s hs => ?_⟩
    exact .hunt (.enqReturn hs (.inr (.inl ⟨rfl, rfl⟩)))
  | worker name =>
    show ((claimNextJob name >>= _) >>= _).Follows _
    rw [Prog.bind_assoc']
    refine Prog.follows_exec_bind fun s env => ?_
    dsimp only
    cases hjob : s.nextJob with
    | none => exact ⟨.hunt (.claimNone hjob), trivial⟩
    | some j =>
      refine ⟨.hunt (.claim env.now hjob), ?_⟩
      simp only [Prog.bind_assoc']
      exact executeHunt_follows fun r => .inr rfl

theorem serve_takes (cfg : Config) (c : Call) : (serve cfg c).Takes fun l _ => Move cfg l :=
  (serve_follows cfg c).takes

theorem serve_entry (cfg : Config) (c : Call) : Entry (serve cfg c).ctl := by
  cases c with
  | announce t req =>
    simp only [serve, announce]
    cases hexToRaw req.sha256 with
    | none => exact .refused
    | some sha => exact .announce t req sha
  | stageUpload t upload bytes => exact .stageUpload t upload bytes
  | finalize t req => exact .finalize t req
  | publish t ids activate =>
    cases ids with
    | nil => exact .refused
    | cons id ids => exact .publish t id
  | createHunt t digest => exact .createHunt t digest
  | enqueueHunt t h => exact .enqueueHunt t h
  | runHunt t h => exact .runHunt t h
  | worker name => exact .worker name

end Corpus
