/-
Indicators that are stored and then hunted (`intel.rs`, `continuous.rs` and the handler of
`main.rs`).

A batch of indicators is stored one by one.  Those of type sha256 are then looked up among the
artifacts, and each artifact found gets a detection.  The look-ups stop at the first value that is
no digest, and what was stored stays.

* `HashIntelHunted` — every digest of the batch is hunted, and a request that fails has done
  nothing;
* `hash_intel_hunted_iff` — every run of the handler is so exactly when all values of that type
  are digests.
-/
import Corpus.EndpointEvidence
import Corpus.Opinions
import Corpus.VariantGroups
import Mathlib.Data.Fintype.EquivFin

namespace Prog

variable {L σ ι ε α : Type} {P : L → σ → Prop} {Q : Except ε α → σ → Prop}

/-- What holds at the end of every run holds at the end of this one. -/
theorem eval_of_wp (i : ι) {p : Prog L σ ι ε α} : ∀ {s : σ}, wp P Q p s →
    ∃ r s', p.eval i s = (r, s') ∧ Q r s' := by
  induction p with
  | ret a => exact fun {s} h => ⟨.ok a, s, rfl, h⟩
  | err e => exact fun {s} h => ⟨.error e, s, rfl, h⟩
  | stmt l f k ih => exact fun {s} h => ih s i (h.2 i)

theorem wp_attempt {R : Except ε (Option α) → σ → Prop} {p : Prog L σ ι ε α} : ∀ {s : σ},
    wp P (fun r s => R (.ok r.toOption) s) p s → wp P R p.attempt s := by
  induction p with
  | ret a => exact fun h => h
  | err e => exact fun h => h
  | stmt l f k ih => exact fun {s} h => ⟨h.1, fun i => ih s i (h.2 i)⟩

end Prog

namespace Corpus

/-! ### The store -/

/-- A row of `intel_indicator`. -/
structure IntelIndicator where
  id : Uuid
  tenant : Uuid
  source : String
  iocType : String
  value : String
  raw : Json
  firstSeen : Time
  lastSeen : Time

/-- `UNIQUE (tenant_id, source, ioc_type, value)`. -/
def IntelIndicator.key (r : IntelIndicator) : Uuid × String × String × String :=
  (r.tenant, r.source, r.iocType, r.value)

/-- A row of `continuous_reanalysis` written for hash intel. -/
structure HashReanalysis where
  tenant : Uuid
  triggerRef : Option String
  state : String
  detail : Json
  createdAt : Time

/-- The store with the tables of this file. -/
structure IntelDb where
  db : Db
  indicators : Table IntelIndicator.key
  reanalyses : List HashReanalysis

def IntelDb.dbLens : Lens IntelDb Db where
  get s := s.db
  set s d := { s with db := d }
  get_set _ _ := rfl
  set_get _ := rfl
  set_set _ _ _ := rfl

/-- Statements have no names here. -/
abbrev IntelProg := Prog Unit IntelDb Env Error

/-- A program on the rest of the store. -/
def onStore {α : Type} (p : Srv α) : IntelProg α := p.zoom (fun _ => ()) IntelDb.dbLens id

/-! ### The handler -/

/-- `Indicator`. -/
structure Indicator where
  iocType : String
  value : String
  raw : Json

/-- `IndicatorInput`. -/
structure IndicatorInput where
  iocType : String
  value : String
  raw : Option Json

/-- `raw.unwrap_or_else(|| json!({}))`. -/
def IndicatorInput.indicator (i : IndicatorInput) : Indicator :=
  ⟨i.iocType, i.value, i.raw.getD (.obj [])⟩

/-- `eq_ignore_ascii_case("sha256")`. -/
def isSha256 (iocType : String) : Bool := eqIgnoreAsciiCase iocType "sha256"

/-- `INSERT … ON CONFLICT … DO UPDATE SET last_seen, raw`. -/
def IntelDb.upsertIndicator (s : IntelDb) (r : IntelIndicator) : IntelDb :=
  { s with indicators := s.indicators.upsert (match s.indicators.get r.key with
      | none => r
      | some old => { r with id := old.id, firstSeen := old.firstSeen }) }

/-- The row that is bound; `lower` is `str::to_lowercase`. -/
def Indicator.row (lower : String → String) (t : Uuid) (source : String) (i : Indicator)
    (env : Env) : IntelIndicator :=
  ⟨env.uuid 0, t, source, i.iocType, lower i.value, i.raw, env.now, env.now⟩

/-- `intel::upsert_indicators`. -/
def upsertIndicators (lower : String → String) (t : Uuid) (source : String)
    (indicators : List Indicator) : IntelProg ℕ :=
  Prog.loop (fun n i => do
    Prog.update () fun s env => s.upsertIndicator (i.row lower t source env)
    return n + 1) indicators 0

/-- `env_flag_default_on`, of the value of the variable. -/
def envFlagDefaultOn (var : Option String) : Bool :=
  match var with
  | none => true
  | some v =>
    let v := asciiLowercase v
    !(v == "0" || v == "false" || v == "off" || v == "no")

/-- `continuous::insert_record`. -/
def insertHashRecord (t : Uuid) (triggerRef : Option String) (state : String) (detail : Json) :
    IntelProg Unit :=
  Prog.update () fun s env =>
    { s with reanalyses := s.reanalyses ++ [⟨t, triggerRef, state, detail, env.now⟩] }

/-- `ContinuousHashIntelResult`. -/
structure ContinuousHashIntelResult where
  hits : ℕ
  detections : ℕ
  huntIds : List Uuid

/-- The detection of a hit and the events of the triggers; these may fail. -/
def reportHit (t : Uuid) (source : String) (n : ℕ) (h : HashHuntHit) : Srv ℕ := do
  recordDetection (.sim (.fire t)) t h.artifactId "hash_intel" "high"
    s!"Exact-hash intel match ({source})"
    (.obj [("ioc_value", .str h.value), ("source", .str source),
      ("artifact_sha256", .str h.artifactSha256)]) []
  let _ ← (fire (.sim (.fire t)) t "hunt_match" (.obj [("type", .str "hash_intel_match"),
    ("source", .str source), ("artifact_id", .num h.artifactId), ("sha256", .str h.artifactSha256),
    ("ioc", .str h.value)])).attempt
  return n + 1

/-- `continuous::on_hash_indicators`; `debug` is what `{:?}` prints, `var` the variable
CORPUS_AUTO_HASH_INTEL. -/
def onHashIndicators (debug : String → String) (var : Option String) (t : Uuid) (source : String)
    (hashes : List String) : IntelProg ContinuousHashIntelResult :=
  if !envFlagDefaultOn var || hashes.isEmpty then return ⟨0, 0, []⟩
  else do
    let hits ← onStore (hashHunt debug t hashes)
    let detections ← onStore (Prog.loop (reportHit t source) hits 0)
    insertHashRecord t (some source) (if hits.isEmpty then "no_hits" else "hits")
      (.obj [("hashes", .num hashes.length), ("hits", .num hits.length),
        ("detections", .num detections)])
    return ⟨hits.length, detections, []⟩

/-- `IndicatorsUpsertResponse`. -/
structure IndicatorsUpsertResponse where
  upserted : ℕ
  continuous : ContinuousHashIntelResult

/-- The handler of `main.rs`, for a tenant that was resolved. -/
def upsertIndicatorsHandler (lower debug : String → String) (var : Option String) (t : Uuid)
    (source : String) (inputs : List IndicatorInput) : IntelProg IndicatorsUpsertResponse := do
  let indicators := inputs.map IndicatorInput.indicator
  let upserted ← upsertIndicators lower t source indicators
  -- The batch is stored at this point, in statements of its own.
  let shaHashes := (indicators.filter fun i => isSha256 i.iocType).map Indicator.value
  let continuous ← onHashIndicators debug var t source shaHashes
  return ⟨upserted, continuous⟩

/-! ### What a request should do -/

/-- The end of a request: every digest of the batch that is the one of a committed endpoint artifact
has a new detection of it, and if the request failed nothing has changed. -/
structure HashIntelHunted (t : Uuid) (inputs : List IndicatorInput) (s : IntelDb)
    (r : Except Error IndicatorsUpsertResponse) (s' : IntelDb) : Prop where
  hunted : ∃ new, s'.db.hunt.detections = s.db.hunt.detections ++ new ∧
    ∀ i ∈ inputs, isSha256 i.iocType = true →
      ∀ a ∈ s.db.ingest.artifacts.rows, a.tenant = t → a.scope = .endpoint →
        a.storageState = .committed → hexToRaw i.value = some a.sha256 →
          ∃ d ∈ new, d.tenant = t ∧ d.artifactId = a.id ∧ d.source = "hash_intel"
  atomic : ∀ e, r = .error e →
    s'.indicators = s.indicators ∧ s'.db.hunt.detections = s.db.hunt.detections

/-! ### The batch is stored -/

section Stored

variable (lower : String → String) (t : Uuid) (source : String)

theorem wp_upsertIndicators (is : List Indicator) (s : IntelDb) :
    (upsertIndicators lower t source is).wp (fun _ _ => True)
      (fun r s' => (∃ n, r = .ok n) ∧ s'.db = s.db) s := by
  refine Prog.wp_loop (I := fun _ _ s' => s'.db = s.db) ?_ ?_ is 0 s rfl
  · exact fun n s' h => ⟨⟨n, rfl⟩, h⟩
  · exact fun i is n s' h => ⟨trivial, fun env => h⟩

/-- An indicator that was stored was seen now. -/
theorem exists_seen_upsertIndicator (s : IntelDb) (r : IntelIndicator) :
    ∃ x ∈ (s.upsertIndicator r).indicators.rows, x.lastSeen = r.lastSeen := by
  refine ⟨_, Table.mem_upsert.mpr (.inl rfl), ?_⟩
  cases s.indicators.get r.key with
  | none => rfl
  | some old => rfl

/-- Behind a batch that is not empty, an indicator was seen now. -/
theorem exists_seen_upsertIndicators (env : Env) {is : List Indicator} (hne : is ≠ [])
    (s : IntelDb) : ∃ x ∈ ((upsertIndicators lower t source is).eval env s).2.indicators.rows,
      x.lastSeen = env.now := by
  unfold upsertIndicators
  -- The last one, whatever the count and the rows before it.
  generalize 0 = n
  induction is generalizing n s with
  | nil => exact absurd rfl hne
  | cons i is ih =>
    by_cases his : is = []
    · subst his
      exact exists_seen_upsertIndicator s (i.row lower t source env)
    · exact ih his _ (n + 1)

end Stored

/-! ### The digests are hunted -/

section Hunted

variable {debug : String → String} {t : Uuid} {source : String} {hashes : List String}

theorem wp_hashHunt_malformed {s : Db} (h : ∃ v ∈ hashes, hexToRaw v = none) :
    (hashHunt debug t hashes).wp (fun _ _ => True) (fun r s' => (∃ e, r = .error e) ∧ s' = s) s := by
  -- The malformed value is still to come, until the loop fails there.
  refine Prog.wp_loop (I := fun xs _ s' => s' = s ∧ ∃ v ∈ xs, hexToRaw v = none) ?_ ?_ hashes [] s
    ⟨rfl, h⟩
  · rintro hits s' ⟨-, v, hv, -⟩
    exact absurd hv List.not_mem_nil
  · rintro v vs hits s' ⟨rfl, w, hw, hnone⟩
    cases hv : hexToRaw v with
    | none => exact ⟨⟨_, rfl⟩, rfl⟩
    | some raw =>
      refine ⟨trivial, fun _ => ⟨rfl, w, ?_, hnone⟩⟩
      refine (List.mem_cons.mp hw).resolve_left fun heq => ?_
      rw [heq, hv] at hnone
      exact absurd hnone (Option.some_ne_none raw)

/-- The detection of a hit. -/
def Detected (t : Uuid) (new : List Detection) (x : Uuid) : Prop :=
  ∃ d ∈ new, d.tenant = t ∧ d.artifactId = x ∧ d.source = "hash_intel"

/-- Each hit is detected, and no detection is lost. -/
theorem wp_reportHits (hits : List HashHuntHit) (s : Db) :
    (Prog.loop (reportHit t source) hits 0).wp (fun _ _ => True)
      (fun r s' => (∃ n, r = .ok n) ∧ ∃ new, s'.hunt.detections = s.hunt.detections ++ new ∧
        ∀ h ∈ hits, Detected t new h.artifactId) s := by
  -- A hit is detected or still to come.
  refine Prog.wp_loop (I := fun xs _ s' => ∃ new, s'.hunt.detections = s.hunt.detections ++ new ∧
    ∀ h ∈ hits, h ∈ xs ∨ Detected t new h.artifactId) ?_ ?_ hits 0 s
    ⟨[], (List.append_nil _).symm, fun h hh => .inl hh⟩
  · rintro n s' ⟨new, hnew, hall⟩
    exact ⟨⟨n, rfl⟩, new, hnew, fun h hh => (hall h hh).resolve_left List.not_mem_nil⟩
  · rintro x xs n s' ⟨new, hnew, hall⟩
    refine Prog.wp_bind ⟨trivial, fun env => ?_⟩
    refine Prog.wp_bind (Prog.wp_attempt (wp_fire (fun _ => trivial) fun _ o => ?_))
    refine ⟨_, (congrArg (· ++ [_]) hnew).trans (List.append_assoc _ _ _), fun h hh => ?_⟩
    · obtain hin | ⟨d, hd, hrest⟩ := hall h hh
      · obtain rfl | hlater := List.mem_cons.mp hin
        · exact .inr ⟨_, List.mem_append_right _ (List.mem_singleton_self _), rfl, rfl, rfl⟩
        · exact .inl hlater
      · exact .inr ⟨d, List.mem_append_left _ hd, hrest⟩

/-- A committed endpoint artifact is what its digest finds. -/
theorem mem_hashMatches {s : Db} {a : Artifact} {raw : Bytes} : a ∈ s.hashMatches t raw ↔
    a ∈ s.ingest.artifacts.rows ∧ a.tenant = t ∧ a.sha256 = raw ∧ a.scope = .endpoint ∧
      a.storageState = .committed := by
  simp only [Db.hashMatches, List.mem_filter, Bool.and_eq_true, decide_eq_true_iff, and_assoc]

/-- All values are digests: each is hunted. -/
theorem wp_onHashIndicators {var : Option String} (hon : envFlagDefaultOn var = true)
    (hhex : ∀ v ∈ hashes, (hexToRaw v).isSome) (s : IntelDb) :
    (onHashIndicators debug var t source hashes).wp (fun _ _ => True)
      (fun r s' => (∃ result, r = .ok result) ∧
        ∃ new, s'.db.hunt.detections = s.db.hunt.detections ++ new ∧
          ∀ v ∈ hashes, ∀ raw, hexToRaw v = some raw → ∀ a ∈ s.db.hashMatches t raw,
            Detected t new a.id) s := by
  unfold onHashIndicators
  split
  · next hnone =>
    rw [hon, Bool.not_true, Bool.false_or, List.isEmpty_iff] at hnone
    subst hnone
    exact ⟨⟨_, rfl⟩, [], (List.append_nil _).symm, fun v hv => absurd hv List.not_mem_nil⟩
  · refine Prog.wp_bind (Prog.wp_zoom (Prog.wp_mono (fun _ _ h => h) ?_ (wp_hashHunt_all hhex)))
    rintro r d ⟨rfl, hits, rfl, hall⟩
    refine Prog.wp_bind (Prog.wp_zoom (Prog.wp_mono (fun _ _ h => h) ?_ (wp_reportHits hits _)))
    rintro r d ⟨⟨n, rfl⟩, new, hnew, hdetected⟩
    refine ⟨trivial, fun env => ⟨⟨_, rfl⟩, new, hnew, fun v hv raw hraw a ha => ?_⟩⟩
    exact hdetected _ (hall v hv raw hraw a ha)

/-- One value is no digest: nothing is hunted. -/
theorem wp_onHashIndicators_malformed (debug : String → String) (t : Uuid) (source : String)
    {var : Option String}
    (hon : envFlagDefaultOn var = true) (h : ∃ v ∈ hashes, hexToRaw v = none) (s : IntelDb) :
    (onHashIndicators debug var t source hashes).wp (fun _ _ => True)
      (fun r s' => (∃ e, r = .error e) ∧ s' = s) s := by
  obtain ⟨v, hv, -⟩ := id h
  have hne : hashes.isEmpty = false := by
    rw [List.isEmpty_eq_false_iff]
    exact List.ne_nil_of_mem hv
  rw [onHashIndicators, hon, hne]
  refine Prog.wp_bind (Prog.wp_zoom (Prog.wp_mono (fun _ _ h => h) ?_ (wp_hashHunt_malformed h)))
  rintro r d ⟨⟨e, rfl⟩, rfl⟩
  exact ⟨⟨e, rfl⟩, rfl⟩

end Hunted

/-! ### The request -/

section Request

variable {inputs : List IndicatorInput}

/-- The values that are looked up. -/
def shaValues (inputs : List IndicatorInput) : List String :=
  ((inputs.map IndicatorInput.indicator).filter fun i => isSha256 i.iocType).map Indicator.value

theorem mem_shaValues {v : String} : v ∈ shaValues inputs ↔
    ∃ i ∈ inputs, isSha256 i.iocType = true ∧ i.value = v := by
  simp only [shaValues, List.mem_map, List.mem_filter]
  constructor
  · rintro ⟨_, ⟨⟨i, hi, rfl⟩, hsha⟩, rfl⟩
    exact ⟨i, hi, hsha, rfl⟩
  · rintro ⟨i, hi, hsha, rfl⟩
    exact ⟨i.indicator, ⟨⟨i, hi, rfl⟩, hsha⟩, rfl⟩

/-- A time at which no indicator was seen. -/
theorem exists_unseen (s : IntelDb) : ∃ u : Time, ∀ x ∈ s.indicators.rows, x.lastSeen ≠ u := by
  obtain ⟨u, hu⟩ := Infinite.exists_notMem_finset
    (s.indicators.rows.map IntelIndicator.lastSeen).toFinset
  refine ⟨u, fun x hx hseen => hu ?_⟩
  rw [List.mem_toFinset]
  exact List.mem_map.mpr ⟨x, hx, hseen⟩

end Request

/-- Every run hunts every digest of the batch, and changes nothing if it fails, exactly when each
value of type sha256 is a digest. -/
theorem hash_intel_hunted_iff (lower debug : String → String) (var : Option String) (t : Uuid)
    (source : String) (inputs : List IndicatorInput) (s : IntelDb)
    (hon : envFlagDefaultOn var = true) :
    (upsertIndicatorsHandler lower debug var t source inputs).wp (fun _ _ => True)
      (HashIntelHunted t inputs s) s ↔
    ∀ i ∈ inputs, isSha256 i.iocType = true → (hexToRaw i.value).isSome := by
  constructor
  · intro h i hi hsha
    by_contra hsome
    rw [Bool.not_eq_true, Option.isSome_eq_false_iff, Option.isNone_iff_eq_none] at hsome
    have hmalformed : ∃ v ∈ shaValues inputs, hexToRaw v = none :=
      ⟨i.value, mem_shaValues.mpr ⟨i, hi, hsha, rfl⟩, hsome⟩
    have hne : inputs.map IndicatorInput.indicator ≠ [] :=
      List.ne_nil_of_mem (List.mem_map_of_mem hi)
    -- A run at a time that is in no row: the batch is stored, and the hunt fails.
    obtain ⟨u, hu⟩ := exists_unseen s
    let env : Env := { Env.drawing 0 with now := u }
    obtain ⟨x, hx, hseen⟩ := exists_seen_upsertIndicators lower t source env hne s
    obtain ⟨r, s₁, hstored, ⟨n, rfl⟩, -⟩ := Prog.eval_of_wp env
      (wp_upsertIndicators lower t source (inputs.map IndicatorInput.indicator) s)
    obtain ⟨r, s₂, hfailed, ⟨e, rfl⟩, rfl⟩ := Prog.eval_of_wp env
      (wp_onHashIndicators_malformed debug t source hon hmalformed s₁)
    obtain ⟨r, s', heval, hend⟩ := Prog.eval_of_wp env h
    have hboth : (upsertIndicatorsHandler lower debug var t source inputs).eval env s =
        (.error e, s₂) := by
      refine (Prog.eval_bind env _ _ s).trans ?_
      rw [hstored]
      refine (Prog.eval_bind env _ _ s₂).trans ?_
      rw [shaValues] at hfailed
      rw [hfailed]
    obtain ⟨rfl, rfl⟩ := Prod.mk.inj (hboth.symm.trans heval)
    rw [hstored, (hend.atomic e rfl).1] at hx
    exact hu x hx hseen
  · intro hhex
    -- All digests are hunted in the store behind the batch, which has the artifacts as before.
    have hvalues : ∀ v ∈ shaValues inputs, (hexToRaw v).isSome := by
      intro v hv
      obtain ⟨i, hi, hsha, rfl⟩ := mem_shaValues.mp hv
      exact hhex i hi hsha
    refine Prog.wp_bind (Prog.wp_mono (fun _ _ h => h) ?_ (wp_upsertIndicators lower t source _ s))
    rintro r s₁ ⟨⟨n, rfl⟩, hdb⟩
    refine Prog.wp_bind (Prog.wp_mono (fun _ _ h => h) ?_
      (wp_onHashIndicators hon hvalues s₁))
    rintro r s₂ ⟨⟨result, rfl⟩, new, hnew, hall⟩
    rw [hdb] at hnew hall
    refine ⟨⟨new, hnew, fun i hi hsha a ha ht hscope hstate hraw => ?_⟩, fun e he => by cases he⟩
    exact hall i.value (mem_shaValues.mpr ⟨i, hi, hsha, rfl⟩) a.sha256 hraw a
      (mem_hashMatches.mpr ⟨ha, ht, rfl, hscope, hstate⟩)

/-! ### A digest and its neighbour -/

/-- A committed endpoint artifact of one byte of digest. -/
def sampleAb : Artifact :=
  ⟨7, 0, 1, [0xab], 1, .pe, .committed, ⟨0, hexEncode [0xab]⟩, 0, .endpoint, .null⟩

def oneSample : IntelDb where
  db := { Db.empty with ingest := { Db.empty.ingest with
    artifacts := Table.empty.insertNew sampleAb } }
  indicators := .empty
  reanalyses := []

/-- Beside a domain the digest is hunted. -/
theorem hash_intel_hunted_beside_domain :
    let inputs := [⟨"domain", "evil.example", none⟩, ⟨"SHA256", "AB", none⟩]
    (upsertIndicatorsHandler asciiLowercase String.quote none 0 "feed" inputs).wp (fun _ _ => True)
      (HashIntelHunted 0 inputs oneSample) oneSample :=
  (hash_intel_hunted_iff asciiLowercase String.quote none 0 "feed" _ oneSample rfl).mpr (by decide)

/-- Beside a value that is no digest it is not, and both are stored. -/
theorem malformed_neighbour_not_hunted :
    let inputs := [⟨"SHA256", "AB", none⟩, ⟨"sha256", "xyz", none⟩]
    ¬ (upsertIndicatorsHandler asciiLowercase String.quote none 0 "feed" inputs).wp (fun _ _ => True)
      (HashIntelHunted 0 inputs oneSample) oneSample := by
  intro inputs h
  obtain ⟨r, s', heval, hend⟩ := Prog.eval_of_wp (Env.drawing 0) h
  obtain ⟨new, hnew, hall⟩ := hend.hunted
  have hnone : s'.db.hunt.detections = [] := by
    rw [show s' = _ from (congrArg Prod.snd heval).symm]
    rfl
  rw [hnone] at hnew
  obtain ⟨-, rfl⟩ := List.append_eq_nil_iff.mp hnew.symm
  obtain ⟨d, hd, -⟩ := hall _ List.mem_cons_self rfl sampleAb List.mem_cons_self rfl rfl rfl
    (by decide)
  exact List.not_mem_nil hd

end Corpus
