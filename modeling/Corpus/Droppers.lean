/-
Dropper candidates (`analyst.rs`).

`dropper_candidates` looks for artifacts whose first observation on a host is near one of the
seed artifact, or of a member of its variant group, on the same host.  One query finds the pairs
of artifact and host, sorts them by the time between, and returns as many as asked; those of
artifacts that many hosts have are then left out.

* `dropRows` — the rows of the query, before they are sorted;
* `Near`, `Qualifying`, `BestLeads` — what is looked for;
* `mem_dropRows_iff` — the rows are the pairs that are near;
* `best_leads_iff` — the result is the best leads, in whatever order the database returns equal
  rows, exactly when no pair of a widespread artifact displaces one that qualifies.

Times are in microseconds, as `timestamptz` has them.
-/
import Corpus.Analysis
import Corpus.Limits
import Corpus.Machine
import Corpus.SortOrders
import Mathlib.Data.List.MinMax
import Mathlib.Data.Set.Card
import Mathlib.Order.Lattice.Nat

namespace Corpus

/-! ### The query -/

/-- A row of the query. -/
structure DropRow where
  id : Uuid
  sha256 : Bytes
  hostName : String
  path : Option String
  hostCount : ℕ
  minDelta : ℕ
  firstObserved : Option Time
  deriving DecidableEq

structure DropperCandidate where
  artifactId : Uuid
  sha256 : String
  hostName : String
  path : Option String
  hostCount : ℕ
  minTimeDeltaSecs : ℕ
  firstObserved : Option Time

/-- The members of the variant group of an artifact (`group_members`); a member is an artifact. -/
def Db.groupMembers (s : Db) (t x : Uuid) : List Uuid :=
  match s.sim.groupOf t x with
  | none => []
  | some g => ((s.sim.members.rows.filter fun m => m.tenant = t && m.groupId = g).map
      GroupMember.artifactId).filter fun y => (s.artifactById t y).isSome

/-- The occurrences of an artifact. -/
def Db.occurrencesOf (s : Db) (t x : Uuid) : List OccurrenceEvent :=
  s.ingest.occurrences.rows.filter fun o => o.tenant = t && o.artifactId = some x

/-- The earliest occurrence of an artifact on a host. -/
def Db.firstOn (s : Db) (t x : Uuid) (host : String) : Option OccurrenceEvent :=
  (((s.occurrencesOf t x).filter fun o => o.info.hostName = host).insertionSort fun o o' =>
    o.info.observedAt ≤ o'.info.observedAt).head?

/-- The pairs of `first_occ`. -/
def Db.pairsBeside (s : Db) (t : Uuid) (seeds : List Uuid) : List (Uuid × String) :=
  (s.ingest.occurrences.rows.filterMap fun o =>
    match o.artifactId with
    | none => none
    | some x =>
      -- An occurrence of an artifact outside the seeds, of endpoint scope.
      if o.tenant = t ∧ x ∉ seeds ∧ (s.artifactById t x).map Artifact.scope = some .endpoint then
        some (x, o.info.hostName)
      else none).dedup

/-- How far from `first` the seed was seen on the host, within a window of `w` seconds. -/
def Db.gapsWithin (s : Db) (t : Uuid) (seeds : List Uuid) (w : ℤ) (host : String)
    (first : Time) : List ℕ :=
  (((seeds.flatMap (s.occurrencesOf t)).filter fun o => o.info.hostName = host).map fun o =>
    (first - o.info.observedAt).natAbs).filter fun d => (d : ℤ) ≤ w * 1000000

/-- `extract(epoch …)::bigint`, from microseconds. -/
def toSeconds (micros : ℕ) : ℕ := (micros + 500000) / 1000000

/-- The row of a pair, if it is near the seed. -/
def Db.dropRow (s : Db) (t : Uuid) (seeds : List Uuid) (w : ℤ) (p : Uuid × String) :
    Option DropRow := do
  let first ← s.firstOn t p.1 p.2
  let gap ← (s.gapsWithin t seeds w p.2 first.info.observedAt).min?
  let a ← s.artifactById t p.1
  return {
    id := p.1
    sha256 := a.sha256
    hostName := p.2
    path := some first.info.path
    hostCount := ((s.occurrencesOf t p.1).map fun o => o.info.hostName).dedup.length
    minDelta := toSeconds gap
    firstObserved := ((s.occurrencesOf t p.1).map fun o => o.info.observedAt).min? }

/-- The rows before they are sorted. -/
def Db.dropRows (s : Db) (t : Uuid) (seeds : List Uuid) (w : ℤ) : List DropRow :=
  (s.pairsBeside t seeds).filterMap (s.dropRow t seeds w)

/-- `ORDER BY min_delta`: the database orders rows of equal delta as it likes. -/
abbrev RowOrder := SortOrder DropRow.minDelta

def DropRow.candidate (r : DropRow) : DropperCandidate :=
  ⟨r.id, hexEncode r.sha256, r.hostName, r.path, r.hostCount, r.minDelta, r.firstObserved⟩

/-- The seed and the members of its group. -/
def Db.seedIds (s : Db) (t : Uuid) (raw : Bytes) : List Uuid :=
  match s.ingest.artifacts.get (t, raw) with
  | none => []
  | some a => a.id :: s.groupMembers t a.id

/-- `dropper_candidates`. -/
def dropperCandidates (m : Arith) (debug : String → String) (order : RowOrder) (s : Db) (t : Uuid)
    (seedSha256 : String) (maxHosts windowHours : ℤ) (limit : ℕ) :
    Checked (Except Error (List DropperCandidate)) :=
  match hexToRaw seedSha256 with
  | none => .ok (.error (.badRequest s!"invalid sha256 hex: {debug seedSha256}"))
  | some raw =>
    match s.ingest.artifacts.get (t, raw) with
    | none => .ok (.ok [])
    | some _ => do
      let windowSecs ← m.signed 64 (windowHours * 3600)
      -- The limit is applied by the query, before the hosts are counted.
      let rows := (order.sort (s.dropRows t (s.seedIds t raw) windowSecs)).take limit
      return .ok ((rows.filter fun r => (r.hostCount : ℤ) ≤ maxHosts).map DropRow.candidate)

/-! ### What is looked for -/

/-- The artifact was observed on the host at the time. -/
def Db.ObservedAt (s : Db) (t x : Uuid) (host : String) (u : Time) : Prop :=
  ∃ o ∈ s.ingest.occurrences.rows, o.tenant = t ∧ o.artifactId = some x ∧ o.info.hostName = host ∧
    o.info.observedAt = u

/-- The first observation of the artifact on the host. -/
def Db.FirstAt (s : Db) (t x : Uuid) (host : String) (u : Time) : Prop :=
  IsLeast {u | s.ObservedAt t x host u} u

/-- The hosts that have the artifact. -/
def Db.hostsOf (s : Db) (t x : Uuid) : Set String := {host | ∃ u, s.ObservedAt t x host u}

/-- A time between the first observation of a pair and an observation of the seed there. -/
def Db.Gap (s : Db) (t : Uuid) (seeds : List Uuid) (p : Uuid × String) (d : ℕ) : Prop :=
  ∃ first, s.FirstAt t p.1 p.2 first ∧ ∃ y ∈ seeds, ∃ u, s.ObservedAt t y p.2 u ∧
    d = (first - u).natAbs

/-- The pairs near the seed: outside the seed set, of endpoint scope, first observed within `w`
seconds of an observation of the seed on the same host. -/
def Db.Near (s : Db) (t : Uuid) (seeds : List Uuid) (w : ℤ) : Set (Uuid × String) :=
  {p | p.1 ∉ seeds ∧ (∃ a, s.artifactById t p.1 = some a ∧ a.scope = .endpoint) ∧
    ∃ d, s.Gap t seeds p d ∧ (d : ℤ) ≤ w * 1000000}

/-- The time between, in seconds. -/
noncomputable def Db.minDelta (s : Db) (t : Uuid) (seeds : List Uuid) (p : Uuid × String) : ℕ :=
  toSeconds (sInf {d | s.Gap t seeds p d})

/-- The pairs near the seed of artifacts that few hosts have. -/
def Db.Qualifying (s : Db) (t : Uuid) (seeds : List Uuid) (w : ℤ) (maxHosts : ℤ) :
    Set (Uuid × String) :=
  {p ∈ s.Near t seeds w | ((s.hostsOf t p.1).ncard : ℤ) ≤ maxHosts}

/-- The result is the best that there is: as many pairs that qualify as asked for, with their
time between, and none left out that is nearer. -/
structure BestLeads (s : Db) (t : Uuid) (seeds : List Uuid) (w : ℤ) (maxHosts : ℤ)
    (limit : ℕ) (leads : List DropperCandidate) : Prop where
  length : leads.length = min limit (s.Qualifying t seeds w maxHosts).ncard
  different : (leads.map fun c => (c.artifactId, c.hostName)).Nodup
  qualifies : ∀ c ∈ leads, (c.artifactId, c.hostName) ∈ s.Qualifying t seeds w maxHosts
  delta : ∀ c ∈ leads, c.minTimeDeltaSecs = s.minDelta t seeds (c.artifactId, c.hostName)
  nearest : ∀ p ∈ s.Qualifying t seeds w maxHosts, p ∉ leads.map (fun c => (c.artifactId, c.hostName)) →
    ∀ c ∈ leads, c.minTimeDeltaSecs ≤ s.minDelta t seeds p

/-! ### The rows of the query -/

section Rows

variable {s : Db} {t x : Uuid} {seeds : List Uuid} {w : ℤ} {host : String}
  {p : Uuid × String} {r : DropRow}

theorem mem_occurrencesOf {o : OccurrenceEvent} : o ∈ s.occurrencesOf t x ↔
    o ∈ s.ingest.occurrences.rows ∧ o.tenant = t ∧ o.artifactId = some x := by
  simp [Db.occurrencesOf, List.mem_filter]

theorem observedAt_iff {u : Time} : s.ObservedAt t x host u ↔
    ∃ o ∈ s.occurrencesOf t x, o.info.hostName = host ∧ o.info.observedAt = u := by
  simp only [Db.ObservedAt, mem_occurrencesOf, and_assoc]

/-- The row that the database keeps is the first observation. -/
theorem firstAt_of_firstOn {o : OccurrenceEvent} (h : s.firstOn t x host = some o) :
    s.FirstAt t x host o.info.observedAt := by
  unfold Db.firstOn at h
  set rows := (s.occurrencesOf t x).filter fun o => o.info.hostName = host with hrows
  have hsorted := List.pairwise_insertionSort
    (fun o o' : OccurrenceEvent => o.info.observedAt ≤ o'.info.observedAt) rows
  have hperm := List.perm_insertionSort
    (fun o o' : OccurrenceEvent => o.info.observedAt ≤ o'.info.observedAt) rows
  obtain ⟨rest, hrest⟩ := List.head?_eq_some_iff.mp h
  rw [hrest] at hsorted hperm
  obtain ⟨hocc, hhost⟩ := List.mem_filter.mp (hperm.mem_iff.mp List.mem_cons_self)
  refine ⟨observedAt_iff.mpr ⟨o, hocc, of_decide_eq_true hhost, rfl⟩, fun u hu => ?_⟩
  obtain ⟨o', hocc', hhost', rfl⟩ := observedAt_iff.mp hu
  have hmem : o' ∈ rows := List.mem_filter.mpr ⟨hocc', decide_eq_true hhost'⟩
  obtain rfl | hlater := List.mem_cons.mp (hperm.mem_iff.mpr hmem)
  · exact le_refl _
  · exact (List.pairwise_cons.mp hsorted).1 o' hlater

theorem exists_firstOn {u : Time} (h : s.ObservedAt t x host u) : ∃ o, s.firstOn t x host = some o := by
  obtain ⟨o, hocc, hhost, -⟩ := observedAt_iff.mp h
  refine Option.ne_none_iff_exists'.mp fun hnone => ?_
  have hperm := List.perm_insertionSort
    (fun o o' : OccurrenceEvent => o.info.observedAt ≤ o'.info.observedAt)
    ((s.occurrencesOf t x).filter fun o => o.info.hostName = host)
  unfold Db.firstOn at hnone
  rw [List.head?_eq_none_iff.mp hnone] at hperm
  have hmem : o ∈ (s.occurrencesOf t x).filter fun o => o.info.hostName = host :=
    List.mem_filter.mpr ⟨hocc, decide_eq_true hhost⟩
  exact absurd (hperm.mem_iff.mpr hmem) List.not_mem_nil

/-- The gaps that the query takes the least of. -/
theorem mem_gapsWithin {first : Time} (h : s.FirstAt t p.1 p.2 first) {d : ℕ} :
    d ∈ s.gapsWithin t seeds w p.2 first ↔ s.Gap t seeds p d ∧ (d : ℤ) ≤ w * 1000000 := by
  simp only [Db.gapsWithin, List.mem_filter, List.mem_map, List.mem_flatMap, decide_eq_true_iff]
  constructor
  · rintro ⟨⟨o, ⟨⟨y, hy, ho⟩, hhost⟩, rfl⟩, hd⟩
    exact ⟨⟨first, h, y, hy, _, observedAt_iff.mpr ⟨o, ho, hhost, rfl⟩, rfl⟩, hd⟩
  · rintro ⟨⟨first', h', y, hy, u, hu, rfl⟩, hd⟩
    obtain rfl := h'.unique h
    obtain ⟨o, ho, hhost, rfl⟩ := observedAt_iff.mp hu
    exact ⟨⟨o, ⟨⟨y, hy, ho⟩, hhost⟩, rfl⟩, hd⟩

/-- The least gap within the window is the least of all. -/
theorem isLeast_of_min? {first : Time} (h : s.FirstAt t p.1 p.2 first) {d : ℕ}
    (hd : (s.gapsWithin t seeds w p.2 first).min? = some d) :
    IsLeast {d | s.Gap t seeds p d} d := by
  obtain ⟨hmem, hmin⟩ := List.min?_eq_some_iff.mp hd
  obtain ⟨hgap, hwithin⟩ := (mem_gapsWithin h).mp hmem
  refine ⟨hgap, fun d' hd' => ?_⟩
  -- A gap that is not within the window is larger than one that is.
  by_cases hwithin' : (d' : ℤ) ≤ w * 1000000
  · exact hmin d' ((mem_gapsWithin h).mpr ⟨hd', hwithin'⟩)
  · omega

theorem mem_pairsBeside : p ∈ s.pairsBeside t seeds ↔ p.1 ∉ seeds ∧
    (∃ a, s.artifactById t p.1 = some a ∧ a.scope = .endpoint) ∧ ∃ u, s.ObservedAt t p.1 p.2 u := by
  obtain ⟨x, host⟩ := p
  rw [Db.pairsBeside, List.mem_dedup, List.mem_filterMap]
  constructor
  · rintro ⟨o, ho, hpair⟩
    split at hpair
    · cases hpair
    · next y hy =>
      split at hpair
      · next hkeep =>
        obtain ⟨rfl, rfl⟩ := Prod.mk.inj (Option.some.inj hpair)
        exact ⟨hkeep.2.1, Option.map_eq_some_iff.mp hkeep.2.2, _, o, ho, hkeep.1, hy, rfl, rfl⟩
      · cases hpair
  · rintro ⟨hseed, hscope, u, o, ho, htenant, hx, rfl, rfl⟩
    refine ⟨o, ho, ?_⟩
    rw [hx]
    exact if_pos ⟨htenant, hseed, Option.map_eq_some_iff.mpr hscope⟩

/-- What a row says of its pair. -/
structure RowOf (s : Db) (t : Uuid) (seeds : List Uuid) (w : ℤ) (p : Uuid × String)
    (r : DropRow) : Prop where
  id : r.id = p.1
  hostName : r.hostName = p.2
  delta : r.minDelta = s.minDelta t seeds p
  hosts : r.hostCount = (s.hostsOf t p.1).ncard

/-- The members of a list without repetitions, counted. -/
theorem ncard_setOf_mem {α : Type} [DecidableEq α] {l : List α} (hl : l.Nodup) :
    {a | a ∈ l}.ncard = l.length := by
  have hset : {a | a ∈ l} = (l.toFinset : Set α) := by
    ext a
    simp
  rw [hset, Set.ncard_coe_finset, List.toFinset_card_of_nodup hl]

theorem ncard_hostsOf : (s.hostsOf t x).ncard =
    ((s.occurrencesOf t x).map fun o => o.info.hostName).dedup.length := by
  have hset : s.hostsOf t x =
      {host | host ∈ ((s.occurrencesOf t x).map fun o => o.info.hostName).dedup} := by
    ext host
    simp only [Db.hostsOf, Set.mem_ofPred_eq, observedAt_iff, List.mem_dedup, List.mem_map]
    constructor
    · rintro ⟨u, o, ho, hhost, -⟩
      exact ⟨o, ho, hhost⟩
    · rintro ⟨o, ho, hhost⟩
      exact ⟨_, o, ho, hhost, rfl⟩
  rw [hset, ncard_setOf_mem (List.nodup_dedup _)]

/-- The row of a pair. -/
theorem rowOf_of_dropRow (h : s.dropRow t seeds w p = some r) : RowOf s t seeds w p r := by
  obtain ⟨first, hfirst, h⟩ := Option.bind_eq_some_iff.mp h
  obtain ⟨gap, hgap, h⟩ := Option.bind_eq_some_iff.mp h
  obtain ⟨a, -, h⟩ := Option.bind_eq_some_iff.mp h
  obtain rfl := Option.some.inj h
  have hleast := isLeast_of_min? (firstAt_of_firstOn hfirst) hgap
  refine ⟨rfl, rfl, ?_, ncard_hostsOf.symm⟩
  rw [Db.minDelta, hleast.csInf_eq]

/-- A pair has a row exactly when it is near. -/
theorem dropRow_isSome_iff (hp : p ∈ s.pairsBeside t seeds) :
    (∃ r, s.dropRow t seeds w p = some r) ↔ p ∈ s.Near t seeds w := by
  obtain ⟨hseed, ⟨a, ha, hscope⟩, u, hu⟩ := mem_pairsBeside.mp hp
  obtain ⟨first, hfirst⟩ := exists_firstOn hu
  have hat := firstAt_of_firstOn hfirst
  constructor
  · rintro ⟨r, hr⟩
    obtain ⟨first', hfirst', hr⟩ := Option.bind_eq_some_iff.mp hr
    obtain rfl := Option.some.inj (hfirst.symm.trans hfirst')
    obtain ⟨gap, hgap, -⟩ := Option.bind_eq_some_iff.mp hr
    obtain ⟨hmem, -⟩ := List.min?_eq_some_iff.mp hgap
    exact ⟨hseed, ⟨a, ha, hscope⟩, gap, (mem_gapsWithin hat).mp hmem⟩
  · rintro ⟨-, -, d, hd⟩
    -- A gap within the window, so the query finds a least one.
    have hmem := (mem_gapsWithin hat).mpr hd
    obtain ⟨gap, hgap⟩ := Option.ne_none_iff_exists'.mp fun hnone =>
      List.ne_nil_of_mem hmem (List.min?_eq_none_iff.mp hnone)
    exact ⟨_, by rw [Db.dropRow, hfirst, Option.bind_eq_bind, Option.bind_some, hgap, ha]; rfl⟩

/-- The pair of a row. -/
def DropRow.pair (r : DropRow) : Uuid × String := (r.id, r.hostName)

theorem RowOf.pair_eq (h : RowOf s t seeds w p r) : r.pair = p := Prod.ext h.id h.hostName

/-- The pairs of the rows, without repetitions. -/
theorem map_pair_dropRows (s : Db) (t : Uuid) (seeds : List Uuid) (w : ℤ) :
    (s.dropRows t seeds w).map DropRow.pair =
      (s.pairsBeside t seeds).filter fun p => (s.dropRow t seeds w p).isSome := by
  rw [Db.dropRows, List.map_filterMap, ← List.filterMap_eq_filter]
  refine List.filterMap_congr fun p _ => ?_
  cases h : s.dropRow t seeds w p with
  | none => simp [Option.guard, h]
  | some r => simp [Option.guard, h, (rowOf_of_dropRow h).pair_eq]

theorem nodup_pairs (s : Db) (t : Uuid) (seeds : List Uuid) (w : ℤ) :
    ((s.dropRows t seeds w).map DropRow.pair).Nodup := by
  rw [map_pair_dropRows]
  exact (List.nodup_dedup _).filter _

/-- The rows are the pairs that are near. -/
theorem mem_dropRows_iff : p ∈ (s.dropRows t seeds w).map DropRow.pair ↔ p ∈ s.Near t seeds w := by
  rw [map_pair_dropRows, List.mem_filter, Option.isSome_iff_exists]
  constructor
  · rintro ⟨hp, hsome⟩
    exact (dropRow_isSome_iff hp).mp hsome
  · intro hnear
    have hp : p ∈ s.pairsBeside t seeds := by
      obtain ⟨hseed, hscope, d, ⟨first, hfirst, -⟩, -⟩ := hnear
      exact mem_pairsBeside.mpr ⟨hseed, hscope, first, hfirst.1⟩
    exact ⟨hp, (dropRow_isSome_iff hp).mpr hnear⟩

theorem rowOf_mem (h : r ∈ s.dropRows t seeds w) : RowOf s t seeds w r.pair r := by
  obtain ⟨p, -, hp⟩ := List.mem_filterMap.mp h
  have hrow := rowOf_of_dropRow hp
  rwa [hrow.pair_eq]

/-- Rows are counted as pairs. -/
theorem countP_dropRows {P : Uuid × String → Prop} {ok : DropRow → Bool}
    (hok : ∀ r ∈ s.dropRows t seeds w, ok r = true ↔ P r.pair) :
    (s.dropRows t seeds w).countP ok = {p ∈ s.Near t seeds w | P p}.ncard := by
  classical
  have hset : {p ∈ s.Near t seeds w | P p} =
      {p | p ∈ ((s.dropRows t seeds w).map DropRow.pair).filter fun p => decide (P p)} := by
    ext p
    simp only [Set.mem_ofPred_eq, List.mem_filter, mem_dropRows_iff, decide_eq_true_iff]
  have hcongr : (s.dropRows t seeds w).countP ok =
      (s.dropRows t seeds w).countP fun r => decide (P r.pair) :=
    List.countP_congr fun r hr => by rw [hok r hr, decide_eq_true_iff]
  -- A row and its pair determine each other.
  rw [hset, ncard_setOf_mem ((nodup_pairs s t seeds w).filter _), ← List.countP_eq_length_filter,
    List.countP_map, hcongr]
  rfl

/-- Without a seed there is nothing to be near to. -/
theorem dropRows_nil : s.dropRows t [] w = [] := by
  refine List.filterMap_eq_nil_iff.mpr fun p _ => Option.eq_none_iff_forall_ne_some.mpr fun r hr => ?_
  obtain ⟨first, -, hr⟩ := Option.bind_eq_some_iff.mp hr
  obtain ⟨gap, hgap, -⟩ := Option.bind_eq_some_iff.mp hr
  obtain ⟨hmem, -⟩ := List.min?_eq_some_iff.mp hgap
  simp [Db.gapsWithin] at hmem

end Rows

/-! ### What is returned -/

section Leads

variable {s : Db} {t : Uuid} {seeds : List Uuid} {w : ℤ} {maxHosts : ℤ} {limit : ℕ}
  {rows : List DropRow}

/-- The filter on the rows that were returned. -/
def fewHosts (maxHosts : ℤ) (r : DropRow) : Bool := (r.hostCount : ℤ) ≤ maxHosts

theorem fewHosts_iff {r : DropRow} (h : r ∈ s.dropRows t seeds w) :
    fewHosts maxHosts r = true ↔ r.pair ∈ s.Qualifying t seeds w maxHosts := by
  have hnear := mem_dropRows_iff.mp (List.mem_map_of_mem h)
  have hhosts : r.hostCount = (s.hostsOf t r.pair.1).ncard := (rowOf_mem h).hosts
  rw [fewHosts, decide_eq_true_iff, hhosts]
  exact ⟨fun hle => ⟨hnear, hle⟩, fun hq => hq.2⟩

theorem countP_fewHosts : (s.dropRows t seeds w).countP (fewHosts maxHosts) =
    (s.Qualifying t seeds w maxHosts).ncard := by
  rw [countP_dropRows fun r hr => fewHosts_iff hr]
  congr 1
  ext p
  exact ⟨fun h => h.2, fun h => ⟨h.1, h⟩⟩

/-- The leads of the rows in some order. -/
def leadsOf (maxHosts : ℤ) (limit : ℕ) (rows : List DropRow) : List DropperCandidate :=
  ((rows.take limit).filter (fewHosts maxHosts)).map DropRow.candidate

theorem map_leadsOf (rows : List DropRow) :
    (leadsOf maxHosts limit rows).map (fun c => (c.artifactId, c.hostName)) =
      ((rows.take limit).filter (fewHosts maxHosts)).map DropRow.pair := by
  rw [leadsOf, List.map_map]
  rfl

/-- The leads are the best exactly when the rows that were cut off or those that were kept are all
of one kind. -/
theorem bestLeads_iff (hperm : rows.Perm (s.dropRows t seeds w))
    (hsorted : rows.Pairwise fun r r' => r.minDelta ≤ r'.minDelta) :
    BestLeads s t seeds w maxHosts limit (leadsOf maxHosts limit rows) ↔
      (∀ r ∈ rows.take limit, fewHosts maxHosts r = true) ∨
        ∀ r ∈ rows.drop limit, fewHosts maxHosts r = false := by
  have hcount : (rows.filter (fewHosts maxHosts)).length =
      (s.Qualifying t seeds w maxHosts).ncard := by
    rw [← List.countP_eq_length_filter, hperm.countP_eq, countP_fewHosts]
  have hlength : (leadsOf maxHosts limit rows).length =
      ((rows.take limit).filter (fewHosts maxHosts)).length := List.length_map _
  rw [← Limits.length_filter_take_iff, hcount, ← hlength]
  refine ⟨BestLeads.length, fun hbest => ⟨hbest, ?_, ?_, ?_, ?_⟩⟩
  · -- Each pair has one row.
    rw [map_leadsOf]
    have hnodup := (hperm.map DropRow.pair).nodup_iff.mpr (nodup_pairs s t seeds w)
    exact hnodup.sublist ((List.filter_sublist.trans (List.take_sublist limit rows)).map _)
  · intro c hc
    obtain ⟨r, hr, rfl⟩ := List.mem_map.mp hc
    obtain ⟨htake, hfew⟩ := List.mem_filter.mp hr
    exact (fewHosts_iff (hperm.mem_iff.mp (List.mem_of_mem_take htake))).mp hfew
  · intro c hc
    obtain ⟨r, hr, rfl⟩ := List.mem_map.mp hc
    obtain ⟨htake, -⟩ := List.mem_filter.mp hr
    exact (rowOf_mem (hperm.mem_iff.mp (List.mem_of_mem_take htake))).delta
  · intro p hp hout c hc
    obtain ⟨r, hr, rfl⟩ := List.mem_map.mp hc
    obtain ⟨htake, -⟩ := List.mem_filter.mp hr
    obtain ⟨r', hr', rfl⟩ := List.mem_map.mp (mem_dropRows_iff.mpr hp.1)
    have hfew := (fewHosts_iff hr').mpr hp
    have hmem : r' ∈ rows.take limit ++ rows.drop limit := by
      rw [List.take_append_drop]
      exact hperm.mem_iff.mpr hr'
    have hdrop : r' ∈ rows.drop limit := by
      -- A row that was kept and has few hosts is returned.
      refine (List.mem_append.mp hmem).resolve_left fun htake' => hout ?_
      rw [map_leadsOf]
      exact List.mem_map_of_mem (List.mem_filter.mpr ⟨htake', hfew⟩)
    have hle := Limits.le_of_take_of_drop DropRow.minDelta hsorted htake hdrop
    rwa [(rowOf_mem hr').delta] at hle

/-- The seconds of the window are an `i64`, if they are asked for. -/
def Db.WindowFits (s : Db) (t : Uuid) (raw : Bytes) (hours : ℤ) : Prop :=
  (s.ingest.artifacts.get (t, raw)).isSome = true →
    -2 ^ 63 ≤ hours * 3600 ∧ hours * 3600 < 2 ^ 63

section Query

variable {m : Arith} {debug : String → String} {order : RowOrder} {text : String} {raw : Bytes}
  {hours : ℤ}

/-- What the query makes of a seed that is a digest. -/
theorem dropperCandidates_eq (h : hexToRaw text = some raw) (hfits : s.WindowFits t raw hours) :
    dropperCandidates m debug order s t text maxHosts hours limit =
      .ok (.ok (leadsOf maxHosts limit
        (order.sort (s.dropRows t (s.seedIds t raw) (hours * 3600))))) := by
  rw [dropperCandidates, h]
  cases hseed : s.ingest.artifacts.get (t, raw) with
  | some a =>
    obtain ⟨hlo, hhi⟩ := hfits (by rw [hseed]; rfl)
    simp only [hseed]
    rw [Arith.signed_of_mem hlo hhi]
    rfl
  | none =>
    -- No artifact has the digest: there are no seeds, and no rows.
    have hids : s.seedIds t raw = [] := by rw [Db.seedIds, hseed]
    have hnil : order.sort [] = [] := (order.perm []).eq_nil
    simp only [hseed, hids, dropRows_nil, hnil, leadsOf, List.take_nil, List.filter_nil, List.map_nil]

/-- A checked build panics where they are not. -/
theorem windowFits_of_ok {result : Except Error (List DropperCandidate)}
    (h : hexToRaw text = some raw)
    (hrun : dropperCandidates .checked debug order s t text maxHosts hours limit = .ok result) :
    s.WindowFits t raw hours := by
  intro hsome
  obtain ⟨a, hseed⟩ := Option.isSome_iff_exists.mp hsome
  by_contra hout
  simp only [dropperCandidates, h, hseed] at hrun
  rw [Arith.signed, if_neg hout] at hrun
  cases hrun

end Query

/-- No pair of a widespread artifact is in the place of one that qualifies: there is room for both,
or neither is among the first. -/
def Db.NoneDisplaced (s : Db) (t : Uuid) (seeds : List Uuid) (w : ℤ) (maxHosts : ℤ)
    (limit : ℕ) : Prop :=
  ∀ b ∈ s.Near t seeds w, b ∉ s.Qualifying t seeds w maxHosts →
    ∀ q ∈ s.Qualifying t seeds w maxHosts, s.minDelta t seeds b ≤ s.minDelta t seeds q →
      limit ≤ {p ∈ s.Near t seeds w | s.minDelta t seeds p < s.minDelta t seeds b}.ncard ∨
        {p ∈ s.Near t seeds w | s.minDelta t seeds p ≤ s.minDelta t seeds q}.ncard ≤ limit

theorem displaces_iff {b q : DropRow} (hb : b ∈ s.dropRows t seeds w)
    (hq : q ∈ s.dropRows t seeds w) :
    Limits.Displaces DropRow.minDelta (fewHosts maxHosts) limit (s.dropRows t seeds w) b q ↔
      b.pair ∉ s.Qualifying t seeds w maxHosts ∧ q.pair ∈ s.Qualifying t seeds w maxHosts ∧
        s.minDelta t seeds b.pair ≤ s.minDelta t seeds q.pair ∧
        {p ∈ s.Near t seeds w | s.minDelta t seeds p < s.minDelta t seeds b.pair}.ncard < limit ∧
        limit < {p ∈ s.Near t seeds w | s.minDelta t seeds p ≤ s.minDelta t seeds q.pair}.ncard := by
  have hfirst : (s.dropRows t seeds w).countP (fun r => decide (r.minDelta < b.minDelta)) =
      {p ∈ s.Near t seeds w | s.minDelta t seeds p < s.minDelta t seeds b.pair}.ncard := by
    refine countP_dropRows fun r hr => ?_
    rw [decide_eq_true_iff, (rowOf_mem hr).delta, (rowOf_mem hb).delta]
  have hlast : (s.dropRows t seeds w).countP (fun r => decide (r.minDelta ≤ q.minDelta)) =
      {p ∈ s.Near t seeds w | s.minDelta t seeds p ≤ s.minDelta t seeds q.pair}.ncard := by
    refine countP_dropRows fun r hr => ?_
    rw [decide_eq_true_iff, (rowOf_mem hr).delta, (rowOf_mem hq).delta]
  rw [← fewHosts_iff hb, ← fewHosts_iff hq, ← hfirst, ← hlast, ← (rowOf_mem hb).delta,
    ← (rowOf_mem hq).delta, Bool.not_eq_true]
  exact ⟨fun h => ⟨h.fails, h.passes, h.le, h.first, h.last⟩,
    fun ⟨hfails, hpasses, hle, hfirst, hlast⟩ => ⟨hfails, hpasses, hle, hfirst, hlast⟩⟩

theorem noneDisplaced_iff : s.NoneDisplaced t seeds w maxHosts limit ↔
    ∀ b ∈ s.dropRows t seeds w, ∀ q ∈ s.dropRows t seeds w,
      ¬ Limits.Displaces DropRow.minDelta (fewHosts maxHosts) limit (s.dropRows t seeds w) b q := by
  constructor
  · intro hnone b hb q hq hdisplaces
    obtain ⟨hfails, hpasses, hle, hfirst, hlast⟩ := (displaces_iff hb hq).mp hdisplaces
    have hnear := mem_dropRows_iff.mp (List.mem_map_of_mem hb)
    obtain h | h := hnone b.pair hnear hfails q.pair hpasses hle
    · omega
    · omega
  · intro hnone b hb hfails q hpasses hle
    obtain ⟨rb, hrb, rfl⟩ := List.mem_map.mp (mem_dropRows_iff.mpr hb)
    obtain ⟨rq, hrq, rfl⟩ := List.mem_map.mp (mem_dropRows_iff.mpr hpasses.1)
    by_contra hboth
    push Not at hboth
    exact hnone rb hrb rq hrq ((displaces_iff hrb hrq).mpr ⟨hfails, hpasses, hle, hboth⟩)

/-- The leads are the best, in whatever order the database returns rows of equal time between,
exactly when no pair of a widespread artifact is in the place of one that qualifies.  The seconds of
the window have to fit their word; where they do not, a checked build has no leads. -/
theorem best_leads_iff (m : Arith) (debug : String → String) (s : Db) (t : Uuid) (text : String)
    (raw : Bytes) (maxHosts hours : ℤ) (limit : ℕ) (h : hexToRaw text = some raw) :
    let Best := ∀ order : RowOrder, ∃ leads,
      dropperCandidates m debug order s t text maxHosts hours limit = .ok (.ok leads) ∧
        BestLeads s t (s.seedIds t raw) (hours * 3600) maxHosts limit leads
    (s.WindowFits t raw hours →
        (Best ↔ s.NoneDisplaced t (s.seedIds t raw) (hours * 3600) maxHosts limit)) ∧
      (m = .checked → Best → s.WindowFits t raw hours) := by
  intro Best
  constructor
  · intro hfits
    have hsome (order : RowOrder) : (∃ leads,
        dropperCandidates m debug order s t text maxHosts hours limit = .ok (.ok leads) ∧
          BestLeads s t (s.seedIds t raw) (hours * 3600) maxHosts limit leads) ↔
        BestLeads s t (s.seedIds t raw) (hours * 3600) maxHosts limit
          (leadsOf maxHosts limit (order.sort (s.dropRows t (s.seedIds t raw) (hours * 3600)))) := by
      rw [dropperCandidates_eq h hfits]
      refine ⟨?_, fun hbest => ⟨_, rfl, hbest⟩⟩
      rintro ⟨leads, hleads, hbest⟩
      exact Except.ok.inj (Except.ok.inj hleads) ▸ hbest
    have hnodup : (s.dropRows t (s.seedIds t raw) (hours * 3600)).Nodup :=
      (nodup_pairs s t (s.seedIds t raw) (hours * 3600)).of_map _
    -- The orders of the database are the sorted arrangements of the rows.
    rw [noneDisplaced_iff, ← Limits.forall_sorted_iff hnodup,
      ← SortOrder.forall_iff (P := fun l => (∀ r ∈ l.take limit, fewHosts maxHosts r = true) ∨
        ∀ r ∈ l.drop limit, fewHosts maxHosts r = false)]
    refine forall_congr' fun order => ?_
    rw [hsome order]
    exact bestLeads_iff (order.perm _) (order.sorted _)
  · rintro rfl hbest
    obtain ⟨leads, hleads, -⟩ := hbest (.stable DropRow.minDelta)
    exact windowFits_of_ok h hleads

end Leads

/-! ### A common file beside the seed -/

def fileOn (x sequence : ℕ) (host : String) (u : Time) : OccurrenceEvent :=
  ⟨0, ⟨host, 0, 0, sequence, "/tmp/file", u, 1, none, "exec"⟩, some x, none, u⟩

def fileNumber (x : ℕ) (content : UInt8) : Artifact :=
  ⟨x, 0, x, [content], 1, .pe, .committed, ⟨0, hexEncode [content]⟩, 0, .endpoint, .null⟩

/-- The seed, a file that two hosts have, and a minute later one that only the first has. -/
def commonBesideSeed : Db :=
  { Db.empty with ingest := { Db.empty.ingest with
      artifacts := ⟨[fileNumber 1 1, fileNumber 2 2, fileNumber 3 3], by decide⟩
      occurrences := ⟨[fileOn 1 1 "one" 0, fileOn 2 2 "one" 0, fileOn 2 3 "two" 0,
        fileOn 3 4 "one" 60000000], by decide⟩ } }

theorem hexToRaw_seed : hexToRaw "01" = some [1] := by decide

theorem fits_oneDay : commonBesideSeed.WindowFits 0 [1] 24 := fun _ => by decide

theorem dropRows_commonBesideSeed :
    (commonBesideSeed.dropRows 0 (commonBesideSeed.seedIds 0 [1]) (24 * 3600)).map
      (fun r => (r.id, r.hostCount, r.minDelta)) = [(2, 2, 0), (3, 1, 60)] := by decide

/-- With room for both the result is the best. -/
theorem best_leads_iff_two_files : hexToRaw "01" = some [1] ∧ ∀ order : RowOrder, ∃ leads,
    dropperCandidates .checked id order commonBesideSeed 0 "01" 1 24 2 = .ok (.ok leads) ∧
      BestLeads commonBesideSeed 0 (commonBesideSeed.seedIds 0 [1]) (24 * 3600) 1 2 leads := by
  refine ⟨hexToRaw_seed, ((best_leads_iff .checked id commonBesideSeed 0 "01" [1] 1 24 2
    hexToRaw_seed).1 fits_oneDay).mpr (noneDisplaced_iff.mpr fun b _ q _ hdisplaces => ?_)⟩
  have hlength := congrArg List.length dropRows_commonBesideSeed
  rw [List.length_map] at hlength
  have hlast := hdisplaces.last.trans_le List.countP_le_length
  rw [hlength] at hlast
  exact absurd hlast (by decide)

/-- With room for one it is empty, as the common file is nearer. -/
theorem rare_file_displaced : ¬ ∀ order : RowOrder, ∃ leads,
    dropperCandidates .checked id order commonBesideSeed 0 "01" 1 24 1 = .ok (.ok leads) ∧
      BestLeads commonBesideSeed 0 (commonBesideSeed.seedIds 0 [1]) (24 * 3600) 1 1 leads := by
  intro h
  obtain ⟨leads, hleads, hbest⟩ := h (.stable DropRow.minDelta)
  have hnone : dropperCandidates .checked id (SortOrder.stable DropRow.minDelta) commonBesideSeed 0
      "01" 1 24 1 = .ok (.ok []) := by
    have hnil : leadsOf 1 1 ((SortOrder.stable DropRow.minDelta).sort
        (commonBesideSeed.dropRows 0 (commonBesideSeed.seedIds 0 [1]) (24 * 3600))) = [] :=
      List.eq_nil_of_length_eq_zero (by decide)
    rw [dropperCandidates_eq hexToRaw_seed fits_oneDay, hnil]
  obtain rfl := Except.ok.inj (Except.ok.inj (hnone.symm.trans hleads))
  have hlength := hbest.length
  rw [← countP_fewHosts] at hlength
  exact absurd hlength (by decide)

end Corpus
