/-
Occurrence identities across process starts (`main.rs`).

The server keeps one occurrence for each (agent, boot id, sequence number).  The
agent draws the number from a counter of its state database, which a process
start sets back to zero whenever the boot id it observes is not the one stored.

A history is a list of process starts and `next_sequence` calls.  `eras` cuts it
at the starts that change the stored boot id; within one era the numbers run
1, 2, 3, …, so two eras of one boot id that both draw give out the same identity.
`identities_unique` says that this is the only way: identities are unique, and
the server drops no occurrence, exactly when no boot id returns (`BootsApart`).

A crash between the two statements of `next_sequence` loses a number and gives
out nothing, so it is left out.
-/
import Corpus.Agent.StateDb
import Mathlib.Data.List.Flatten
import Mathlib.Data.List.Range

namespace Corpus.Agent

/-! ### Process starts -/

/-- `os_boot_id` on Windows: `v5` is the UUID of the text `corpus-boot:<seconds>`. -/
def osBootIdWindows (v5 : ℤ → Uuid) (nowMs uptimeMs : ℤ) : Uuid :=
  v5 ((nowMs - uptimeMs).tdiv 1000)

/-- `refresh_boot_identity`: whether the stored id changed, and the database. -/
def refreshBootIdentity (d : StateDb) (current : Uuid) : Bool × StateDb :=
  if d.identity.bootId = some current then (false, d)
  else (d.identity.bootId.isSome, d.setBoot current)

inductive Event where
  | start (boot : Uuid)
  | nextSequence
  deriving DecidableEq

/-- The database and the boot id of the running process (`AgentRuntime::boot_id`). -/
structure Host where
  db : StateDb
  boot : Option Uuid

/-- One event, and the identity it gives out. -/
def Host.step (a : Host) : Event → Host × Option (Uuid × ℕ)
  | .start boot => (⟨(refreshBootIdentity a.db boot).2, some boot⟩, none)
  | .nextSequence =>
    match a.boot with
    | none => (a, none)
    | some boot => (⟨a.db.nextSequence.2, some boot⟩, some (boot, a.db.nextSequence.1))

/-- The host after a history, and the identities given out, latest first. -/
def Host.run : Host × List (Uuid × ℕ) → List Event → Host × List (Uuid × ℕ)
  | r, [] => r
  | (a, out), e :: es => run ((a.step e).1, (a.step e).2.toList ++ out) es

/-- The identities given out from a new database. -/
def issued (h : List Event) : List (Uuid × ℕ) := (Host.run (⟨.empty, none⟩, []) h).2

/-! ### Eras -/

/-- One event added to the eras so far, latest first: an era is a boot id and the
number of draws under it. -/
def addEvent : List (Uuid × ℕ) → Event → List (Uuid × ℕ)
  | [], .start boot => [(boot, 0)]
  | (b, n) :: es, .start boot => if b = boot then (b, n) :: es else (boot, 0) :: (b, n) :: es
  | [], .nextSequence => []
  | (b, n) :: es, .nextSequence => (b, n + 1) :: es

def eras (h : List Event) : List (Uuid × ℕ) := h.foldl addEvent []

/-- No boot id comes back: of the eras that draw a number, no two have the same. -/
def BootsApart (h : List Event) : Prop :=
  (((eras h).filter fun e => 0 < e.2).map Prod.fst).Nodup

instance (h : List Event) : Decidable (BootsApart h) := by
  unfold BootsApart
  infer_instance

/-- The identities of one era, latest first. -/
def ofEra (e : Uuid × ℕ) : List (Uuid × ℕ) :=
  (List.range e.2).map fun k => (e.1, k + 1)

theorem mem_ofEra {e p : Uuid × ℕ} : p ∈ ofEra e ↔ p.1 = e.1 ∧ 0 < p.2 ∧ p.2 ≤ e.2 := by
  obtain ⟨b, n⟩ := e
  obtain ⟨b', k⟩ := p
  simp only [ofEra, List.mem_map, List.mem_range, Prod.mk.injEq]
  constructor
  · rintro ⟨j, hj, rfl, rfl⟩
    exact ⟨rfl, by omega, by omega⟩
  · rintro ⟨rfl, h0, hle⟩
    exact ⟨k - 1, by omega, rfl, by omega⟩

/-- Two eras share an identity when they share the boot id and both draw. -/
theorem disjoint_ofEra {e e' : Uuid × ℕ} :
    List.Disjoint (ofEra e) (ofEra e') ↔ (0 < e.2 → 0 < e'.2 → e.1 ≠ e'.1) := by
  constructor
  · intro h h0 h0' heq
    exact h (mem_ofEra.mpr ⟨rfl, Nat.one_pos, h0⟩ : (e.1, 1) ∈ ofEra e)
      (mem_ofEra.mpr ⟨heq, Nat.one_pos, h0'⟩)
  · intro h p hp hp'
    obtain ⟨h1, h2, h3⟩ := mem_ofEra.mp hp
    obtain ⟨h1', -, h3'⟩ := mem_ofEra.mp hp'
    exact h (by omega) (by omega) (h1.symm.trans h1')

theorem nodup_ofEra (e : Uuid × ℕ) : (ofEra e).Nodup := by
  refine List.nodup_range.map fun i j hij => ?_
  have : i + 1 = j + 1 := congrArg Prod.snd hij
  omega

theorem nodup_eras_iff {es : List (Uuid × ℕ)} :
    (es.flatMap ofEra).Nodup ↔ ((es.filter fun e => 0 < e.2).map Prod.fst).Nodup := by
  have hboots : ((es.filter fun e => 0 < e.2).map Prod.fst).Nodup ↔
      es.Pairwise fun e e' => 0 < e.2 → 0 < e'.2 → e.1 ≠ e'.1 := by
    rw [List.Nodup, List.pairwise_map, List.pairwise_filter]
    simp only [decide_eq_true_eq]
  have hblocks : es.Pairwise (Function.onFun List.Disjoint ofEra) ↔
      es.Pairwise fun e e' => 0 < e.2 → 0 < e'.2 → e.1 ≠ e'.1 :=
    List.Pairwise.iff fun _ _ => disjoint_ofEra
  rw [List.nodup_flatMap, hboots, hblocks]
  exact ⟨fun h => h.2, fun h => ⟨fun e _ => nodup_ofEra e, h⟩⟩

/-! ### The counter -/

/-- What the database and the process hold in the latest era. -/
def InEra (a : Host) : List (Uuid × ℕ) → Prop
  | [] => a.boot = none ∧ a.db.identity.bootId = none
  | e :: _ => a.boot = some e.1 ∧ a.db.identity.bootId = some e.1 ∧
      a.db.identity.agentSequence = some e.2

/-- One event keeps the counter in step with the eras, and gives out what it adds
to the latest era. -/
theorem InEra.step {a : Host} {es : List (Uuid × ℕ)} (h : InEra a es) (e : Event) :
    InEra (a.step e).1 (addEvent es e) ∧
      ((a.step e).2.toList ++ es.flatMap ofEra).Perm ((addEvent es e).flatMap ofEra) := by
  cases e with
  | start boot =>
    cases es with
    | nil =>
      obtain ⟨-, hb⟩ := h
      refine ⟨⟨rfl, ?_, ?_⟩, .refl _⟩ <;> simp [Host.step, refreshBootIdentity, hb, StateDb.setBoot]
    | cons e es =>
      obtain ⟨b, n⟩ := e
      obtain ⟨-, hb, hs⟩ := h
      by_cases heq : b = boot
      · subst heq
        simp only [addEvent, if_true]
        exact ⟨⟨rfl, by simp [Host.step, refreshBootIdentity, hb],
          by simp [Host.step, refreshBootIdentity, hb, hs]⟩, .refl _⟩
      · simp only [addEvent, if_neg heq]
        refine ⟨⟨rfl, ?_, ?_⟩, .refl _⟩ <;>
          simp [Host.step, refreshBootIdentity, hb, heq, StateDb.setBoot]
  | nextSequence =>
    cases es with
    | nil =>
      obtain ⟨ha, hb⟩ := h
      simp only [Host.step, ha]
      exact ⟨⟨ha, hb⟩, .refl _⟩
    | cons e es =>
      obtain ⟨b, n⟩ := e
      obtain ⟨ha, hb, hs⟩ := h
      simp only [Host.step, ha, StateDb.nextSequence, hs, addEvent]
      refine ⟨⟨rfl, hb, rfl⟩, ?_⟩
      -- the new number is the last of the enlarged block
      have hblock : ofEra (b, n + 1) = ofEra (b, n) ++ [(b, n + 1)] := by
        simp [ofEra, List.range_succ]
      rw [List.flatMap_cons, List.flatMap_cons, hblock, List.append_assoc]
      show ((b, n + 1) :: (ofEra (b, n) ++ es.flatMap ofEra)).Perm _
      exact List.perm_middle.symm

/-- What a history gives out is what its eras draw. -/
theorem run_perm (h : List Event) : ∀ (a : Host) (out es : List (Uuid × ℕ)), InEra a es →
    out.Perm (es.flatMap ofEra) →
      (Host.run (a, out) h).2.Perm ((h.foldl addEvent es).flatMap ofEra) := by
  induction h with
  | nil => exact fun a out es _ hp => hp
  | cons e h ih =>
    intro a out es hin hp
    obtain ⟨hin', hp'⟩ := hin.step e
    exact ih _ _ _ hin' ((hp.append_left _).trans hp')

theorem issued_perm (h : List Event) : (issued h).Perm ((eras h).flatMap ofEra) :=
  run_perm h _ _ [] ⟨rfl, rfl⟩ (.refl _)

/-! ### Uniqueness -/

/-- The server's ledger after the occurrences of some identities, in order. -/
def ledger (occ : Uuid × ℕ → OccurrenceEvent) (ids : List (Uuid × ℕ)) :
    Table OccurrenceEvent.key :=
  ids.foldl (fun t p => t.insertNew (occ p)) .empty

theorem rows_foldl_insertNew {occ : Uuid × ℕ → OccurrenceEvent}
    (hinj : ∀ p q, (occ p).key = (occ q).key → p = q) :
    ∀ (ids : List (Uuid × ℕ)) (t : Table OccurrenceEvent.key), ids.Nodup →
      (∀ p ∈ ids, t.get (occ p).key = none) →
      (ids.foldl (fun t p => t.insertNew (occ p)) t).rows = t.rows ++ ids.map occ := by
  intro ids
  induction ids with
  | nil => exact fun t _ _ => by simp
  | cons p ids ih =>
    intro t hn hnew
    obtain ⟨hp, hn'⟩ := List.nodup_cons.mp hn
    have hrow : (t.insertNew (occ p)).rows = t.rows ++ [occ p] := by
      have := Table.get_eq_none.mp (hnew p (List.mem_cons_self ..))
      rw [Table.insertNew, dif_neg this]
    rw [List.foldl_cons, ih _ hn', hrow, List.append_assoc]
    · rfl
    · intro q hq
      rw [Table.get_insertNew, hnew q (List.mem_cons_of_mem _ hq), Option.none_or, if_neg]
      intro hk
      exact hp (hinj _ _ hk ▸ hq)

/-- No identity is given out twice, and the server keeps every occurrence that is
sent under them. -/
def IdentitiesUnique (h : List Event) : Prop :=
  (issued h).Nodup ∧ ∀ (t agent : Uuid) (occ : Uuid × ℕ → OccurrenceEvent),
    (∀ p, (occ p).key = (t, agent, p.1, (p.2 : ℤ))) →
      (ledger occ (issued h).reverse).rows = (issued h).reverse.map occ

/-- **Occurrence identities are unique exactly when no boot id returns.** -/
theorem identities_unique (h : List Event) : IdentitiesUnique h ↔ BootsApart h := by
  have hiff : (issued h).Nodup ↔ BootsApart h := by
    rw [(issued_perm h).nodup_iff]
    exact nodup_eras_iff
  refine ⟨fun hu => hiff.mp hu.1, fun hb => ⟨hiff.mpr hb, fun t agent occ hkey => ?_⟩⟩
  have hinj : ∀ p q, (occ p).key = (occ q).key → p = q := by
    intro p q heq
    rw [hkey, hkey] at heq
    simp only [Prod.mk.injEq, true_and] at heq
    exact Prod.ext heq.1 (Int.ofNat_inj.mp heq.2)
  exact rows_foldl_insertNew hinj _ .empty (List.nodup_reverse.mpr (hiff.mpr hb)) fun _ _ => rfl

/-- The clock of a Windows host is set back by a millisecond and forth again
around a whole second: the boot id returns, and with it the identity (1000, 1). -/
theorem boot_id_returns : ¬ IdentitiesUnique
    [.start (osBootIdWindows Int.toNat 1000500 500), .nextSequence,
      .start (osBootIdWindows Int.toNat 1000499 500), .nextSequence,
      .start (osBootIdWindows Int.toNat 1000500 500), .nextSequence] := by
  intro h
  exact absurd h.1 (by decide)

end Corpus.Agent
