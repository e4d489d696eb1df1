/-
Human opinions on artifacts.

`set_opinion` is one transaction: it looks for the current opinion of the artifact,
marks it superseded, inserts its own row and commits.  Under READ COMMITTED a
statement sees the committed rows and what its own transaction has written, so the
program carries its uncommitted rows with it and lays them over the table when it
commits.  A statement that needs a row another transaction has written waits for it
(`Granted`).

`SingleChain` is what the history of an artifact is to look like.  A commit keeps it
when the row it supersedes is the current one (`singleChain_commit`), and breaks it
for good when it is not (`twoCurrent_commit`).
-/
import Corpus.Merlin
import Corpus.Pool
import Corpus.Table
import Mathlib.Data.List.MinMax
import Mathlib.Data.List.Sort
import Mathlib.Logic.Relation

namespace Table

variable {ρ κ : Type} {key : ρ → κ} [DecidableEq κ]

/-- The rows of a transaction over the committed ones. -/
def overlay (t : Table key) (w : List ρ) : Table key := w.foldl upsert t

theorem mem_upsert {t : Table key} {r x : ρ} :
    x ∈ (t.upsert r).rows ↔ x = r ∨ x ∈ t.rows ∧ key x ≠ key r := by
  unfold upsert
  cases hg : t.get (key r) with
  | none =>
    rw [if_neg (by simp), mem_insertNew_of_none hg]
    have hfresh : ∀ y ∈ t.rows, key y ≠ key r := fun y hy hk =>
      get_eq_none.mp hg (hk ▸ List.mem_map_of_mem hy)
    constructor
    · rintro (hx | rfl)
      · exact .inr ⟨hx, hfresh x hx⟩
      · exact .inl rfl
    · rintro (rfl | ⟨hx, _⟩)
      · exact .inr rfl
      · exact .inl hx
  | some r₀ =>
    obtain ⟨hr₀, hk₀⟩ := mem_of_get hg
    rw [if_pos (by simp), rows_updateWhere, List.mem_map]
    constructor
    · rintro ⟨y, hy, rfl⟩
      rw [if_pos rfl]
      by_cases hyk : key y = key r
      · rw [if_pos hyk]
        exact .inl rfl
      · rw [if_neg hyk]
        exact .inr ⟨hy, hyk⟩
    · rintro (rfl | ⟨hx, hxk⟩)
      · exact ⟨r₀, hr₀, by rw [if_pos rfl, if_pos hk₀]⟩
      · exact ⟨x, hx, by rw [if_pos rfl, if_neg hxk]⟩

end Table

namespace Corpus

/-! ### The table -/

/-- A row of `artifact_opinion`. -/
structure OpinionRow where
  id : Uuid
  tenant : Uuid
  artifact : Uuid
  opinion : String
  actor : String
  reason : String
  createdAt : Time
  supersededBy : Option Uuid
  deriving DecidableEq

abbrev OpinionTable := Table OpinionRow.id

/-- `OPINIONS`. -/
def OPINIONS : List String := ["trusted", "grayware", "vulnerable", "malicious", "suspicious"]

/-- `opinion_history`: the rows of an artifact, the oldest first. -/
def opinionHistory (s : OpinionTable) (tenant artifact : Uuid) : List OpinionRow :=
  (s.rows.filter fun r => r.tenant = tenant ∧ r.artifact = artifact).insertionSort
    fun r r' => r.createdAt ≤ r'.createdAt

/-- `current_opinion`: the newest row that nothing supersedes. -/
def currentOpinion (s : OpinionTable) (tenant artifact : Uuid) : Option OpinionRow :=
  @List.argmax _ _ Int.instLinearOrder.toPreorder Int.decLt OpinionRow.createdAt
    (s.rows.filter fun r => r.tenant = tenant ∧ r.artifact = artifact ∧ r.supersededBy = none)

theorem mem_opinionHistory {s : OpinionTable} {t a : Uuid} {r : OpinionRow} :
    r ∈ opinionHistory s t a ↔ r ∈ s.rows ∧ r.tenant = t ∧ r.artifact = a := by
  simp [opinionHistory]

/-! ### The transaction -/

/-- A call of `set_opinion`, with the id it draws for its row. -/
structure SetOpinion where
  id : Uuid
  tenant : Uuid
  artifact : Uuid
  opinion : String
  actor : String
  reason : String

/-- The statements of the transaction, with what it has found and what it has written. -/
inductive OpinionPt where
  | select (c : SetOpinion)
  | supersede (c : SetOpinion) (prev : Uuid)
  | insert (c : SetOpinion) (previous : Option Uuid) (w : List OpinionRow)
  | audit (c : SetOpinion) (previous : Option Uuid) (w : List OpinionRow)
  | commit (c : SetOpinion) (previous : Option Uuid) (w : List OpinionRow)

abbrev OpinionProg := Prog OpinionPt OpinionTable Time Error

/-- The row a call inserts. -/
def SetOpinion.row (c : SetOpinion) (now : Time) : OpinionRow :=
  { id := c.id, tenant := c.tenant, artifact := c.artifact, opinion := asciiLowercase c.opinion,
    actor := c.actor, reason := c.reason, createdAt := now, supersededBy := none }

/-- The row a call supersedes, as its `UPDATE` writes it. -/
def SetOpinion.superseding (c : SetOpinion) (r : OpinionRow) : OpinionRow :=
  { r with supersededBy := some c.id }

/-- `UPDATE artifact_opinion SET superseded_by`. -/
def markSuperseded (c : SetOpinion) : Option Uuid → OpinionProg (List OpinionRow)
  | none => return []
  | some prev => Prog.query (.supersede c prev) fun s =>
    ((s.get prev).toList.filter fun r => r.tenant = c.tenant).map c.superseding

/-- `set_opinion`, without the trigger that fires after the commit; `debug` is what `{:?}`
prints. -/
def setOpinion (debug : String → String) (c : SetOpinion) : OpinionProg Uuid :=
  if OPINIONS.contains (asciiLowercase c.opinion) then do
    let previous ← Prog.query (.select c) fun s =>
      (currentOpinion s c.tenant c.artifact).map OpinionRow.id
    let w ← markSuperseded c previous
    let w ← Prog.exec (.insert c previous w) fun s now =>
      if ((s.overlay w).get c.id).isSome then .error (.db "duplicate key")
      else .ok (w ++ [c.row now], s)
    Prog.query (.audit c previous w) fun _ => ()
    Prog.update (.commit c previous w) fun s _ => s.overlay w
    return c.id
  else
    let quoted := debug (asciiLowercase c.opinion)
    let supported := ", ".intercalate OPINIONS
    Prog.err (.badRequest s!"invalid opinion {quoted}; supported: {supported}")

/-! ### Row locks -/

/-- The rows a transaction has written and not committed. -/
def OpinionPt.locks : OpinionPt → List Uuid
  | insert _ _ w | audit _ _ w | commit _ _ w => w.map OpinionRow.id
  | _ => []

/-- The rows a statement writes. -/
def OpinionPt.needs : OpinionPt → List Uuid
  | supersede _ prev => [prev]
  | insert c _ _ => [c.id]
  | _ => []

/-- A statement runs only when no other transaction holds a row it writes. -/
def Granted (_ : OpinionTable) (pts : ℕ → Ctl OpinionPt Uuid) : Act SetOpinion Time → Prop
  | .exec n _ => ∀ l m l', pts n = .at l → m ≠ n → pts m = .at l' → l.needs.Disjoint l'.locks
  | _ => True

/-- Histories of `set_opinion` calls: PostgreSQL's row locks, and crashes anywhere. -/
def OpinionRuns (debug : String → String) (s₀ : OpinionTable)
    (h : Pool.Hist SetOpinion OpinionPt OpinionTable Time Error Uuid)
    (p : Pool SetOpinion OpinionPt OpinionTable Time Error Uuid) : Prop :=
  Pool.Reach (setOpinion debug) s₀ h p ∧ ∀ e ∈ h, Granted e.1.store e.1.ctl e.2

/-! ### Chains -/

/-- `r` names `r'` as its successor. -/
def Next (l : List OpinionRow) (r r' : OpinionRow) : Prop :=
  r' ∈ l ∧ r.supersededBy = some r'.id

/-- One current row, no successor named twice, every row followed to the current one
without a cycle. -/
structure SingleChain (l : List OpinionRow) : Prop where
  current : ∃! r, r ∈ l ∧ r.supersededBy = none
  successor : ∀ {r r' x}, r ∈ l → r' ∈ l → r.supersededBy = some x → r'.supersededBy = some x → r = r'
  reaches : ∀ {r c}, r ∈ l → c ∈ l → c.supersededBy = none → Relation.ReflTransGen (Next l) r c
  acyclic : ∀ {r}, r ∈ l → ¬ Relation.TransGen (Next l) r r

def TwoCurrent (l : List OpinionRow) : Prop :=
  ∃ r ∈ l, ∃ r' ∈ l, r ≠ r' ∧ r.supersededBy = none ∧ r'.supersededBy = none

theorem SingleChain.not_twoCurrent {l : List OpinionRow} (h : SingleChain l) : ¬ TwoCurrent l := by
  rintro ⟨r, hr, r', hr', hne, hc, hc'⟩
  exact hne (h.current.unique ⟨hr, hc⟩ ⟨hr', hc'⟩)

theorem SingleChain.congr {l l' : List OpinionRow} (h : SingleChain l) (hmem : ∀ r, r ∈ l' ↔ r ∈ l) :
    SingleChain l' := by
  have hnext : Next l' = Next l := by
    funext r r'
    simp only [Next, hmem]
  constructor
  · simpa only [hmem] using h.current
  · intro r r' x hr hr'
    exact h.successor ((hmem r).mp hr) ((hmem r').mp hr')
  · intro r c hr hc
    rw [hnext]
    exact h.reaches ((hmem r).mp hr) ((hmem c).mp hc)
  · intro r hr
    rw [hnext]
    exact h.acyclic ((hmem r).mp hr)

/-- From a row without successor nothing is reached; what leads there is no cycle. -/
theorem acyclic_of_reaches {l : List OpinionRow} {r c : OpinionRow}
    (hkey : ∀ {x y}, x ∈ l → y ∈ l → x.id = y.id → x = y)
    (hr : Relation.ReflTransGen (Next l) r c) (hc : c.supersededBy = none) :
    ¬ Relation.TransGen (Next l) r r := by
  induction hr using Relation.ReflTransGen.head_induction_on with
  | refl =>
    intro hcycle
    obtain ⟨x, ⟨_, hx⟩, _⟩ := Relation.TransGen.head'_iff.mp hcycle
    rw [hc] at hx
    cases hx
  | @head r r₁ hstep _ ih =>
    intro hcycle
    obtain ⟨x, ⟨hx, hrx⟩, hback⟩ := Relation.TransGen.head'_iff.mp hcycle
    -- both steps from `r` go to the row of the same id
    obtain rfl : x = r₁ := hkey hx hstep.1 (Option.some.inj (hrx.symm.trans hstep.2))
    exact ih (Relation.TransGen.tail' hback hstep)

/-! ### What a transaction has written -/

/-- The row superseded, if `SELECT` found one. -/
inductive Superseded (c : SetOpinion) (s : OpinionTable) :
    Option Uuid → List OpinionRow → Prop where
  | nothing : Superseded c s none []
  | marked {r : OpinionRow} : r ∈ s.rows → r.tenant = c.tenant → r.artifact = c.artifact →
      Superseded c s (some r.id) [c.superseding r]

/-- The rows of a transaction that is ready to commit. -/
def Written (c : SetOpinion) (s : OpinionTable) (previous : Option Uuid) (w : List OpinionRow) :
    Prop :=
  ∃ w₀ now, Superseded c s previous w₀ ∧ s.get c.id = none ∧ w = w₀ ++ [c.row now]

/-- What a commit makes of the table. -/
theorem mem_overlay {c : SetOpinion} {s : OpinionTable} {previous : Option Uuid}
    {w₀ : List OpinionRow} {now : Time} (hw : Superseded c s previous w₀) (hid : s.get c.id = none)
    {x : OpinionRow} :
    x ∈ (s.overlay (w₀ ++ [c.row now])).rows ↔ x = c.row now ∨
      (x ∈ s.rows ∧ previous ≠ some x.id) ∨
      ∃ r ∈ s.rows, previous = some r.id ∧ x = c.superseding r := by
  have hfresh : ∀ {y : OpinionRow}, y ∈ s.rows → y.id ≠ c.id := fun hy hk =>
    Table.get_eq_none.mp hid (hk ▸ List.mem_map_of_mem hy)
  cases hw with
  | nothing =>
    show x ∈ (s.upsert (c.row now)).rows ↔ _
    rw [Table.mem_upsert]
    constructor
    · rintro (rfl | ⟨hx, _⟩)
      · exact .inl rfl
      · exact .inr (.inl ⟨hx, by simp⟩)
    · rintro (rfl | ⟨hx, _⟩ | ⟨r, _, hr, _⟩)
      · exact .inl rfl
      · exact .inr ⟨hx, hfresh hx⟩
      · cases hr
  | @marked r hr ht ha =>
    show x ∈ ((s.upsert (c.superseding r)).upsert (c.row now)).rows ↔ _
    rw [Table.mem_upsert, Table.mem_upsert]
    constructor
    · rintro (rfl | ⟨rfl | ⟨hx, hne⟩, _⟩)
      · exact .inl rfl
      · exact .inr (.inr ⟨r, hr, rfl, rfl⟩)
      · exact .inr (.inl ⟨hx, fun heq => hne (Option.some.inj heq).symm⟩)
    · rintro (rfl | ⟨hx, hne⟩ | ⟨r', hr', heq, rfl⟩)
      · exact .inl rfl
      · exact .inr ⟨.inr ⟨hx, fun heq => hne (congrArg some heq.symm)⟩, hfresh hx⟩
      · obtain rfl : r = r' := Table.eq_of_mem hr hr' (Option.some.inj heq)
        exact .inr ⟨.inl rfl, fun hk => hfresh hr hk⟩

/-- The row `SELECT` found is the one that is current: whatever else is superseded. -/
def IsCurrent (l : List OpinionRow) (previous : Option Uuid) : Prop :=
  ∀ r ∈ l, r.supersededBy = none → previous = some r.id

section Commit

variable {c : SetOpinion} {s : OpinionTable} {previous : Option Uuid} {w : List OpinionRow}

/-- The history of the artifact after a commit. -/
theorem mem_history_commit (hw : Written c s previous w) : ∃ now, ∀ {x : OpinionRow},
    x ∈ opinionHistory (s.overlay w) c.tenant c.artifact ↔ x = c.row now ∨
      (x ∈ opinionHistory s c.tenant c.artifact ∧ previous ≠ some x.id) ∨
      ∃ r ∈ opinionHistory s c.tenant c.artifact, previous = some r.id ∧ x = c.superseding r := by
  obtain ⟨w₀, now, hw₀, hid, rfl⟩ := hw
  refine ⟨now, fun {x} => ?_⟩
  rw [mem_opinionHistory, mem_overlay hw₀ hid]
  constructor
  · rintro ⟨rfl | ⟨hx, hne⟩ | ⟨r, hr, heq, rfl⟩, ht, ha⟩
    · exact .inl rfl
    · exact .inr (.inl ⟨mem_opinionHistory.mpr ⟨hx, ht, ha⟩, hne⟩)
    · exact .inr (.inr ⟨r, mem_opinionHistory.mpr ⟨hr, ht, ha⟩, heq, rfl⟩)
  · rintro (rfl | ⟨hx, hne⟩ | ⟨r, hr, heq, rfl⟩)
    · exact ⟨.inl rfl, rfl, rfl⟩
    · obtain ⟨hx, ht, ha⟩ := mem_opinionHistory.mp hx
      exact ⟨.inr (.inl ⟨hx, hne⟩), ht, ha⟩
    · obtain ⟨hr, ht, ha⟩ := mem_opinionHistory.mp hr
      exact ⟨.inr (.inr ⟨r, hr, heq, rfl⟩), ht, ha⟩

/-- A commit leaves the histories of other artifacts alone. -/
theorem mem_history_commit_other (hw : Written c s previous w) {t a : Uuid}
    (hother : ¬ (c.tenant = t ∧ c.artifact = a)) {x : OpinionRow} :
    x ∈ opinionHistory (s.overlay w) t a ↔ x ∈ opinionHistory s t a := by
  obtain ⟨w₀, now, hw₀, hid, rfl⟩ := hw
  rw [mem_opinionHistory, mem_opinionHistory, mem_overlay hw₀ hid]
  -- the row marked is one of the artifact of the call
  have hmarked : ∀ {r}, r ∈ s.rows → previous = some r.id →
      r.tenant = c.tenant ∧ r.artifact = c.artifact := by
    intro r hr heq
    cases hw₀ with
    | nothing => cases heq
    | @marked r' hr' ht ha =>
      obtain rfl : r' = r := Table.eq_of_mem hr' hr (Option.some.inj heq)
      exact ⟨ht, ha⟩
  constructor
  · rintro ⟨rfl | ⟨hx, _⟩ | ⟨r, hr, heq, rfl⟩, ht, ha⟩
    · exact absurd ⟨ht, ha⟩ hother
    · exact ⟨hx, ht, ha⟩
    · obtain ⟨ht', ha'⟩ := hmarked hr heq
      exact absurd ⟨ht'.symm.trans ht, ha'.symm.trans ha⟩ hother
  · rintro ⟨hx, ht, ha⟩
    refine ⟨.inr (.inl ⟨hx, fun heq => ?_⟩), ht, ha⟩
    obtain ⟨ht', ha'⟩ := hmarked hx heq
    exact hother ⟨ht'.symm.trans ht, ha'.symm.trans ha⟩

theorem history_key {s : OpinionTable} {t a : Uuid} {x y : OpinionRow}
    (hx : x ∈ opinionHistory s t a) (hy : y ∈ opinionHistory s t a) (h : x.id = y.id) : x = y :=
  Table.eq_of_mem (mem_opinionHistory.mp hx).1 (mem_opinionHistory.mp hy).1 h

/-- **A commit that supersedes the current row** makes a single chain, out of one or
out of nothing. -/
theorem singleChain_commit (hw : Written c s previous w)
    (hchain : opinionHistory s c.tenant c.artifact = [] ∨
      SingleChain (opinionHistory s c.tenant c.artifact))
    (hcur : IsCurrent (opinionHistory s c.tenant c.artifact) previous) :
    SingleChain (opinionHistory (s.overlay w) c.tenant c.artifact) := by
  have hkey : ∀ {x y}, x ∈ opinionHistory (s.overlay w) c.tenant c.artifact →
      y ∈ opinionHistory (s.overlay w) c.tenant c.artifact → x.id = y.id → x = y :=
    fun hx hy => history_key hx hy
  have hfresh : s.get c.id = none := by
    obtain ⟨_, _, _, hid, _⟩ := hw
    exact hid
  obtain ⟨now, hmem⟩ := mem_history_commit hw
  generalize opinionHistory (s.overlay w) c.tenant c.artifact = l' at hmem hkey ⊢
  have hnew : c.row now ∈ l' := hmem.mpr (.inl rfl)
  -- the new row is the only current one
  have honly : ∀ {r}, r ∈ l' → r.supersededBy = none → r = c.row now := by
    intro r hr hnone
    rcases hmem.mp hr with rfl | ⟨hr, hne⟩ | ⟨r₀, _, _, rfl⟩
    · rfl
    · exact absurd (hcur r hr hnone) hne
    · cases hnone
  -- no row has named the new one
  have hunnamed : ∀ {r}, r ∈ opinionHistory s c.tenant c.artifact → r.supersededBy ≠ some c.id := by
    intro r hr hsup
    rcases hchain with hnil | hchain
    · rw [hnil] at hr
      cases hr
    obtain ⟨r₁, ⟨hr₁, hcur₁⟩, _⟩ := hchain.current
    rcases (hchain.reaches hr hr₁ hcur₁).cases_head with rfl | ⟨x, ⟨hx, hrx⟩, _⟩
    · rw [hcur₁] at hsup
      cases hsup
    · obtain heq : x.id = c.id := Option.some.inj (hrx.symm.trans hsup)
      exact Table.get_eq_none.mp hfresh (heq ▸ List.mem_map_of_mem (mem_opinionHistory.mp hx).1)
  -- every row is followed to the new one
  have hreach : ∀ {r}, r ∈ l' → Relation.ReflTransGen (Next l') r (c.row now) := by
    intro r hr
    have hmarked : ∀ r₀, Relation.ReflTransGen (Next l') (c.superseding r₀) (c.row now) :=
      fun r₀ => .single ⟨hnew, rfl⟩
    rcases hmem.mp hr with rfl | ⟨hr, hne⟩ | ⟨r₀, _, _, rfl⟩
    · exact .refl
    · rcases hchain with hnil | hchain
      · rw [hnil] at hr
        cases hr
      obtain ⟨r₁, ⟨hr₁, hcur₁⟩, _⟩ := hchain.current
      -- along the old path, up to the row that is now marked
      induction hchain.reaches hr hr₁ hcur₁ using Relation.ReflTransGen.head_induction_on with
      | refl => exact absurd (hcur _ hr₁ hcur₁) hne
      | @head x y hstep _ ih =>
        by_cases hy : previous = some y.id
        · exact .head ⟨hmem.mpr (.inr (.inr ⟨y, hstep.1, hy, rfl⟩)), hstep.2⟩ (hmarked y)
        · have hy' : y ∈ l' := hmem.mpr (.inr (.inl ⟨hstep.1, hy⟩))
          exact .head ⟨hy', hstep.2⟩ (ih hy' hstep.1 hy)
    · exact hmarked r₀
  refine ⟨⟨c.row now, ⟨hnew, rfl⟩, fun r hr => honly hr.1 hr.2⟩, ?_, ?_, ?_⟩
  · intro r r' x hr hr' hx hx'
    rcases hmem.mp hr with rfl | ⟨hr, _⟩ | ⟨r₀, hr₀, heq, rfl⟩
    · cases hx
    · rcases hmem.mp hr' with rfl | ⟨hr', _⟩ | ⟨r₀', _, _, rfl⟩
      · cases hx'
      · rcases hchain with hnil | hchain
        · rw [hnil] at hr
          cases hr
        · exact hchain.successor hr hr' hx hx'
      · obtain rfl : c.id = x := Option.some.inj hx'
        exact absurd hx (hunnamed hr)
    · obtain rfl : c.id = x := Option.some.inj hx
      rcases hmem.mp hr' with rfl | ⟨hr', _⟩ | ⟨r₀', hr₀', heq', rfl⟩
      · cases hx'
      · exact absurd hx' (hunnamed hr')
      · rw [history_key hr₀ hr₀' (Option.some.inj (heq.symm.trans heq'))]
  · intro r c' hr hc' hnone
    rw [honly hc' hnone]
    exact hreach hr
  · intro r hr
    exact acyclic_of_reaches hkey (hreach hr) rfl

/-- **A commit that supersedes another row** leaves two current ones. -/
theorem twoCurrent_commit (hw : Written c s previous w) {r : OpinionRow}
    (hr : r ∈ opinionHistory s c.tenant c.artifact) (hcur : r.supersededBy = none)
    (hne : previous ≠ some r.id) :
    TwoCurrent (opinionHistory (s.overlay w) c.tenant c.artifact) := by
  have hfresh : s.get c.id = none := by
    obtain ⟨_, _, _, hid, _⟩ := hw
    exact hid
  obtain ⟨now, hmem⟩ := mem_history_commit hw
  refine ⟨r, hmem.mpr (.inr (.inl ⟨hr, hne⟩)), c.row now, hmem.mpr (.inl rfl), ?_, hcur, rfl⟩
  rintro rfl
  exact Table.get_eq_none.mp hfresh (List.mem_map_of_mem (mem_opinionHistory.mp hr).1)

/-- Of two current rows a commit supersedes at most one. -/
theorem TwoCurrent.commit (h : TwoCurrent (opinionHistory s c.tenant c.artifact))
    (hw : Written c s previous w) :
    TwoCurrent (opinionHistory (s.overlay w) c.tenant c.artifact) := by
  obtain ⟨r, hr, r', hr', hne, hcur, hcur'⟩ := h
  by_cases hp : previous = some r.id
  · refine twoCurrent_commit hw hr' hcur' fun hp' => hne ?_
    exact history_key hr hr' (Option.some.inj (hp.symm.trans hp'))
  · exact twoCurrent_commit hw hr hcur hp

end Commit

end Corpus
