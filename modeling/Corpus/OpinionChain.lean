/-
One current opinion.

Two calls of `set_opinion` on one artifact may find the same row, or none: each then
supersedes what it found, and two rows stay current.  Which histories do this is a
matter of the order of two statements: a transaction is `Overlapped` when another one
on the artifact has committed since its `SELECT`.

Main results:
* `single_chain_iff` — the history of an artifact is a single chain exactly when no
  transaction on it has committed overlapped;
* `overlapped_opinions` — two transactions side by side.
-/
import Corpus.Opinions

namespace Corpus

/-! ### Moves -/

/-- The statements of `set_opinion` as moves between program points. -/
inductive OpinionMove : OpinionPt → OpinionTable → OpinionTable → Ctl OpinionPt Uuid → Prop where
  | selectNone {c : SetOpinion} {s : OpinionTable} :
      currentOpinion s c.tenant c.artifact = none →
      OpinionMove (.select c) s s (.at (.insert c none []))
  | select {c : SetOpinion} {s : OpinionTable} {r : OpinionRow} :
      currentOpinion s c.tenant c.artifact = some r →
      OpinionMove (.select c) s s (.at (.supersede c r.id))
  | supersede {c : SetOpinion} {s : OpinionTable} {prev : Uuid} :
      OpinionMove (.supersede c prev) s s (.at (.insert c (some prev)
        (((s.get prev).toList.filter fun r => r.tenant = c.tenant).map c.superseding)))
  | duplicate {c : SetOpinion} {s : OpinionTable} {previous : Option Uuid} {w : List OpinionRow} :
      OpinionMove (.insert c previous w) s s .failed
  | insert {c : SetOpinion} {s : OpinionTable} {previous : Option Uuid} {w : List OpinionRow}
      (now : Time) : (s.overlay w).get c.id = none →
      OpinionMove (.insert c previous w) s s (.at (.audit c previous (w ++ [c.row now])))
  | audit {c : SetOpinion} {s : OpinionTable} {previous : Option Uuid} {w : List OpinionRow} :
      OpinionMove (.audit c previous w) s s (.at (.commit c previous w))
  | commit {c : SetOpinion} {s : OpinionTable} {previous : Option Uuid} {w : List OpinionRow} :
      OpinionMove (.commit c previous w) s (s.overlay w) (.done c.id)

theorem setOpinion_takes (debug : String → String) (c : SetOpinion) :
    (setOpinion debug c).Takes fun l _ => OpinionMove l := by
  have htail : ∀ previous w, ((do
      let w ← Prog.exec (.insert c previous w) fun s now =>
        if ((s.overlay w).get c.id).isSome then .error (.db "duplicate key")
        else .ok (w ++ [c.row now], s)
      Prog.query (.audit c previous w) fun _ => ()
      Prog.update (.commit c previous w) fun s _ => s.overlay w
      return c.id : OpinionProg Uuid)).Takes fun l _ => OpinionMove l := by
    intro previous w
    refine Prog.takes_exec_bind fun s now => ?_
    by_cases hid : ((s.overlay w).get c.id).isSome = true
    · rw [if_pos hid]
      exact .duplicate
    · rw [if_neg hid]
      refine ⟨.insert now (by simpa using hid), ?_⟩
      exact fun s' _ => ⟨.audit, fun s'' _ => ⟨.commit, trivial⟩⟩
  unfold setOpinion
  split
  · rw [Prog.query_bind]
    refine fun s _ => ?_
    dsimp only
    cases hcur : currentOpinion s c.tenant c.artifact with
    | none => exact ⟨.selectNone hcur, htail none []⟩
    | some r => exact ⟨.select hcur, fun s' _ => ⟨.supersede, htail _ _⟩⟩
  · exact Prog.takes_err _

/-- A call starts at its `SELECT`, unless its opinion is none. -/
theorem setOpinion_ctl (debug : String → String) (c : SetOpinion) :
    (setOpinion debug c).ctl = .at (.select c) ∨ (setOpinion debug c).ctl = .failed := by
  unfold setOpinion
  split
  · exact .inl rfl
  · exact .inr rfl

theorem OpinionMove.locks {l l' : OpinionPt} {s s' : OpinionTable} {c : Ctl OpinionPt Uuid}
    (h : OpinionMove l s s' c) (hc : c = .at l') : l'.locks ⊆ l.needs ++ l.locks := by
  cases h with
  | selectNone _ | select _ =>
    cases hc
    exact List.nil_subset _
  | @supersede c s prev =>
    cases hc
    intro x hx
    obtain ⟨y, hy, rfl⟩ := List.mem_map.mp hx
    obtain ⟨r, hr, rfl⟩ := List.mem_map.mp hy
    have hr : s.get prev = some r := by simpa using (List.mem_filter.mp hr).1
    obtain rfl : r.id = prev := (Table.mem_of_get hr).2
    exact List.mem_append_left _ (List.mem_singleton_self _)
  | duplicate | commit => cases hc
  | @insert c s previous w now _ =>
    cases hc
    intro x hx
    simpa [OpinionPt.locks, OpinionPt.needs, SetOpinion.row, or_comm] using hx
  | audit =>
    cases hc
    exact fun x hx => hx

/-! ### What is known at each point -/

/-- What a transaction knows at a point, whatever others commit. -/
def OpinionPt.Holds (s : OpinionTable) : OpinionPt → Prop
  | select _ => True
  | supersede c prev => ∃ r ∈ s.rows, r.id = prev ∧ r.tenant = c.tenant ∧ r.artifact = c.artifact
  | insert c previous w => Superseded c s previous w
  | audit c previous w | commit c previous w => Written c s previous w

/-- The call and what its `SELECT` has found. -/
def OpinionPt.found : OpinionPt → Option (SetOpinion × Option Uuid)
  | select _ => none
  | supersede c prev => some (c, some prev)
  | insert c previous _ | audit c previous _ | commit c previous _ => some (c, previous)

theorem Superseded.get {c : SetOpinion} {s : OpinionTable} {previous : Option Uuid}
    {w : List OpinionRow} (h : Superseded c s previous w) {x : Uuid} (hx : previous = some x) :
    (s.get x).isSome = true := by
  cases h with
  | nothing => cases hx
  | marked hr _ _ =>
    obtain rfl := Option.some.inj hx
    rw [Table.mem_rows_iff.mp hr]
    rfl

/-- The row found is in the table. -/
theorem OpinionPt.Holds.get {l : OpinionPt} {s : OpinionTable} (h : l.Holds s) {c : SetOpinion}
    {x : Uuid} (hl : l.found = some (c, some x)) : (s.get x).isSome = true := by
  cases l with
  | select c => cases hl
  | supersede c prev =>
    obtain ⟨r, hr, rfl, _⟩ := h
    cases hl
    rw [Table.mem_rows_iff.mp hr]
    rfl
  | insert c previous w =>
    cases hl
    exact Superseded.get h rfl
  | audit c previous w | commit c previous w =>
    cases hl
    obtain ⟨w₀, _, hw₀, _⟩ := h
    exact hw₀.get rfl

/-- The primary key of `INSERT` is checked against the table and the marked row. -/
theorem Superseded.fresh {c : SetOpinion} {s : OpinionTable} {previous : Option Uuid}
    {w : List OpinionRow} (h : Superseded c s previous w) {k : Uuid}
    (hk : (s.overlay w).get k = none) : s.get k = none := by
  cases h with
  | nothing => exact hk
  | @marked r hr _ _ =>
    have hk : (s.upsert (c.superseding r)).get k = none := hk
    rw [Table.get_eq_none] at hk ⊢
    intro hmem
    obtain ⟨x, hx, rfl⟩ := List.mem_map.mp hmem
    by_cases hxr : x.id = r.id
    · refine hk (hxr ▸ List.mem_map_of_mem (a := c.superseding r) ?_)
      exact Table.mem_upsert.mpr (.inl rfl)
    · exact hk (List.mem_map_of_mem (Table.mem_upsert.mpr (.inr ⟨hx, hxr⟩)))

/-- What a move establishes. -/
theorem OpinionMove.holds {l l' : OpinionPt} {s s' : OpinionTable} {c : Ctl OpinionPt Uuid}
    (h : OpinionMove l s s' c) (hl : l.Holds s) (hc : c = .at l') : l'.Holds s' := by
  cases h with
  | selectNone _ =>
    cases hc
    exact .nothing
  | @select c s r hcur =>
    cases hc
    have hmem := List.argmax_mem hcur
    simp only [List.mem_filter, decide_eq_true_eq] at hmem
    exact ⟨r, hmem.1, rfl, hmem.2.1, hmem.2.2.1⟩
  | supersede =>
    cases hc
    obtain ⟨r, hr, rfl, ht, ha⟩ := hl
    show Superseded _ _ _ _
    rw [Table.mem_rows_iff.mp hr, Option.toList_some, List.filter_singleton, decide_eq_true ht,
      cond_true]
    exact .marked hr ht ha
  | duplicate | commit => cases hc
  | @insert c s previous w now hid =>
    cases hc
    exact ⟨w, now, hl, hl.fresh hid, rfl⟩
  | audit =>
    cases hc
    exact hl

/-! ### Commits of others -/

section Others

variable {c : SetOpinion} {s : OpinionTable} {previous : Option Uuid} {w : List OpinionRow}

/-- A row of a table in which a transaction commits: it stays, or is marked, and then
the transaction has it locked. -/
theorem mem_commit_of_mem (hw : Written c s previous w) {r : OpinionRow} (hr : r ∈ s.rows) :
    r ∈ (s.overlay w).rows ∨
      (c.superseding r ∈ (s.overlay w).rows ∧ r.id ∈ w.map OpinionRow.id) := by
  obtain ⟨w₀, now, hw₀, hid, rfl⟩ := hw
  by_cases hp : previous = some r.id
  · refine .inr ⟨(mem_overlay hw₀ hid).mpr (.inr (.inr ⟨r, hr, hp, rfl⟩)), ?_⟩
    cases hw₀ with
    | nothing => cases hp
    | @marked r' _ _ _ =>
      obtain heq : r'.id = r.id := Option.some.inj hp
      rw [← heq]
      simp [SetOpinion.superseding]
  · exact .inl ((mem_overlay hw₀ hid).mpr (.inr (.inl ⟨hr, hp⟩)))

/-- A key that nobody has and the transaction has not locked stays free. -/
theorem get_commit_eq_none (hw : Written c s previous w) {k : Uuid} (hk : s.get k = none)
    (hlock : k ∉ w.map OpinionRow.id) : (s.overlay w).get k = none := by
  obtain ⟨w₀, now, hw₀, hid, rfl⟩ := hw
  rw [Table.get_eq_none] at hk ⊢
  intro hmem
  obtain ⟨x, hx, rfl⟩ := List.mem_map.mp hmem
  rcases (mem_overlay hw₀ hid).mp hx with rfl | ⟨hx, _⟩ | ⟨r, hr, _, rfl⟩
  · exact hlock (List.mem_map_of_mem (List.mem_append_right _ (List.mem_singleton_self _)))
  · exact hk (List.mem_map_of_mem hx)
  · exact hk (show r.id ∈ s.rows.map OpinionRow.id from List.mem_map_of_mem hr)

theorem Superseded.commit (hw : Written c s previous w) {c' : SetOpinion} {previous' : Option Uuid}
    {w' : List OpinionRow} (h : Superseded c' s previous' w')
    (hlock : (w'.map OpinionRow.id).Disjoint (w.map OpinionRow.id)) :
    Superseded c' (s.overlay w) previous' w' := by
  cases h with
  | nothing => exact .nothing
  | @marked r hr ht ha =>
    rcases mem_commit_of_mem hw hr with hr' | ⟨_, hlocked⟩
    · exact .marked hr' ht ha
    · refine absurd hlocked (hlock ?_)
      simp [SetOpinion.superseding]

/-- What a transaction knows survives the commit of another. -/
theorem OpinionPt.Holds.commit {l : OpinionPt} (hl : l.Holds s) (hw : Written c s previous w)
    (hlock : l.locks.Disjoint (w.map OpinionRow.id)) : l.Holds (s.overlay w) := by
  have hwritten : ∀ {c' : SetOpinion} {previous' : Option Uuid} {w' : List OpinionRow},
      Written c' s previous' w' → (w'.map OpinionRow.id).Disjoint (w.map OpinionRow.id) →
      Written c' (s.overlay w) previous' w' := by
    rintro c' previous' w' ⟨w₀, now, hw₀, hid, rfl⟩ hdisj
    rw [List.map_append, List.disjoint_append_left] at hdisj
    refine ⟨w₀, now, hw₀.commit hw hdisj.1, get_commit_eq_none hw hid ?_, rfl⟩
    exact fun hmem => hdisj.2 (List.mem_singleton_self _) hmem
  cases l with
  | select c' => trivial
  | supersede c' prev =>
    obtain ⟨r, hr, rfl, ht, ha⟩ := hl
    rcases mem_commit_of_mem hw hr with hr' | ⟨hr', _⟩
    · exact ⟨r, hr', rfl, ht, ha⟩
    · exact ⟨_, hr', rfl, ht, ha⟩
  | insert c' previous' w' => exact Superseded.commit hw hl hlock
  | audit c' previous' w' | commit c' previous' w' => exact hwritten hl hlock

end Others

/-! ### Transactions side by side -/

/-- Every transaction knows what it knows, and no two have written the same row. -/
structure SideBySide (s : OpinionTable) (pts : ℕ → Ctl OpinionPt Uuid) : Prop where
  holds : ∀ {n l}, pts n = .at l → l.Holds s
  apart : ∀ {n m l l'}, pts n = .at l → pts m = .at l' → n ≠ m → l.locks.Disjoint l'.locks

/-- A call that has no lock takes another place: it starts, or it is gone. -/
theorem SideBySide.replace {s : OpinionTable} {pts : ℕ → Ctl OpinionPt Uuid}
    (h : SideBySide s pts) {n : ℕ} {x : Ctl OpinionPt Uuid}
    (hx : ∀ l, x = .at l → l.locks = [] ∧ l.Holds s) :
    SideBySide s (Function.update pts n x) where
  holds := fun {m l} hm => by
    rcases View.at_update hm with ⟨rfl, hc⟩ | ⟨_, hm⟩
    · exact (hx l hc).2
    · exact h.holds hm
  apart := fun {m k l l'} hm hk hne => by
    rcases View.at_update hm with ⟨rfl, hc⟩ | ⟨_, hm⟩
    · rw [(hx l hc).1]
      exact List.disjoint_nil_left _
    rcases View.at_update hk with ⟨rfl, hc⟩ | ⟨_, hk⟩
    · rw [(hx l' hc).1]
      exact List.disjoint_nil_right _
    · exact h.apart hm hk hne

/-- **The step.** -/
theorem SideBySide.exec {s s' : OpinionTable} {pts : ℕ → Ctl OpinionPt Uuid} {n : ℕ}
    {l : OpinionPt} {x : Ctl OpinionPt Uuid} {now : Time} (h : SideBySide s pts)
    (hn : pts n = .at l) (hmove : OpinionMove l s s' x) (hgrant : Granted s pts (.exec n now)) :
    SideBySide s' (Function.update pts n x) := by
  have hother : ∀ {m l'}, m ≠ n → pts m = .at l' → l'.Holds s' := by
    intro m l' hne hm
    cases hmove with
    | commit => exact (h.holds hm).commit (h.holds hn) (h.apart hm hn hne)
    | _ => exact h.holds hm
  have hlocks : ∀ {m l' l''}, x = .at l'' → m ≠ n → pts m = .at l' → l''.locks.Disjoint l'.locks := by
    intro m l' l'' hx hne hm
    refine List.disjoint_of_subset_left (hmove.locks hx) ?_
    exact List.disjoint_append_left.mpr ⟨hgrant l m l' hn hne hm, h.apart hn hm (Ne.symm hne)⟩
  constructor
  · intro m l' hm
    rcases View.at_update hm with ⟨rfl, hc⟩ | ⟨hne, hm⟩
    · exact hmove.holds (h.holds hn) hc
    · exact hother hne hm
  · intro m k l' l'' hm hk hne
    rcases View.at_update hm with ⟨rfl, hc⟩ | ⟨hmn, hm'⟩
    · rcases View.at_update hk with ⟨rfl, _⟩ | ⟨hkn, hk⟩
      · exact absurd rfl hne
      · exact hlocks hc hkn hk
    · rcases View.at_update hk with ⟨rfl, hc⟩ | ⟨_, hk'⟩
      · exact List.disjoint_symm (hlocks hc hmn hm')
      · exact h.apart hm' hk' hne

/-! ### Overlaps -/

abbrev OpinionEvent := View OpinionPt OpinionTable Uuid × Act SetOpinion Time

/-- The events of a history. -/
def opinionTrace (h : Pool.Hist SetOpinion OpinionPt OpinionTable Time Error Uuid) :
    List OpinionEvent :=
  h.map fun e => (e.1.view, e.2)

/-- The `n`-th call runs its `SELECT`, for artifact `a` of tenant `t`. -/
def Selects (t a : Uuid) (e : OpinionEvent) (n : ℕ) : Prop :=
  ∃ i c, e.2 = .exec n i ∧ e.1.pts n = .at (.select c) ∧ c.tenant = t ∧ c.artifact = a

/-- The `n`-th call commits, for artifact `a` of tenant `t`. -/
def Commits (t a : Uuid) (e : OpinionEvent) (n : ℕ) : Prop :=
  ∃ i c previous w, e.2 = .exec n i ∧ e.1.pts n = .at (.commit c previous w) ∧
    c.tenant = t ∧ c.artifact = a

/-- Some transaction on the artifact has committed since the `SELECT` of the `n`-th call. -/
def Overlapped (t a : Uuid) (tr : List OpinionEvent) (n : ℕ) : Prop :=
  ∃ tr₁ d tr₂, tr = tr₁ ++ d :: tr₂ ∧ Selects t a d n ∧ ∃ e ∈ tr₂, ∃ m, Commits t a e m

/-- No transaction on the artifact commits overlapped. -/
def NoOverlap (t a : Uuid) (tr : List OpinionEvent) : Prop :=
  ∀ tr₁ e tr₂, tr = tr₁ ++ e :: tr₂ → ∀ n, Commits t a e n → ¬ Overlapped t a tr₁ n

section Events

variable {t a : Uuid} {tr : List OpinionEvent} {e : OpinionEvent} {n : ℕ}

theorem overlapped_snoc : Overlapped t a (tr ++ [e]) n ↔ Overlapped t a tr n ∨
    (∃ d ∈ tr, Selects t a d n) ∧ ∃ m, Commits t a e m := by
  constructor
  · rintro ⟨tr₁, d, tr₂, heq, hd, e', he', hc⟩
    rcases List.eq_nil_or_concat tr₂ with rfl | ⟨tr₂, e₀, rfl⟩
    · cases he'
    · have hsplit : tr ++ [e] = (tr₁ ++ d :: tr₂) ++ [e₀] := by
        rw [heq]
        simp
      obtain ⟨rfl, hlast⟩ := List.append_inj' hsplit rfl
      obtain rfl : e = e₀ := List.head_eq_of_cons_eq hlast
      rcases List.mem_append.mp (List.concat_eq_append .. ▸ he') with he' | he'
      · exact .inl ⟨tr₁, d, tr₂, rfl, hd, e', he', hc⟩
      · obtain rfl := List.mem_singleton.mp he'
        exact .inr ⟨⟨d, by simp, hd⟩, hc⟩
  · rintro (⟨tr₁, d, tr₂, rfl, hd, e', he', hc⟩ | ⟨⟨d, hd, hsel⟩, hc⟩)
    · exact ⟨tr₁, d, tr₂ ++ [e], by simp, hd, e', List.mem_append_left _ he', hc⟩
    · obtain ⟨tr₁, tr₂, rfl⟩ := List.append_of_mem hd
      exact ⟨tr₁, d, tr₂ ++ [e], by simp, hsel, e, by simp, hc⟩

theorem noOverlap_snoc : NoOverlap t a (tr ++ [e]) ↔
    NoOverlap t a tr ∧ ∀ n, Commits t a e n → ¬ Overlapped t a tr n := by
  constructor
  · intro h
    refine ⟨fun tr₁ d tr₂ heq => h tr₁ d (tr₂ ++ [e]) (by rw [heq]; simp), h tr e [] rfl⟩
  · rintro ⟨h, hlast⟩ tr₁ d tr₂ heq
    rcases List.eq_nil_or_concat tr₂ with rfl | ⟨tr₂, e₀, rfl⟩
    · obtain ⟨rfl, hd⟩ := List.append_inj' heq rfl
      obtain rfl : e = d := List.head_eq_of_cons_eq hd
      exact hlast
    · have hsplit : tr ++ [e] = (tr₁ ++ d :: tr₂) ++ [e₀] := by
        rw [heq]
        simp
      exact h tr₁ d tr₂ (List.append_inj' hsplit rfl).1

theorem Overlapped.selected (h : Overlapped t a tr n) : ∃ d ∈ tr, Selects t a d n := by
  obtain ⟨tr₁, d, tr₂, rfl, hd, _⟩ := h
  exact ⟨d, by simp, hd⟩

/-- An event that commits nothing of the artifact overlaps nobody. -/
theorem overlapped_quiet (he : ∀ m, ¬ Commits t a e m) :
    Overlapped t a (tr ++ [e]) n ↔ Overlapped t a tr n := by
  rw [overlapped_snoc]
  constructor
  · rintro (h | ⟨_, m, hc⟩)
    · exact h
    · exact absurd hc (he m)
  · exact .inl

end Events

/-! ### Every history -/

/-- The point of a call that has not run its `SELECT`. -/
def unselected : Ctl OpinionPt Uuid → Prop
  | .idle | .at (.select _) => True
  | _ => False

/-- Where the history of the artifact stands, as long as no transaction has committed
overlapped: a transaction is overlapped just when the row it found is no longer the
current one. -/
structure OneChain (t a : Uuid) (tr : List OpinionEvent)
    (v : View OpinionPt OpinionTable Uuid) : Prop where
  noOverlap : NoOverlap t a tr
  chain : opinionHistory v.store t a = [] ∨ SingleChain (opinionHistory v.store t a)
  current : ∀ {n l c previous}, v.pts n = .at l → l.found = some (c, previous) →
    c.tenant = t → c.artifact = a →
    (IsCurrent (opinionHistory v.store t a) previous ↔ ¬ Overlapped t a tr n)

/-- What every history keeps. -/
structure OpinionInv (t a : Uuid) (tr : List OpinionEvent)
    (v : View OpinionPt OpinionTable Uuid) : Prop where
  base : SideBySide v.store v.pts
  unselected : ∀ {n}, unselected (v.pts n) → ∀ d ∈ tr, ¬ Selects t a d n
  selected : ∀ {n l c previous}, v.pts n = .at l → l.found = some (c, previous) →
    c.tenant = t → c.artifact = a → ∃ d ∈ tr, Selects t a d n
  nonempty : ∀ e ∈ tr, ∀ n, Commits t a e n → opinionHistory v.store t a ≠ []
  verdict : OneChain t a tr v ∨
    (¬ NoOverlap t a tr ∧ TwoCurrent (opinionHistory v.store t a))

section Step

variable {t a : Uuid} {tr : List OpinionEvent} {v : View OpinionPt OpinionTable Uuid} {n size : ℕ}
  {s' : OpinionTable} {x : Ctl OpinionPt Uuid}

/-- A step that neither selects nor commits for the artifact. -/
theorem OpinionInv.quiet {act : Act SetOpinion Time} (h : OpinionInv t a tr v)
    (hbase : SideBySide s' (Function.update v.pts n x))
    (hmem : ∀ r, r ∈ opinionHistory s' t a ↔ r ∈ opinionHistory v.store t a)
    (hsel : ∀ m, ¬ Selects t a (v, act) m) (hcom : ∀ m, ¬ Commits t a (v, act) m)
    (hun : Corpus.unselected x → Corpus.unselected (v.pts n))
    (hfound : ∀ l c previous, x = .at l → l.found = some (c, previous) → c.tenant = t →
      c.artifact = a → ∃ l', v.pts n = .at l' ∧ l'.found = some (c, previous)) :
    OpinionInv t a (tr ++ [(v, act)]) ⟨s', Function.update v.pts n x, size⟩ := by
  -- what a transaction has found, it had found before
  have hbefore : ∀ {m l c previous}, Function.update v.pts n x m = .at l →
      l.found = some (c, previous) → c.tenant = t → c.artifact = a →
      ∃ l', v.pts m = .at l' ∧ l'.found = some (c, previous) := by
    intro m l c previous hm hl ht ha
    rcases View.at_update hm with ⟨rfl, hx⟩ | ⟨_, hm⟩
    · exact hfound l c previous hx hl ht ha
    · exact ⟨l, hm, hl⟩
  have hnil : opinionHistory s' t a = [] ↔ opinionHistory v.store t a = [] := by
    rw [List.eq_nil_iff_forall_not_mem, List.eq_nil_iff_forall_not_mem]
    simp only [hmem]
  refine ⟨hbase, ?_, ?_, ?_, ?_⟩
  · intro m hm d hd
    rcases List.mem_append.mp hd with hd | hd
    · refine h.unselected ?_ d hd
      rcases eq_or_ne m n with rfl | hne
      · exact hun (by simpa using hm)
      · simpa [Function.update_of_ne hne] using hm
    · obtain rfl := List.mem_singleton.mp hd
      exact hsel m
  · intro m l c previous hm hl ht ha
    obtain ⟨l', hm', hl'⟩ := hbefore hm hl ht ha
    obtain ⟨d, hd, hs⟩ := h.selected hm' hl' ht ha
    exact ⟨d, List.mem_append_left _ hd, hs⟩
  · intro e he m hc
    rcases List.mem_append.mp he with he | he
    · exact fun hempty => h.nonempty e he m hc (hnil.mp hempty)
    · obtain rfl := List.mem_singleton.mp he
      exact absurd hc (hcom m)
  · rcases h.verdict with hone | ⟨hover, r, hr, r', hr', hne, hcur⟩
    · refine .inl ⟨noOverlap_snoc.mpr ⟨hone.noOverlap, fun m hc => absurd hc (hcom m)⟩, ?_, ?_⟩
      · exact hone.chain.imp hnil.mpr fun hchain => hchain.congr hmem
      · intro m l c previous hm hl ht ha
        obtain ⟨l', hm', hl'⟩ := hbefore hm hl ht ha
        rw [overlapped_quiet hcom, ← hone.current hm' hl' ht ha]
        simp only [IsCurrent, hmem]
    · refine .inr ⟨fun hall => hover (noOverlap_snoc.mp hall).1, ?_⟩
      exact ⟨r, (hmem r).mpr hr, r', (hmem r').mpr hr', hne, hcur⟩

/-- A call that has run its `SELECT` now is none of those that have not. -/
theorem OpinionInv.unselected_exec {now : Time} (h : OpinionInv t a tr v)
    (hx : ¬ Corpus.unselected x) {m : ℕ} (hm : Corpus.unselected (Function.update v.pts n x m)) :
    ∀ d ∈ tr ++ [(v, .exec n now)], ¬ Selects t a d m := by
  intro d hd
  have hne : m ≠ n := by
    rintro rfl
    rw [Function.update_self] at hm
    exact hx hm
  rw [Function.update_of_ne hne] at hm
  rcases List.mem_append.mp hd with hd | hd
  · exact h.unselected hm d hd
  · obtain rfl := List.mem_singleton.mp hd
    rintro ⟨i, c, hact, _⟩
    exact hne (Act.exec.inj hact).1.symm

/-- A `SELECT` for the artifact finds the row that is current. -/
theorem OpinionInv.select {c : SetOpinion} {now : Time} (h : OpinionInv c.tenant c.artifact tr v)
    (hn : v.pts n = .at (.select c)) (hmove : OpinionMove (.select c) v.store s' x)
    (hbase : SideBySide s' (Function.update v.pts n x)) :
    OpinionInv c.tenant c.artifact (tr ++ [(v, .exec n now)])
      ⟨s', Function.update v.pts n x, size⟩ := by
  obtain ⟨rfl, l₀, p₀, rfl, hl₀, hmax⟩ : s' = v.store ∧ ∃ l₀ p₀, x = .at l₀ ∧
      l₀.found = some (c, p₀) ∧
      (currentOpinion v.store c.tenant c.artifact).map OpinionRow.id = p₀ := by
    cases hmove with
    | selectNone hcur => exact ⟨rfl, _, _, rfl, rfl, by rw [hcur]; rfl⟩
    | select hcur => exact ⟨rfl, _, _, rfl, rfl, by rw [hcur]; rfl⟩
  have hselects : Selects c.tenant c.artifact (v, .exec n now) n := ⟨now, c, rfl, hn, rfl, rfl⟩
  have hcom : ∀ m, ¬ Commits c.tenant c.artifact (v, .exec n now) m := by
    rintro m ⟨i, c', previous, w, hact, hm, _⟩
    obtain rfl : n = m := (Act.exec.inj hact).1
    rw [hn] at hm
    cases hm
  have hother : ∀ {m l}, Function.update v.pts n (.at l₀) m = .at l →
      m = n ∧ l = l₀ ∨ v.pts m = .at l := by
    intro m l hm
    rcases View.at_update hm with ⟨rfl, hx⟩ | ⟨_, hm⟩
    · exact .inl ⟨rfl, (Ctl.at.inj hx).symm⟩
    · exact .inr hm
  refine ⟨hbase, ?_, ?_, ?_, ?_⟩
  · refine fun {m} hm => h.unselected_exec ?_ hm
    cases l₀ with
    | select c' => cases hl₀
    | _ => exact fun hx => hx
  · intro m l c' previous hm hl ht ha
    rcases hother hm with ⟨rfl, _⟩ | hm
    · exact ⟨_, by simp, hselects⟩
    · obtain ⟨d, hd, hs⟩ := h.selected hm hl ht ha
      exact ⟨d, List.mem_append_left _ hd, hs⟩
  · intro e he m hc
    rcases List.mem_append.mp he with he | he
    · exact h.nonempty e he m hc
    · obtain rfl := List.mem_singleton.mp he
      exact absurd hc (hcom m)
  · rcases h.verdict with hone | ⟨hover, htwo⟩
    · refine .inl ⟨noOverlap_snoc.mpr ⟨hone.noOverlap, fun m hc => absurd hc (hcom m)⟩,
        hone.chain, ?_⟩
      intro m l c' previous hm hl ht ha
      rw [overlapped_quiet hcom]
      rcases hother hm with ⟨rfl, rfl⟩ | hm
      · obtain ⟨rfl, rfl⟩ : c = c' ∧ p₀ = previous := by simpa [hl₀] using hl
        refine iff_of_true ?_ fun hover => ?_
        · -- there is one current row at most, and `SELECT` finds it
          intro r hr hnone
          obtain ⟨hmem, hrt, hra⟩ := mem_opinionHistory.mp hr
          have hfilter : r ∈ v.store.rows.filter fun r => r.tenant = c.tenant ∧
              r.artifact = c.artifact ∧ r.supersededBy = none := by
            simp [hmem, hrt, hra, hnone]
          rw [← hmax]
          cases hcur : currentOpinion v.store c.tenant c.artifact with
          | none =>
            rw [List.argmax_eq_none.mp hcur] at hfilter
            cases hfilter
          | some r' =>
            have hr' := List.argmax_mem hcur
            simp only [List.mem_filter, decide_eq_true_eq] at hr'
            rcases hone.chain with hnil | hchain
            · rw [hnil] at hr
              cases hr
            have heq := hchain.current.unique ⟨mem_opinionHistory.mpr ⟨hr'.1, hr'.2.1, hr'.2.2.1⟩,
              hr'.2.2.2⟩ ⟨hr, hnone⟩
            rw [heq]
            rfl
        · obtain ⟨d, hd, hs⟩ := hover.selected
          refine h.unselected ?_ d hd hs
          rw [hn]
          trivial
      · exact hone.current hm hl ht ha
    · exact .inr ⟨fun hall => hover (noOverlap_snoc.mp hall).1, htwo⟩

/-- A commit for the artifact. -/
theorem OpinionInv.commit {c : SetOpinion} {previous : Option Uuid} {w : List OpinionRow}
    {now : Time} (h : OpinionInv c.tenant c.artifact tr v)
    (hn : v.pts n = .at (.commit c previous w))
    (hbase : SideBySide (v.store.overlay w) (Function.update v.pts n (.done c.id))) :
    OpinionInv c.tenant c.artifact (tr ++ [(v, .exec n now)])
      ⟨v.store.overlay w, Function.update v.pts n (.done c.id), size⟩ := by
  have hw : Written c v.store previous w := h.base.holds hn
  have hcommits : Commits c.tenant c.artifact (v, .exec n now) n :=
    ⟨now, c, previous, w, rfl, hn, rfl, rfl⟩
  have honly : ∀ {m}, Commits c.tenant c.artifact (v, .exec n now) m → m = n := by
    rintro m ⟨i, _, _, _, hact, _⟩
    exact (Act.exec.inj hact).1.symm
  have hother : ∀ {m l}, Function.update v.pts n (.done c.id) m = .at l → v.pts m = .at l := by
    intro m l hm
    rcases View.at_update hm with ⟨rfl, hx⟩ | ⟨_, hm⟩
    · cases hx
    · exact hm
  obtain ⟨at₀, hmem⟩ := mem_history_commit hw
  have hnew : c.row at₀ ∈ opinionHistory (v.store.overlay w) c.tenant c.artifact :=
    hmem.mpr (.inl rfl)
  refine ⟨hbase, ?_, ?_, ?_, ?_⟩
  · exact fun {m} hm => h.unselected_exec (x := .done c.id) (fun hx => hx) hm
  · intro m l c' previous' hm hl ht ha
    obtain ⟨d, hd, hs⟩ := h.selected (hother hm) hl ht ha
    exact ⟨d, List.mem_append_left _ hd, hs⟩
  · intro _ _ _ _ hnil
    rw [hnil] at hnew
    cases hnew
  · rcases h.verdict with hone | ⟨hover, htwo⟩
    · have hcur := hone.current hn rfl rfl rfl
      by_cases hov : Overlapped c.tenant c.artifact tr n
      · -- the row found is no longer the current one
        have hstale : ¬ IsCurrent (opinionHistory v.store c.tenant c.artifact) previous :=
          fun hc => hcur.mp hc hov
        simp only [IsCurrent, not_forall] at hstale
        obtain ⟨r, hr, hnone, hne⟩ := hstale
        exact .inr ⟨fun hall => (noOverlap_snoc.mp hall).2 n hcommits hov,
          twoCurrent_commit hw hr hnone hne⟩
      · refine .inl ⟨noOverlap_snoc.mpr ⟨hone.noOverlap, fun m hc => ?_⟩,
          .inr (singleChain_commit hw hone.chain (hcur.mpr hov)), ?_⟩
        · rw [honly hc]
          exact hov
        · intro m l c' previous' hm hl ht ha
          refine iff_of_false (fun hc => ?_) fun hno => hno ?_
          · -- the new row was not there to be found
            have hid : previous' = some c.id := hc _ hnew rfl
            subst hid
            have hget := (h.base.holds (hother hm)).get hl
            obtain ⟨_, _, _, hfresh, _⟩ := hw
            rw [hfresh] at hget
            cases hget
          · exact overlapped_snoc.mpr (.inr ⟨h.selected (hother hm) hl ht ha, n, hcommits⟩)
    · exact .inr ⟨fun hall => hover (noOverlap_snoc.mp hall).1, htwo.commit hw⟩

/-- What a statement does that is neither `SELECT` nor the commit for the artifact. -/
theorem OpinionMove.elsewhere {l : OpinionPt} {s : OpinionTable} (hmove : OpinionMove l s s' x)
    (hl : l.Holds s) (hsel : ∀ c, l = .select c → ¬ (c.tenant = t ∧ c.artifact = a))
    (hcom : ∀ c p w, l = .commit c p w → ¬ (c.tenant = t ∧ c.artifact = a)) :
    (∀ r, r ∈ opinionHistory s' t a ↔ r ∈ opinionHistory s t a) ∧ ¬ Corpus.unselected x ∧
    ∀ l' c previous, x = .at l' → l'.found = some (c, previous) → c.tenant = t →
      c.artifact = a → l.found = some (c, previous) := by
  cases hmove with
  | selectNone _ | select _ =>
    refine ⟨fun r => Iff.rfl, fun hx => hx, ?_⟩
    rintro _ _ _ ⟨⟩ ⟨⟩ ht ha
    exact absurd ⟨ht, ha⟩ (hsel _ rfl)
  | supersede | insert | audit =>
    refine ⟨fun r => Iff.rfl, fun hx => hx, ?_⟩
    rintro _ _ _ ⟨⟩ ⟨⟩ _ _
    rfl
  | duplicate =>
    refine ⟨fun r => Iff.rfl, fun hx => hx, ?_⟩
    rintro _ _ _ ⟨⟩
  | commit =>
    refine ⟨fun r => mem_history_commit_other hl (hcom _ _ _ rfl), fun hx => hx, ?_⟩
    rintro _ _ _ ⟨⟩

theorem OpinionInv.elsewhere {l : OpinionPt} {now : Time} (h : OpinionInv t a tr v)
    (hn : v.pts n = .at l) (hsel : ∀ c, l = .select c → ¬ (c.tenant = t ∧ c.artifact = a))
    (hcom : ∀ c p w, l = .commit c p w → ¬ (c.tenant = t ∧ c.artifact = a))
    (hmove : OpinionMove l v.store s' x) (hbase : SideBySide s' (Function.update v.pts n x)) :
    OpinionInv t a (tr ++ [(v, .exec n now)]) ⟨s', Function.update v.pts n x, size⟩ := by
  have hat : ∀ {i m l'}, Act.exec n now = Act.exec (C := SetOpinion) m i → v.pts m = .at l' →
      l = l' := by
    rintro i m l' heq hm
    obtain rfl := (Act.exec.inj heq).1
    exact Ctl.at.inj (hn.symm.trans hm)
  obtain ⟨hmem, hun, hfound⟩ := hmove.elsewhere (h.base.holds hn) hsel hcom
  refine h.quiet hbase hmem ?_ ?_ (fun hx => absurd hx hun) ?_
  · rintro m ⟨i, c, hact, hm, hon⟩
    exact hsel c (hat hact hm) hon
  · rintro m ⟨i, c, p, w, hact, hm, hon⟩
    exact hcom c p w (hat hact hm) hon
  · intro l' c previous hx hl' ht ha
    exact ⟨l, hn, hfound l' c previous hx hl' ht ha⟩

/-- A call starts, or one is cut off. -/
theorem OpinionInv.enter {act : Act SetOpinion Time} (h : OpinionInv t a tr v)
    (hact : ∀ m i, act ≠ .exec m i) (hx : x = .failed ∨ ∃ c, x = .at (.select c) ∧ v.pts n = .idle) :
    OpinionInv t a (tr ++ [(v, act)]) ⟨v.store, Function.update v.pts n x, size⟩ := by
  refine h.quiet (h.base.replace fun l hl => ?_) (fun r => Iff.rfl) ?_ ?_ ?_ ?_
  · rcases hx with rfl | ⟨c, rfl, _⟩
    · cases hl
    · obtain rfl := Ctl.at.inj hl
      exact ⟨rfl, trivial⟩
  · rintro m ⟨i, c, heq, _⟩
    exact hact m i heq
  · rintro m ⟨i, c, p, w, heq, _⟩
    exact hact m i heq
  · intro hun
    rcases hx with rfl | ⟨c, rfl, hidle⟩
    · exact absurd hun (fun hx => hx)
    · rw [hidle]
      trivial
  · rintro l c previous rfl hl _ _
    rcases hx with hx | ⟨c, hx, _⟩
    · cases hx
    · obtain rfl := Ctl.at.inj hx
      cases hl

end Step

theorem opinionInv_reach {debug : String → String} {t a : Uuid} {s₀ : OpinionTable}
    (hs : opinionHistory s₀ t a = [] ∨ SingleChain (opinionHistory s₀ t a))
    {tr : List OpinionEvent} {v : View OpinionPt OpinionTable Uuid}
    (hr : View.VReach (fun l (_ : Time) => OpinionMove l) (fun c => (setOpinion debug c).ctl) s₀ tr v)
    (hgrant : ∀ e ∈ tr, Granted e.1.store e.1.pts e.2) : OpinionInv t a tr v := by
  refine View.VReach.invariant (fun v act => Granted v.store v.pts act) (OpinionInv t a)
    ?_ ?_ ?_ ?_ hr hgrant
  · have hidle : ∀ {n l}, (View.start s₀ : View OpinionPt OpinionTable Uuid).pts n ≠ .at l := by
      intro n l hat
      cases hat
    have hnone : NoOverlap t a [] := fun tr₁ e tr₂ heq => absurd heq (by simp)
    exact ⟨⟨fun hat => absurd hat hidle, fun hat => absurd hat hidle⟩,
      fun _ _ hd => absurd hd List.not_mem_nil, fun hat => absurd hat hidle,
      fun _ he => absurd he List.not_mem_nil, .inl ⟨hnone, hs, fun hat => absurd hat hidle⟩⟩
  · intro tr v c h hidle _
    refine h.enter (by simp) ?_
    rcases setOpinion_ctl debug c with hc | hc
    · exact .inr ⟨c, hc, hidle⟩
    · exact .inl hc
  · intro tr v n l x s' now h hn hmove hok
    have hbase := h.base.exec hn hmove hok
    by_cases hsel : ∃ c, l = .select c ∧ c.tenant = t ∧ c.artifact = a
    · obtain ⟨c, rfl, rfl, rfl⟩ := hsel
      exact h.select hn hmove hbase
    by_cases hcom : ∃ c p w, l = .commit c p w ∧ c.tenant = t ∧ c.artifact = a
    · obtain ⟨c, p, w, rfl, rfl, rfl⟩ := hcom
      cases hmove
      exact h.commit hn hbase
    exact h.elsewhere hn (fun c hl hon => hsel ⟨c, hl, hon⟩)
      (fun c p w hl hon => hcom ⟨c, p, w, hl, hon⟩) hmove hbase
  · intro tr v n l h _ _
    exact h.enter (by simp) (.inl rfl)

/-- Two current rows are what a transaction that commits overlapped leaves. -/
theorem noOverlap_of_not_twoCurrent {debug : String → String} {t a : Uuid} {s₀ : OpinionTable}
    (hs : opinionHistory s₀ t a = [] ∨ SingleChain (opinionHistory s₀ t a))
    {h : Pool.Hist SetOpinion OpinionPt OpinionTable Time Error Uuid}
    {p : Pool SetOpinion OpinionPt OpinionTable Time Error Uuid} (hr : OpinionRuns debug s₀ h p)
    (htwo : ¬ TwoCurrent (opinionHistory p.store t a)) : NoOverlap t a (opinionTrace h) := by
  have hinv : OpinionInv t a (opinionTrace h) p.view :=
    opinionInv_reach hs (hr.1.view (setOpinion_takes debug)) (Pool.forall_view Granted hr.2)
  rcases hinv.verdict with hone | ⟨_, htwo'⟩
  · exact hone.noOverlap
  · exact absurd htwo' htwo

/-! ### Histories to run -/

/-- The statement of an action finds no row locked that it writes. -/
def grants (p : Pool SetOpinion OpinionPt OpinionTable Time Error Uuid) :
    Act SetOpinion Time → Bool
  | .exec n _ => match p.ctl n with
    | .at l => (List.range p.procs.length).all fun m => m == n || match p.ctl m with
      | .at l' => l.needs.all fun k => !l'.locks.contains k
      | _ => true
    | _ => true
  | _ => true

theorem granted_of_all {h : Pool.Hist SetOpinion OpinionPt OpinionTable Time Error Uuid}
    (hall : (h.all fun e => grants e.1 e.2) = true) : ∀ e ∈ h, Granted e.1.store e.1.ctl e.2 := by
  intro e he
  have hgrant := List.all_eq_true.mp hall e he
  obtain ⟨p, act⟩ := e
  cases act with
  | exec n i =>
    intro l m l' hn hne hm k hk hk'
    have hlt : m < p.procs.length := by
      by_contra hge
      simp [Pool.ctl, List.getElem?_eq_none (Nat.le_of_not_lt hge)] at hm
    have hn' : p.ctl n = .at l := hn
    have hm' : p.ctl m = .at l' := hm
    simp only [grants, hn', List.all_eq_true, List.mem_range] at hgrant
    have := hgrant m hlt
    simp only [hm', Bool.or_eq_true, beq_iff_eq, hne, false_or, List.all_eq_true] at this
    simpa [hk'] using this k hk
  | spawn c => trivial
  | kill n => trivial

/-- Two opinions on artifact `7`. -/
def opinionOne : SetOpinion := ⟨1, 5, 7, "malicious", "ana", "c2 beacon"⟩

def opinionTwo : SetOpinion := ⟨2, 5, 7, "Trusted", "bo", "vendor build"⟩

/-- `n` runs `k` statements, at times from `now` on. -/
def opinionSteps (n : ℕ) (now : Time) : ℕ → List (Act SetOpinion Time)
  | 0 => []
  | k + 1 => .exec n now :: opinionSteps n (now + 1) k

/-- The last action of a history commits for artifact `7`. -/
def lastCommits (h : Pool.Hist SetOpinion OpinionPt OpinionTable Time Error Uuid) : Bool :=
  match h.getLast? with
  | some (p, .exec n _) => match p.ctl n with
    | .at (.commit c _ _) => decide (c.tenant = 5 ∧ c.artifact = 7)
    | _ => false
  | _ => false

theorem commits_of_lastCommits {h : Pool.Hist SetOpinion OpinionPt OpinionTable Time Error Uuid}
    (hlast : lastCommits h = true) : ∃ e ∈ opinionTrace h, ∃ n, Commits 5 7 e n := by
  unfold lastCommits at hlast
  split at hlast
  · next p n i hget =>
    split at hlast
    · next c previous w hn =>
      obtain ⟨ht, ha⟩ := of_decide_eq_true hlast
      exact ⟨(p.view, .exec n i), List.mem_map_of_mem (List.mem_of_getLast? hget), n, i, c, previous,
        w, rfl, hn, ht, ha⟩
    · cases hlast
  · cases hlast

/-- Whether a history has two current rows. -/
def twoCurrent (l : List OpinionRow) : Bool :=
  l.any fun r => l.any fun r' => decide (r ≠ r' ∧ r.supersededBy = none ∧ r'.supersededBy = none)

theorem twoCurrent_iff {l : List OpinionRow} : twoCurrent l = true ↔ TwoCurrent l := by
  simp [twoCurrent, TwoCurrent]

/-- **One current opinion.**  From any table in which the history of the artifact is
empty or a single chain, in every interleaving of any number of calls, for this and
other artifacts, and with crashes anywhere: once a call has committed for the artifact,
its history is a single chain exactly when no transaction on it has committed overlapped. -/
theorem single_chain_iff {debug : String → String} {t a : Uuid} {s₀ : OpinionTable}
    (hs : opinionHistory s₀ t a = [] ∨ SingleChain (opinionHistory s₀ t a))
    {h : Pool.Hist SetOpinion OpinionPt OpinionTable Time Error Uuid}
    {p : Pool SetOpinion OpinionPt OpinionTable Time Error Uuid} (hr : OpinionRuns debug s₀ h p)
    (hsome : ∃ e ∈ opinionTrace h, ∃ n, Commits t a e n) :
    SingleChain (opinionHistory p.store t a) ↔ NoOverlap t a (opinionTrace h) := by
  have hinv : OpinionInv t a (opinionTrace h) p.view :=
    opinionInv_reach hs (hr.1.view (setOpinion_takes debug)) (Pool.forall_view Granted hr.2)
  obtain ⟨e, he, n, hc⟩ := hsome
  rcases hinv.verdict with hone | ⟨hover, htwo⟩
  · exact iff_of_true (hone.chain.resolve_left (hinv.nonempty e he n hc)) hone.noOverlap
  · exact iff_of_false (fun hchain => hchain.not_twoCurrent htwo) hover

/-- One opinion after the other. -/
theorem single_chain_iff_sequential :
    ∃ h p, OpinionRuns String.quote Table.empty h p ∧ (opinionHistory p.store 5 7).length = 2 ∧
      SingleChain (opinionHistory p.store 5 7) := by
  obtain ⟨h, p, hreach, hchk⟩ := Pool.exists_reach (setOpinion String.quote) Table.empty
    (.spawn opinionOne :: opinionSteps 0 10 4 ++ .spawn opinionTwo :: opinionSteps 1 20 5)
    (fun h p => (h.all fun e => grants e.1 e.2) && lastCommits h &&
      decide ((opinionHistory p.store 5 7).length = 2) && !twoCurrent (opinionHistory p.store 5 7))
    (by decide)
  simp only [Bool.and_eq_true, decide_eq_true_eq, Bool.not_eq_true'] at hchk
  obtain ⟨⟨⟨hgrant, hlast⟩, hlen⟩, htwo⟩ := hchk
  have hruns : OpinionRuns String.quote Table.empty h p := ⟨hreach, granted_of_all hgrant⟩
  have hno := noOverlap_of_not_twoCurrent (t := 5) (a := 7) (.inl rfl) hruns
    (by rw [← twoCurrent_iff, htwo]; simp)
  exact ⟨h, p, hruns, hlen, (single_chain_iff (.inl rfl) hruns (commits_of_lastCommits hlast)).mpr hno⟩

/-- Two transactions look for the current row before either commits, and find none.
Both return `Ok`; both rows stay current. -/
theorem overlapped_opinions :
    ∃ h p, OpinionRuns String.quote Table.empty h p ∧ (∀ n, (p.ctl n).settled = true) ∧
      (opinionHistory p.store 5 7).length = 2 ∧ TwoCurrent (opinionHistory p.store 5 7) ∧
      ¬ SingleChain (opinionHistory p.store 5 7) := by
  obtain ⟨h, p, hreach, hchk⟩ := Pool.exists_reach (setOpinion String.quote) Table.empty
    ([.spawn opinionOne, .spawn opinionTwo, .exec 0 10, .exec 1 11] ++ opinionSteps 0 12 3 ++
      opinionSteps 1 15 3)
    (fun h p => (h.all fun e => grants e.1 e.2) && (p.procs.all fun q => (Pool.procCtl q).settled) &&
      decide ((opinionHistory p.store 5 7).length = 2) && twoCurrent (opinionHistory p.store 5 7))
    (by decide)
  simp only [Bool.and_eq_true, decide_eq_true_eq] at hchk
  obtain ⟨⟨⟨hgrant, hdone⟩, hlen⟩, htwo⟩ := hchk
  have htwo := twoCurrent_iff.mp htwo
  exact ⟨h, p, ⟨hreach, granted_of_all hgrant⟩, Pool.settled_of_all hdone, hlen, htwo,
    fun hchain => hchain.not_twoCurrent htwo⟩

end Corpus
