/-
The watermark and the planned set.

`enqueue_hunt` pins a hunt to the largest committed `seq` and counts the endpoint
artifacts at or below it; `execute_hunt` selects them again by the watermark.
`pins` reads off a history which set each hunt's first plan counted.

A `seq` is drawn before its row is visible, so a row can still appear below a
watermark that has been read.  `Frozen` says of a watermark that this is over: no
finalize call in flight has drawn a `seq` at or below it, so the set below it is
fixed for good.

Main results:
* `watermark_pins_planned_set` — if the set is frozen when it is counted and no
  enqueue replaces a watermark, every execution evaluates the set first counted;
* `late_commit_expands_planned_set` — a finalize call in flight at the count.
-/
import Corpus.HuntRows
import Corpus.ServerMoves

namespace Corpus

variable {cfg : Config}

/-! ### What a history has pinned -/

/-- The set each call has counted last, and the set counted by the first plan of
each hunt. -/
structure Pins where
  counted : ℕ → List Artifact
  first : Uuid → Option (List Artifact)

/-- Take note of a count, or of a plan of a hunt that had no watermark. -/
def Pins.note (p : Pins) (e : Event) : Pins :=
  match e.2 with
  | .exec n _ =>
    match e.1.pts n with
    | .at (.hunt (.enqCount t _ _ _ w)) =>
      { p with counted := Function.update p.counted n (e.1.store.plannedArtifacts t w) }
    | .at (.hunt (.enqPlan t h _ _ _ _)) =>
      if (e.1.store.huntOf t h).map Hunt.corpusWatermark = some none then
        { p with first := Function.update p.first h (some (p.counted n)) }
      else p
    | _ => p
  | _ => p

def pins (tr : List Event) : Pins := tr.foldl Pins.note ⟨fun _ => [], fun _ => none⟩

theorem pins_snoc (tr : List Event) (e : Event) : pins (tr ++ [e]) = (pins tr).note e := by
  simp [pins]

/-- The condition on a step: when the first plan counts its set, no finalize call
of the tenant that has drawn a `seq` at or below the watermark is about to insert
an endpoint artifact; and a plan of a hunt that has a watermark keeps it. -/
def PinApart (cfg : Config) (s : Db) (pts : ℕ → Ctl Pt Reply) : Act Call Env → Prop
  | .exec n _ =>
    (∀ t h who w, pts n = .at (.hunt (.enqCount t h who none w)) → ∀ m req bytes seq,
      pts m = .at (.ingest (.finInsert t req bytes .endpoint seq)) → seq ≤ w →
        (s.ingest.artifacts.get (t, cfg.sha256 bytes)).isSome) ∧
    (∀ t h who pinned w planned, pts n = .at (.hunt (.enqPlan t h who pinned w planned)) →
      ∀ r w', s.huntOf t h = some r → r.corpusWatermark = some w' → w' = w)
  | _ => True

/-! ### Sequence numbers -/

/-- Rows and calls in flight hold numbers the sequence has given out. -/
structure Drawn (v : View Pt Db Reply) : Prop where
  pos : 0 < v.store.ingest.nextSeq
  rows : ∀ a ∈ v.store.ingest.artifacts.rows, a.seq < v.store.ingest.nextSeq
  inserts : ∀ {m t req bytes scope seq},
    v.pts m = .at (.ingest (.finInsert t req bytes scope seq)) → seq < v.store.ingest.nextSeq
  maxima : ∀ {m t h who w}, v.pts m = .at (.hunt (.enqCount t h who none w)) →
    w < v.store.ingest.nextSeq

theorem IngestMove.nextSeq_le {p : IngestPt} {s s' : Db} {c : Ctl Pt Reply}
    (h : IngestMove cfg p s s' c) : s.ingest.nextSeq ≤ s'.ingest.nextSeq := by
  cases h with
  | finNextval => exact Nat.le_succ _
  | annPresent now r => exact (IngestDb.recordPresent_nextSeq ..).ge
  | finAdopt now hget => exact (IngestDb.recordCapture_nextSeq ..).ge
  | finNew id now hfree hid =>
    show s.ingest.nextSeq ≤ ((s.ingest.addArtifact _).recordCapture _ _ _ _ _ _).nextSeq
    rw [IngestDb.recordCapture_nextSeq]
    rfl
  | _ => exact le_refl _

theorem Db.maxSeq_lt {s : Db} {n : ℕ} (hpos : 0 < n) (h : ∀ a ∈ s.ingest.artifacts.rows, a.seq < n)
    (t : Uuid) : s.maxSeq t < n := by
  have hfold : ∀ xs : List Artifact, (∀ a ∈ xs, a.seq < n) →
      (xs.map Artifact.seq).foldr max 0 < n := by
    intro xs
    induction xs with
    | nil => exact fun _ => hpos
    | cons a xs ih =>
      intro hxs
      simp only [List.map_cons, List.foldr_cons]
      exact max_lt (hxs a List.mem_cons_self) (ih fun b hb => hxs b (List.mem_cons_of_mem _ hb))
  exact hfold _ fun a ha => h a (List.mem_filter.mp ha).1

/-! ### Frozen sets -/

/-- The set below the watermark `w` is `S` for good. -/
structure Frozen (cfg : Config) (v : View Pt Db Reply) (t : Uuid) (w : ℕ) (S : List Artifact) :
    Prop where
  set : v.store.plannedArtifacts t w = S
  drawn : w < v.store.ingest.nextSeq
  late : ∀ {m req bytes seq}, v.pts m = .at (.ingest (.finInsert t req bytes .endpoint seq)) →
    seq ≤ w → (v.store.ingest.artifacts.get (t, cfg.sha256 bytes)).isSome

/-- A row that is not below the watermark does not join the set. -/
theorem planned_insertNew {s s' : Db} {a : Artifact} {t : Uuid} {w : ℕ}
    (hrows : s'.ingest.artifacts = s.ingest.artifacts.insertNew a)
    (hfree : s.ingest.artifacts.get a.key = none)
    (hnot : ¬ (a.tenant = t ∧ a.scope = .endpoint ∧ a.seq ≤ w)) :
    s'.plannedArtifacts t w = s.plannedArtifacts t w := by
  have hlist : (s.ingest.artifacts.insertNew a).rows = s.ingest.artifacts.rows ++ [a] := by
    rw [Table.insertNew, dif_neg (Table.get_eq_none.mp hfree)]
  have hout : [a].filter (fun a => a.tenant = t && a.storageState = .committed &&
      a.scope = .endpoint && decide (a.seq ≤ w)) = [] := by
    refine List.filter_eq_nil_iff.mpr fun x hx => ?_
    obtain rfl := List.mem_singleton.mp hx
    simp only [Bool.and_eq_true, decide_eq_true_eq, not_and]
    exact fun h1 h3 => hnot ⟨h1.1.1, h1.2, h3⟩
  simp only [Db.plannedArtifacts, hrows, hlist, List.filter_append, hout, List.append_nil]

/-- A set that is frozen stays frozen. -/
theorem Frozen.exec {v : View Pt Db Reply} {t : Uuid} {w n : ℕ} {S : List Artifact} {l : Pt}
    {c : Ctl Pt Reply} {s' : Db} (h : Frozen cfg v t w S) (hn : v.pts n = .at l)
    (hm : Move cfg l v.store s' c) :
    Frozen cfg ⟨s', Function.update v.pts n c, v.size⟩ t w S := by
  rcases hm.ingest_cases with ⟨p, rfl, hi⟩ | ⟨hsame, hnot⟩
  · refine ⟨?_, lt_of_lt_of_le h.drawn hi.nextSeq_le, fun {m req bytes seq} hat hseq => ?_⟩
    · rw [← h.set]
      rcases hi.artifacts_cases with heq | ⟨t', req, bytes, scope, seq, id, now, rfl, hfree, _, heq⟩
      · simp only [Db.plannedArtifacts, heq]
      · refine planned_insertNew (a := newArtifact cfg t' req bytes scope seq id now) ?_ hfree ?_
        · show s'.ingest.artifacts = _
          rw [heq, IngestDb.recordCapture_artifacts]
          rfl
        · -- the row to be inserted would have been late
          rintro ⟨ht, hscope, hle⟩
          obtain rfl : t' = t := ht
          obtain rfl : scope = .endpoint := hscope
          have hthere := h.late hn hle
          rw [hfree] at hthere
          cases hthere
    · have hkeep : (v.store.ingest.artifacts.get (t, cfg.sha256 bytes)).isSome →
          (s'.ingest.artifacts.get (t, cfg.sha256 bytes)).isSome := by
        intro hsome
        obtain ⟨a, ha⟩ := Option.isSome_iff_exists.mp hsome
        rw [hi.artifacts_mono _ _ ha]
        rfl
      rcases View.at_update hat with ⟨_, rfl⟩ | ⟨_, hat'⟩
      · cases hi with
        | finNextval => exact absurd hseq (Nat.not_le.mpr h.drawn)
      · exact hkeep (h.late hat' hseq)
  · refine ⟨?_, by rw [hsame]; exact h.drawn, fun {m req bytes seq} hat hseq => ?_⟩
    · rw [← h.set]
      simp only [Db.plannedArtifacts, hsame]
    · rcases View.at_update hat with ⟨_, rfl⟩ | ⟨_, hat'⟩
      · exact absurd rfl (hnot _)
      · rw [hsame]
        exact h.late hat' hseq

/-! ### Pinned calls -/

/-- The hunt and the watermark a call has read from its row. -/
def HuntPt.pin : HuntPt → Option (Uuid × Uuid × ℕ)
  | .enqValidate t h _ (some w) | .enqBundle t h _ (some w) | .enqSources t h _ (some w) _
  | .enqCount t h _ (some w) _ | .enqPlan t h _ (some w) _ _ | .exeBundle t h _ (some w)
  | .exeSources t h _ (some w) _ | .exeRunning t h _ w | .exeClaim t h _ w
  | .exeSelect t h _ w => some (t, h, w)
  | _ => none

/-- The row of the hunt has this watermark. -/
def Db.PinnedAt (s : Db) (t h : Uuid) (w : ℕ) : Prop :=
  ∃ r, s.hunt.hunts.get h = some r ∧ r.tenant = t ∧ r.corpusWatermark = some w

/-- A call learns a watermark by reading the row, and carries it along. -/
theorem HuntMove.pin_of {p q : HuntPt} {s s' : Db} {t h : Uuid} {w : ℕ}
    (hm : HuntMove cfg p s s' (.at (.hunt q))) (hq : q.pin = some (t, h, w)) :
    p.pin = some (t, h, w) ∨ s.PinnedAt t h w := by
  have hrow : ∀ {t' h' : Uuid} {r : Hunt}, s.huntOf t' h' = some r →
      (r.corpusWatermark.map fun w' => (t', h', w')) = some (t, h, w) → s.PinnedAt t h w := by
    intro t' h' r hr hpin
    obtain ⟨w', hw', heq⟩ := Option.map_eq_some_iff.mp hpin
    obtain ⟨rfl, rfl, rfl⟩ : t' = t ∧ h' = h ∧ w' = w := by simpa using heq
    exact ⟨r, (Db.huntOf_some hr).1, (Db.huntOf_some hr).2, hw'⟩
  cases hm with
  | @enqGet _ _ _ _ r hr _ _ _ _ =>
    refine .inr (hrow hr ?_)
    cases hw : r.corpusWatermark with
    | none =>
      rw [hw] at hq
      cases hq
    | some w' =>
      rw [hw] at hq
      exact hq
  | @exeGet _ _ _ _ r hr _ =>
    refine .inr (hrow hr ?_)
    cases hw : r.corpusWatermark with
    | none =>
      rw [hw] at hq
      cases hq
    | some w' =>
      rw [hw] at hq
      exact hq
  | @enqValidate _ _ _ _ pinned =>
    cases pinned with
    | none => cases hq
    | some w' => exact .inl hq
  | @enqBundle _ _ _ _ pinned =>
    cases pinned with
    | none => cases hq
    | some w' => exact .inl hq
  | @enqCount _ _ _ _ pinned =>
    cases pinned with
    | none => cases hq
    | some w' => exact .inl hq
  | @exeBundle _ _ _ _ pinned =>
    cases pinned with
    | none => cases hq
    | some w' => exact .inl hq
  | enqAgain _ => exact .inl hq
  | exeSources => exact .inl hq
  | exeRunning now => exact .inl hq
  | exeClaim now => exact .inl hq
  | newInsert x now hfree hc =>
    rcases hc with hc | ⟨_, hc⟩
    · cases hc
    · cases hc
      cases hq
  | enqReturn hr hc =>
    rcases hc with ⟨_, hc⟩ | ⟨_, hc⟩ | ⟨_, digest, hc⟩ | ⟨_, digest, hc⟩
    · cases hc
    · cases hc
      cases hq
    · cases hc
      cases hq
    · cases hc
      cases hq
  | exeReturn hc => rcases hc with hc | ⟨r, hc | hc⟩ <;> cases hc
  | forwardDone hf hc => exact absurd hc id
  | _ => cases hq

/-- Only a count leads to a plan. -/
theorem HuntMove.plan_of {p : HuntPt} {s s' : Db} {t h : Uuid} {who : Who} {pinned : Option ℕ}
    {w planned : ℕ} (hm : HuntMove cfg p s s' (.at (.hunt (.enqPlan t h who pinned w planned)))) :
    p = .enqCount t h who pinned w ∧ s' = s := by
  cases hm with
  | enqCount => exact ⟨rfl, rfl⟩
  | newInsert x now hfree hc => simp at hc
  | enqReturn hr hc => simp at hc
  | exeReturn hc => simp at hc
  | forwardDone hf hc => exact absurd hc id

/-- Only the maximum leads to a first count. -/
theorem HuntMove.count_of {p : HuntPt} {s s' : Db} {t h : Uuid} {who : Who} {w : ℕ}
    (hm : HuntMove cfg p s s' (.at (.hunt (.enqCount t h who none w)))) :
    w = s.maxSeq t ∧ s' = s := by
  cases hm with
  | enqMax => exact ⟨rfl, rfl⟩
  | newInsert x now hfree hc => simp at hc
  | enqReturn hr hc => simp at hc
  | exeReturn hc => simp at hc
  | forwardDone hf hc => exact absurd hc id

/-! ### One step -/

variable {P : Pins} {v : View Pt Db Reply} {n : ℕ} {l : Pt} {c : Ctl Pt Reply} {s' : Db} {env : Env}

theorem counted_note_of_ne {m : ℕ} (hne : m ≠ n) :
    (P.note (v, .exec n env)).counted m = P.counted m := by
  simp only [Pins.note]
  split
  · exact Function.update_of_ne hne ..
  · split <;> rfl
  · rfl

/-- The first plan of a hunt that has a watermark is past. -/
theorem first_note_of_pinned {h : Uuid} {r : Hunt} {w : ℕ}
    (hr : v.store.hunt.hunts.get h = some r) (hw : r.corpusWatermark = some w) :
    (P.note (v, .exec n env)).first h = P.first h := by
  simp only [Pins.note]
  split
  · rfl
  · next t h' who pinned w' planned hat =>
    split
    · next hnone =>
      refine Function.update_of_ne ?_ ..
      rintro rfl
      obtain ⟨r', hr', hw'⟩ := Option.map_eq_some_iff.mp hnone
      obtain rfl : r' = r := Option.some.inj ((Db.huntOf_some hr').1.symm.trans hr)
      rw [hw] at hw'
      cases hw'
    · rfl
  · rfl

/-- A step that keeps watermarks keeps what calls have read. -/
theorem pinnedAt_exec {t h : Uuid} {w : ℕ} (hm : Move cfg l v.store s' c) (hn : v.pts n = .at l)
    (hok : PinApart cfg v.store v.pts (.exec n env)) (hp : v.store.PinnedAt t h w) :
    s'.PinnedAt t h w := by
  obtain ⟨r, hr, rfl, hw⟩ := hp
  rcases hm.hunt_cases with ⟨p, rfl, hh⟩ | ⟨hsame, _⟩
  · obtain ⟨r', hr', hstep⟩ := hh.row_of hr
    refine ⟨r', hr', ?_⟩
    cases hstep with
    | plan =>
      refine ⟨rfl, ?_⟩
      have hid : r.id = h := (Table.mem_of_get hr).2
      rw [← hok.2 _ _ _ _ _ _ hn r w (by rw [hid]; exact Db.huntOf_eq hr) hw]
    | _ => exact ⟨rfl, hw⟩
  · exact ⟨r, by rw [hsame]; exact hr, rfl, hw⟩

/-- The invariant: plans under way and hunts with a watermark have frozen sets, and
calls that carry a watermark carry that of the row. -/
structure PinInv (cfg : Config) (P : Pins) (v : View Pt Db Reply) : Prop where
  drawn : Drawn v
  pending : ∀ {m t h who w planned}, v.pts m = .at (.hunt (.enqPlan t h who none w planned)) →
    Frozen cfg v t w (P.counted m)
  pinned : ∀ {m p t h w}, v.pts m = .at (.hunt p) → p.pin = some (t, h, w) →
    v.store.PinnedAt t h w
  rows : ∀ {h r w}, v.store.hunt.hunts.get h = some r → r.corpusWatermark = some w →
    ∃ S, P.first h = some S ∧ Frozen cfg v r.tenant w S

theorem Drawn.exec (hd : Drawn v) (hm : Move cfg l v.store s' c) (hn : v.pts n = .at l) :
    Drawn ⟨s', Function.update v.pts n c, v.size⟩ := by
  have hle : v.store.ingest.nextSeq ≤ s'.ingest.nextSeq := by
    rcases hm.ingest_cases with ⟨p, rfl, hi⟩ | ⟨hsame, _⟩
    · exact hi.nextSeq_le
    · rw [hsame]
  refine ⟨lt_of_lt_of_le hd.pos hle, fun a ha => ?_, fun hat => ?_, fun {m t h who w} hat => ?_⟩
  · refine lt_of_lt_of_le ?_ hle
    rcases hm.ingest_cases with ⟨p, rfl, hi⟩ | ⟨hsame, _⟩
    · rcases hi.artifacts_cases with heq | ⟨t, req, bytes, scope, seq, id, now, rfl, _, _, heq⟩
      · exact hd.rows a (heq ▸ ha)
      · have ha' : a ∈ s'.ingest.artifacts.rows := ha
        rw [heq, IngestDb.recordCapture_artifacts] at ha'
        rcases Table.mem_insertNew ha' with hold | rfl
        · exact hd.rows a hold
        · exact hd.inserts hn
    · exact hd.rows a (hsame ▸ ha)
  · rcases View.at_update hat with ⟨_, rfl⟩ | ⟨_, hat'⟩
    · rcases hm.ingest_cases with ⟨p, rfl, hi⟩ | ⟨_, hnot⟩
      · cases hi with
        | finNextval => exact Nat.lt_succ_self _
      · exact absurd rfl (hnot _)
    · exact lt_of_lt_of_le (hd.inserts hat') hle
  · rcases View.at_update hat with ⟨_, rfl⟩ | ⟨_, hat'⟩
    · rcases hm.hunt_cases with ⟨p, rfl, hh⟩ | ⟨_, _, honly⟩
      · obtain ⟨rfl, rfl⟩ := hh.count_of
        exact Db.maxSeq_lt hd.pos hd.rows t
      · obtain ⟨t', a, hq⟩ := honly _ rfl
        cases hq
    · exact lt_of_lt_of_le (hd.maxima hat') hle

theorem PinInv.exec (hi : PinInv cfg P v) (hm : Move cfg l v.store s' c) (hn : v.pts n = .at l)
    (hok : PinApart cfg v.store v.pts (.exec n env)) :
    PinInv cfg (P.note (v, .exec n env)) ⟨s', Function.update v.pts n c, v.size⟩ where
  drawn := hi.drawn.exec hm hn
  pending {m t h who w planned} hat := by
    rcases View.at_update hat with ⟨rfl, rfl⟩ | ⟨hne, hat'⟩
    · rcases hm.hunt_cases with ⟨p, rfl, hh⟩ | ⟨_, _, honly⟩
      · -- the set has just been counted, with nobody late
        obtain ⟨rfl, rfl⟩ := hh.plan_of
        have hcounted : (P.note (v, .exec m env)).counted m = v.store.plannedArtifacts t w := by
          simp [Pins.note, hn]
        rw [hcounted]
        have hfrozen : Frozen cfg v t w (v.store.plannedArtifacts t w) :=
          ⟨rfl, hi.drawn.maxima hn, fun hlate hle => hok.1 _ _ _ _ hn _ _ _ _ hlate hle⟩
        exact hfrozen.exec hn (.hunt hh)
      · obtain ⟨t', a, hq⟩ := honly _ rfl
        cases hq
    · rw [counted_note_of_ne hne]
      exact (hi.pending hat').exec hn hm
  pinned {m q t h w} hat hq := by
    refine pinnedAt_exec hm hn hok ?_
    rcases View.at_update hat with ⟨rfl, rfl⟩ | ⟨hne, hat'⟩
    · rcases hm.hunt_cases with ⟨p, rfl, hh⟩ | ⟨_, _, honly⟩
      · rcases hh.pin_of hq with hp | hp
        · exact hi.pinned hn hp
        · exact hp
      · obtain ⟨t', a, rfl⟩ := honly _ rfl
        cases hq
    · exact hi.pinned hat' hq
  rows {h r' w} hr' hw' := by
    -- a row that had its watermark before keeps it, and its first plan is past
    have hold : ∀ {r}, v.store.hunt.hunts.get h = some r → r.corpusWatermark = some w →
        ∃ S, (P.note (v, .exec n env)).first h = some S ∧
          Frozen cfg ⟨s', Function.update v.pts n c, v.size⟩ r.tenant w S := by
      intro r hr hw
      obtain ⟨S, hfirst, hfrozen⟩ := hi.rows hr hw
      exact ⟨S, (first_note_of_pinned hr hw).trans hfirst, hfrozen.exec hn hm⟩
    rcases hm.hunt_cases with ⟨p, rfl, hh⟩ | ⟨hsame, _⟩
    · cases hr : v.store.hunt.hunts.get h with
      | none =>
        rcases hh.row_new hr hr' with ⟨t, digest, bundle, who, now, _, rfl⟩ | ⟨_, _, hnone⟩
        · cases hw'
        · rw [hnone] at hw'
          cases hw'
      | some r =>
        obtain ⟨r'', hr'', hstep⟩ := hh.row_of hr
        obtain rfl : r'' = r' := Option.some.inj (hr''.symm.trans hr')
        obtain rfl : r.id = h := (Table.mem_of_get hr).2
        cases hstep with
        | @plan _ who pinned w' planned =>
          obtain rfl : w' = w := Option.some.inj hw'
          cases hw : r.corpusWatermark with
          | some w₀ =>
            obtain rfl : w₀ = w' := hok.2 _ _ _ _ _ _ hn r w₀ (Db.huntOf_eq hr) hw
            exact hold (r := r) hr hw
          | none =>
            -- the first plan of this hunt: its call had read no watermark
            cases pinned with
            | some w₁ =>
              obtain ⟨x, hx, _, hxw⟩ := hi.pinned hn rfl
              obtain rfl : r = x := Option.some.inj (hr.symm.trans hx)
              rw [hw] at hxw
              cases hxw
            | none =>
              refine ⟨P.counted n, ?_, (hi.pending hn).exec hn hm⟩
              simp [Pins.note, hn, Db.huntOf_eq hr, hw]
        | _ => exact hold (r := r) hr hw'
    · exact hold (hsame ▸ hr') hw'

/-- Calls that start or are cut off change nothing. -/
theorem PinInv.move {k : ℕ} {e : Event} (hi : PinInv cfg P v) (hc : Entry c)
    (he : ∀ n i, e.2 ≠ .exec n i) :
    PinInv cfg (P.note e) ⟨v.store, Function.update v.pts n c, k⟩ := by
  have hnote : P.note e = P := by
    unfold Pins.note
    split
    · next n i heq => exact absurd heq (he n i)
    · rfl
  rw [hnote]
  have hother : ∀ {m l}, Function.update v.pts n c m = .at l → Entry (.at l) ∨ v.pts m = .at l := by
    intro m l hat
    rcases View.at_update hat with ⟨_, rfl⟩ | ⟨_, hat'⟩
    · exact .inl hc
    · exact .inr hat'
  have hfrozen : ∀ {t w S}, Frozen cfg v t w S →
      Frozen cfg ⟨v.store, Function.update v.pts n c, k⟩ t w S := by
    intro t w S h
    refine ⟨h.set, h.drawn, fun hat hseq => ?_⟩
    rcases hother hat with hentry | hat'
    · cases hentry
    · exact h.late hat' hseq
  refine ⟨⟨hi.drawn.pos, hi.drawn.rows, fun hat => ?_, fun hat => ?_⟩, fun hat => ?_,
    fun hat hq => ?_, fun hr hw => ?_⟩
  · rcases hother hat with hentry | hat'
    · cases hentry
    · exact hi.drawn.inserts hat'
  · rcases hother hat with hentry | hat'
    · cases hentry
    · exact hi.drawn.maxima hat'
  · rcases hother hat with hentry | hat'
    · cases hentry
    · exact hfrozen (hi.pending hat')
  · rcases hother hat with hentry | hat'
    · cases hentry <;> cases hq
    · exact hi.pinned hat' hq
  · obtain ⟨S, hfirst, h⟩ := hi.rows hr hw
    exact ⟨S, hfirst, hfrozen h⟩

/-! ### Every history -/

/-- **The watermark pins the planned set.**  From any store in which no hunt has a
watermark and no artifact a number the sequence has not given out, along every
interleaving of server calls and crashes whose steps satisfy `PinApart`: whenever
an execution of a hunt is about to select its artifacts, they are the set that the
first plan of the hunt counted. -/
theorem watermark_pins_planned_set {s₀ : Db} (hpos : 0 < s₀.ingest.nextSeq)
    (hrows : ∀ a ∈ s₀.ingest.artifacts.rows, a.seq < s₀.ingest.nextSeq)
    (hfresh : ∀ r ∈ s₀.hunt.hunts.rows, r.corpusWatermark = none)
    {h : Pool.Hist Call Pt Db Env Error Reply} {p : Pool Call Pt Db Env Error Reply}
    (hr : Pool.Reach (serve cfg) s₀ h p)
    (hok : ∀ e ∈ h, PinApart cfg e.1.store e.1.ctl e.2) {n : ℕ} {t hunt : Uuid} {who : Who} {w : ℕ}
    (hn : p.ctl n = .at (.hunt (.exeSelect t hunt who w))) :
    (pins (trace h)).first hunt = some (p.store.plannedArtifacts t w) := by
  have hinv : PinInv cfg (pins (trace h)) p.view := by
    refine View.VReach.invariant (fun v a => PinApart cfg v.store v.pts a)
      (fun tr v => PinInv cfg (pins tr) v) ?_ ?_ ?_ ?_ (hr.view (serve_takes cfg))
      (Pool.forall_view (PinApart cfg) hok)
    · have hidle : ∀ {m l}, (View.start s₀ : View Pt Db Reply).pts m ≠ .at l := by
        intro m l hat
        cases hat
      refine ⟨⟨hpos, hrows, fun hat => absurd hat hidle, fun hat => absurd hat hidle⟩,
        fun hat => absurd hat hidle, fun hat _ => absurd hat hidle, fun {h r w} hr hw => ?_⟩
      rw [hfresh r (Table.mem_of_get hr).1] at hw
      cases hw
    · intro tr v c hi _ _
      rw [pins_snoc]
      exact hi.move (serve_entry cfg c) fun _ _ hc => by cases hc
    · intro tr v n l c s' env hi hn hm hok
      rw [pins_snoc]
      exact hi.exec hm hn hok
    · intro tr v n l hi hn _
      rw [pins_snoc]
      exact hi.move .refused fun _ _ hc => by cases hc
  obtain ⟨r, hrow, rfl, hw⟩ := hinv.pinned hn rfl
  obtain ⟨S, hfirst, hfrozen⟩ := hinv.rows hrow hw
  rw [hfirst, ← hfrozen.set]
  rfl

/-- A check that suffices for `PinApart`: nobody is about to insert at a count, and
no hunt has a watermark at a plan. -/
def pinsAlone (p : Pool Call Pt Db Env Error Reply) : Act Call Env → Bool
  | .exec n _ => match p.ctl n with
    | .at (.hunt (.enqCount ..)) => !p.anyAt fun
      | .ingest (.finInsert ..) => true
      | _ => false
    | .at (.hunt (.enqPlan ..)) => p.store.hunt.hunts.rows.all fun r => r.corpusWatermark.isNone
    | _ => true
  | _ => true

theorem pinApart_of_all {h : Pool.Hist Call Pt Db Env Error Reply}
    (hall : (h.all fun e => pinsAlone e.1 e.2) = true) :
    ∀ e ∈ h, PinApart cfg e.1.store e.1.ctl e.2 := by
  intro e he
  have halone := List.all_eq_true.mp hall e he
  obtain ⟨p, a⟩ := e
  cases a with
  | exec n env =>
    refine ⟨fun t h who w hn m req bytes seq hm _ => ?_,
      fun t h who pinned w planned hn r w' hr hw => ?_⟩
    · simp only [pinsAlone, hn, Bool.not_eq_true'] at halone
      cases Pool.not_of_anyAt halone hm
    · simp only [pinsAlone, hn, List.all_eq_true] at halone
      have hnone := halone r (Table.mem_of_get (Db.huntOf_some hr).1).1
      rw [hw] at hnone
      cases hnone
  | spawn c => trivial
  | kill n => trivial

/-- The call is about to select the artifacts of hunt `20` at the watermark `w`. -/
def selects20 (c : Ctl Pt Reply) (w : ℕ) : Bool :=
  match c with
  | .at (.hunt (.exeSelect t h .worker w')) => t = 0 && h = 20 && w' = w
  | _ => false

theorem eq_of_selects20 {c : Ctl Pt Reply} {w : ℕ} (h : selects20 c w = true) :
    c = .at (.hunt (.exeSelect 0 20 .worker w)) := by
  unfold selects20 at h
  split at h
  · simp only [Bool.and_eq_true, decide_eq_true_eq] at h
    obtain ⟨⟨rfl, rfl⟩, rfl⟩ := h
    rfl
  · cases h

theorem watermark_pins_planned_set_alone :
    ∃ h p, Pool.Reach (serve Config.plain) Db.oneRule h p ∧
      p.ctl 6 = .at (.hunt (.exeSelect 0 20 .worker 1)) ∧
      (p.store.plannedArtifacts 0 1).length = 1 ∧
      (pins (trace h)).first 20 = some (p.store.plannedArtifacts 0 1) := by
  obtain ⟨h, p, hreach, hchk⟩ := Pool.exists_reach (serve Config.plain) Db.oneRule
    (draftHunt20 ++ importByte 2 5 9 1 none none ++ .spawn (.enqueueHunt 0 20) :: steps 5 10 0 ++
      .spawn (.worker "w") :: steps 6 6 0)
    (fun h p => (h.all fun e => pinsAlone e.1 e.2) && selects20 (p.ctl 6) 1 &&
      decide ((p.store.plannedArtifacts 0 1).length = 1)) (by decide)
  simp only [Bool.and_eq_true, decide_eq_true_eq] at hchk
  obtain ⟨⟨hall, hsel⟩, hone⟩ := hchk
  have hat := eq_of_selects20 hsel
  refine ⟨h, p, hreach, hat, hone, ?_⟩
  refine watermark_pins_planned_set (by decide) (fun a ha => absurd ha List.not_mem_nil)
    (fun r hr => absurd hr List.not_mem_nil) hreach (pinApart_of_all hall) hat

/-- A finalize call draws number 1 and does not commit yet; another draws 2 and
commits; the hunt is pinned at 2 and counts one artifact; the first call commits.
The execution selects two artifacts. -/
theorem late_commit_expands_planned_set :
    ∃ h p, Pool.Reach (serve Config.plain) Db.oneRule h p ∧
      p.ctl 9 = .at (.hunt (.exeSelect 0 20 .worker 2)) ∧
      (pins (trace h)).first 20 ≠ some (p.store.plannedArtifacts 0 2) := by
  obtain ⟨h, p, hreach, hchk⟩ := Pool.exists_reach (serve Config.plain) Db.oneRule
    (draftHunt20 ++ uploadByte 2 5 1 none ++ finalizeByte 5 1 none none :: steps 4 4 9 ++
      importByte 5 6 8 2 none none ++ .spawn (.enqueueHunt 0 20) :: steps 8 10 0 ++ steps 4 1 9 ++
      .spawn (.worker "w") :: steps 9 6 0)
    (fun h p => selects20 (p.ctl 9) 2 &&
      decide (((pins (trace h)).first 20).map List.length = some 1 ∧
        (p.store.plannedArtifacts 0 2).length = 2)) (by decide)
  simp only [Bool.and_eq_true, decide_eq_true_eq] at hchk
  obtain ⟨hsel, hfirst, hnow⟩ := hchk
  refine ⟨h, p, hreach, eq_of_selects20 hsel, fun hsame => ?_⟩
  rw [hsame, Option.map_some, hnow] at hfirst
  cases hfirst

end Corpus
