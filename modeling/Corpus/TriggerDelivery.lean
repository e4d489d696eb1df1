/-
How often an event is posted, whatever calls run and wherever they are cut off.

* `RowStep` — what a step is for one row of the outbox; `Move.rowStep`;
* `attempts_exact` — the attempts of a row are the requests that were refused, but for those that
  a call has yet to note or was cut off before it noted;
* `posts_bounded` — while at most `k` sweeps run at a time a row is posted `6 + 2 k` times at
  most, and once more for each call that was cut off between a request and its note.
-/
import Corpus.TriggerOutbox

namespace Corpus.Triggers

/-! ### What the statements hold of a row -/

namespace TriggerPt

/-- The statement is to note that the row was refused. -/
def notesRefusal (x : Uuid) : TriggerPt → ℕ
  | giveUp d _ _ | retry d _ _ _ => if d.id = x then 1 else 0
  | _ => 0

/-- The statement is to note that the row was accepted. -/
def notesAcceptance (x : Uuid) : TriggerPt → ℕ
  | delivered d _ => if d.id = x then 1 else 0
  | _ => 0

/-- The row is one that the sweep has to come to. -/
def holds (x : Uuid) (l : TriggerPt) : ℕ := l.held.countP fun d => d.id = x

/-- It is, and its next refusal will not be the last. -/
def eager (x : Uuid) (l : TriggerPt) : ℕ := l.held.countP fun d => d.id = x && d.attempts < 7

/-- The statement is one of a sweep. -/
def sweeps : TriggerPt → ℕ
  | due | post _ _ | delivered _ _ | giveUp _ _ _ | retry _ _ _ _ => 1
  | _ => 0

end TriggerPt

open TriggerPt (notesRefusal notesAcceptance holds eager sweeps)

namespace TriggerDb

/-- The requests for the row that were refused. -/
def refusals (s : TriggerDb) (x : Uuid) : ℕ :=
  s.requests.countP fun q => q.row = x && !q.response.isSuccess

/-- The requests for the row that were accepted. -/
def acceptances (s : TriggerDb) (x : Uuid) : ℕ :=
  s.requests.countP fun q => q.row = x && q.response.isSuccess

end TriggerDb

/-- A step, as one row of the outbox sees it. -/
inductive RowStep (x : Uuid) (l : TriggerPt) (s s' : TriggerDb) (c : Ctl TriggerPt ℕ) : Prop where
  | aside (hrow : s'.outbox.get x = s.outbox.get x) (href : s'.refusals x = s.refusals x)
      (hacc : s'.acceptances x = s.acceptances x)
      (hrefused : c.next.tally (notesRefusal x) + (c.lost l).tally (notesRefusal x) = notesRefusal x l)
      (haccepted : c.next.tally (notesAcceptance x) + (c.lost l).tally (notesAcceptance x) =
        notesAcceptance x l)
      (hholds : c.next.tally (holds x) ≤ holds x l)
      (heager : c.next.tally (eager x) ≤ eager x l)
  | queued {o : OutboxEntry} (hnone : s.outbox.get x = none) (hrow : s'.outbox.get x = some o)
      (hattempts : o.attempts = 0) (hopen : o.deliveredAt = none)
      (href : s'.refusals x = s.refusals x) (hacc : s'.acceptances x = s.acceptances x)
      (hnext : ∀ l' ∈ c.next, l'.held = []) (hlost : c.lost l = 0)
  | read {o : OutboxEntry} (hrow : s.outbox.get x = some o) (hopen : o.deliveredAt = none)
      (hl : l = .due) (hs : s' = s) (hholds : c.next.tally (holds x) ≤ 1)
      (heager : 7 ≤ o.attempts → c.next.tally (eager x) = 0)
      (hrefused : c.next.tally (notesRefusal x) = 0) (haccepted : c.next.tally (notesAcceptance x) = 0)
      (hlost : c.lost l = 0)
  | posted {o : OutboxEntry} (hrow : s.outbox.get x = some o) (hrow' : s'.outbox.get x = some o)
      (hl : notesRefusal x l = 0 ∧ notesAcceptance x l = 0) (hlost : c.lost l = 0)
      (href : s'.refusals x = s.refusals x + c.next.tally (notesRefusal x))
      (hacc : s'.acceptances x = s.acceptances x + c.next.tally (notesAcceptance x))
      (hone : c.next.tally (notesRefusal x) + c.next.tally (notesAcceptance x) = 1)
      (hholds : c.next.tally (holds x) = holds x l)
      (heager : c.next.tally (eager x) = eager x l)
  | panicked {o : OutboxEntry} (hrow : s.outbox.get x = some o) (hrow' : s'.outbox.get x = some o)
      (hattempts : 2 ^ 31 ≤ o.attempts + 1) (hacc : s'.acceptances x = s.acceptances x)
      (hl : notesAcceptance x l = 0) (hnext : c.next = 0)
      (hlost : (c.lost l).tally (notesAcceptance x) = 0)
  | noted {o : OutboxEntry} (hrow : s.outbox.get x = some o) (o' : OutboxEntry)
      (hrow' : s'.outbox.get x = some o') (hattempts : o'.attempts = o.attempts + notesRefusal x l)
      (hdelivered : o'.deliveredAt = none → o.deliveredAt = none ∧ c.next.tally (eager x) + 1 ≤
        eager x l ∧ notesAcceptance x l = 0)
      (hlast : o'.deliveredAt ≠ none → o.deliveredAt ≠ none ∨ notesAcceptance x l = 1 ∨ 7 ≤ o.attempts)
      (hlast' : notesAcceptance x l = 1 → o'.deliveredAt ≠ none)
      (hone : notesRefusal x l + notesAcceptance x l = 1)
      (hnext : c.next.tally (notesRefusal x) = 0 ∧ c.next.tally (notesAcceptance x) = 0)
      (hlost : c.lost l = 0) (href : s'.requests = s.requests)
      (hholds : c.next.tally (holds x) + 1 = holds x l)
      (heager : c.next.tally (eager x) ≤ eager x l)

section RowStep

variable {cfg : TriggerConfig} {F : Uuid → String → Json → Prop} {s s' : TriggerDb}

theorem Posting.lost {due : List Due} {c : Ctl TriggerPt ℕ} (hc : Posting due c) (l : TriggerPt) :
    c.lost l = 0 := by
  cases due with
  | nil =>
    obtain ⟨n, rfl⟩ := hc
    rfl
  | cons d rest =>
    obtain rfl : c = .at (.post d rest) := hc
    rfl

/-- A sweep that goes on holds the rows that it has to come to. -/
theorem Posting.tally {due : List Due} {c : Ctl TriggerPt ℕ} (hc : Posting due c) (x : Uuid) :
    c.next.tally (notesRefusal x) = 0 ∧ c.next.tally (notesAcceptance x) = 0 ∧
      c.next.tally (holds x) = due.countP (fun d => d.id = x) ∧
      c.next.tally (eager x) = due.countP (fun d => d.id = x && d.attempts < 7) ∧
      c.next.tally sweeps ≤ 1 := by
  cases due with
  | nil =>
    obtain ⟨n, rfl⟩ := hc
    exact ⟨rfl, rfl, rfl, rfl, Nat.zero_le 1⟩
  | cons d rest =>
    obtain rfl : c = .at (.post d rest) := hc
    simp only [Ctl.next_at, Multiset.tally_singleton]
    exact ⟨rfl, rfl, rfl, rfl, le_rfl⟩

theorem Queueing.next {t : Uuid} {event : Json} {ids : List Uuid} {c : Ctl TriggerPt ℕ}
    (hc : Queueing t event ids c) (l : TriggerPt) :
    c.lost l = 0 ∧ ∀ l' ∈ c.next, l'.held = [] := by
  cases ids with
  | nil =>
    obtain ⟨n, rfl⟩ := hc
    exact ⟨rfl, fun l' hl' => absurd hl' (Multiset.notMem_zero _)⟩
  | cons trigger rest =>
    obtain rfl : c = .at (.queue t event trigger rest) := hc
    refine ⟨rfl, fun l' hl' => ?_⟩
    obtain rfl := Multiset.mem_singleton.mp hl'
    rfl

/-- A statement that holds no rows counts for none. -/
theorem TriggerPt.zero_of_held {l : TriggerPt} (h : l.held = []) (x : Uuid) :
    notesRefusal x l = 0 ∧ notesAcceptance x l = 0 ∧ holds x l = 0 ∧ eager x l = 0 := by
  unfold holds eager
  rw [h]
  cases l with
  | post | delivered | giveUp | retry => cases h
  | _ => exact ⟨rfl, rfl, rfl, rfl⟩

theorem tally_of_held {m : Multiset TriggerPt} (h : ∀ l ∈ m, l.held = []) (x : Uuid) :
    m.tally (notesRefusal x) = 0 ∧ m.tally (notesAcceptance x) = 0 ∧ m.tally (holds x) = 0 ∧
      m.tally (eager x) = 0 := by
  have hzero : ∀ w : TriggerPt → ℕ, (∀ l ∈ m, w l = 0) → m.tally w = 0 := by
    intro w hw
    have hle : m.tally w ≤ m.tally fun _ => 0 := Multiset.tally_le fun l hl => (hw l hl).le
    have : m.tally (fun _ => 0) = 0 := by simp [Multiset.tally]
    omega
  have hall := fun l hl => TriggerPt.zero_of_held (h l hl) x
  exact ⟨hzero _ fun l hl => (hall l hl).1, hzero _ fun l hl => (hall l hl).2.1,
    hzero _ fun l hl => (hall l hl).2.2.1, hzero _ fun l hl => (hall l hl).2.2.2⟩

/-! ### What a step is for a row -/

theorem refusals_posted (s : TriggerDb) (d : Due) (r : Response) (x : Uuid) :
    (s.posted cfg d r).refusals x =
      s.refusals x + if d.id = x ∧ r.isSuccess = false then 1 else 0 := by
  rw [TriggerDb.refusals, TriggerDb.posted, List.countP_append, List.countP_singleton]
  by_cases hd : d.id = x <;> simp [TriggerDb.refusals, Due.request, hd]

theorem acceptances_posted (s : TriggerDb) (d : Due) (r : Response) (x : Uuid) :
    (s.posted cfg d r).acceptances x =
      s.acceptances x + if d.id = x ∧ r.isSuccess = true then 1 else 0 := by
  rw [TriggerDb.acceptances, TriggerDb.posted, List.countP_append, List.countP_singleton]
  by_cases hd : d.id = x <;> simp [TriggerDb.acceptances, Due.request, hd]

theorem get_note_self {x : Uuid} {f : OutboxEntry → OutboxEntry} {hf : ∀ o, (f o).id = o.id}
    {o : OutboxEntry} (ho : s.outbox.get x = some o) :
    (s.note x f hf).outbox.get x = some (f o) := by
  have hid := (Table.mem_of_get ho).2
  rw [TriggerDb.note, Table.get_updateWhere_of_some hf ho, if_pos (by simpa using hid)]

theorem get_note_of_ne {x id : Uuid} (hne : id ≠ x) {f : OutboxEntry → OutboxEntry}
    {hf : ∀ o, (f o).id = o.id} : (s.note id f hf).outbox.get x = s.outbox.get x := by
  rw [TriggerDb.note, Table.get_updateWhere]
  cases ho : s.outbox.get x with
  | none => rfl
  | some o =>
    have hid := (Table.mem_of_get ho).2
    rw [Option.map_some, if_neg (by simpa [hid] using Ne.symm hne)]

/-- A step that leaves the row alone, of a statement that has nothing to note about it. -/
theorem RowStep.of_zero {x : Uuid} {l : TriggerPt} {c : Ctl TriggerPt ℕ}
    (hrow : s'.outbox.get x = s.outbox.get x) (href : s'.refusals x = s.refusals x)
    (hacc : s'.acceptances x = s.acceptances x) (hl : notesRefusal x l = 0 ∧ notesAcceptance x l = 0)
    (hlost : c.lost l = 0)
    (hnext : c.next.tally (notesRefusal x) = 0 ∧ c.next.tally (notesAcceptance x) = 0)
    (hholds : c.next.tally (holds x) ≤ holds x l) (heager : c.next.tally (eager x) ≤ eager x l) :
    RowStep x l s s' c := by
  refine .aside hrow href hacc ?_ ?_ hholds heager
  · rw [hnext.1, hlost, hl.1]
    rfl
  · rw [hnext.2, hlost, hl.2]
    rfl

/-- The query of a sweep. -/
theorem rowStep_due {i : TriggerInput} {c : Ctl TriggerPt ℕ} (hc : Posting (s.due i) c)
    (x : Uuid) : RowStep x .due s s c := by
  obtain ⟨href, hacc, hholds, heager, -⟩ := hc.tally x
  by_cases hx : x ∈ (s.due i).map Due.id
  · obtain ⟨d, hd, hdx⟩ := List.mem_map.mp hx
    obtain ⟨o, ho, r, -, rfl, hopen, -⟩ := mem_due hd
    have hrow : s.outbox.get x = some o := by
      rw [← hdx]
      exact Table.mem_rows_iff.mp ho
    refine .read hrow hopen rfl rfl ?_ (fun hle => ?_) href hacc (hc.lost _)
    · rw [hholds]
      have hcount := List.nodup_iff_count_le_one.mp (nodup_due (s := s) i) x
      rw [List.count, List.countP_map] at hcount
      exact le_of_eq_of_le (List.countP_congr fun d _ => by simp) hcount
    · rw [heager, List.countP_eq_zero]
      intro d' hd' heq
      obtain ⟨o', ho', r', -, rfl, -⟩ := mem_due hd'
      simp only [Bool.and_eq_true, decide_eq_true_eq] at heq
      have ho'' : s.outbox.get x = some o' := by
        rw [← heq.1]
        exact Table.mem_rows_iff.mp ho'
      obtain rfl : o' = o := Option.some.inj (ho''.symm.trans hrow)
      exact absurd heq.2 (not_lt.mpr hle)
  · have hzero : ∀ d ∈ s.due i, d.id ≠ x := by
      rintro d hd rfl
      exact hx (List.mem_map_of_mem hd)
    refine .of_zero rfl rfl rfl ⟨rfl, rfl⟩ (hc.lost _) ⟨href, hacc⟩ ?_ ?_
    · rw [hholds, List.countP_eq_zero.mpr fun d hd => by simpa using hzero d hd]
      exact Nat.zero_le _
    · rw [heager, List.countP_eq_zero.mpr fun d hd => by simp [hzero d hd]]
      exact Nat.zero_le _

/-- A request. -/
theorem rowStep_post {d : Due} {rest : List Due} (r : Response) {l : TriggerPt} (x : Uuid)
    (hd : ∃ o rule, Holds cfg F s d o rule) (hheld : l.held = d :: rest)
    (hrefused : notesRefusal x l = if d.id = x ∧ r.isSuccess = false then 1 else 0)
    (haccepted : notesAcceptance x l = if d.id = x ∧ r.isSuccess = true then 1 else 0) :
    RowStep x (.post d rest) s (s.posted cfg d r) (.at l) := by
  have hholds : holds x l = holds x (.post d rest) := by rw [holds, hheld]; rfl
  have heager : eager x l = eager x (.post d rest) := by rw [eager, hheld]; rfl
  obtain ⟨o, rule, hold⟩ := hd
  by_cases hd : d.id = x
  · have hrow : s.outbox.get x = some o := hd ▸ hold.row
    refine .posted hrow hrow ⟨rfl, rfl⟩ rfl ?_ ?_ ?_ ?_ ?_
    · rw [refusals_posted, Ctl.next_at, Multiset.tally_singleton, hrefused]
    · rw [acceptances_posted, Ctl.next_at, Multiset.tally_singleton, haccepted]
    · rw [Ctl.next_at, Multiset.tally_singleton, Multiset.tally_singleton, hrefused, haccepted]
      cases r.isSuccess <;> simp [hd]
    · rw [Ctl.next_at, Multiset.tally_singleton, hholds]
    · rw [Ctl.next_at, Multiset.tally_singleton, heager]
  · simp only [hd, false_and, if_false] at hrefused haccepted
    refine .of_zero rfl ?_ ?_ ⟨rfl, rfl⟩ rfl ?_ ?_ ?_
    · simp [refusals_posted, hd]
    · simp [acceptances_posted, hd]
    · exact ⟨by simpa using hrefused, by simpa using haccepted⟩
    · exact le_of_eq (by simpa using hholds)
    · exact le_of_eq (by simpa using heager)

/-- A sweep that is done with the row it was at. -/
theorem Posting.settled {d : Due} {rest : List Due} {l : TriggerPt} {c : Ctl TriggerPt ℕ}
    (hc : Posting rest c) (hheld : l.held = d :: rest) (x : Uuid) :
    holds x l = c.next.tally (holds x) + (if d.id = x then 1 else 0) ∧
      c.next.tally (eager x) ≤ eager x l := by
  obtain ⟨-, -, hholds, heager, -⟩ := hc.tally x
  rw [hholds, heager, holds, eager, hheld]
  refine ⟨?_, (List.sublist_cons_self d rest).countP_le⟩
  rw [List.countP_cons]
  simp

/-- A note about another row. -/
theorem rowStep_note {d : Due} {rest : List Due} {l : TriggerPt} {c : Ctl TriggerPt ℕ} {x : Uuid}
    {f : OutboxEntry → OutboxEntry} {hf : ∀ o, (f o).id = o.id} (hx : d.id ≠ x)
    (hc : Posting rest c) (hheld : l.held = d :: rest) (href : notesRefusal x l = 0)
    (hacc : notesAcceptance x l = 0) : RowStep x l s (s.note d.id f hf) c := by
  obtain ⟨hholds, heager⟩ := hc.settled hheld x
  obtain ⟨hr, ha, -⟩ := hc.tally x
  exact .of_zero (get_note_of_ne hx) rfl rfl ⟨href, hacc⟩ (hc.lost _) ⟨hr, ha⟩
    (by rw [hholds]; exact Nat.le_add_right _ _) heager

theorem Move.rowStep {l : TriggerPt} {i : TriggerInput} {c : Ctl TriggerPt ℕ}
    (h : Move cfg l i s s' c) (hl : PtSound cfg F s l) (x : Uuid) : RowStep x l s s' c := by
  cases h with
  | fails => exact .aside rfl rfl rfl (by simp) (by simp) (Nat.zero_le _) (Nat.zero_le _)
  | created => exact .of_zero rfl rfl rfl ⟨rfl, rfl⟩ rfl ⟨rfl, rfl⟩ (Nat.zero_le _) (Nat.zero_le _)
  | found => exact .of_zero rfl rfl rfl ⟨rfl, rfl⟩ rfl ⟨rfl, rfl⟩ (Nat.zero_le _) (Nat.zero_le _)
  | read hc =>
    obtain ⟨hlost, hheld⟩ := hc.next (.triggers _ _ _)
    obtain ⟨href, hacc, hholds, heager⟩ := tally_of_held hheld x
    exact .of_zero rfl rfl rfl ⟨rfl, rfl⟩ hlost ⟨href, hacc⟩ hholds.le heager.le
  | @queued t trigger event rest _ _ _ hrule hid hc =>
    obtain ⟨hlost, hheld⟩ := hc.next (.queue t event trigger rest)
    by_cases hx : i.id = x
    · subst hx
      refine .queued hid (o := Triggers.queued cfg t trigger event i) ?_ rfl rfl rfl rfl hheld hlost
      rw [Table.get_insertNew, hid]
      exact if_pos rfl
    · obtain ⟨href, hacc, hholds, heager⟩ := tally_of_held hheld x
      exact .of_zero (Table.get_insertNew_of_ne hx) rfl rfl ⟨rfl, rfl⟩ hlost ⟨href, hacc⟩
        hholds.le heager.le
  | due hc => exact rowStep_due hc x
  | accepted hr =>
    exact rowStep_post _ x (hl.held _ List.mem_cons_self) rfl (by simp [notesRefusal, hr])
      (by simp [notesAcceptance, hr])
  | lastRefused hr =>
    exact rowStep_post _ x (hl.held _ List.mem_cons_self) rfl (by simp [notesRefusal, hr])
      (by simp [notesAcceptance, hr])
  | refused hr =>
    exact rowStep_post _ x (hl.held _ List.mem_cons_self) rfl (by simp [notesRefusal, hr])
      (by simp [notesAcceptance, hr])
  | @panics d rest _ _ p hr hplan =>
    obtain ⟨o, r, hold⟩ := hl.held d List.mem_cons_self
    by_cases hx : d.id = x
    · have hrow : s.outbox.get x = some o := hx ▸ hold.row
      refine .panicked hrow hrow ?_ ?_ rfl rfl (by simp [notesAcceptance])
      · by_contra hlt
        have hstale := hold.stale
        exact plan_ne_error hold.nonneg (by omega) hplan
      · simp [acceptances_posted, hr]
    · refine .aside rfl ?_ ?_ (by simp [notesRefusal]) (by simp [notesAcceptance]) (Nat.zero_le _)
        (Nat.zero_le _)
      · simp [refusals_posted, hx]
      · simp [acceptances_posted, hx]
  | @delivered d rest _ _ _ hc =>
    obtain ⟨o, r, hold⟩ := hl.held d List.mem_cons_self
    by_cases hx : d.id = x
    · subst hx
      obtain ⟨hholds, heager⟩ := hc.settled (l := .delivered d rest) rfl d.id
      exact .noted hold.row _ (get_note_self hold.row) (by simp [notesRefusal]) nofun
        (fun _ => .inr (.inl (if_pos rfl))) (fun _ => nofun) (by simp [notesRefusal, notesAcceptance])
        ⟨(hc.tally _).1, (hc.tally _).2.1⟩ (hc.lost _) rfl (by simpa using hholds.symm) heager
    · exact rowStep_note hx hc rfl (by simp [notesRefusal]) (by simp [notesAcceptance, hx])
  | @givenUp d err rest _ _ _ hcount hc =>
    obtain ⟨o, r, hold⟩ := hl.held d List.mem_cons_self
    by_cases hx : d.id = x
    · subst hx
      obtain ⟨hholds, heager⟩ := hc.settled (l := .giveUp d err rest) rfl d.id
      have hlast := le_trans (hl.last d err rest rfl) hold.stale
      exact .noted hold.row _ (get_note_self hold.row) (by simp [notesRefusal]) nofun
        (fun _ => .inr (.inr hlast)) (fun _ => nofun) (by simp [notesRefusal, notesAcceptance])
        ⟨(hc.tally _).1, (hc.tally _).2.1⟩ (hc.lost _) rfl (by simpa using hholds.symm) heager
    · exact rowStep_note hx hc rfl (by simp [notesRefusal, hx]) (by simp [notesAcceptance])
  | @retried d err backoff rest _ _ _ hcount hc =>
    obtain ⟨o, r, hold⟩ := hl.held d List.mem_cons_self
    by_cases hx : d.id = x
    · subst hx
      obtain ⟨hholds, heager⟩ := hc.settled (l := .retry d err backoff rest) rfl d.id
      obtain ⟨ho, hid⟩ := Table.mem_of_get hold.row
      have hlt := lt_of_counts hcount ho hid
      have hstale := hold.stale
      have hagain := hl.again d err backoff rest rfl (by omega)
      have hone : eager d.id (.retry d err backoff rest) = c.next.tally (eager d.id) + 1 := by
        rw [(hc.tally d.id).2.2.2.1]
        exact List.countP_cons_of_pos (by simpa using hagain)
      exact .noted hold.row _ (get_note_self hold.row) (by simp [notesRefusal])
        (fun hopen => ⟨hopen, hone.ge, rfl⟩) (fun hclosed => .inl hclosed) nofun
        (by simp [notesRefusal, notesAcceptance]) ⟨(hc.tally _).1, (hc.tally _).2.1⟩ (hc.lost _)
        rfl (by simpa using hholds.symm) heager
    · exact rowStep_note hx hc rfl (by simp [notesRefusal, hx]) (by simp [notesAcceptance])

end RowStep

/-! ### Attempts and requests -/

/-- The requests for a row against what is noted of them: by the row, by the calls in flight that
have yet to note it, and by those that were cut off before they did. -/
structure Account (x : Uuid) (s : TriggerDb) (m d : Multiset TriggerPt) : Prop where
  absent : s.outbox.get x = none →
    (s.refusals x = 0 ∧ d.tally (notesRefusal x) = 0 ∧ m.tally (notesRefusal x) = 0) ∧
      s.acceptances x = 0 ∧ d.tally (notesAcceptance x) = 0 ∧ m.tally (notesAcceptance x) = 0
  refusals : ∀ o, s.outbox.get x = some o → o.attempts + 1 < 2 ^ 31 →
    (s.refusals x : ℤ) = o.attempts + m.tally (notesRefusal x) + d.tally (notesRefusal x)
  open_ : ∀ o, s.outbox.get x = some o → o.deliveredAt = none →
    s.acceptances x = m.tally (notesAcceptance x) + d.tally (notesAcceptance x)
  closed : ∀ o, s.outbox.get x = some o → o.deliveredAt ≠ none →
    0 < s.acceptances x ∨ 8 ≤ o.attempts

section Account

variable {cfg : TriggerConfig} {s s' : TriggerDb} {x : Uuid} {l : TriggerPt}
  {m d : Multiset TriggerPt} {c : Ctl TriggerPt ℕ}

theorem account_empty (x : Uuid) : Account x .empty 0 0 :=
  ⟨fun _ => ⟨⟨rfl, rfl, rfl⟩, rfl, rfl, rfl⟩, nofun, nofun, nofun⟩

theorem Account.step (h : Account x s (l ::ₘ m) d) (hstep : RowStep x l s s' c) :
    Account x s' (c.next + m) (c.lost l + d) := by
  obtain ⟨habsent, hrefusals, hopen, hclosed⟩ := h
  simp only [Multiset.tally_cons] at habsent hrefusals hopen
  cases hstep with
  | aside hrow href hacc hr ha =>
    constructor <;> simp only [hrow, href, hacc, Multiset.tally_add]
    · intro hnone
      obtain ⟨h1, h2⟩ := habsent hnone
      omega
    · intro o ho hlt
      have := hrefusals o ho hlt
      omega
    · intro o ho hnone
      have := hopen o ho hnone
      omega
    · exact hclosed
  | @queued o hnone hrow hattempts hopen' href hacc hnext hlost =>
    obtain ⟨hr, ha, -⟩ := tally_of_held hnext x
    obtain ⟨h1, h2⟩ := habsent hnone
    constructor <;> simp only [hrow, href, hacc, hlost, Multiset.tally_add, Multiset.tally_zero]
    · intro hnone
      cases hnone
    · rintro o' ho' -
      obtain rfl := Option.some.inj ho'
      omega
    · rintro o' ho' -
      omega
    · intro o' ho' hne
      obtain rfl := Option.some.inj ho'
      exact absurd hopen' hne
  | @read o hrow hopen' hl hs hholds heager hr ha hlost =>
    subst hl hs
    constructor <;> simp only [hrow, hlost, Multiset.tally_add, Multiset.tally_zero, hr, ha]
    · intro hnone
      cases hnone
    · intro o' ho' hlt
      have := hrefusals o' (hrow.trans ho') hlt
      simpa [notesRefusal] using this
    · intro o' ho' hnone
      have := hopen o' (hrow.trans ho') hnone
      simpa [notesAcceptance] using this
    · exact fun o' ho' hne => hclosed o' (hrow.trans ho') hne
  | @posted o hrow hrow' hl hlost href hacc hone =>
    constructor <;> simp only [hrow', hlost, Multiset.tally_add, Multiset.tally_zero, href, hacc]
    · intro hnone
      cases hnone
    · intro o' ho' hlt
      have := hrefusals o' (hrow.trans ho') hlt
      omega
    · intro o' ho' hnone
      have := hopen o' (hrow.trans ho') hnone
      omega
    · intro o' ho' hne
      have := hclosed o' (hrow.trans ho') hne
      omega
  | @panicked o hrow hrow' hattempts hacc hl hnext hlost =>
    constructor <;> simp only [hrow', hacc, hnext, Multiset.tally_add, Multiset.tally_zero]
    · intro hnone
      cases hnone
    · intro o' ho' hlt
      obtain rfl := Option.some.inj ho'
      omega
    · intro o' ho' hnone
      have := hopen o' (hrow.trans ho') hnone
      omega
    · exact fun o' ho' hne => hclosed o' (hrow.trans ho') hne
  | @noted o hrow o' hrow' hattempts hdelivered hlast hlast' hone hnext hlost href =>
    have hsame : s'.refusals x = s.refusals x ∧ s'.acceptances x = s.acceptances x := by
      simp only [TriggerDb.refusals, TriggerDb.acceptances, href, and_self]
    constructor <;> simp only [hrow', hlost, hsame, hnext, Multiset.tally_add, Multiset.tally_zero]
    · intro hnone
      cases hnone
    · intro o'' ho'' hlt
      obtain rfl := Option.some.inj ho''
      have := hrefusals o hrow (by omega)
      omega
    · intro o'' ho'' hnone
      obtain rfl := Option.some.inj ho''
      obtain ⟨hnone', -, hzero⟩ := hdelivered hnone
      have := hopen o hrow hnone'
      omega
    · intro o'' ho'' hne
      obtain rfl := Option.some.inj ho''
      by_cases hnone : o.deliveredAt = none
      · have := hopen o hrow hnone
        obtain hne' | hacc | hseven := hlast hne
        · exact absurd hnone hne'
        · omega
        · omega
      · have := hclosed o hrow hnone
        omega

theorem Account.kill (h : Account x s (l ::ₘ m) d) : Account x s m (l ::ₘ d) := by
  obtain ⟨habsent, hrefusals, hopen, hclosed⟩ := h
  simp only [Multiset.tally_cons] at habsent hrefusals hopen
  refine ⟨fun hnone => ?_, fun o ho hlt => ?_, fun o ho hnone => ?_, hclosed⟩ <;>
    simp only [Multiset.tally_cons]
  · obtain ⟨h1, h2⟩ := habsent hnone
    omega
  · have := hrefusals o ho hlt
    omega
  · have := hopen o ho hnone
    omega

/-- A call that starts has nothing to note. -/
theorem TriggerCall.next_held (cfg : TriggerConfig) (call : TriggerCall) :
    ∀ l ∈ (call.body cfg).ctl.next, l.held = [] := by
  intro l hl
  cases call with
  | createTrigger t name condition url secret =>
    obtain hctl | hctl := ctl_createTrigger cfg t name condition url secret
    · have hl : l ∈ (Ctl.failed : Ctl TriggerPt ℕ).next := hctl ▸ hl
      exact absurd hl (Multiset.notMem_zero _)
    · have hl : l ∈ (Ctl.at .createTrigger : Ctl TriggerPt ℕ).next := hctl ▸ hl
      obtain rfl := Multiset.mem_singleton.mp hl
      rfl
  | fire t condition event =>
    obtain rfl := Multiset.mem_singleton.mp hl
    rfl
  | testTrigger t trigger =>
    obtain rfl := Multiset.mem_singleton.mp hl
    rfl
  | deliverPending =>
    obtain rfl := Multiset.mem_singleton.mp hl
    rfl

theorem Account.spawn (h : Account x s m d) (call : TriggerCall) :
    Account x s ((call.body cfg).ctl.next + m) d := by
  obtain ⟨hr, ha, -⟩ := tally_of_held (call.next_held cfg) x
  obtain ⟨habsent, hrefusals, hopen, hclosed⟩ := h
  refine ⟨fun hnone => ?_, fun o ho hlt => ?_, fun o ho hnone => ?_, hclosed⟩ <;>
    simp only [Multiset.tally_add, hr, ha, zero_add]
  · exact habsent hnone
  · exact hrefusals o ho hlt
  · exact hopen o ho hnone

variable {h : Pool.Hist TriggerCall TriggerPt TriggerDb TriggerInput Fault ℕ}
  {p : Pool TriggerCall TriggerPt TriggerDb TriggerInput Fault ℕ}

theorem reach_account (hr : Pool.Reach (TriggerCall.body cfg) .empty h p) (x : Uuid) :
    Account x p.store p.census (Pool.cut h) := by
  have hboth := hr.counted takes_move (fun _ _ _ => True)
    (fun s m d => Sound cfg (fun _ _ _ => True) s m ∧ Account x s m d)
    ⟨sound_empty _, account_empty x⟩
    (fun s m d c _ hs => ⟨hs.1.spawn c fun _ _ _ _ => trivial, hs.2.spawn c⟩)
    (fun s s' m d l n i c _ hs hm =>
      ⟨hm.sound hs.1, hs.2.step (hm.rowStep (hs.1.pts l (Multiset.mem_cons_self l m)) x)⟩)
    (fun s m d l n _ hs => ⟨hs.1.of_cons, hs.2.kill⟩)
  exact (hboth fun _ _ => trivial).2

/-- **The attempts of a row are exact.**  They are the requests that were refused, but for those
that a call has yet to note or was cut off before it noted.  A row is open as long as every
accepted request is such; and it is closed only after a request that was accepted, or after eight
that were not. -/
theorem attempts_exact (hr : Pool.Reach (TriggerCall.body cfg) .empty h p) :
    ∀ o ∈ p.store.outbox.rows, o.attempts + 1 < 2 ^ 31 →
      (p.store.refusals o.id : ℤ) = o.attempts + p.census.tally (notesRefusal o.id) +
        (Pool.cut h).tally (notesRefusal o.id) ∧
      (o.deliveredAt = none → p.store.acceptances o.id =
        p.census.tally (notesAcceptance o.id) + (Pool.cut h).tally (notesAcceptance o.id)) ∧
      (o.deliveredAt ≠ none → 0 < p.store.acceptances o.id ∨ 8 ≤ o.attempts) := by
  intro o ho hlt
  have hrow := Table.mem_rows_iff.mp ho
  have hacc := reach_account hr o.id
  exact ⟨hacc.refusals o hrow hlt, hacc.open_ o hrow, hacc.closed o hrow⟩

end Account

/-- An event whose first sweep is cut off after its request was accepted, and a second sweep. -/
def cutOffSweep : List (Act TriggerCall TriggerInput) :=
  let i := inputAt 10 0 (.status 200 "200 OK")
  [.spawn (.createTrigger 1 "hook" "hunt_match" "https://soc" (some "secret")), .exec 0 i,
    .spawn (.fire 1 "hunt_match" .null), .exec 1 i, .exec 1 i,
    .spawn .deliverPending, .exec 2 i, .exec 2 i, .kill 2,
    .spawn .deliverPending, .exec 3 i, .exec 3 i, .exec 3 i]

theorem attempts_exact_cutOff : ∃ h p,
    Pool.Reach (TriggerCall.body nullConfig) .empty h p ∧ p.store.acceptances 10 = 2 ∧
      (Pool.cut h).tally (notesAcceptance 10) = 1 ∧ ∀ o ∈ p.store.outbox.rows,
        o.attempts = 0 ∧ (o.deliveredAt ≠ none → 0 < p.store.acceptances o.id ∨ 8 ≤ o.attempts) := by
  obtain ⟨h, p, hr, hchk⟩ := Pool.exists_reach (TriggerCall.body nullConfig) .empty cutOffSweep
    (fun h p => p.store.acceptances 10 = 2 ∧ (Pool.cut h).tally (notesAcceptance 10) = 1 ∧
      ∀ o ∈ p.store.outbox.rows, o.attempts = 0) (by decide)
  obtain ⟨hacc, hcut, hzero⟩ := of_decide_eq_true hchk
  refine ⟨h, p, hr, hacc, hcut, fun o ho => ⟨hzero o ho, ?_⟩⟩
  have hlt : o.attempts + 1 < 2 ^ 31 := by
    rw [hzero o ho]
    decide
  exact (attempts_exact hr o ho hlt).2.2

/-! ### How many -/

/-- A bound on the requests for a row, for at most `k` sweeps at a time.  An open row may be held
by sweeps that will leave it open, and these are few when it has been refused often; a closed one
is held only by sweeps that read it before. -/
structure Bound (k : ℕ) (x : Uuid) (s : TriggerDb) (m d : Multiset TriggerPt) : Prop where
  held : m.tally (holds x) ≤ k
  open_ : ∀ o, s.outbox.get x = some o → o.deliveredAt = none →
    o.attempts + m.tally (eager x) ≤ 6 + k
  closed : ∀ o, s.outbox.get x = some o → o.deliveredAt ≠ none →
    o.attempts + m.tally (holds x) ≤ 6 + 2 * k ∧
    s.refusals x + s.acceptances x + m.tally (holds x) ≤ 6 + 2 * k +
      (d.tally (notesRefusal x) + d.tally (notesAcceptance x)) +
      (m.tally (notesRefusal x) + m.tally (notesAcceptance x)) ∧
    s.acceptances x + m.tally (holds x) ≤
      k + d.tally (notesAcceptance x) + m.tally (notesAcceptance x)

section Bound

variable {cfg : TriggerConfig} {F : Uuid → String → Json → Prop} {k : ℕ} {s s' : TriggerDb}
  {x : Uuid} {l : TriggerPt} {m d : Multiset TriggerPt} {c : Ctl TriggerPt ℕ}

theorem TriggerPt.eager_le_holds (x : Uuid) (l : TriggerPt) : eager x l ≤ holds x l :=
  List.countP_mono_left fun d _ h => by
    rw [Bool.and_eq_true] at h
    exact h.1

/-- A statement that notes a row holds it. -/
theorem TriggerPt.notes_le_holds (x : Uuid) (l : TriggerPt) :
    notesRefusal x l + notesAcceptance x l ≤ holds x l := by
  have hhead : ∀ (l : TriggerPt) (d : Due) (rest : List Due), l.held = d :: rest →
      (if d.id = x then 1 else 0) ≤ holds x l := by
    intro l d rest hheld
    rw [holds, hheld, List.countP_cons]
    simp
  cases l with
  | delivered d rest => simpa [notesRefusal, notesAcceptance] using hhead (.delivered d rest) d rest rfl
  | giveUp d err rest => exact hhead (.giveUp d err rest) d rest rfl
  | retry d err backoff rest => exact hhead (.retry d err backoff rest) d rest rfl
  | _ => exact Nat.zero_le _

/-- A sweep holds a row once. -/
theorem PtSound.holds_le (hl : PtSound cfg F s l) (x : Uuid) : holds x l ≤ sweeps l := by
  have hone : holds x l ≤ 1 := by
    have hcount := List.nodup_iff_count_le_one.mp hl.nodup x
    rw [List.count, List.countP_map] at hcount
    exact le_of_eq_of_le (List.countP_congr fun d _ => by simp) hcount
  cases l with
  | post | delivered | giveUp | retry => exact hone
  | _ => exact Nat.zero_le _

theorem Sound.tally_holds_le (hs : Sound cfg F s m) (x : Uuid) :
    m.tally (holds x) ≤ m.tally sweeps :=
  Multiset.tally_le fun l hl => (hs.pts l hl).holds_le x

theorem tally_notes_le (m : Multiset TriggerPt) (x : Uuid) :
    m.tally (notesRefusal x) + m.tally (notesAcceptance x) ≤ m.tally (holds x) := by
  induction m using Multiset.induction with
  | empty => exact le_rfl
  | cons l m ih =>
    have hl := l.notes_le_holds x
    simp only [Multiset.tally_cons]
    omega

theorem bound_empty (k : ℕ) (x : Uuid) : Bound k x .empty 0 0 :=
  ⟨Nat.zero_le k, nofun, nofun⟩

theorem Bound.step (hk : 2 * k + 7 < 2 ^ 31) (h : Bound k x s (l ::ₘ m) d)
    (hacct : Account x s (l ::ₘ m) d) (hs : Sound cfg F s (l ::ₘ m))
    (hsweeps : (l ::ₘ m).tally sweeps ≤ k) (hstep : RowStep x l s s' c) :
    Bound k x s' (c.next + m) (c.lost l + d) := by
  obtain ⟨hheld, hopen, hclosed⟩ := h
  have heagers : m.tally (eager x) ≤ m.tally (holds x) :=
    Multiset.tally_le fun l _ => l.eager_le_holds x
  have hnexteager : c.next.tally (eager x) ≤ c.next.tally (holds x) :=
    Multiset.tally_le fun l _ => l.eager_le_holds x
  simp only [Multiset.tally_cons] at hheld hopen hclosed hsweeps
  cases hstep with
  | aside hrow href hacc hr ha hholds heager =>
    constructor <;> simp only [hrow, href, hacc, Multiset.tally_add]
    · omega
    · intro o ho hnone
      have := hopen o ho hnone
      omega
    · intro o ho hne
      have := hclosed o ho hne
      omega
  | @queued o hnone hrow hattempts hopen' href hacc hnext hlost =>
    obtain ⟨-, -, hh, he⟩ := tally_of_held hnext x
    constructor <;> simp only [hrow, hlost, Multiset.tally_add, Multiset.tally_zero, hh, he]
    · omega
    · intro o' ho' hnone'
      obtain rfl := Option.some.inj ho'
      omega
    · intro o' ho' hne
      obtain rfl := Option.some.inj ho'
      exact absurd hopen' hne
  | @read o hrow hopen' hl hs' hholds heager hr ha hlost =>
    subst hl hs'
    have hall := hs.of_cons.tally_holds_le x
    have hone : sweeps .due = 1 := rfl
    constructor <;> simp only [hrow, hlost, Multiset.tally_add, Multiset.tally_zero]
    · omega
    · intro o' ho' hnone
      obtain rfl := Option.some.inj ho'
      have := hopen o hrow hnone
      by_cases hle : 7 ≤ o.attempts
      · have := heager hle
        omega
      · omega
    · intro o' ho' hne
      obtain rfl := Option.some.inj ho'
      exact absurd hopen' hne
  | @posted o hrow hrow' hl hlost href hacc hone hholds heager =>
    constructor <;> simp only [hrow', hlost, Multiset.tally_add, Multiset.tally_zero, href, hacc]
    · omega
    · intro o' ho' hnone
      have := hopen o' (hrow.trans ho') hnone
      omega
    · intro o' ho' hne
      have := hclosed o' (hrow.trans ho') hne
      omega
  | @panicked o hrow hrow' hattempts =>
    -- The attempts are too few for a panic.
    exfalso
    by_cases hnone : o.deliveredAt = none
    · have := hopen o hrow hnone
      omega
    · have := hclosed o hrow hnone
      omega
  | @noted o hrow o' hrow' hattempts hdelivered hlast hlast' hone hnext hlost href hholds heager =>
    have hsame : s'.refusals x = s.refusals x ∧ s'.acceptances x = s.acceptances x := by
      simp only [TriggerDb.refusals, TriggerDb.acceptances, href, and_self]
    constructor <;> simp only [hrow', hlost, hsame, hnext, Multiset.tally_add, Multiset.tally_zero]
    · omega
    · intro o'' ho'' hnone
      obtain rfl := Option.some.inj ho''
      obtain ⟨hnone', hless, hzero⟩ := hdelivered hnone
      have := hopen o hrow hnone'
      omega
    · intro o'' ho'' hne
      obtain rfl := Option.some.inj ho''
      by_cases hnone : o.deliveredAt = none
      -- The row is closed now: its requests so far are those of the account.
      · have hattempts' := hopen o hrow hnone
        have hrefusals := hacct.refusals o hrow (by omega)
        have hacceptances := hacct.open_ o hrow hnone
        simp only [Multiset.tally_cons] at hrefusals hacceptances
        omega
      · have := hclosed o hrow hnone
        omega

theorem Bound.kill (h : Bound k x s (l ::ₘ m) d) : Bound k x s m (l ::ₘ d) := by
  obtain ⟨hheld, hopen, hclosed⟩ := h
  have hnotes := l.notes_le_holds x
  simp only [Multiset.tally_cons] at hheld hopen hclosed
  refine ⟨by omega, fun o ho hnone => ?_, fun o ho hne => ?_⟩
  · have := hopen o ho hnone
    omega
  · have := hclosed o ho hne
    simp only [Multiset.tally_cons]
    omega

theorem Bound.spawn (h : Bound k x s m d) (call : TriggerCall) :
    Bound k x s ((call.body cfg).ctl.next + m) d := by
  obtain ⟨hr, ha, hh, he⟩ := tally_of_held (call.next_held cfg) x
  obtain ⟨hheld, hopen, hclosed⟩ := h
  refine ⟨?_, fun o ho hnone => ?_, fun o ho hne => ?_⟩ <;>
    simp only [Multiset.tally_add, hr, ha, hh, he, zero_add]
  · exact hheld
  · exact hopen o ho hnone
  · exact hclosed o ho hne

variable {h : Pool.Hist TriggerCall TriggerPt TriggerDb TriggerInput Fault ℕ}
  {p : Pool TriggerCall TriggerPt TriggerDb TriggerInput Fault ℕ}

theorem reach_bound (hk : 2 * k + 7 < 2 ^ 31)
    (hr : Pool.Reach (TriggerCall.body cfg) .empty h p)
    (hsweeps : ∀ e ∈ h, e.1.census.tally sweeps ≤ k) (x : Uuid) :
    Bound k x p.store p.census (Pool.cut h) := by
  have hall := hr.counted takes_move (fun _ m _ => m.tally sweeps ≤ k)
    (fun s m d => Sound cfg (fun _ _ _ => True) s m ∧ Account x s m d ∧ Bound k x s m d)
    ⟨sound_empty _, account_empty x, bound_empty k x⟩
    (fun s m d c _ hs => ⟨hs.1.spawn c fun _ _ _ _ => trivial, hs.2.1.spawn c, hs.2.2.spawn c⟩)
    (fun s s' m d l n i c hk' hs hm =>
      have hrow := hm.rowStep (hs.1.pts l (Multiset.mem_cons_self l m)) x
      ⟨hm.sound hs.1, hs.2.1.step hrow, hs.2.2.step hk hs.2.1 hs.1 hk' hrow⟩)
    (fun s m d l n _ hs => ⟨hs.1.of_cons, hs.2.1.kill, hs.2.2.kill⟩)
  exact (hall hsweeps).2.2

/-- **No flood.**  While at most `k` sweeps run at a time, a row is posted at most `6 + 2 k` times,
of which at most `k` are accepted, and once more for each call that was cut off between a request
and its note.  The number of attempts obeys the bound without exception; and in either build a sweep
that holds the row pauses it for five seconds, doubled with each attempt up to five minutes, or gives
it up after the eighth. -/
theorem posts_bounded (hk : 2 * k + 7 < 2 ^ 31)
    (hr : Pool.Reach (TriggerCall.body cfg) .empty h p)
    (hsweeps : ∀ e ∈ h, e.1.census.tally sweeps ≤ k) :
    ∀ o ∈ p.store.outbox.rows,
      p.store.refusals o.id + p.store.acceptances o.id ≤ 6 + 2 * k +
        ((Pool.cut h).tally (notesRefusal o.id) + (Pool.cut h).tally (notesAcceptance o.id)) ∧
      p.store.acceptances o.id ≤ k + (Pool.cut h).tally (notesAcceptance o.id) ∧
      o.attempts ≤ 6 + 2 * k ∧
      ∀ l ∈ p.census, ∀ d ∈ l.held, d.id = o.id → plan cfg.arith d.attempts =
        .ok (if d.attempts < 7 then some (min (5 * 2 ^ d.attempts.toNat) 300) else none) := by
  intro o ho
  have hrow := Table.mem_rows_iff.mp ho
  obtain ⟨hheld, hopen, hclosed⟩ := reach_bound hk hr hsweeps o.id
  have hacct := reach_account hr o.id
  have hnotes := tally_notes_le p.census o.id
  have hattempts : o.attempts ≤ 6 + 2 * k := by
    by_cases hnone : o.deliveredAt = none
    · have := hopen o hrow hnone
      omega
    · have := hclosed o hrow hnone
      omega
  refine ⟨?_, ?_, hattempts, fun l hl d hd hid => ?_⟩
  · by_cases hnone : o.deliveredAt = none
    · have := hopen o hrow hnone
      have := hacct.refusals o hrow (by omega)
      have := hacct.open_ o hrow hnone
      omega
    · have := hclosed o hrow hnone
      omega
  · by_cases hnone : o.deliveredAt = none
    · have := hacct.open_ o hrow hnone
      omega
    · have := hclosed o hrow hnone
      omega
  · obtain ⟨o', r, hold⟩ := ((reach_sound hr).pts l hl).held d hd
    obtain rfl : o = o' := Option.some.inj (hrow.symm.trans (hid ▸ hold.row))
    have hstale := hold.stale
    rcases lt_or_ge d.attempts 7 with hlt | hle
    · rw [if_pos hlt, plan_of_lt hold.nonneg hlt]
    · rw [if_neg (by omega), plan_of_le hle (by omega)]

end Bound

theorem posts_bounded_cutOff : ∃ h p,
    Pool.Reach (TriggerCall.body nullConfig) .empty h p ∧ p.store.outbox.rows ≠ [] ∧
      ∀ o ∈ p.store.outbox.rows, p.store.acceptances o.id ≤
        1 + (Pool.cut h).tally (notesAcceptance o.id) ∧ o.attempts ≤ 8 := by
  obtain ⟨h, p, hr, hchk⟩ := Pool.exists_reach (TriggerCall.body nullConfig) .empty cutOffSweep
    (fun h p => p.store.outbox.rows.length = 1 ∧ ∀ e ∈ h, e.1.census.tally sweeps ≤ 1) (by decide)
  obtain ⟨hlen, hsweeps⟩ := of_decide_eq_true hchk
  refine ⟨h, p, hr, List.ne_nil_of_length_pos (by omega), fun o ho => ?_⟩
  obtain ⟨-, hacc, hattempts, -⟩ := posts_bounded (k := 1) (by decide) hr hsweeps o ho
  exact ⟨hacc, hattempts⟩

end Corpus.Triggers
