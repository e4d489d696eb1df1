/-
Change notifications (`sensors/rdcw_parse.rs`).

A buffer of `ReadDirectoryChangesW` holds entries that are chained by the distance to the next.

* `parseNotifyRecords` — the function of the source, with its operations that may panic;
* `Follows` — the records that the chain reaches, up to the first malformed header;
* `packEntries` — how a list of records is laid out in a buffer;
* `parseNotifyRecords_spec` — the parser returns what the chain reaches, and what was laid out.
-/
import Corpus.Agent.Buffers

namespace Corpus.Agent

open Checked

/-- `NotifyRecord`. -/
structure NotifyRecord where
  action : ℕ
  fileName : String
  deriving DecidableEq

/-- The distance to the next entry is too short for this one, or leaves the buffer. -/
def chainBroken (m : Arith) (buf : Bytes) (offset next nameLen : ℕ) : Checked Bool :=
  if next = 0 then return false
  else do
    let least ← m.add 64 12 nameLen
    if next < least then return true
    else do
      let room ← m.sub 64 buf.length offset
      return room < next

/-- A round of `parse_notify_records`. -/
def notifyRound (m : Arith) (buf : Bytes) (offset : ℕ) : Checked (Round ℕ NotifyRecord) := do
  let room ← m.sub 64 buf.length offset
  if room < 12 then return .stop []
  else do
    let next ← checkedField m buf offset 0 4
    let action ← checkedField m buf offset 4 4
    let nameLen ← checkedField m buf offset 8 4
    if nameLen % 2 ≠ 0 then return .stop []
    else do
      let room ← m.sub 64 buf.length offset
      let room ← m.sub 64 room 12
      if room < nameLen then return .stop []
      else do
        let broken ← chainBroken m buf offset next nameLen
        if broken then return .stop []
        else do
          let start ← m.add 64 offset 12
          let stop ← m.add 64 start nameLen
          let wide ← checkedRange buf start stop
          if next = 0 then return .stop [⟨action, decodeName wide⟩]
          else do
            let offset ← m.add 64 offset next
            return .next [⟨action, decodeName wide⟩] offset

/-- `parse_notify_records`, in so many rounds. -/
def parseNotifyRecords (m : Arith) (buf : Bytes) (rounds : ℕ) :
    Option (Checked (List NotifyRecord)) :=
  loopFrom (notifyRound m buf) rounds 0

/-! ### The chain -/

/-- `NextEntryOffset` of the entry at the start of a buffer. -/
def nextEntryOffset (rest : Bytes) : ℕ := fieldAt rest 0 4

/-- `FileNameLength`. -/
def fileNameLength (rest : Bytes) : ℕ := fieldAt rest 8 4

/-- The record in the entry at the start of a buffer. -/
def notifyRecordAt (rest : Bytes) : NotifyRecord :=
  ⟨fieldAt rest 4 4, decodeName ((rest.drop 12).take (fileNameLength rest))⟩

/-- The entry at the start of a buffer has a header, its name lies in the buffer, and the
distance to the next entry, if there is one, covers the entry and stays in the buffer. -/
structure WellFormed (rest : Bytes) : Prop where
  header : 12 ≤ rest.length
  even : fileNameLength rest % 2 = 0
  name : 12 + fileNameLength rest ≤ rest.length
  chain : nextEntryOffset rest = 0 ∨
    12 + fileNameLength rest ≤ nextEntryOffset rest ∧ nextEntryOffset rest ≤ rest.length

/-- The records that are reached from the start of a buffer. -/
inductive Follows : Bytes → List NotifyRecord → Prop where
  | malformed {rest : Bytes} : ¬ WellFormed rest → Follows rest []
  | last {rest : Bytes} : WellFormed rest → nextEntryOffset rest = 0 →
      Follows rest [notifyRecordAt rest]
  | next {rest : Bytes} {records : List NotifyRecord} : WellFormed rest →
      nextEntryOffset rest ≠ 0 → Follows (rest.drop (nextEntryOffset rest)) records →
      Follows rest (notifyRecordAt rest :: records)

theorem Follows.unique {rest : Bytes} {records records' : List NotifyRecord}
    (h : Follows rest records) (h' : Follows rest records') : records = records' := by
  induction h generalizing records' with
  | malformed hbad =>
    cases h' with
    | malformed => rfl
    | last hgood => exact absurd hgood hbad
    | next hgood => exact absurd hgood hbad
  | last hgood hzero =>
    cases h' with
    | malformed hbad => exact absurd hgood hbad
    | last => rfl
    | next _ hne => exact absurd hzero hne
  | next hgood hne _ ih =>
    cases h' with
    | malformed hbad => exact absurd hgood hbad
    | last _ hzero => exact absurd hzero hne
    | next _ _ hrest => rw [ih hrest]

/-! ### A round -/

section Round

variable {m : Arith} {buf : Bytes} {offset : ℕ}

theorem chainBroken_eq (hbuf : buf.length < 2 ^ 63) (hoffset : offset ≤ buf.length)
    {nameLen : ℕ} (hname : nameLen ≤ buf.length) (next : ℕ) :
    chainBroken m buf offset next nameLen = .ok (decide (¬ (next = 0 ∨
      12 + nameLen ≤ next ∧ next ≤ buf.length - offset))) := by
  unfold chainBroken
  by_cases hzero : next = 0
  · rw [if_pos hzero]
    exact congrArg Except.ok (by simp [hzero])
  · rw [if_neg hzero, Arith.add_of_lt (by omega), ok_bind]
    by_cases hshort : next < 12 + nameLen
    · rw [if_pos hshort]
      exact congrArg Except.ok (decide_eq_true (by omega)).symm
    · rw [if_neg hshort, Arith.sub_of_le hoffset, ok_bind]
      refine congrArg Except.ok (decide_eq_decide.mpr ?_)
      omega

/-- A round inside the buffer: it ends the loop at a malformed entry, adds the record of a well
formed one, and goes on where its chain leads. -/
theorem notifyRound_eq (hbuf : buf.length < 2 ^ 63) (hoffset : offset ≤ buf.length) :
    (¬ WellFormed (buf.drop offset) → notifyRound m buf offset = .ok (.stop [])) ∧
      (WellFormed (buf.drop offset) → notifyRound m buf offset =
        if nextEntryOffset (buf.drop offset) = 0 then
          .ok (.stop [notifyRecordAt (buf.drop offset)])
        else .ok (.next [notifyRecordAt (buf.drop offset)]
          (offset + nextEntryOffset (buf.drop offset)))) := by
  have hlen : (buf.drop offset).length = buf.length - offset := List.length_drop
  unfold notifyRound
  rw [Arith.sub_of_le hoffset, ok_bind]
  by_cases hheader : buf.length - offset < 12
  · rw [if_pos hheader]
    refine ⟨fun _ => rfl, fun hgood => ?_⟩
    have hhead := hgood.header
    omega
  · rw [if_neg hheader, checkedField_of_le hbuf (by omega), ok_bind,
      checkedField_of_le hbuf (by omega), ok_bind, checkedField_of_le hbuf (by omega), ok_bind]
    by_cases hodd : fieldAt (buf.drop offset) 8 4 % 2 ≠ 0
    · rw [if_pos hodd]
      exact ⟨fun _ => rfl, fun hgood => absurd hgood.even hodd⟩
    · rw [if_neg hodd, ok_bind, Arith.sub_of_le (by omega), ok_bind]
      by_cases hname : buf.length - offset - 12 < fieldAt (buf.drop offset) 8 4
      · rw [if_pos hname]
        refine ⟨fun _ => rfl, fun hgood => ?_⟩
        have hfits : 12 + fieldAt (buf.drop offset) 8 4 ≤ (buf.drop offset).length := hgood.name
        omega
      · rw [if_neg hname, chainBroken_eq hbuf hoffset (by omega), ok_bind]
        by_cases hchain : fieldAt (buf.drop offset) 0 4 = 0 ∨
            12 + fieldAt (buf.drop offset) 8 4 ≤ fieldAt (buf.drop offset) 0 4 ∧
              fieldAt (buf.drop offset) 0 4 ≤ buf.length - offset
        · have hgood : WellFormed (buf.drop offset) :=
            ⟨by omega, not_not.mp hodd, by unfold fileNameLength; omega, by rw [hlen]; exact hchain⟩
          refine ⟨fun hbad => absurd hgood hbad, fun _ => ?_⟩
          have hstop : offset + 12 + fieldAt (buf.drop offset) 8 4 - (offset + 12) =
              fieldAt (buf.drop offset) 8 4 := by omega
          rw [if_neg (by simp only [hchain, not_true, decide_false, Bool.false_eq_true,
            not_false_eq_true]), Arith.add_of_lt (by omega), ok_bind,
            Arith.add_of_lt (by omega), ok_bind, checkedRange_eq_take (by omega) (by omega), ok_bind,
            hstop, ← List.drop_drop]
          unfold nextEntryOffset
          by_cases hzero : fieldAt (buf.drop offset) 0 4 = 0
          · rw [if_pos hzero, if_pos hzero]
            rfl
          · have hnext : offset + fieldAt (buf.drop offset) 0 4 < 2 ^ 64 := by
              rcases hchain with h | h
              · exact absurd h hzero
              · omega
            rw [if_neg hzero, if_neg hzero, Arith.add_of_lt hnext]
            rfl
        · rw [if_pos (decide_eq_true hchain)]
          refine ⟨fun _ => rfl, fun hgood => absurd ?_ hchain⟩
          rw [← hlen]
          exact hgood.chain

/-- The parser returns what the chain reaches. -/
theorem parseNotifyRecords_follows (m : Arith) (hbuf : buf.length < 2 ^ 63) :
    ∃ records, Follows buf records ∧
      ∀ rounds, buf.length < rounds → parseNotifyRecords m buf rounds = some (.ok records) := by
  refine loopFrom_spec (I := fun offset => offset ≤ buf.length) (d := fun offset => buf.length - offset)
    (P := fun offset => Follows (buf.drop offset)) (fun offset hoffset => ?_) (Nat.zero_le _)
  obtain ⟨hbad, hgood⟩ := notifyRound_eq (m := m) hbuf hoffset
  by_cases hwell : WellFormed (buf.drop offset)
  · by_cases hzero : nextEntryOffset (buf.drop offset) = 0
    · refine .inl ⟨_, ?_, .last hwell hzero⟩
      rw [hgood hwell, if_pos hzero]
    · obtain ⟨hcover, hroom⟩ := hwell.chain.resolve_left hzero
      rw [List.length_drop] at hroom
      refine .inr ⟨_, _, by rw [hgood hwell, if_neg hzero], by omega, by omega, fun rest hrest => ?_⟩
      rw [← List.drop_drop] at hrest
      exact .next hwell hzero hrest
  · exact .inl ⟨[], hbad hwell, .malformed hwell⟩

end Round

/-! ### Records in a buffer -/

/-- A record with the padding that follows it; the lengths fit their fields. -/
structure NotifyEntry where
  action : ℕ
  name : String
  padding : Bytes
  action_lt : action < 2 ^ 32
  fits : 12 + (nameBytes name).length + padding.length < 2 ^ 32

namespace NotifyEntry

/-- What the entry takes up when another one follows. -/
def span (e : NotifyEntry) : ℕ := 12 + (nameBytes e.name).length + e.padding.length

/-- The entry, without padding. -/
def parts (e : NotifyEntry) (next : ℕ) : List Bytes :=
  [toLe 4 next, toLe 4 e.action, toLe 4 (nameBytes e.name).length, nameBytes e.name]

def bytes (e : NotifyEntry) (next : ℕ) : Bytes := (e.parts next).flatten

def record (e : NotifyEntry) : NotifyRecord := ⟨e.action, e.name⟩

end NotifyEntry

/-- Entries in a chain; the last one has no next entry. -/
def packEntries : List NotifyEntry → Bytes
  | [] => []
  | [e] => e.bytes 0
  | e :: e' :: rest => e.bytes e.span ++ (e.padding ++ packEntries (e' :: rest))

section Entries

variable {e : NotifyEntry} {next : ℕ}

theorem length_bytes (e : NotifyEntry) (next : ℕ) :
    (e.bytes next).length = 12 + (nameBytes e.name).length := by
  simp only [NotifyEntry.bytes, NotifyEntry.parts, List.flatten_cons, List.flatten_nil,
    List.length_append, length_toLe, List.length_nil]
  omega

theorem nextEntryOffset_bytes (hnext : next < 2 ^ 32) (rest : Bytes) :
    nextEntryOffset (e.bytes next ++ rest) = next :=
  fieldAt_parts (i := 0) rfl rfl hnext rest

theorem fileNameLength_bytes (rest : Bytes) :
    fileNameLength (e.bytes next ++ rest) = (nameBytes e.name).length := by
  have hfits := e.fits
  exact fieldAt_parts (i := 2) rfl rfl (by omega) rest

theorem notifyRecordAt_bytes (rest : Bytes) :
    notifyRecordAt (e.bytes next ++ rest) = e.record := by
  have haction : fieldAt (e.bytes next ++ rest) 4 4 = e.action :=
    fieldAt_parts (i := 1) rfl rfl e.action_lt rest
  have hpart : (e.parts next)[3]? = some (nameBytes e.name) := rfl
  have hname : (e.bytes next ++ rest).drop 12 = nameBytes e.name ++ ([] ++ rest) :=
    drop_parts hpart rfl rest
  rw [notifyRecordAt, haction, fileNameLength_bytes, hname, List.take_left, decodeName_nameBytes]
  rfl

/-- An entry is well formed when the distance to the next one covers it. -/
theorem wellFormed_bytes (hnext : next < 2 ^ 32) {rest : Bytes}
    (hchain : next = 0 ∨ 12 + (nameBytes e.name).length ≤ next ∧
      next ≤ 12 + (nameBytes e.name).length + rest.length) :
    WellFormed (e.bytes next ++ rest) := by
  have hlen : (e.bytes next ++ rest).length = 12 + (nameBytes e.name).length + rest.length := by
    rw [List.length_append, length_bytes]
  constructor
  · omega
  · rw [fileNameLength_bytes, length_nameBytes, Nat.mul_mod_right]
  · rw [fileNameLength_bytes, hlen]
    omega
  · rw [nextEntryOffset_bytes hnext, fileNameLength_bytes, hlen]
    exact hchain

/-- The chain reaches the entries that were laid out, whatever follows them. -/
theorem follows_packEntries (trailing : Bytes) {entries : List NotifyEntry} (hne : entries ≠ []) :
    Follows (packEntries entries ++ trailing) (entries.map NotifyEntry.record) := by
  induction entries with
  | nil => exact absurd rfl hne
  | cons e entries ih =>
    cases entries with
    | nil =>
      show Follows (e.bytes 0 ++ trailing) [e.record]
      rw [← notifyRecordAt_bytes (e := e) trailing]
      exact .last (wellFormed_bytes (by decide) (.inl rfl)) (nextEntryOffset_bytes (by decide) _)
    | cons e' rest =>
      show Follows (e.bytes e.span ++ (e.padding ++ packEntries (e' :: rest)) ++ trailing)
        (e.record :: (e' :: rest).map NotifyEntry.record)
      rw [List.append_assoc, List.append_assoc]
      have hspan : e.span < 2 ^ 32 := e.fits
      have hwell : WellFormed (e.bytes e.span ++
          (e.padding ++ (packEntries (e' :: rest) ++ trailing))) := by
        refine wellFormed_bytes hspan (.inr ?_)
        rw [List.length_append, NotifyEntry.span]
        omega
      have hnext := nextEntryOffset_bytes (e := e) hspan
        (e.padding ++ (packEntries (e' :: rest) ++ trailing))
      have hdrop : (e.bytes e.span ++ (e.padding ++ (packEntries (e' :: rest) ++ trailing))).drop
          e.span = packEntries (e' :: rest) ++ trailing := by
        have hlen : (e.bytes e.span ++ e.padding).length = e.span := by
          rw [List.length_append, length_bytes, NotifyEntry.span]
        rw [← List.append_assoc, List.drop_left' hlen]
      have hrecord := @notifyRecordAt_bytes e e.span
        (e.padding ++ (packEntries (e' :: rest) ++ trailing))
      rw [← hrecord]
      refine .next hwell ?_ ?_
      · rw [hnext, NotifyEntry.span]
        omega
      · rw [hnext, hdrop]
        exact ih (List.cons_ne_nil _ _)

end Entries

/-- **What `parse_notify_records` returns.**  No buffer makes it panic or run on; it returns
the records that the chain reaches, and those that were laid out in the buffer, whatever
follows them. -/
theorem parseNotifyRecords_spec (m : Arith) {buf : Bytes} (hbuf : buf.length < 2 ^ 63) :
    ∃ records, (∀ rounds, buf.length < rounds →
        parseNotifyRecords m buf rounds = some (.ok records)) ∧
      (∀ records', Follows buf records' ↔ records' = records) ∧
      ∀ entries trailing, entries ≠ [] → buf = packEntries entries ++ trailing →
        records = entries.map NotifyEntry.record := by
  obtain ⟨records, hfollows, hrun⟩ := parseNotifyRecords_follows m hbuf
  refine ⟨records, hrun, fun records' => ⟨fun h => h.unique hfollows, ?_⟩, ?_⟩
  · rintro rfl
    exact hfollows
  · rintro entries trailing hne rfl
    exact hfollows.unique (follows_packEntries trailing hne)

/-- A file that was created, with two bytes of padding, and its directory. -/
def createdEntries : List NotifyEntry :=
  [⟨1, "d\\a", [0, 0], by decide, by decide⟩, ⟨3, "d", [], by decide, by decide⟩]

theorem parseNotifyRecords_spec_created : ∃ records,
    (∀ rounds, 36 < rounds →
      parseNotifyRecords .checked (packEntries createdEntries ++ [7, 7]) rounds =
        some (.ok records)) ∧ records = [⟨1, "d\\a"⟩, ⟨3, "d"⟩] := by
  have hshort : (packEntries createdEntries ++ [7, 7]).length < 2 ^ 63 := by decide
  obtain ⟨records, hrun, -, hlaid⟩ := parseNotifyRecords_spec .checked hshort
  exact ⟨records, hrun, hlaid createdEntries [7, 7] (List.cons_ne_nil _ _) rfl⟩

end Corpus.Agent
