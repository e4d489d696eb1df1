/-
Recovery from the USN journal (`sensors/usn.rs`).

At startup the sensor compares its persisted cursor with the live journal, reads
forward from it and persists the position reached.  The position comes from the
headers of the pages, the verdict "something changed" from the records that could
be decoded.

* `parseUsnRecords`, `planResume`, `readJournal`, `checkDowntimeChanges` — the
  functions of the source; the answers of `DeviceIoControl` are bytes;
* `PackedRecord`, `Page` — what a journal puts into such an answer, with records of
  any version;
* `parse_pack` — of a page, exactly the leading records of version 2 are seen, and of
  these the ones whose name lies inside the record;
* `recovery_skips_nothing` — which runs pass over a record without reporting a change.
-/
import Corpus.Agent.World

namespace Corpus.Agent

/-! ### Integers in a buffer -/

/-- `i64::from_le_bytes`. -/
def i64At (buf : Bytes) (off : ℕ) : ℤ := Int.bmod (fieldAt buf off 8) (2 ^ 64)

theorem fieldAt_append {a : Bytes} (b : Bytes) {off n : ℕ} (h : off + n ≤ a.length) :
    fieldAt (a ++ b) off n = fieldAt a off n := by
  have hoff : off ≤ a.length := by omega
  have hn : n ≤ (a.drop off).length := by
    rw [List.length_drop]
    omega
  rw [fieldAt, List.drop_append_of_le_length hoff, List.take_append_of_le_length hn]
  rfl

theorem i64At_append {a : Bytes} (b : Bytes) {off : ℕ} (h : off + 8 ≤ a.length) :
    i64At (a ++ b) off = i64At a off := by
  unfold i64At
  rw [fieldAt_append b h]

/-! ### Records -/

/-- `UsnRecord`. -/
structure UsnRecord where
  usn : ℤ
  fileReference : ℕ
  parentReference : ℕ
  reason : ℕ
  fileName : String
  deriving DecidableEq

/-- `chunks_exact(2)`, each as a `u16`. -/
def wideChars : Bytes → List ℕ
  | a :: b :: rest => (a.toNat + 256 * b.toNat) :: wideChars rest
  | _ => []

/-- `String::from_utf16_lossy`: a surrogate that is not part of a pair is replaced. -/
def utf16Lossy : List ℕ → List Char
  | [] => []
  | u :: us =>
    if u < 0xD800 ∨ 0xE000 ≤ u then Char.ofNat u :: utf16Lossy us
    else
      match us with
      | [] => ['\uFFFD']
      | v :: vs =>
        if u < 0xDC00 ∧ 0xDC00 ≤ v ∧ v < 0xE000 then
          Char.ofNat (0x10000 + (u - 0xD800) * 0x400 + (v - 0xDC00)) :: utf16Lossy vs
        else '\uFFFD' :: utf16Lossy (v :: vs)

/-- The record at the start of a buffer, as `parse_usn_records` reads it. -/
def usnRecordAt (buf : Bytes) : UsnRecord where
  usn := i64At buf 24
  fileReference := fieldAt buf 8 8
  parentReference := fieldAt buf 16 8
  reason := fieldAt buf 40 4
  fileName := String.ofList
    (utf16Lossy (wideChars ((buf.drop (fieldAt buf 58 2)).take (fieldAt buf 56 2))))

/-- The loop of `parse_usn_records` on what is left of the buffer; `fuel` bounds it. -/
def parseFrom : ℕ → Bytes → List UsnRecord
  | 0, _ => []
  | fuel + 1, buf =>
    if buf.length < 60 then []
    else
      let recordLen := fieldAt buf 0 4
      if recordLen < 60 ∨ buf.length < recordLen then []
      else
        let major := fieldAt buf 4 2
        if major ≠ 2 then []
        else
          let rest := parseFrom fuel (buf.drop recordLen)
          let nameLen := fieldAt buf 56 2
          let nameOff := fieldAt buf 58 2
          if nameOff + nameLen ≤ recordLen then usnRecordAt buf :: rest else rest

/-- `parse_usn_records`; a record takes at least 60 bytes, so the length is fuel enough. -/
def parseUsnRecords (buf : Bytes) : List UsnRecord := parseFrom buf.length buf

/-! ### The decision -/

/-- `JournalInfo`. -/
structure JournalInfo where
  journalId : ℕ
  firstUsn : ℤ
  nextUsn : ℤ

/-- `parse_journal_data`. -/
def parseJournalData (buf : Bytes) : Option JournalInfo :=
  if buf.length < 24 then none else some ⟨fieldAt buf 0 8, i64At buf 8, i64At buf 16⟩

/-- A persisted cursor. -/
structure UsnCursor where
  journalId : ℕ
  nextUsn : ℤ
  deriving DecidableEq

/-- `ResumePlan`. -/
inductive ResumePlan where
  | initializeAt (journalId : ℕ) (nextUsn : ℤ)
  | resume (journalId : ℕ) (startUsn : ℤ)
  | reconcile (journalId : ℕ) (nextUsn : ℤ)

/-- `plan_resume`. -/
def planResume (cursor : Option UsnCursor) (journal : JournalInfo) : ResumePlan :=
  match cursor with
  | none => .initializeAt journal.journalId journal.nextUsn
  | some c =>
    if c.journalId = journal.journalId ∧ journal.firstUsn ≤ c.nextUsn ∧ c.nextUsn ≤ journal.nextUsn
    then .resume c.journalId c.nextUsn
    else .reconcile journal.journalId journal.nextUsn

/-- What Windows answers during one check, and which calls of the database fail.
`query` and `opens` are the two openings of the volume with the query of the first;
`reads` are the answers to `FSCTL_READ_JOURNAL` in the order of the calls, `none` for a
call that fails. -/
structure UsnIo where
  query : Option Bytes
  opens : Bool
  reads : ℕ → Option Bytes
  getFails : Bool
  setFails : Bool

/-- `MAX_PAGES`. -/
def maxPages : ℕ := 32

/-- The loop of `read_journal`, with `pages` iterations to come. -/
def readPages (reads : ℕ → Option Bytes) :
    ℕ → ℕ → ℤ → List UsnRecord → Option (ℤ × List UsnRecord)
  | 0, _, nextUsn, records => some (nextUsn, records)
  | pages + 1, k, nextUsn, records =>
    match reads k with
    | none => none
    | some out =>
      if out.length ≤ 8 then some (nextUsn, records)
      else
        let nextUsn := i64At out 0
        let page := parseUsnRecords (out.drop 8)
        if page.isEmpty then some (nextUsn, records)
        else readPages reads pages (k + 1) nextUsn (records ++ page)

/-- `read_journal`. -/
def readJournal (io : UsnIo) (startUsn : ℤ) : Option (ℤ × List UsnRecord) :=
  if io.opens then readPages io.reads maxPages 0 startUsn [] else none

/-- `DowntimeStatus`. -/
inductive DowntimeStatus where
  | unavailable
  | noChanges
  | changes
  | reconcileRequired
  deriving DecidableEq

/-- The cursors of the `identity` table, by volume. -/
abbrev UsnCursors := String → Option UsnCursor

/-- `volume_letter`, from the first component of the path. -/
def volumeLetter (first : Option String) : String :=
  match first with
  | some c => String.ofList (c.toList.reverse.dropWhile (· = ':')).reverse
  | none => "C"

/-- `get_usn_cursor(…).ok().flatten()`. -/
def getUsnCursor (io : UsnIo) (d : UsnCursors) (volume : String) : Option UsnCursor :=
  if io.getFails then none else d volume

/-- `set_usn_cursor`, an error of which is only logged. -/
def setUsnCursor (io : UsnIo) (d : UsnCursors) (volume : String) (c : UsnCursor) : UsnCursors :=
  if io.setFails then d else Function.update d volume (some c)

/-- `check_downtime_changes` for a root with the given first component. -/
def checkDowntimeChanges (io : UsnIo) (d : UsnCursors) (root : Option String) :
    DowntimeStatus × UsnCursors :=
  match io.query.bind parseJournalData with
  | none => (.unavailable, d)
  | some info =>
    let volume := volumeLetter root
    match planResume (getUsnCursor io d volume) info with
    | .initializeAt journalId nextUsn => (.noChanges, setUsnCursor io d volume ⟨journalId, nextUsn⟩)
    | .resume journalId startUsn =>
      if info.nextUsn ≤ startUsn then (.noChanges, d)
      else
        match readJournal io startUsn with
        | some (nextUsn, records) =>
          let d := setUsnCursor io d volume ⟨journalId, nextUsn⟩
          if records.isEmpty then (.noChanges, d) else (.changes, d)
        | none => (.unavailable, d)
    | .reconcile journalId nextUsn =>
      (.reconcileRequired, setUsnCursor io d volume ⟨journalId, nextUsn⟩)

/-! ### What a journal puts into a page -/

/-- A record as the journal packs it: its bytes begin with their own length and the
version.  Its USN is where version 2 keeps it; other versions keep it elsewhere. -/
structure PackedRecord where
  bytes : Bytes
  usn : ℤ
  header : 8 ≤ bytes.length
  recordLength : fieldAt bytes 0 4 = bytes.length
  usn_eq : fieldAt bytes 4 2 = 2 → 60 ≤ bytes.length → usn = i64At bytes 24

namespace PackedRecord

/-- The parser goes past the record. -/
def isV2 (r : PackedRecord) : Bool := fieldAt r.bytes 4 2 = 2 && decide (60 ≤ r.bytes.length)

/-- The name lies inside the record. -/
def nameFits (r : PackedRecord) : Bool :=
  decide (fieldAt r.bytes 58 2 + fieldAt r.bytes 56 2 ≤ r.bytes.length)

/-- The records as they lie in the buffer. -/
def pack (rs : List PackedRecord) : Bytes := (rs.map bytes).flatten

theorem usnRecordAt_append {r : PackedRecord} (h : 60 ≤ r.bytes.length) (hn : r.nameFits = true)
    (rest : Bytes) : usnRecordAt (r.bytes ++ rest) = usnRecordAt r.bytes := by
  have hfit : fieldAt r.bytes 58 2 + fieldAt r.bytes 56 2 ≤ r.bytes.length := of_decide_eq_true hn
  have hname : ((r.bytes ++ rest).drop (fieldAt r.bytes 58 2)).take (fieldAt r.bytes 56 2) =
      (r.bytes.drop (fieldAt r.bytes 58 2)).take (fieldAt r.bytes 56 2) := by
    rw [List.drop_append_of_le_length (by omega), List.take_append_of_le_length]
    rw [List.length_drop]
    omega
  unfold usnRecordAt
  rw [i64At_append rest (by omega), fieldAt_append rest (by omega), fieldAt_append rest (by omega),
    fieldAt_append rest (by omega), fieldAt_append rest (by omega), fieldAt_append rest (by omega),
    hname]

/-- **What the parser sees of packed records**: of the leading records of version 2,
those whose name lies inside. -/
theorem parse_pack (rs : List PackedRecord) : parseUsnRecords (pack rs) =
    ((rs.takeWhile isV2).filter nameFits).map fun r => usnRecordAt r.bytes := by
  suffices h : ∀ (rs : List PackedRecord) (fuel : ℕ), (pack rs).length ≤ fuel →
      parseFrom fuel (pack rs) =
        ((rs.takeWhile isV2).filter nameFits).map fun r => usnRecordAt r.bytes from
    h rs _ (Nat.le_refl _)
  intro rs
  induction rs with
  | nil =>
    intro fuel _
    cases fuel <;> rfl
  | cons r rs ih =>
    intro fuel hfuel
    have hpack : pack (r :: rs) = r.bytes ++ pack rs := rfl
    have hlen : (r.bytes ++ pack rs).length = r.bytes.length + (pack rs).length :=
      List.length_append
    have hheader := r.header
    rw [hpack, hlen] at hfuel
    rw [hpack]
    obtain ⟨fuel, rfl⟩ : ∃ n, fuel = n + 1 := ⟨fuel - 1, by omega⟩
    have hrl : fieldAt (r.bytes ++ pack rs) 0 4 = r.bytes.length := by
      rw [fieldAt_append _ (by omega), r.recordLength]
    have hmajor : fieldAt (r.bytes ++ pack rs) 4 2 = fieldAt r.bytes 4 2 :=
      fieldAt_append _ (by omega)
    simp only [parseFrom, hrl, hmajor]
    by_cases h60 : 60 ≤ r.bytes.length
    · rw [if_neg (by omega), if_neg (by omega)]
      by_cases hv : fieldAt r.bytes 4 2 = 2
      · have hv2 : r.isV2 = true := by simp [isV2, hv, h60]
        rw [if_neg (not_not.mpr hv), List.drop_left, ih fuel (by omega),
          fieldAt_append _ (by omega), fieldAt_append _ (by omega), List.takeWhile_cons_of_pos hv2]
        by_cases hn : r.nameFits = true
        · rw [if_pos (of_decide_eq_true hn), List.filter_cons_of_pos hn, List.map_cons,
            usnRecordAt_append h60 hn]
        · rw [if_neg (fun h => hn (decide_eq_true h)), List.filter_cons_of_neg hn]
      · have hv2 : ¬ r.isV2 = true := by simp [isV2, hv]
        rw [if_pos hv, List.takeWhile_cons_of_neg hv2]
        rfl
    · -- too short for the parser, whatever follows in the buffer
      have hv2 : ¬ r.isV2 = true := by simp [isV2, h60]
      rw [List.takeWhile_cons_of_neg hv2]
      split
      · rfl
      · rw [if_pos (.inl (by omega))]
        rfl

end PackedRecord

/-- An answer to `FSCTL_READ_JOURNAL`: the USN to go on from, and records. -/
structure Page where
  header : Bytes
  header_length : header.length = 8
  records : List PackedRecord

namespace Page

def nextUsn (p : Page) : ℤ := i64At p.header 0

def output (p : Page) : Bytes := p.header ++ PackedRecord.pack p.records

/-- Some record of the page is seen. -/
def Seen (p : Page) : Prop := ∃ r ∈ p.records.takeWhile PackedRecord.isV2, r.nameFits = true

theorem length_output_le {p : Page} : p.output.length ≤ 8 ↔ p.records = [] := by
  rw [output, List.length_append, p.header_length]
  cases hrs : p.records with
  | nil => exact iff_of_true (Nat.le_refl _) rfl
  | cons r rs =>
    have hlen : (PackedRecord.pack (r :: rs)).length =
        r.bytes.length + (PackedRecord.pack rs).length := List.length_append
    have := r.header
    rw [hlen]
    exact iff_of_false (by omega) (List.cons_ne_nil _ _)

theorem i64At_output (p : Page) : i64At p.output 0 = p.nextUsn :=
  i64At_append _ (by rw [p.header_length])

theorem parse_output (p : Page) : (parseUsnRecords (p.output.drop 8)).isEmpty = true ↔ ¬p.Seen := by
  have hdrop : p.output.drop 8 = PackedRecord.pack p.records := by
    rw [output, ← p.header_length, List.drop_left]
  rw [hdrop, PackedRecord.parse_pack, List.isEmpty_iff, List.map_eq_nil_iff,
    List.filter_eq_nil_iff]
  unfold Seen
  push Not
  exact Iff.rfl

end Page

/-- The answers to one check, with the journal as a sequence of pages. -/
structure JournalAnswers where
  query : Option Bytes
  opens : Bool
  pages : ℕ → Option Page

namespace JournalAnswers

/-- The records of the journal. -/
def Holds (j : JournalAnswers) (r : PackedRecord) : Prop := ∃ k p, j.pages k = some p ∧ r ∈ p.records

/-- The answers as the check gets them. -/
def io (j : JournalAnswers) (getFails setFails : Bool) : UsnIo :=
  ⟨j.query, j.opens, fun k => (j.pages k).map Page.output, getFails, setFails⟩

end JournalAnswers

/-! ### What the loop returns -/

/-- Records once read are returned with the rest. -/
theorem readPages_ne_nil {reads : ℕ → Option Bytes} :
    ∀ {pages k : ℕ} {start next : ℤ} {records out : List UsnRecord}, records ≠ [] →
      readPages reads pages k start records = some (next, out) → out ≠ [] := by
  intro pages
  induction pages with
  | zero =>
    intro k start next records out hne h
    obtain ⟨-, rfl⟩ := Prod.mk.inj (Option.some.inj h)
    exact hne
  | succ pages ih =>
    intro k start next records out hne h
    unfold readPages at h
    split at h
    · cases h
    · split at h
      · obtain ⟨-, rfl⟩ := Prod.mk.inj (Option.some.inj h)
        exact hne
      · dsimp only at h
        split at h
        · obtain ⟨-, rfl⟩ := Prod.mk.inj (Option.some.inj h)
          exact hne
        · refine ih (fun hnil => hne ?_) h
          exact (List.append_eq_nil_iff.mp hnil).1

/-- When a read of the journal returns no records, the first page decides how far the
cursor moves: it stays where it was, or goes to the header of a page of which no record
is seen. -/
theorem readJournal_nil {j : JournalAnswers} {getFails setFails : Bool} {start next : ℤ}
    (h : readJournal (j.io getFails setFails) start = some (next, [])) : j.opens = true ∧
      ∃ p, j.pages 0 = some p ∧
        (p.records = [] ∧ next = start ∨ p.records ≠ [] ∧ ¬p.Seen ∧ next = p.nextUsn) := by
  unfold readJournal at h
  split at h
  · next hopens =>
    refine ⟨hopens, ?_⟩
    unfold maxPages readPages at h
    split at h
    · cases h
    · next out hout =>
      obtain ⟨p, hp, rfl⟩ := Option.map_eq_some_iff.mp hout
      refine ⟨p, hp, ?_⟩
      split at h
      · next hlen =>
        obtain ⟨rfl, -⟩ := Prod.mk.inj (Option.some.inj h)
        exact .inl ⟨Page.length_output_le.mp hlen, rfl⟩
      · next hlen =>
        have hne : p.records ≠ [] := fun hnil => hlen (Page.length_output_le.mpr hnil)
        dsimp only at h
        split at h
        · next hempty =>
          obtain ⟨rfl, -⟩ := Prod.mk.inj (Option.some.inj h)
          exact .inr ⟨hne, p.parse_output.mp hempty, p.i64At_output⟩
        · next hpage =>
          refine absurd rfl (readPages_ne_nil (fun hnil => hpage ?_) h)
          rw [List.nil_append] at hnil
          rw [hnil]
          rfl
  · cases h

/-- A first page of which no record is seen ends the read. -/
theorem readJournal_unseen {j : JournalAnswers} {getFails setFails : Bool} {start : ℤ} {p : Page}
    (hopens : j.opens = true) (hp : j.pages 0 = some p) (hne : p.records ≠ []) (hseen : ¬p.Seen) :
    readJournal (j.io getFails setFails) start = some (p.nextUsn, []) := by
  have hread : (j.io getFails setFails).reads 0 = some p.output := by
    show (j.pages 0).map Page.output = _
    rw [hp]
    rfl
  have hlen : ¬ p.output.length ≤ 8 := fun h => hne (Page.length_output_le.mp h)
  unfold readJournal maxPages readPages
  rw [if_pos (show (j.io getFails setFails).opens = true from hopens), hread]
  simp only [if_neg hlen, if_pos (p.parse_output.mpr hseen), p.i64At_output]

/-! ### Recovery -/

/-- A record at or after the cursor `before` lies before the cursor `after`. -/
def Passed (before after : Option UsnCursor) (r : PackedRecord) : Prop :=
  ∃ c c', before = some c ∧ after = some c' ∧ c.nextUsn ≤ r.usn ∧ r.usn < c'.nextUsn

/-- The outcome of a check skips nothing: whoever moved the cursor past a record said so. -/
def SkipsNothing (j : JournalAnswers) (volume : String) (d : UsnCursors)
    (res : DowntimeStatus × UsnCursors) : Prop :=
  (∀ r, j.Holds r → Passed (d volume) (res.2 volume) r →
    res.1 = .changes ∨ res.1 = .reconcileRequired) ∧
  (res.1 = .unavailable → res.2 = d)

/-- The journal has no record between two positions. -/
def NothingBetween (j : JournalAnswers) (a b : ℤ) : Prop :=
  ∀ r, j.Holds r → a ≤ r.usn → b ≤ r.usn

/-- What it takes, where there is a cursor and the new one can be stored.  A cursor that
cannot be read is taken for none, and the journal's end is stored; a cursor that is
continuous with the journal is moved to the header of the first page, even when that
page has records and none is seen. -/
def RecoveryOk (j : JournalAnswers) (getFails setFails : Bool) (cursor : Option UsnCursor) : Prop :=
  ∀ c info, cursor = some c → setFails = false → j.query.bind parseJournalData = some info →
    (getFails = true → NothingBetween j c.nextUsn info.nextUsn) ∧
    (getFails = false → c.journalId = info.journalId → info.firstUsn ≤ c.nextUsn →
      c.nextUsn < info.nextUsn → j.opens = true → ∀ p, j.pages 0 = some p → p.records ≠ [] →
        p.Seen ∨ NothingBetween j c.nextUsn p.nextUsn)

theorem setUsnCursor_self {io : UsnIo} {d : UsnCursors} {volume : String} {c : UsnCursor}
    (h : io.setFails = false) : setUsnCursor io d volume c volume = some c := by
  rw [setUsnCursor, h, if_neg Bool.false_ne_true, Function.update_self]

/-- A cursor that stays where it is passes nothing. -/
theorem not_passed_self {o : Option UsnCursor} {r : PackedRecord} : ¬Passed o o r := by
  rintro ⟨c, c', rfl, heq, hle, hlt⟩
  obtain rfl := Option.some.inj heq
  omega

theorem setUsnCursor_of_fails {io : UsnIo} {d : UsnCursors} {volume : String} {c : UsnCursor}
    (h : io.setFails = true) : setUsnCursor io d volume c = d := by
  rw [setUsnCursor, h, if_pos rfl]

/-- A check that reports no changes skips nothing iff no record lies between the old
cursor and the one that it stored. -/
theorem skipsNothing_noChanges {j : JournalAnswers} {getFails setFails : Bool} {volume : String}
    {d : UsnCursors} {journalId : ℕ} {next : ℤ} :
    SkipsNothing j volume d
        (.noChanges, setUsnCursor (j.io getFails setFails) d volume ⟨journalId, next⟩) ↔
      ∀ c, d volume = some c → setFails = false → NothingBetween j c.nextUsn next := by
  constructor
  · intro hs c hc hset r hr hle
    by_contra hlt
    have hpassed : Passed (d volume)
        (setUsnCursor (j.io getFails setFails) d volume ⟨journalId, next⟩ volume) r :=
      ⟨c, _, hc, setUsnCursor_self hset, hle, by show r.usn < next; omega⟩
    rcases hs.1 r hr hpassed with h | h <;> cases h
  · intro hn
    refine ⟨fun r hr hpassed => ?_, nofun⟩
    exfalso
    cases hset : setFails with
    | true =>
      rw [hset] at hpassed
      rw [setUsnCursor_of_fails rfl] at hpassed
      exact not_passed_self hpassed
    | false =>
      obtain ⟨c, c', hc, hc', hle, hlt⟩ := hpassed
      have hstored : setUsnCursor (j.io getFails setFails) d volume ⟨journalId, next⟩ volume =
          some ⟨journalId, next⟩ := setUsnCursor_self hset
      obtain rfl := Option.some.inj (hstored.symm.trans hc')
      have : next ≤ r.usn := hn c hc hset r hr hle
      have : r.usn < next := hlt
      omega

theorem skipsNothing_of_status {j : JournalAnswers} {volume : String} {d d' : UsnCursors}
    {st : DowntimeStatus} (h : st = .changes ∨ st = .reconcileRequired) :
    SkipsNothing j volume d (st, d') := by
  refine ⟨fun _ _ _ => h, ?_⟩
  rintro rfl
  rcases h with h | h <;> cases h

theorem skipsNothing_self {j : JournalAnswers} {volume : String} {d : UsnCursors}
    (st : DowntimeStatus) : SkipsNothing j volume d (st, d) :=
  ⟨fun _ _ hp => absurd hp not_passed_self, fun _ => rfl⟩

/-- A check that reads on from the cursor. -/
theorem skipsNothing_resume {j : JournalAnswers} {getFails setFails : Bool} {volume : String}
    {d : UsnCursors} {journalId : ℕ} {c : UsnCursor} (hc : d volume = some c) :
    SkipsNothing j volume d
        (match readJournal (j.io getFails setFails) c.nextUsn with
        | some (nextUsn, records) =>
          let d := setUsnCursor (j.io getFails setFails) d volume ⟨journalId, nextUsn⟩
          if records.isEmpty then (.noChanges, d) else (.changes, d)
        | none => (.unavailable, d)) ↔
      (setFails = false → j.opens = true → ∀ p, j.pages 0 = some p → p.records ≠ [] →
        p.Seen ∨ NothingBetween j c.nextUsn p.nextUsn) := by
  -- whatever else was read, a first page of which nothing is seen ends the read
  have hunseen : ∀ p, j.opens = true → j.pages 0 = some p → p.records ≠ [] → ¬p.Seen →
      readJournal (j.io getFails setFails) c.nextUsn = some (p.nextUsn, []) :=
    fun p hopens hp hne hseen => readJournal_unseen hopens hp hne hseen
  cases hread : readJournal (j.io getFails setFails) c.nextUsn with
  | none =>
    refine iff_of_true (skipsNothing_self _) fun _ hopens p hp hne => ?_
    by_contra hno
    have := hunseen p hopens hp hne fun h => hno (.inl h)
    rw [hread] at this
    cases this
  | some res =>
    obtain ⟨next, records⟩ := res
    cases records with
    | cons r records =>
      refine iff_of_true (skipsNothing_of_status (.inl rfl)) fun _ hopens p hp hne => ?_
      by_contra hno
      have := hread.symm.trans (hunseen p hopens hp hne fun h => hno (.inl h))
      exact List.cons_ne_nil _ _ (Prod.mk.inj (Option.some.inj this)).2
    | nil =>
      show SkipsNothing j volume d (.noChanges, setUsnCursor _ d volume ⟨journalId, next⟩) ↔ _
      rw [skipsNothing_noChanges]
      obtain ⟨hopens, p, hp, hnext⟩ := readJournal_nil hread
      constructor
      · intro hn hset _ p' hp' hne'
        obtain rfl := Option.some.inj (hp.symm.trans hp')
        rcases hnext with ⟨hnil, -⟩ | ⟨-, -, heq⟩
        · exact absurd hnil hne'
        · exact .inr (heq ▸ hn c hc hset)
      · intro hn c' hc' hset
        obtain rfl := Option.some.inj (hc.symm.trans hc')
        rcases hnext with ⟨-, heq⟩ | ⟨hne, hseen, heq⟩
        · rw [heq]
          exact fun _ _ h => h
        · rw [heq]
          exact (hn hset hopens p hp hne).resolve_left hseen

/-- **Which checks skip nothing.**  A check leaves the cursor alone when the journal is
unavailable, and reports every record it moves the cursor past, iff it meets
`RecoveryOk`. -/
theorem recovery_skips_nothing (j : JournalAnswers) (getFails setFails : Bool) (d : UsnCursors)
    (root : Option String) :
    SkipsNothing j (volumeLetter root) d
        (checkDowntimeChanges (j.io getFails setFails) d root) ↔
      RecoveryOk j getFails setFails (d (volumeLetter root)) := by
  unfold checkDowntimeChanges
  have hquery : (j.io getFails setFails).query = j.query := rfl
  rw [hquery]
  unfold RecoveryOk
  cases hinfo : j.query.bind parseJournalData with
  | none => exact iff_of_true (skipsNothing_self _) fun _ _ _ _ h => nomatch h
  | some info =>
    have hset : (j.io getFails setFails).getFails = getFails := rfl
    cases getFails with
    | true =>
      -- taken for a volume without a cursor
      show SkipsNothing j (volumeLetter root) d (.noChanges, _) ↔ _
      rw [skipsNothing_noChanges]
      constructor
      · intro h c info' hc hset hinfo'
        obtain rfl := Option.some.inj hinfo'
        exact ⟨fun _ => h c hc hset, nofun⟩
      · intro h c hc hset
        exact (h c info hc hset rfl).1 rfl
    | false =>
      show SkipsNothing j (volumeLetter root) d
        (match planResume (d (volumeLetter root)) info with
        | .initializeAt journalId nextUsn => _
        | .resume journalId startUsn => _
        | .reconcile journalId nextUsn => _) ↔ _
      cases hd : d (volumeLetter root) with
      | none =>
        refine iff_of_true (skipsNothing_noChanges.mpr fun c hc => ?_) fun _ _ h => nomatch h
        rw [hd] at hc
        cases hc
      | some c =>
        simp only [planResume]
        by_cases hcont : c.journalId = info.journalId ∧ info.firstUsn ≤ c.nextUsn ∧
            c.nextUsn ≤ info.nextUsn
        · rw [if_pos hcont]
          dsimp only
          obtain ⟨hid, hfirst, hle⟩ := hcont
          split
          · -- nothing was written since
            next hend =>
            refine iff_of_true (skipsNothing_self _) fun c' info' hc' _ hinfo' => ?_
            obtain rfl := Option.some.inj hc'
            obtain rfl := Option.some.inj hinfo'
            exact ⟨nofun, fun _ _ _ hlt => absurd hlt (by omega)⟩
          · next hend =>
            rw [skipsNothing_resume hd]
            constructor
            · intro h c' info' hc' hset hinfo'
              obtain rfl := Option.some.inj hc'
              exact ⟨nofun, fun _ _ _ _ hopens => h hset hopens⟩
            · intro h hset hopens
              exact (h c info rfl hset rfl).2 trivial hid hfirst (by omega) hopens
        · rw [if_neg hcont]
          refine iff_of_true (skipsNothing_of_status (.inr rfl)) fun c' info' hc' _ hinfo' => ?_
          obtain rfl := Option.some.inj hc'
          obtain rfl := Option.some.inj hinfo'
          exact ⟨nofun, fun _ hid hfirst hlt => absurd ⟨hid, hfirst, by omega⟩ hcont⟩

/-- A record of version 3, which keeps its USN (200) in the eight bytes from 40 on. -/
def recordV3 : PackedRecord where
  bytes := [80, 0, 0, 0, 3, 0, 0, 0] ++ List.replicate 32 0 ++ [200, 0, 0, 0, 0, 0, 0, 0] ++
    List.replicate 32 0
  usn := 200
  header := by decide
  recordLength := by decide
  usn_eq := by decide

/-- A journal whose records from 100 to 300 are one record of version 3. -/
def journalV3 : JournalAnswers where
  query := some ([7, 0, 0, 0, 0, 0, 0, 0] ++ List.replicate 8 0 ++ [44, 1, 0, 0, 0, 0, 0, 0])
  opens := true
  pages _ := some ⟨[44, 1, 0, 0, 0, 0, 0, 0], rfl, [recordV3]⟩

/-- The volume is at 100 of that journal. -/
def cursorAt100 : UsnCursors := fun volume => if volume = "C" then some ⟨7, 100⟩ else none

/-- The cursor passes the record, and no change is reported. -/
theorem recordV3_skipped : ¬ ∀ j getFails setFails d root,
    SkipsNothing j (volumeLetter root) d (checkDowntimeChanges (j.io getFails setFails) d root) := by
  intro h
  have hrun := h journalV3 false false cursorAt100 none
  have hstatus : (checkDowntimeChanges (journalV3.io false false) cursorAt100 none).1 =
      .noChanges := by decide +kernel
  have hcursor : (checkDowntimeChanges (journalV3.io false false) cursorAt100 none).2
      (volumeLetter none) = some ⟨7, 300⟩ := by decide +kernel
  have hholds : journalV3.Holds recordV3 := ⟨0, _, rfl, List.mem_singleton_self _⟩
  have hpassed := hrun.1 recordV3 hholds ⟨⟨7, 100⟩, _, rfl, hcursor, by decide, by decide⟩
  rw [hstatus] at hpassed
  rcases hpassed with h | h <;> cases h

end Corpus.Agent
