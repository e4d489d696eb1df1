/-
Records of the USN journal in a buffer (`parse_usn_records` in `sensors/usn.rs`).

* `parseUsnRecordsChecked` — the function of the source, with its operations that may panic;
* `parseUsnRecordsChecked_eq` — it never panics, and agrees with `parseUsnRecords`;
* `UsnEntry`, `packUsn` — a `USN_RECORD_V2` and its layout, and a list of them;
* `parseUsnRecords_spec` — packed records are read again, also when the last is cut.
-/
import Corpus.Agent.Buffers

namespace Corpus.Agent

open Checked

/-- What a record of version 2 adds to the output. -/
def usnFound (m : Arith) (buf : Bytes) (offset recordLen : ℕ) : Checked (List UsnRecord) := do
  let fileReference ← checkedField m buf offset 8 8
  let parentReference ← checkedField m buf offset 16 8
  let usn ← checkedField m buf offset 24 8
  let reason ← checkedField m buf offset 40 4
  let nameLen ← checkedField m buf offset 56 2
  let nameOff ← checkedField m buf offset 58 2
  let nameEnd ← m.add 64 nameOff nameLen
  if nameEnd ≤ recordLen then do
    let start ← m.add 64 offset nameOff
    let stop ← m.add 64 start nameLen
    let wide ← checkedRange buf start stop
    return [⟨Int.bmod usn (2 ^ 64), fileReference, parentReference, reason, decodeName wide⟩]
  else return []

/-- A round of `parse_usn_records`. -/
def usnRound (m : Arith) (buf : Bytes) (offset : ℕ) : Checked (Round ℕ UsnRecord) := do
  let least ← m.add 64 offset 60
  if buf.length < least then return .stop []
  else do
    let recordLen ← checkedField m buf offset 0 4
    if recordLen < 60 then return .stop []
    else do
      let stop ← m.add 64 offset recordLen
      if buf.length < stop then return .stop []
      else do
        let major ← checkedField m buf offset 4 2
        if major ≠ 2 then return .stop []
        else do
          let found ← usnFound m buf offset recordLen
          let next ← m.add 64 offset recordLen
          return .next found next

/-- `parse_usn_records`, in so many rounds. -/
def parseUsnRecordsChecked (m : Arith) (buf : Bytes) (rounds : ℕ) :
    Option (Checked (List UsnRecord)) :=
  loopFrom (usnRound m buf) rounds 0

section Parser

variable {m : Arith} {buf : Bytes} {offset : ℕ}

theorem parseFrom_of_le (fuel : ℕ) : ∀ fuel' (buf : Bytes), buf.length ≤ fuel → fuel ≤ fuel' →
    parseFrom fuel' buf = parseFrom fuel buf := by
  induction fuel with
  | zero =>
    intro fuel' buf hbuf _
    obtain rfl := List.length_eq_zero_iff.mp (Nat.le_zero.mp hbuf)
    cases fuel' <;> rfl
  | succ fuel ih =>
    intro fuel' buf hbuf hle
    obtain ⟨fuel', rfl⟩ : ∃ n, fuel' = n + 1 := ⟨fuel' - 1, by omega⟩
    unfold parseFrom
    by_cases hshort : buf.length < 60
    · rw [if_pos hshort, if_pos hshort]
    · rw [if_neg hshort, if_neg hshort]
      dsimp only
      by_cases hlen : fieldAt buf 0 4 < 60 ∨ buf.length < fieldAt buf 0 4
      · rw [if_pos hlen, if_pos hlen]
      · have hrest : (buf.drop (fieldAt buf 0 4)).length ≤ fuel := by
          rw [List.length_drop]
          omega
        rw [if_neg hlen, if_neg hlen, ih fuel' _ hrest (by omega)]

/-- The record at the start of a buffer, if its name lies in it. -/
def usnRecords (buf : Bytes) : List UsnRecord :=
  if fieldAt buf 58 2 + fieldAt buf 56 2 ≤ fieldAt buf 0 4 then [usnRecordAt buf] else []

/-- The parser stops at the start of the buffer. -/
def UsnStops (buf : Bytes) : Prop :=
  buf.length < 60 ∨ fieldAt buf 0 4 < 60 ∨ buf.length < fieldAt buf 0 4 ∨ fieldAt buf 4 2 ≠ 2

theorem parseUsnRecords_stop (h : UsnStops buf) : parseUsnRecords buf = [] := by
  unfold parseUsnRecords
  cases hlen : buf.length with
  | zero => rfl
  | succ fuel =>
    unfold parseFrom
    rw [hlen]
    split
    · rfl
    · dsimp only
      split
      · rfl
      · rw [if_pos]
        have hstops : buf.length < 60 ∨ fieldAt buf 0 4 < 60 ∨ buf.length < fieldAt buf 0 4 ∨
          fieldAt buf 4 2 ≠ 2 := h
        rw [hlen] at hstops
        omega

theorem parseUsnRecords_next (h : ¬ UsnStops buf) :
    parseUsnRecords buf = usnRecords buf ++ parseUsnRecords (buf.drop (fieldAt buf 0 4)) := by
  unfold UsnStops at h
  push Not at h
  obtain ⟨h60, hlen, hfits, hmajor⟩ := h
  have hrest : parseFrom (buf.length - 1) (buf.drop (fieldAt buf 0 4)) =
      parseUsnRecords (buf.drop (fieldAt buf 0 4)) := by
    refine parseFrom_of_le _ _ _ (Nat.le_refl _) ?_
    rw [List.length_drop]
    omega
  obtain ⟨fuel, hfuel⟩ : ∃ n, buf.length = n + 1 := ⟨buf.length - 1, by omega⟩
  have hpred : buf.length - 1 = fuel := by omega
  rw [hpred] at hrest
  unfold usnRecords
  rw [parseUsnRecords, hfuel, parseFrom, if_neg (by omega)]
  dsimp only
  rw [if_neg (by omega), if_neg (not_not.mpr hmajor), hrest]
  split <;> rfl

theorem usnFound_eq (hbuf : buf.length < 2 ^ 63) {recordLen : ℕ} (h60 : 60 ≤ recordLen)
    (hfits : offset + recordLen ≤ buf.length)
    (hlen : fieldAt (buf.drop offset) 0 4 = recordLen) :
    usnFound m buf offset recordLen = .ok (usnRecords (buf.drop offset)) := by
  have hname := fieldAt_lt (buf.drop offset) 56 2
  have hoff := fieldAt_lt (buf.drop offset) 58 2
  unfold usnFound usnRecords
  rw [checkedField_of_le hbuf (by omega), ok_bind, checkedField_of_le hbuf (by omega), ok_bind,
    checkedField_of_le hbuf (by omega), ok_bind, checkedField_of_le hbuf (by omega), ok_bind,
    checkedField_of_le hbuf (by omega), ok_bind, checkedField_of_le hbuf (by omega), ok_bind,
    Arith.add_of_lt (by omega), ok_bind, hlen]
  split
  · next hin =>
    have hstop : offset + fieldAt (buf.drop offset) 58 2 + fieldAt (buf.drop offset) 56 2 -
        (offset + fieldAt (buf.drop offset) 58 2) = fieldAt (buf.drop offset) 56 2 := by omega
    rw [Arith.add_of_lt (by omega), ok_bind, Arith.add_of_lt (by omega), ok_bind,
      checkedRange_eq_take (by omega) (by omega), ok_bind, hstop, ← List.drop_drop]
    rfl
  · rfl

/-- A round inside the buffer. -/
theorem usnRound_eq (hbuf : buf.length < 2 ^ 63) (hoffset : offset ≤ buf.length) :
    (UsnStops (buf.drop offset) → usnRound m buf offset = .ok (.stop [])) ∧
      (¬ UsnStops (buf.drop offset) → usnRound m buf offset =
        .ok (.next (usnRecords (buf.drop offset)) (offset + fieldAt (buf.drop offset) 0 4))) := by
  have hlen : (buf.drop offset).length = buf.length - offset := List.length_drop
  have hrecord := fieldAt_lt (buf.drop offset) 0 4
  unfold usnRound UsnStops
  rw [Arith.add_of_lt (by omega), ok_bind, hlen]
  by_cases h60 : buf.length < offset + 60
  · rw [if_pos h60]
    exact ⟨fun _ => rfl, fun h => absurd (.inl (by omega)) h⟩
  · rw [if_neg h60, checkedField_of_le hbuf (by omega), ok_bind]
    by_cases hshort : fieldAt (buf.drop offset) 0 4 < 60
    · rw [if_pos hshort]
      exact ⟨fun _ => rfl, fun h => absurd (.inr (.inl hshort)) h⟩
    · rw [if_neg hshort, Arith.add_of_lt (by omega), ok_bind]
      by_cases hfits : buf.length < offset + fieldAt (buf.drop offset) 0 4
      · rw [if_pos hfits]
        exact ⟨fun _ => rfl, fun h => absurd (.inr (.inr (.inl (by omega)))) h⟩
      · rw [if_neg hfits, checkedField_of_le hbuf (by omega), ok_bind]
        by_cases hmajor : fieldAt (buf.drop offset) 4 2 ≠ 2
        · rw [if_pos hmajor]
          exact ⟨fun _ => rfl, fun h => absurd (.inr (.inr (.inr hmajor))) h⟩
        · rw [if_neg hmajor, usnFound_eq hbuf (by omega) (by omega) rfl, ok_bind]
          refine ⟨fun h => ?_, fun _ => rfl⟩
          rcases h with h | h | h | h
          · omega
          · exact absurd h hshort
          · omega
          · exact absurd h hmajor

/-- `parse_usn_records` never panics, and returns what `parseUsnRecords` does. -/
theorem parseUsnRecordsChecked_eq (m : Arith) (hbuf : buf.length < 2 ^ 63) {rounds : ℕ}
    (hrounds : buf.length < rounds) :
    parseUsnRecordsChecked m buf rounds = some (.ok (parseUsnRecords buf)) := by
  have hloop : ∃ records, records = parseUsnRecords (buf.drop 0) ∧ ∀ rounds, buf.length - 0 < rounds →
      parseUsnRecordsChecked m buf rounds = some (.ok records) := by
    refine loopFrom_spec (I := fun offset => offset ≤ buf.length)
      (d := fun offset => buf.length - offset)
      (P := fun offset records => records = parseUsnRecords (buf.drop offset))
      (fun offset hoffset => ?_) (Nat.zero_le _)
    obtain ⟨hstop, hnext⟩ := usnRound_eq (m := m) hbuf hoffset
    by_cases h : UsnStops (buf.drop offset)
    · exact .inl ⟨[], hstop h, (parseUsnRecords_stop h).symm⟩
    · have hin : 60 ≤ fieldAt (buf.drop offset) 0 4 ∧
          fieldAt (buf.drop offset) 0 4 ≤ buf.length - offset := by
        unfold UsnStops at h
        rw [List.length_drop] at h
        omega
      refine .inr ⟨_, _, hnext h, by omega, by omega, fun rest hrest => ?_⟩
      rw [hrest, parseUsnRecords_next h, List.drop_drop]
  obtain ⟨records, rfl, hrun⟩ := hloop
  exact hrun rounds hrounds

end Parser

/-! ### Packed records -/

/-- A `USN_RECORD_V2`.  `timeStamp`, `info` (source, security and attributes) and what lies
before and after the name are not read. -/
structure UsnEntry where
  fileReference : ℕ
  parentReference : ℕ
  usn : ℤ
  reason : ℕ
  name : String
  minor : ℕ
  timeStamp : Bytes
  info : Bytes
  gap : Bytes
  padding : Bytes
  fileReference_lt : fileReference < 2 ^ 64
  parentReference_lt : parentReference < 2 ^ 64
  usn_range : -2 ^ 63 ≤ usn ∧ usn < 2 ^ 63
  reason_lt : reason < 2 ^ 32
  length_timeStamp : timeStamp.length = 8
  length_info : info.length = 12
  nameOff_lt : 60 + gap.length < 2 ^ 16
  nameLen_lt : (nameBytes name).length < 2 ^ 16
  recordLen_lt : 60 + gap.length + (nameBytes name).length + padding.length < 2 ^ 32

namespace UsnEntry

variable (e : UsnEntry)

/-- `RecordLength`. -/
def recordLen : ℕ := 60 + e.gap.length + (nameBytes e.name).length + e.padding.length

def parts : List Bytes :=
  [toLe 4 e.recordLen, toLe 2 2, toLe 2 e.minor, toLe 8 e.fileReference, toLe 8 e.parentReference,
    toLe 8 (e.usn % 2 ^ 64).toNat, e.timeStamp, toLe 4 e.reason, e.info,
    toLe 2 (nameBytes e.name).length, toLe 2 (60 + e.gap.length), e.gap, nameBytes e.name, e.padding]

def bytes : Bytes := e.parts.flatten

/-- What is returned for the record. -/
def record : UsnRecord := ⟨e.usn, e.fileReference, e.parentReference, e.reason, e.name⟩

theorem length_bytes : e.bytes.length = e.recordLen := by
  simp only [bytes, parts, List.flatten_cons, List.flatten_nil, List.length_append, length_toLe,
    List.length_nil, e.length_timeStamp, e.length_info, recordLen]
  omega

variable (rest : Bytes)

theorem recordLen_bytes : fieldAt (e.bytes ++ rest) 0 4 = e.recordLen :=
  fieldAt_parts (i := 0) rfl rfl e.recordLen_lt rest

theorem major_bytes : fieldAt (e.bytes ++ rest) 4 2 = 2 :=
  fieldAt_parts (i := 1) rfl rfl (by decide) rest

theorem nameLen_bytes : fieldAt (e.bytes ++ rest) 56 2 = (nameBytes e.name).length :=
  fieldAt_parts (i := 9) rfl (by simp [parts, length_toLe, e.length_timeStamp, e.length_info])
    e.nameLen_lt rest

theorem nameOff_bytes : fieldAt (e.bytes ++ rest) 58 2 = 60 + e.gap.length :=
  fieldAt_parts (i := 10) rfl (by simp [parts, length_toLe, e.length_timeStamp, e.length_info])
    e.nameOff_lt rest

theorem usn_bytes : i64At (e.bytes ++ rest) 24 = e.usn := by
  have hfield : fieldAt (e.bytes ++ rest) 24 8 = (e.usn % 2 ^ 64).toNat :=
    fieldAt_parts (i := 5) rfl rfl (toNat_emod_lt e.usn) rest
  have hsigned := bmod_toNat_emod e.usn_range.1 e.usn_range.2
  rwa [← hfield] at hsigned

/-- The record is read as it was packed. -/
theorem usnRecordAt_bytes : usnRecordAt (e.bytes ++ rest) = e.record := by
  have hfile : fieldAt (e.bytes ++ rest) 8 8 = e.fileReference :=
    fieldAt_parts (i := 3) rfl rfl e.fileReference_lt rest
  have hparent : fieldAt (e.bytes ++ rest) 16 8 = e.parentReference :=
    fieldAt_parts (i := 4) rfl rfl e.parentReference_lt rest
  have hreason : fieldAt (e.bytes ++ rest) 40 4 = e.reason :=
    fieldAt_parts (i := 7) rfl (by simp [parts, length_toLe, e.length_timeStamp]) e.reason_lt rest
  have hpart : e.parts[12]? = some (nameBytes e.name) := rfl
  have hname := drop_parts hpart (k := 60 + e.gap.length)
    (by
      simp only [parts, List.map_cons, List.take_succ_cons, List.take_zero, List.sum_cons,
        List.sum_nil, length_toLe, e.length_timeStamp, e.length_info]
      omega) rest
  have hdecode : String.ofList (utf16Lossy (wideChars (nameBytes e.name))) = e.name :=
    decodeName_nameBytes e.name
  unfold usnRecordAt
  rw [usn_bytes, hfile, hparent, hreason, nameOff_bytes, nameLen_bytes, bytes, hname,
    List.take_left, hdecode]
  rfl

/-- A packed record is found, and the parser goes on after it. -/
theorem parseUsnRecords_bytes :
    parseUsnRecords (e.bytes ++ rest) = e.record :: parseUsnRecords rest := by
  have hlen : (e.bytes ++ rest).length = e.recordLen + rest.length := by
    rw [List.length_append, length_bytes]
  have hrecord : e.recordLen =
    60 + e.gap.length + (nameBytes e.name).length + e.padding.length := rfl
  have hgoes : ¬ UsnStops (e.bytes ++ rest) := by
    unfold UsnStops
    rw [recordLen_bytes, major_bytes, hlen]
    omega
  have hfound : usnRecords (e.bytes ++ rest) = [e.record] := by
    unfold usnRecords
    rw [nameOff_bytes, nameLen_bytes, recordLen_bytes, if_pos (by omega), usnRecordAt_bytes]
  rw [parseUsnRecords_next hgoes, hfound, recordLen_bytes, List.drop_left' e.length_bytes]
  rfl

/-- A record that is cut short stops the parser. -/
theorem parseUsnRecords_cut {n : ℕ} (hn : n < e.recordLen) :
    parseUsnRecords (e.bytes.take n) = [] := by
  have hlen : (e.bytes.take n).length = n := by
    rw [List.length_take, length_bytes]
    omega
  refine parseUsnRecords_stop ?_
  by_cases h60 : n < 60
  · exact .inl (by omega)
  · -- The length field is still there.
    have hfield : fieldAt (e.bytes.take n) 0 4 = e.recordLen := by
      have hwhole := e.recordLen_bytes []
      rw [List.append_nil, ← List.take_append_drop n e.bytes, fieldAt_append _ (by omega)] at hwhole
      exact hwhole
    refine .inr (.inr (.inl ?_))
    rw [hfield, hlen]
    exact hn

end UsnEntry

/-- Records, back to back. -/
def packUsn (entries : List UsnEntry) : Bytes := entries.flatMap UsnEntry.bytes

/-- Packed records are found, and the parser goes on after them. -/
theorem parseUsnRecords_packUsn (entries : List UsnEntry) (rest : Bytes) :
    parseUsnRecords (packUsn entries ++ rest) =
      entries.map UsnEntry.record ++ parseUsnRecords rest := by
  induction entries with
  | nil => rfl
  | cons e entries ih =>
    have hpack : packUsn (e :: entries) = e.bytes ++ packUsn entries := rfl
    rw [hpack, List.append_assoc, e.parseUsnRecords_bytes, ih]
    rfl

/-- The last of packed records, cut short. -/
theorem parseUsnRecords_take (entries : List UsnEntry) (last : UsnEntry) {n : ℕ}
    (hstart : (packUsn entries).length ≤ n) (hcut : n < (packUsn (entries ++ [last])).length) :
    parseUsnRecords ((packUsn (entries ++ [last])).take n) = entries.map UsnEntry.record := by
  have hpack : packUsn (entries ++ [last]) = packUsn entries ++ last.bytes := by
    rw [packUsn, List.flatMap_append, List.flatMap_singleton]
    rfl
  rw [hpack, List.length_append, last.length_bytes] at hcut
  rw [hpack, List.take_append, List.take_of_length_le hstart, parseUsnRecords_packUsn,
    last.parseUsnRecords_cut (by omega), List.append_nil]

/-- **What `parse_usn_records` returns.**  No buffer makes it panic or run on; packed records
are read as they were packed, and those before the last also when the last is cut. -/
theorem parseUsnRecords_spec (m : Arith) {buf : Bytes} (hbuf : buf.length < 2 ^ 63) :
    ∃ records, (∀ rounds, buf.length < rounds →
        parseUsnRecordsChecked m buf rounds = some (.ok records)) ∧
      (∀ entries, buf = packUsn entries → records = entries.map UsnEntry.record) ∧
      ∀ entries last n, (packUsn entries).length ≤ n → n < (packUsn (entries ++ [last])).length →
        buf = (packUsn (entries ++ [last])).take n → records = entries.map UsnEntry.record := by
  refine ⟨parseUsnRecords buf, fun rounds h => parseUsnRecordsChecked_eq m hbuf h, ?_, ?_⟩
  · rintro entries rfl
    have hpacked := parseUsnRecords_packUsn entries []
    have hnil : parseUsnRecords [] = [] := rfl
    rwa [hnil, List.append_nil, List.append_nil] at hpacked
  · rintro entries last n hstart hcut rfl
    exact parseUsnRecords_take entries last hstart hcut

/-- A record of a file that was deleted. -/
def deletedEntry : UsnEntry where
  fileReference := 170
  parentReference := 187
  usn := -2
  reason := 512
  name := "a.exe"
  minor := 0
  timeStamp := List.replicate 8 1
  info := List.replicate 12 2
  gap := []
  padding := [0, 0]
  fileReference_lt := by decide
  parentReference_lt := by decide
  usn_range := by decide
  reason_lt := by decide
  length_timeStamp := rfl
  length_info := rfl
  nameOff_lt := by decide
  nameLen_lt := by decide
  recordLen_lt := by decide

theorem parseUsnRecords_spec_deleted : ∃ records,
    (∀ rounds, ((packUsn [deletedEntry, deletedEntry]).take 100).length < rounds →
      parseUsnRecordsChecked .checked ((packUsn [deletedEntry, deletedEntry]).take 100) rounds =
        some (.ok records)) ∧ records = [⟨-2, 170, 187, 512, "a.exe"⟩] := by
  have hshort : ((packUsn [deletedEntry, deletedEntry]).take 100).length < 2 ^ 63 := by decide
  obtain ⟨records, hrun, -, hcut⟩ := parseUsnRecords_spec .checked hshort
  exact ⟨records, hrun, hcut [deletedEntry] deletedEntry 100 (by decide) (by decide) rfl⟩

end Corpus.Agent
