/-
The detail of a gap, from the failure to the event (`capture.rs` and `gap_flusher` of `main.rs`).

The detail is a JSON text put together by `format!`, and parsed again by the flusher, which sends
nothing where the parse fails.

* `processCandidate_gaps` — the rows that a capture inserts are those of a `Failure`;
* `detail_survives_iff` — whose detail survives;
* `gap_details_iff` — both, of every capture.
-/
import Corpus.Agent.Steps
import Corpus.JsonText

namespace Corpus.Agent

open JsonText

/-- A terminal failure of `process_candidate`: of the stable read, of a step that talks to the
server, or an answer of the server that is neither present nor required. -/
inductive Failure where
  | read (e : StableReadError)
  | step (why : String)
  | declined (d : AnnounceDisposition) (sha : String)

/-- What is recorded of a failure. -/
def Failure.info {S : Type} (rt : Runtime S) (t : Task) : Failure → GapInfo
  | .read e => ⟨outcomeName e, none, readDetail rt e⟩
  | .step why =>
    ⟨outcomeUploadFailed, t.cand.sha256, "\x7b\"error\":\"" ++ why ++ "\"\x7d"⟩
  | .declined d sha => ⟨dispositionName d, some sha, "\x7b\x7d"⟩

/-- A size is a `u64`. -/
def Failure.Fits : Failure → Prop
  | .read (.tooLarge size) => size < 2 ^ 64
  | _ => True

/-- The object has the size, or the text of the error. -/
def Failure.Carried {S : Type} (rt : Runtime S) : Failure → Json → Prop
  | .read (.tooLarge size), j => j.get? "size_bytes" = some (.num size)
  | .read e, j => j.get? "error" = some (.str (debugError rt e))
  | .step why, j => j.get? "error" = some (.str why)
  | .declined _ _, j => j = .obj []

/-- The stored detail is an object that carries this, and so is the detail of the event. -/
def Failure.Survives {S : Type} (rt : Runtime S) (t : Task) (f : Failure) : Prop :=
  ∃ fields, rt.parseJson (f.info rt t).detail = some (.obj fields) ∧ f.Carried rt (.obj fields) ∧
    ∀ s event, gapEvent rt (gapRow rt t (f.info rt t) s) = some event →
      event.detail = some (.obj fields)

/-- The texts that `format!` makes valid: a size, an error text without characters that JSON
escapes, no text at all. -/
def Failure.Plain : Failure → Prop
  | .read (.tooLarge _) => True
  | .read _ => False
  | .step why => JsonText.Plain why.toList
  | .declined _ _ => True

/-- An object of one member, whose name needs no escape. -/
def oneMember (name : String) (value : List Char) : String :=
  String.ofList ('\x7b' :: '"' :: (name.toList ++ '"' :: ':' :: (value ++ ['\x7d'])))

/-- What a JSON value may begin with, blanks among it. -/
def valueStarts : List Char := "\"\x7b[-0123456789tfn \t\n\r".toList

/-- What `serde_json::from_str` does, as the grammar of JSON has it: an empty object, an object of
one member, no value that begins as none does, and no string of a member that is not a literal of
the text behind that of its name. -/
structure SerdeJson (parse : String → Option Json) : Prop where
  empty : parse "\x7b\x7d" = some (.obj [])
  number : ∀ n : ℕ, n < 2 ^ 64 →
    parse (oneMember "size_bytes" (toString n).toList) = some (.obj [("size_bytes", .num n)])
  string : ∀ (lit : List Char) (s : String), Reads lit s.toList →
    parse (oneMember "error" ('"' :: (lit ++ ['"']))) = some (.obj [("error", .str s)])
  start : ∀ c rest, c ∉ valueStarts → parse (oneMember "error" (c :: rest)) = none
  member : ∀ (text : String) (fields : List (String × Json)) (k s : String),
    parse text = some (.obj fields) → (Json.obj fields).get? k = some (.str s) →
      ∃ a key b c lit d e f, text.toList = a ++ '\x7b' :: (b ++ '"' :: (key ++ '"' :: (c ++ ':' ::
        (d ++ '"' :: (lit ++ '"' :: (e ++ '\x7d' :: f)))))) ∧
        Reads key k.toList ∧ Reads lit s.toList

section Details

variable {S : Type} {rt : Runtime S} {t : Task}

theorem readDetail_tooLarge (rt : Runtime S) (size : ℕ) :
    readDetail rt (.tooLarge size) = oneMember "size_bytes" (toString size).toList := by
  rw [← String.toList_inj]
  simp [readDetail, oneMember, String.toList_append]
  rfl

theorem detail_step (why : String) :
    ((Failure.step why).info rt t).detail =
      oneMember "error" ('"' :: (why.toList ++ ['"'])) := by
  rw [← String.toList_inj]
  simp [Failure.info, oneMember, String.toList_append]

/-- What `{:?}` prints of any other error begins as no JSON value does. -/
theorem readDetail_start (rt : Runtime S) {e : StableReadError} (he : ∀ size, e ≠ .tooLarge size) :
    ∃ c rest, c ∉ valueStarts ∧ readDetail rt e = oneMember "error" (c :: rest) := by
  have hdetail : ∀ c rest, (debugError rt e).toList = c :: rest →
      readDetail rt e = oneMember "error" (c :: rest) := by
    intro c rest hdebug
    have hread : readDetail rt e = "\x7b\"error\":" ++ debugError rt e ++ "\x7d" := by
      cases e with
      | tooLarge size => exact absurd rfl (he size)
      | _ => rfl
    rw [hread, ← String.toList_inj, oneMember, String.toList_ofList, String.toList_append,
      String.toList_append, hdebug]
    simp
  cases e with
  | tooLarge size => exact absurd rfl (he size)
  | deletedBeforeRead =>
    have hD : "DeletedBeforeRead".toList = 'D' :: "eletedBeforeRead".toList := by decide
    exact ⟨'D', _, by decide, hdetail _ _ hD⟩
  | permissionDenied =>
    have hP : "PermissionDenied".toList = 'P' :: "ermissionDenied".toList := by decide
    exact ⟨'P', _, by decide, hdetail _ _ hP⟩
  | changedDuringRead =>
    have hC : "ChangedDuringRead".toList = 'C' :: "hangedDuringRead".toList := by decide
    exact ⟨'C', _, by decide, hdetail _ _ hC⟩
  | spoolFull =>
    have hS : "SpoolFull".toList = 'S' :: "poolFull".toList := by decide
    exact ⟨'S', _, by decide, hdetail _ _ hS⟩
  | io msg =>
    have hI : "Io(".toList = 'I' :: "o(".toList := by decide
    have hdebug : ("Io(" ++ rt.debug msg ++ ")").toList =
        'I' :: ("o(".toList ++ (rt.debug msg).toList ++ ")".toList) := by
      rw [String.toList_append, String.toList_append, hI, List.cons_append, List.cons_append]
    exact ⟨'I', _, by decide, hdetail _ _ hdebug⟩

/-- The event has what the parse of the stored detail gives. -/
theorem survives_iff {f : Failure} : f.Survives rt t ↔
    ∃ fields, rt.parseJson (f.info rt t).detail = some (.obj fields) ∧
      f.Carried rt (.obj fields) := by
  refine exists_congr fun fields => and_congr_right fun hparse => and_iff_left ?_
  intro s event hevent
  obtain ⟨observedAt, -, rfl⟩ := Option.map_eq_some_iff.mp hevent
  exact hparse

variable (hjson : SerdeJson rt.parseJson)

include hjson

/-- A member read from the text of a step is a literal with no room for escapes. -/
theorem plain_of_member {why : String} {fields : List (String × Json)}
    (hparse : rt.parseJson ((Failure.step why).info rt t).detail = some (.obj fields))
    (hget : (Json.obj fields).get? "error" = some (.str why)) : JsonText.Plain why.toList := by
  obtain ⟨a, key, b, c, lit, d, e, f, htext, hkey, hlit⟩ := hjson.member _ _ _ _ hparse hget
  have hlength := congrArg List.length htext
  have hname : ("error".toList.flatMap escape).length = 5 := by decide
  have hkey := hkey.length_le
  have hlit := hlit.length_le
  rw [detail_step, oneMember, String.toList_ofList] at hlength
  simp only [List.length_append, List.length_cons, List.length_nil] at hlength
  have herror : "error".toList.length = 5 := by decide
  exact plain_of_length_le (by omega)

theorem detail_survives_iff {f : Failure} (hf : f.Fits) : f.Survives rt t ↔ f.Plain := by
  rw [survives_iff]
  cases f with
  | read e =>
    by_cases hsize : ∃ size, e = .tooLarge size
    · obtain ⟨size, rfl⟩ := hsize
      refine iff_of_true ⟨[("size_bytes", .num size)], ?_, rfl⟩ trivial
      have hdetail := readDetail_tooLarge rt size
      exact (congrArg rt.parseJson hdetail).trans (hjson.number size hf)
    · rw [not_exists] at hsize
      obtain ⟨c, rest, hc, hdetail⟩ := readDetail_start rt hsize
      have hnone : rt.parseJson ((Failure.read e).info rt t).detail = none :=
        (congrArg rt.parseJson hdetail).trans (hjson.start c rest hc)
      refine iff_of_false ?_ ?_
      · rintro ⟨fields, hparse, -⟩
        rw [hnone] at hparse
        cases hparse
      · cases e with
        | tooLarge size => exact absurd rfl (hsize size)
        | _ => exact id
  | step why =>
    constructor
    · rintro ⟨fields, hparse, hcarried⟩
      exact plain_of_member hjson hparse hcarried
    · intro hplain
      refine ⟨[("error", .str why)], ?_, rfl⟩
      rw [detail_step]
      exact hjson.string _ _ hplain.reads
  | declined d sha => exact iff_of_true ⟨[], hjson.empty, rfl⟩ trivial

end Details

/-! ### The rows of a capture -/

section Rows

variable {S α : Type} {rt : Runtime S} {t : Task}

/-- A statement that inserts a gap row inserts that of a failure. -/
def OfFailure (rt : Runtime S) (l : Pt) : Prop :=
  ∀ t g, l = .proc t (.gapRow g) → ∃ f : Failure, g = f.info rt t

/-- Every statement of the program is such a statement, or inserts no gap row. -/
def RecordsFailures (rt : Runtime S) (p : Agt S α) : Prop := p.Takes fun l _ _ _ _ => OfFailure rt l

theorem ofFailure_of_ne {p : ProcPt} (h : ∀ g, p ≠ .gapRow g) : OfFailure rt (.proc t p) := by
  intro t' g heq
  obtain ⟨-, rfl⟩ := Pt.proc.inj heq
  exact absurd rfl (h g)

theorem records_dbWrite {l : Pt} {f : World S → Option StateDb} {k : Unit → Agt S α}
    (hl : OfFailure rt l) (hk : RecordsFailures rt (k ())) :
    RecordsFailures rt (dbWrite l f >>= k) :=
  takes_dbWrite (fun _ _ _ _ _ => hl) (fun _ _ _ => hl) hk

theorem records_dbWrite_last {l : Pt} {f : World S → Option StateDb} (hl : OfFailure rt l) :
    RecordsFailures rt (dbWrite l f : Agt S Unit) :=
  takes_dbWrite_last (fun _ _ _ _ _ => hl) fun _ _ _ => hl

theorem records_nextSequence {l : Pt} {k : ℕ → Agt S α} (hl : OfFailure rt l)
    (hk : ∀ n, RecordsFailures rt (k n)) : RecordsFailures rt (nextSequence l >>= k) :=
  takes_nextSequence (fun _ _ _ => hl) (fun _ _ _ _ _ => hl) hk

theorem records_request {β : Type} {l : Pt}
    {call : World S → List Env → S → Except String β × S} {k : Except String β → Agt S α}
    (hl : OfFailure rt l) (hk : ∀ r, RecordsFailures rt (k r)) :
    RecordsFailures rt (request l call >>= k) :=
  takes_request (fun _ _ _ _ => hl) hk

theorem records_endWithGap (f : Failure) : RecordsFailures rt (endWithGap rt t (f.info rt t)) := by
  have hcount : OfFailure rt (.proc t (.gapCount (f.info rt t))) := ofFailure_of_ne nofun
  have hend : RecordsFailures rt (dbWrite (.proc t (.finishGap (f.info rt t))) fun s : World S =>
      s.db.finishGap t.cand.id (f.info rt t).outcome) :=
    records_dbWrite_last (ofFailure_of_ne nofun)
  intro s i
  refine ⟨?_, ?_⟩
  · intro t' g heq
    obtain ⟨rfl, hg⟩ := Pt.proc.inj heq
    exact ⟨f, (ProcPt.gapRow.inj hg).symm⟩
  · dsimp only
    -- Both statements of `record_gap` go on, whether or not they succeed.
    cases i.dbFails with
    | true => exact hend
    | false =>
      refine fun s j => ⟨hcount, ?_⟩
      dsimp only
      cases j.dbFails with
      | true => exact hend
      | false => exact hend

theorem records_retryOrFail (why : String) : RecordsFailures rt (retryOrFail rt t why) := by
  unfold retryOrFail
  split
  · exact records_endWithGap (.step why)
  · exact records_dbWrite_last (ofFailure_of_ne nofun)

theorem records_removeSpool : RecordsFailures rt (removeSpool t : Agt S Unit) := by
  unfold removeSpool
  split
  · trivial
  · exact fun s i => ⟨ofFailure_of_ne nofun, trivial⟩

theorem records_toState {p : ProcPt} {new : CaptureState} {k : Unit → Agt S α}
    (hp : ∀ g, p ≠ .gapRow g) (hk : RecordsFailures rt (k ())) :
    RecordsFailures rt (toState t p new >>= k) :=
  records_dbWrite (ofFailure_of_ne hp) hk

theorem records_finalizePhase (sha : String) (upload : Uuid) :
    RecordsFailures rt (finalizePhase rt t sha upload) := by
  refine records_toState nofun (records_nextSequence (ofFailure_of_ne nofun) fun seq =>
    records_request (ofFailure_of_ne nofun) fun fin => ?_)
  cases fin with
  | error e => exact records_retryOrFail _
  | ok r =>
    exact records_toState nofun (records_toState nofun (records_dbWrite (ofFailure_of_ne nofun)
      (records_dbWrite (ofFailure_of_ne nofun) records_removeSpool)))

theorem records_uploadPhase (sha : String) (ann : AnnounceResponse) :
    RecordsFailures rt (uploadPhase rt t sha ann) := by
  refine records_toState nofun ?_
  cases ann.uploadId with
  | none => exact records_retryOrFail _
  | some upload =>
    refine records_dbWrite (ofFailure_of_ne nofun) (records_toState nofun ?_)
    cases t.cand.spoolPath with
    | none => exact records_retryOrFail _
    | some name =>
      have hread : OfFailure rt (.proc t (.readSpool upload name)) := ofFailure_of_ne nofun
      refine Prog.takes_exec_bind fun s i => ?_
      split
      · refine ⟨hread, records_request (ofFailure_of_ne nofun) fun sent => ?_⟩
        cases sent with
        | error e => exact records_retryOrFail _
        | ok u => exact records_finalizePhase sha upload
      · exact hread

theorem records_announced (sha : String) (ann : AnnounceResponse) :
    RecordsFailures rt (announced rt t sha ann) := by
  refine records_toState nofun ?_
  split
  · exact records_toState nofun (records_toState nofun (records_toState nofun
      (records_dbWrite (ofFailure_of_ne nofun) records_removeSpool)))
  · exact records_uploadPhase sha ann
  · exact records_endWithGap (.declined _ sha)

theorem records_resume : RecordsFailures rt (resume rt t) := by
  have hreload : OfFailure rt (.proc t .reload) := ofFailure_of_ne nofun
  refine Prog.takes_exec_bind fun s i => ?_
  split
  · next row _ =>
    refine ⟨hreload, ?_⟩
    split
    · trivial
    · next c _ =>
      dsimp only
      split
      · exact records_toState nofun records_removeSpool
      · split
        · trivial
        · split
          · refine records_nextSequence (ofFailure_of_ne nofun) fun seq =>
              records_request (ofFailure_of_ne nofun) fun ann => ?_
            cases ann with
            | error e => exact records_retryOrFail _
            | ok ann => exact records_announced _ ann
          · trivial
  · exact hreload

theorem records_afterRead (r : Except StableReadError StableReadResult) :
    RecordsFailures rt (afterRead rt t r) := by
  unfold afterRead
  split
  · exact records_dbWrite (ofFailure_of_ne nofun) records_resume
  · exact records_dbWrite_last (ofFailure_of_ne nofun)
  · next msg =>
    split
    · exact records_endWithGap (.read (.io msg))
    · exact records_dbWrite_last (ofFailure_of_ne nofun)
  · next e _ _ => exact records_endWithGap (.read e)

theorem records_readPhase : RecordsFailures rt (readPhase rt t) := by
  refine fun s i => ⟨ofFailure_of_ne nofun, records_toState nofun ?_⟩
  refine Prog.takes_bind ((stableRead_takes _ _).mono ?_) records_afterRead
  rintro l i s s' c ⟨p, c', rfl, -, -⟩
  exact ofFailure_of_ne nofun

/-- The rows that a capture inserts are those of a failure. -/
theorem processCandidate_gaps (t : Task) : RecordsFailures rt (processCandidate rt t) := by
  unfold processCandidate
  split
  · exact records_toState nofun records_readPhase
  · split
    · exact records_readPhase
    · exact records_resume

end Rows

/-- Every gap that a capture records is that of a failure, and the detail of a failure survives, as
an object with the size or the exact text, up to the event if and only if `format!` makes it valid:
for a size, for a text without quotation mark, backslash and control character, and for no text. -/
theorem gap_details_iff {S : Type} {rt : Runtime S} (hjson : SerdeJson rt.parseJson) :
    (∀ t, RecordsFailures rt (processCandidate rt t)) ∧
      ∀ (t : Task) (f : Failure), f.Fits → (f.Survives rt t ↔ f.Plain) :=
  ⟨processCandidate_gaps, fun _ _ hf => detail_survives_iff hjson hf⟩

/-! ### A parser of details -/

/-- What stands between two pieces. -/
def between (pre suf l : List Char) : Option (List Char) :=
  if pre.isPrefixOf l && suf.isSuffixOf (l.drop pre.length) then
    some ((l.drop pre.length).take (l.length - pre.length - suf.length))
  else none

/-- The texts of one error, of one size and of no member, read as JSON. -/
def parseDetail (text : String) : Option Json :=
  let cs := text.toList
  if cs = "\x7b\x7d".toList then some (.obj [])
  else match between "\x7b\"error\":\"".toList "\"\x7d".toList cs with
    | some lit =>
      (readAll lit.length lit).map fun s => .obj [("error", .str (String.ofList s))]
    | none =>
      match between "\x7b\"size_bytes\":".toList "\x7d".toList cs with
      | some ds =>
        let n := Nat.ofDigitChars 10 ds 0
        if Nat.toDigits 10 n = ds then some (.obj [("size_bytes", .num n)]) else none
      | none => none

theorem between_append (pre suf m : List Char) : between pre suf (pre ++ (m ++ suf)) = some m := by
  have hpre : pre.isPrefixOf (pre ++ (m ++ suf)) = true :=
    List.isPrefixOf_iff_prefix.mpr (List.prefix_append _ _)
  have hsuf : suf.isSuffixOf (m ++ suf) = true :=
    List.isSuffixOf_iff_suffix.mpr (List.suffix_append _ _)
  unfold between
  rw [List.drop_left, if_pos (by rw [hpre, hsuf]; rfl)]
  have hlen : (pre ++ (m ++ suf)).length - pre.length - suf.length = m.length := by
    simp only [List.length_append]
    omega
  rw [hlen, List.take_left]

theorem of_between {pre suf l m : List Char} (h : between pre suf l = some m) :
    l = pre ++ (m ++ suf) := by
  unfold between at h
  split_ifs at h with hcond
  obtain ⟨hpre, hsuf⟩ := (Bool.and_eq_true _ _).mp hcond
  obtain ⟨l', rfl⟩ := List.isPrefixOf_iff_prefix.mp hpre
  rw [List.drop_left] at h hsuf
  obtain ⟨m', rfl⟩ := List.isSuffixOf_iff_suffix.mp hsuf
  have hlen : (pre ++ (m' ++ suf)).length - pre.length - suf.length = m'.length := by
    simp only [List.length_append]
    omega
  rw [hlen, List.take_left] at h
  rw [Option.some.inj h]

theorem between_eq_none {pre suf l : List Char} (h : pre.isPrefixOf l = false) :
    between pre suf l = none := by
  unfold between
  rw [h]
  rfl

theorem toList_oneMember (name : String) (value : List Char) :
    (oneMember name value).toList =
      '\x7b' :: '"' :: (name.toList ++ '"' :: ':' :: (value ++ ['\x7d'])) := by
  rw [oneMember, String.toList_ofList]

theorem parseDetail_string (lit : List Char) :
    parseDetail (oneMember "error" ('"' :: (lit ++ ['"']))) =
      (readAll lit.length lit).map fun s => .obj [("error", .str (String.ofList s))] := by
  have hpre : "\x7b\"error\":\"".toList = ['\x7b', '"', 'e', 'r', 'r', 'o', 'r', '"', ':', '"'] := by
    decide
  have htext : (oneMember "error" ('"' :: (lit ++ ['"']))).toList =
      "\x7b\"error\":\"".toList ++ (lit ++ "\"\x7d".toList) := by
    rw [toList_oneMember, hpre]
    simp
  have hne : (oneMember "error" ('"' :: (lit ++ ['"']))).toList ≠ "\x7b\x7d".toList := by
    rw [toList_oneMember]
    simp
  unfold parseDetail
  dsimp only
  rw [if_neg hne, htext, between_append]

theorem parseDetail_number (ds : List Char) :
    parseDetail (oneMember "size_bytes" ds) =
      if Nat.toDigits 10 (Nat.ofDigitChars 10 ds 0) = ds then
        some (.obj [("size_bytes", .num (Nat.ofDigitChars 10 ds 0 : ℕ))])
      else none := by
  have hpre : "\x7b\"size_bytes\":".toList =
      ['\x7b', '"', 's', 'i', 'z', 'e', '_', 'b', 'y', 't', 'e', 's', '"', ':'] := by decide
  have htext : (oneMember "size_bytes" ds).toList =
      "\x7b\"size_bytes\":".toList ++ (ds ++ "\x7d".toList) := by
    rw [toList_oneMember, hpre]
    simp
  have hne : (oneMember "size_bytes" ds).toList ≠ "\x7b\x7d".toList := by
    rw [toList_oneMember]
    simp
  have herror : between "\x7b\"error\":\"".toList "\"\x7d".toList (oneMember "size_bytes" ds).toList =
      none := by
    refine between_eq_none ?_
    rw [toList_oneMember]
    rfl
  unfold parseDetail
  dsimp only
  rw [if_neg hne, herror]
  dsimp only
  rw [htext, between_append]

/-- The member of an object that has one. -/
theorem get?_single {name k : String} {v w : Json}
    (h : (Json.obj [(name, v)]).get? k = some w) : name = k ∧ v = w := by
  by_cases hk : name = k
  · simp [Json.get?, hk] at h
    exact ⟨hk, h⟩
  · simp [Json.get?, hk] at h

theorem serdeJson_parseDetail : SerdeJson parseDetail where
  empty := by
    unfold parseDetail
    exact if_pos rfl
  number := by
    intro n _
    rw [parseDetail_number, Nat.toString_eq_ofList_toDigits, String.toList_ofList,
      Nat.ofDigitChars_ten_toDigits, if_pos rfl]
  string := by
    intro lit s h
    rw [parseDetail_string, readAll_of_reads h _ (Nat.le_refl _), Option.map_some,
      String.ofList_toList]
  start := by
    intro c rest hc
    have hquote : c ≠ '"' := by
      rintro rfl
      exact hc (by decide)
    have hne : (oneMember "error" (c :: rest)).toList ≠ "\x7b\x7d".toList := by
      rw [toList_oneMember]
      simp
    have herror : between "\x7b\"error\":\"".toList "\"\x7d".toList
        (oneMember "error" (c :: rest)).toList = none := by
      refine between_eq_none ?_
      have hpre : "\x7b\"error\":\"".toList =
          ['\x7b', '"', 'e', 'r', 'r', 'o', 'r', '"', ':', '"'] := by decide
      rw [toList_oneMember, hpre]
      simp [List.isPrefixOf, Ne.symm hquote]
    have hsize : between "\x7b\"size_bytes\":".toList "\x7d".toList
        (oneMember "error" (c :: rest)).toList = none := by
      refine between_eq_none ?_
      rw [toList_oneMember]
      rfl
    unfold parseDetail
    dsimp only
    rw [if_neg hne, herror]
    dsimp only
    rw [hsize]
  member := by
    intro text fields k s hparse hget
    unfold parseDetail at hparse
    dsimp only at hparse
    split_ifs at hparse
    · obtain rfl := Json.obj.inj (Option.some.inj hparse)
      cases hget
    · split at hparse
      · next lit hlit =>
        obtain ⟨s', hs', hobj⟩ := Option.map_eq_some_iff.mp hparse
        obtain rfl := Json.obj.inj hobj
        obtain ⟨hk, hs⟩ := get?_single hget
        obtain rfl := Json.str.inj hs
        subst hk
        have hpre : "\x7b\"error\":\"".toList = '\x7b' :: '"' :: ("error".toList ++ ['"', ':', '"']) := by
          decide
        refine ⟨[], "error".toList, [], [], lit, [], [], [], ?_, ?_, ?_⟩
        · rw [of_between hlit, hpre]
          simp
        · exact Plain.reads (by decide)
        · rw [String.toList_ofList]
          exact reads_of_readAll hs'
      · split at hparse
        · split_ifs at hparse
          obtain rfl := Json.obj.inj (Option.some.inj hparse)
          cases (get?_single hget).2
        · cases hparse

/-- An agent that reads details so. -/
def detailAgent : Runtime Unit :=
  { Runtime.small (.fixed (.ok ⟨.alreadyPresent, none, some 1⟩) (.ok ())) none 8 with
    parseJson := parseDetail }

/-- A capture of a file, in its first attempt. -/
def firstCapture : Task :=
  ⟨0, 0, ⟨1, "/a", 1, "exec", .opening, 1, 0, none, none, none, none⟩⟩

/-- A size and the text of an error survive; a text with a quotation mark does not. -/
theorem gap_details_of_errors :
    (Failure.read (.tooLarge 70)).Survives detailAgent firstCapture ∧
      (Failure.step "announce: connection refused (os error 111)").Survives detailAgent
        firstCapture ∧
      ¬ (Failure.step "chunk 3: 502 \"bad gateway\"").Survives detailAgent firstCapture := by
  have hjson : SerdeJson detailAgent.parseJson := serdeJson_parseDetail
  have hfits : (Failure.read (.tooLarge 70)).Fits := show 70 < 2 ^ 64 by decide
  refine ⟨((gap_details_iff hjson).2 firstCapture (.read (.tooLarge 70)) hfits).mpr trivial,
    ((gap_details_iff hjson).2 firstCapture (.step _) trivial).mpr ?_, fun h => ?_⟩
  · show JsonText.Plain _
    decide +kernel
  · have hplain : JsonText.Plain "chunk 3: 502 \"bad gateway\"".toList :=
      ((gap_details_iff hjson).2 firstCapture (.step _) trivial).mp h
    revert hplain
    decide +kernel

/-- A file that changes while it is read leaves no JSON. -/
theorem changed_read_unparsed :
    ¬ ∀ (t : Task) (f : Failure), f.Fits → f.Survives detailAgent t := by
  have hjson : SerdeJson detailAgent.parseJson := serdeJson_parseDetail
  intro h
  have hsurvives := h firstCapture (.read .changedDuringRead) trivial
  have hfits : (Failure.read .changedDuringRead).Fits := trivial
  exact (detail_survives_iff hjson hfits).mp hsurvives

end Corpus.Agent
