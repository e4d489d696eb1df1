/-
What the authentihash is taken of (`similarity/extract.rs`).

* `hashedBytes_eq` — the loop over sorted ranges takes the bytes outside all of them, in
  order and each once, however the ranges lie;
* `authentihash_of_outside` — the hash is that of the bytes outside the checksum, the entry of
  the certificate table and the certificates, and signing a file leaves them as they are.
-/
import Corpus.ExtractionSafety
import Corpus.Positions
import Corpus.StoredFunctions

namespace Corpus

open Checked

variable {m : Arith} {x : Extractor} {bytes : Bytes}

/-! ### The loop -/

/-- The position is in none of the ranges. -/
def Outside (ranges : List (ℕ × ℕ)) (i : ℕ) : Prop := ∀ r ∈ ranges, ¬ (r.1 ≤ i ∧ i < r.2)

instance (ranges : List (ℕ × ℕ)) : DecidablePred (Outside ranges) := fun i =>
  inferInstanceAs (Decidable (∀ r ∈ ranges, ¬ (r.1 ≤ i ∧ i < r.2)))

theorem outside_cons {r : ℕ × ℕ} {ranges : List (ℕ × ℕ)} {i : ℕ} :
    Outside (r :: ranges) i ↔ ¬ (r.1 ≤ i ∧ i < r.2) ∧ Outside ranges i := List.forall_mem_cons

theorem outside_nil {i : ℕ} : Outside [] i := fun _ hr => absurd hr List.not_mem_nil

instance : Std.Total rangeLe := ⟨fun a b => by unfold rangeLe; omega⟩

instance : IsTrans (ℕ × ℕ) rangeLe := ⟨fun a b c hab hbc => by unfold rangeLe at *; omega⟩

/-- The loop from a position on: what it has taken, and what is left at the end, are the bytes
outside the ranges. -/
theorem hashBetween_eq (bytes : Bytes) {ranges : List (ℕ × ℕ)} (hsorted : ranges.Pairwise rangeLe)
    (hends : ∀ r ∈ ranges, r.1 ≤ r.2) : ∀ (pos : ℕ) (taken : Bytes), pos ≤ bytes.length →
      Returns (hashBetween bytes ranges pos taken) fun r => r.1 ≤ bytes.length ∧
        r.2 ++ bytes.drop r.1 = taken ++ keepAt (Outside ranges) pos (bytes.drop pos) := by
  induction ranges with
  | nil =>
    intro pos taken hpos
    refine returns_ok ⟨hpos, ?_⟩
    rw [keepAt_of_all fun i _ _ r hr => absurd hr List.not_mem_nil]
  | cons r ranges ih =>
    intro pos taken hpos
    obtain ⟨hfirst, hrest⟩ := List.pairwise_cons.mp hsorted
    have hend := hends r List.mem_cons_self
    have hrestEnds := List.forall_mem_of_forall_mem_cons hends
    have hstarts : ∀ r' ∈ ranges, r.1 ≤ r'.1 := by
      intro r' hr'
      have := hfirst r' hr'
      unfold rangeLe at this
      omega
    -- Up to the start of the first range nothing is left out.
    have hbefore : ∀ {a b : ℕ}, b ≤ r.1 → b ≤ bytes.length →
        keepAt (Outside (r :: ranges)) a ((bytes.take b).drop a) = (bytes.take b).drop a := by
      intro a b hb hlen
      refine keepAt_of_all fun i hlo hhi => ?_
      rw [List.length_drop, List.length_take] at hhi
      refine List.forall_mem_cons.mpr ⟨by omega, fun r' hr' => ?_⟩
      have := hstarts r' hr'
      omega
    -- From there on, what is before its end is, and behind that only the others count.
    have hskip : ∀ {a : ℕ}, r.1 ≤ a → a ≤ bytes.length →
        keepAt (Outside (r :: ranges)) a (bytes.drop a) = keepAt (Outside ranges)
          (max a (min r.2 bytes.length)) (bytes.drop (max a (min r.2 bytes.length))) := by
      intro a ha hlen
      have hnone : keepAt (Outside (r :: ranges)) a
          ((bytes.take (max a (min r.2 bytes.length))).drop a) = [] := by
        refine keepAt_of_none fun i hlo hhi h => h r List.mem_cons_self ?_
        rw [List.length_drop, List.length_take] at hhi
        omega
      rw [keepAt_drop (Nat.le_max_left a (min r.2 bytes.length)) (by omega), hnone, List.nil_append]
      refine keepAt_congr fun i hlo hhi => ?_
      rw [List.length_drop] at hhi
      rw [outside_cons, and_iff_right (by omega)]
    unfold hashBetween
    split
    · next hbeyond =>
      refine returns_ok ⟨hpos, ?_⟩
      have hall := hbefore (a := pos) (Nat.le_of_lt hbeyond) (Nat.le_refl _)
      rw [List.take_length] at hall
      rw [hall]
    · next hin =>
      have hin : r.1 ≤ bytes.length := Nat.not_lt.mp hin
      split
      · next hgap =>
        have hmin : min r.1 bytes.length = r.1 := Nat.min_eq_left hin
        have hmax : max pos (min r.2 bytes.length) = max r.1 (min r.2 bytes.length) := by omega
        have hpart : checkedRange bytes pos r.1 = .ok ((bytes.take r.1).drop pos) :=
          checkedRange_of_le (Nat.le_of_lt hgap) hin
        rw [hmin, hpart, ok_bind, hmax]
        obtain ⟨v, hrun, hlen, hv⟩ := ih hrest hrestEnds (max r.1 (min r.2 bytes.length))
          (taken ++ (bytes.take r.1).drop pos) (by omega)
        refine ⟨v, hrun, hlen, hv.trans ?_⟩
        rw [keepAt_drop (Nat.le_of_lt hgap) hin, hbefore (Nat.le_refl _) hin, hskip (Nat.le_refl _) hin,
          List.append_assoc]
      · next hgap =>
        obtain ⟨v, hrun, hlen, hv⟩ := ih hrest hrestEnds (max pos (min r.2 bytes.length)) taken
          (by omega)
        exact ⟨v, hrun, hlen, hv.trans (by rw [hskip (Nat.not_lt.mp hgap) hpos])⟩

/-- What is hashed is what is outside the ranges, whatever their order and overlaps. -/
theorem hashedBytes_eq {ranges : List (ℕ × ℕ)} (hends : ∀ r ∈ ranges, r.1 ≤ r.2) :
    hashedBytes bytes ranges = .ok (keepAt (Outside ranges) 0 bytes) := by
  have hmem : ∀ r, r ∈ ranges.insertionSort rangeLe ↔ r ∈ ranges := fun r =>
    List.mem_insertionSort rangeLe
  obtain ⟨v, hrun, hlen, hv⟩ := hashBetween_eq bytes
    (List.pairwise_insertionSort rangeLe ranges) (fun r hr => hends r ((hmem r).mp hr)) 0 []
    (Nat.zero_le _)
  have hall : keepAt (Outside (ranges.insertionSort rangeLe)) 0 bytes =
      keepAt (Outside ranges) 0 bytes :=
    keepAt_congr fun _ _ _ => forall_congr' fun r => imp_congr (hmem r) Iff.rfl
  rw [List.nil_append, List.drop_zero, hall] at hv
  rw [hashedBytes, hrun, ok_bind, ← hv]
  split
  · rw [checkedRange_of_le hlen (Nat.le_refl _), List.take_length]
    rfl
  · rw [List.drop_of_length_le (by omega), List.append_nil]
    rfl

/-! ### Headers -/

theorem readLe_eq {start stop : ℕ} (h : start ≤ stop) (h' : stop ≤ bytes.length) :
    readLe bytes start stop = .ok (fieldAt bytes start (stop - start)) := by
  rw [readLe, checkedRange_eq_take h h']
  rfl

/-- A PE file with its optional header at `opt` and its data directories at `dirBase`. -/
structure IsPe (bytes : Bytes) (opt dirBase : ℕ) : Prop where
  dos : 0x40 ≤ bytes.length
  mz : bytes.take 2 = [0x4d, 0x5a]
  opt_eq : opt = fieldAt bytes 0x3c 4 + 24
  signature : (bytes.drop (fieldAt bytes 0x3c 4)).take 4 = [0x50, 0x45, 0, 0]
  room : opt + 0x70 ≤ bytes.length
  dirs : ∃ k, dirOffset (fieldAt bytes opt 2) = some k ∧ dirBase = opt + k

/-- The position is one of a field. -/
def InField (start size i : ℕ) : Prop := start ≤ i ∧ i < start + size

instance (start size : ℕ) : DecidablePred (InField start size) := fun i =>
  inferInstanceAs (Decidable (start ≤ i ∧ i < start + size))

/-- The position is one of the checksum, of the entry of the certificate table, or of the
certificates, if the file has the entry. -/
def Excluded (bytes : Bytes) (opt dirBase i : ℕ) : Prop :=
  InField (opt + 64) 4 i ∨ InField (dirBase + 32) 8 i ∨
    dirBase + 40 ≤ bytes.length ∧
      InField (fieldAt bytes (dirBase + 32) 4) (fieldAt bytes (dirBase + 36) 4) i

instance (bytes : Bytes) (opt dirBase : ℕ) : DecidablePred (Excluded bytes opt dirBase) := fun _ =>
  inferInstanceAs (Decidable (_ ∨ _ ∨ _ ∧ _))

/-- The bytes at the other positions. -/
def digested (bytes : Bytes) (opt dirBase : ℕ) : Bytes :=
  keepAt (fun i => ¬ Excluded bytes opt dirBase i) 0 bytes

/-- The range of the certificates, if there is one. -/
def certRange (bytes : Bytes) (dirBase : ℕ) : List (ℕ × ℕ) :=
  if dirBase + 40 ≤ bytes.length ∧ fieldAt bytes (dirBase + 36) 4 > 0 ∧
      fieldAt bytes (dirBase + 32) 4 < bytes.length then
    [(fieldAt bytes (dirBase + 32) 4,
      min (fieldAt bytes (dirBase + 32) 4 + fieldAt bytes (dirBase + 36) 4) bytes.length)]
  else []

theorem excludedRanges_eq {opt dirBase : ℕ} (hlen : bytes.length < 2 ^ 63)
    (hopt : opt ≤ bytes.length) (hdir : dirBase ≤ bytes.length + 112) :
    excludedRanges m bytes opt dirBase =
      .ok ([(opt + 64, opt + 68), (dirBase + 32, dirBase + 40)] ++ certRange bytes dirBase) := by
  have hoff := fieldAt_lt bytes (dirBase + 32) 4
  have hcert := fieldAt_lt bytes (dirBase + 36) 4
  unfold excludedRanges certRange
  rw [Arith.add_of_lt (by omega), ok_bind, Arith.add_of_lt (by omega), ok_bind,
    Arith.add_of_lt (by omega), ok_bind, Arith.add_of_lt (by omega), ok_bind]
  by_cases hroom : dirBase + 40 ≤ bytes.length
  · have hfirst : readLe bytes (dirBase + 32) (dirBase + 36) = .ok (fieldAt bytes (dirBase + 32) 4) :=
      (readLe_eq (by omega) (by omega)).trans (by rw [Nat.add_sub_add_left])
    have hsecond : readLe bytes (dirBase + 36) (dirBase + 40) = .ok (fieldAt bytes (dirBase + 36) 4) :=
      (readLe_eq (by omega) (by omega)).trans (by rw [Nat.add_sub_add_left])
    rw [if_pos hroom, Arith.add_of_lt (by omega), ok_bind, hfirst, ok_bind, hsecond, ok_bind]
    by_cases hin : fieldAt bytes (dirBase + 36) 4 > 0 ∧ fieldAt bytes (dirBase + 32) 4 < bytes.length
    · rw [if_pos hin, if_pos ⟨hroom, hin⟩, Arith.add_of_lt (by omega)]
      rfl
    · rw [if_neg hin, if_neg fun h => hin h.2]
      rfl
  · rw [if_neg hroom, if_neg fun h => hroom h.1]
    rfl

theorem outside_iff {opt dirBase i : ℕ} (hi : i < bytes.length) :
    Outside ([(opt + 64, opt + 68), (dirBase + 32, dirBase + 40)] ++ certRange bytes dirBase) i ↔
      ¬ Excluded bytes opt dirBase i := by
  have hcert : Outside (certRange bytes dirBase) i ↔ ¬ (dirBase + 40 ≤ bytes.length ∧
      InField (fieldAt bytes (dirBase + 32) 4) (fieldAt bytes (dirBase + 36) 4) i) := by
    unfold certRange
    split
    · next h =>
      rw [outside_cons, and_iff_left outside_nil]
      unfold InField
      omega
    · next h =>
      refine iff_of_true outside_nil fun h' => ?_
      unfold InField at h'
      omega
  show Outside ((opt + 64, opt + 68) :: (dirBase + 32, dirBase + 40) :: certRange bytes dirBase) i ↔ _
  rw [outside_cons, outside_cons, hcert]
  unfold Excluded InField
  dsimp only
  omega

theorem hashedBytes_excluded (bytes : Bytes) (opt dirBase : ℕ) :
    hashedBytes bytes ([(opt + 64, opt + 68), (dirBase + 32, dirBase + 40)] ++
      certRange bytes dirBase) = .ok (digested bytes opt dirBase) := by
  rw [hashedBytes_eq fun r hr => ?_]
  · refine congrArg Except.ok (keepAt_congr fun _ _ hi => outside_iff ?_)
    rwa [Nat.zero_add] at hi
  · rcases List.mem_append.mp hr with hr | hr
    · rcases List.mem_pair.mp hr with rfl | rfl
      · exact Nat.add_le_add_left (by decide) opt
      · exact Nat.add_le_add_left (by decide) dirBase
    · unfold certRange at hr
      split at hr
      · obtain rfl := List.mem_singleton.mp hr
        dsimp only
        omega
      · exact absurd hr List.not_mem_nil

/-- The digest of a PE file. -/
theorem peAuthentihash_of_isPe {opt dirBase : ℕ} (hlen : bytes.length < 2 ^ 63)
    (h : IsPe bytes opt dirBase) : peAuthentihash m x bytes =
      .ok (some (hexEncode (x.sha256 (digested bytes opt dirBase)))) := by
  have hdos := h.dos
  have hroom := h.room
  have hopt := h.opt_eq
  have hoff := fieldAt_lt bytes 0x3c 4
  obtain ⟨k, hk, hdir⟩ := h.dirs
  have hle := dirOffset_le hk
  have hread : readLe bytes 0x3c 0x40 = .ok (fieldAt bytes 0x3c 4) := readLe_eq (by decide) hdos
  have hsignature : checkedRange bytes (fieldAt bytes 0x3c 4) (fieldAt bytes 0x3c 4 + 4) =
      .ok [0x50, 0x45, 0, 0] := by
    refine checkedRange_eq_ok.mpr ⟨⟨by omega, by omega⟩, ?_⟩
    rw [List.drop_take, Nat.add_sub_cancel_left, h.signature]
  have hmagic : readLe bytes opt (opt + 2) = .ok (fieldAt bytes opt 2) :=
    (readLe_eq (by omega) (by omega)).trans (by rw [Nat.add_sub_cancel_left])
  have hat : authentihashAt m x bytes opt =
      .ok (some (hexEncode (x.sha256 (digested bytes opt dirBase)))) := by
    rw [authentihashAt, Arith.add_of_lt (by omega), ok_bind, hmagic, ok_bind, hk]
    show (m.add 64 opt k >>= _) = _
    rw [Arith.add_of_lt (by omega), ok_bind, ← hdir, excludedRanges_eq hlen (by omega) (by omega),
      ok_bind, hashedBytes_excluded]
    rfl
  rw [peAuthentihash, if_neg (by rw [h.mz]; simpa using hdos), hread, ok_bind,
    Arith.add_of_lt (by omega), ok_bind, if_neg (by omega), Arith.add_of_lt (by omega), ok_bind,
    hsignature, ok_bind, if_neg (fun hne => hne rfl), ok_bind, ← hopt,
    Arith.add_of_lt (by omega), ok_bind, if_neg (by omega)]
  exact hat

/-- Only a PE file has a digest. -/
theorem isPe_of_peAuthentihash {hash : String}
    (h : peAuthentihash m x bytes = .ok (some hash)) : ∃ opt dirBase, IsPe bytes opt dirBase := by
  have hoff := fieldAt_lt bytes 0x3c 4
  unfold peAuthentihash at h
  split at h
  · cases h
  · next hhead =>
    obtain ⟨hdos, hmz⟩ := not_or.mp hhead
    have hdos : 0x40 ≤ bytes.length := Nat.not_lt.mp hdos
    have hread : readLe bytes 0x3c 0x40 = .ok (fieldAt bytes 0x3c 4) := readLe_eq (by decide) hdos
    rw [hread, ok_bind, Arith.add_of_lt (by omega), ok_bind] at h
    split at h
    · cases h
    · next hheader =>
      rw [Arith.add_of_lt (by omega), ok_bind] at h
      obtain ⟨signature, hsignature, h⟩ := bind_eq_ok.mp h
      obtain ⟨-, rfl⟩ := checkedRange_eq_ok.mp hsignature
      split at h
      · cases h
      · next hpe =>
        rw [ok_bind, Arith.add_of_lt (by omega), ok_bind] at h
        split at h
        · cases h
        · next hroom =>
          rw [authentihashAt, Arith.add_of_lt (by omega), ok_bind, readLe_eq (by omega) (by omega),
            ok_bind, Nat.add_sub_cancel_left] at h
          cases hk : dirOffset (fieldAt bytes (fieldAt bytes 0x3c 4 + 24) 2) with
          | none =>
            rw [hk] at h
            cases h
          | some k =>
            refine ⟨_, _, hdos, not_not.mp hmz, rfl, ?_, Nat.not_lt.mp hroom, k, hk, rfl⟩
            rw [List.drop_take, Nat.add_sub_cancel_left] at hpe
            exact not_not.mp hpe

/-! ### Signing -/

/-- The file with a checksum, and with certificates at its end. -/
def signedFile (bytes : Bytes) (opt dirBase : ℕ) (checkSum cert : Bytes) : Bytes :=
  overwrite (overwrite bytes (opt + 64) checkSum) (dirBase + 32)
    (toLe 4 bytes.length ++ toLe 4 cert.length) ++ cert

/-- What a signed file keeps of the file. -/
structure SignedOf (bytes signed : Bytes) (opt dirBase : ℕ) (cert : Bytes) : Prop where
  length_eq : signed.length = bytes.length + cert.length
  field_eq : ∀ start size, start + size ≤ opt + 64 →
    (signed.drop start).take size = (bytes.drop start).take size
  certOff : fieldAt signed (dirBase + 32) 4 = bytes.length
  certLen : fieldAt signed (dirBase + 36) 4 = cert.length

variable {opt dirBase : ℕ} {checkSum cert : Bytes}

theorem length_certEntry (offset size : ℕ) : (toLe 4 offset ++ toLe 4 size).length = 8 := by
  rw [List.length_append, length_toLe, length_toLe]

/-- Neither the checksum nor the entry changes the length. -/
theorem length_headers (hdir : opt + 68 ≤ dirBase + 32) (hroom : dirBase + 40 ≤ bytes.length)
    (hsum : checkSum.length = 4) :
    (overwrite bytes (opt + 64) checkSum).length = bytes.length ∧
      (overwrite (overwrite bytes (opt + 64) checkSum) (dirBase + 32)
        (toLe 4 bytes.length ++ toLe 4 cert.length)).length = bytes.length := by
  have hentry := length_certEntry bytes.length cert.length
  have hfirst : (overwrite bytes (opt + 64) checkSum).length = bytes.length :=
    length_overwrite (by omega)
  exact ⟨hfirst, (length_overwrite (by omega)).trans hfirst⟩

theorem signedOf (hdir : opt + 68 ≤ dirBase + 32) (hroom : dirBase + 40 ≤ bytes.length)
    (hsum : checkSum.length = 4) (hlen : bytes.length < 2 ^ 32) (hcert : cert.length < 2 ^ 32) :
    SignedOf bytes (signedFile bytes opt dirBase checkSum cert) opt dirBase cert := by
  have hentry := length_certEntry bytes.length cert.length
  obtain ⟨hfirst, hboth⟩ := @length_headers _ opt dirBase checkSum cert (by omega) hroom hsum
  -- The entry is read as it was written.
  have hread (pos n : ℕ) (h : pos + n ≤ 8) :
      ((signedFile bytes opt dirBase checkSum cert).drop (dirBase + 32 + pos)).take n =
        ((toLe 4 bytes.length ++ toLe 4 cert.length).drop pos).take n := by
    rw [signedFile, field_append (by omega), ← field_field _ _ h]
    congr 2
    rw [← hentry, field_overwrite (by omega)]
  refine ⟨?_, fun start size h => ?_, ?_, ?_⟩
  · rw [signedFile, List.length_append, hboth]
  · rw [signedFile, field_append (by omega), field_overwrite_before (by omega) (by omega),
      field_overwrite_before (by omega) (by omega)]
  · rw [fieldAt, ← Nat.add_zero (dirBase + 32), hread 0 4 (by decide), List.drop_zero,
      List.take_left' (length_toLe 4 _), fromLe_toLe_mod,
      Nat.mod_eq_of_lt (show bytes.length < 256 ^ 4 by omega)]
  · rw [fieldAt, hread 4 4 (by decide), List.drop_left' (length_toLe 4 _),
      List.take_of_length_le (length_toLe 4 _).le, fromLe_toLe_mod,
      Nat.mod_eq_of_lt (show cert.length < 256 ^ 4 by omega)]

/-- The headers that are read lie before the checksum. -/
theorem SignedOf.isPe {signed : Bytes} (h : SignedOf bytes signed opt dirBase cert)
    (hpe : IsPe bytes opt dirBase) : IsPe signed opt dirBase := by
  have hlen := h.length_eq
  have hdos := hpe.dos
  have hroom := hpe.room
  have hopt := hpe.opt_eq
  have hoff : fieldAt signed 0x3c 4 = fieldAt bytes 0x3c 4 := congrArg fromLe (h.field_eq _ _ (by omega))
  refine ⟨by omega, ?_, ?_, ?_, by omega, ?_⟩
  · exact (h.field_eq 0 2 (by omega)).trans hpe.mz
  · rw [hoff, hopt]
  · rw [hoff, h.field_eq _ _ (by omega), hpe.signature]
  · have hmagic : fieldAt signed opt 2 = fieldAt bytes opt 2 := congrArg fromLe (h.field_eq _ _ (by omega))
    rw [hmagic]
    exact hpe.dirs

theorem IsPe.dirBase_ge (h : IsPe bytes opt dirBase) : opt + 96 ≤ dirBase := by
  obtain ⟨k, hk, hdir⟩ := h.dirs
  unfold dirOffset at hk
  split at hk
  · obtain rfl := Option.some.inj hk
    omega
  · split at hk
    · obtain rfl := Option.some.inj hk
      omega
    · cases hk

/-- Signing changes only what is left out. -/
theorem digested_signedFile (hpe : IsPe bytes opt dirBase) (hroom : dirBase + 40 ≤ bytes.length)
    (hzero : fieldAt bytes (dirBase + 36) 4 = 0) (hsum : checkSum.length = 4)
    (hlen : bytes.length < 2 ^ 32) (hcert : cert.length < 2 ^ 32) :
    digested (signedFile bytes opt dirBase checkSum cert) opt dirBase = digested bytes opt dirBase := by
  have hdir := hpe.dirBase_ge
  have h := @signedOf _ opt dirBase checkSum cert (by omega) hroom hsum hlen hcert
  have hentry := length_certEntry bytes.length cert.length
  obtain ⟨hfirst, hboth⟩ := @length_headers _ opt dirBase checkSum cert (by omega) hroom hsum
  have hexcluded (i : ℕ) : Excluded (signedFile bytes opt dirBase checkSum cert) opt dirBase i ↔
      InField (opt + 64) 4 i ∨ InField (dirBase + 32) 8 i ∨
        InField bytes.length cert.length i := by
    unfold Excluded
    rw [h.certOff, h.certLen, h.length_eq, and_iff_right (by omega)]
  have hold (i : ℕ) : Excluded bytes opt dirBase i ↔
      InField (opt + 64) 4 i ∨ InField (dirBase + 32) 8 i := by
    unfold Excluded InField
    rw [hzero]
    omega
  have hkept : ∀ i, 0 ≤ i → i < 0 + bytes.length →
      (¬ Excluded (signedFile bytes opt dirBase checkSum cert) opt dirBase i ↔
        ¬ Excluded bytes opt dirBase i) := by
    intro i _ hi
    rw [hexcluded, hold]
    unfold InField
    omega
  have htail : keepAt (fun i => ¬ Excluded (signedFile bytes opt dirBase checkSum cert) opt dirBase i)
      (0 + bytes.length) cert = [] := by
    refine keepAt_of_none fun i hlo hhi hi => hi ((hexcluded i).mpr ?_)
    unfold InField
    omega
  -- The bytes of the file come first, the certificates after them are all left out.
  have hsplit : digested (signedFile bytes opt dirBase checkSum cert) opt dirBase =
      keepAt (fun i => ¬ Excluded bytes opt dirBase i) 0 (overwrite
        (overwrite bytes (opt + 64) checkSum) (dirBase + 32)
        (toLe 4 bytes.length ++ toLe 4 cert.length)) := by
    have happend := keepAt_append
      (p := fun i => ¬ Excluded (signedFile bytes opt dirBase checkSum cert) opt dirBase i)
      (overwrite (overwrite bytes (opt + 64) checkSum) (dirBase + 32)
        (toLe 4 bytes.length ++ toLe 4 cert.length)) cert 0
    rw [hboth, htail, List.append_nil] at happend
    refine happend.trans (keepAt_congr ?_)
    rwa [hboth]
  rw [hsplit, digested, keepAt_overwrite (by omega), keepAt_overwrite (by omega)]
  · intro i hlo hhi hi
    refine hi ((hold i).mpr (Or.inl ⟨hlo, ?_⟩))
    omega
  · intro i hlo hhi hi
    refine hi ((hold i).mpr (Or.inr ⟨hlo, ?_⟩))
    omega

/-! ### The hash input -/

/-- The authentihash of the file is that of these bytes, whatever the digest. -/
def Hashes (m : Arith) (bytes input : Bytes) : Prop :=
  ∀ x : Extractor, peAuthentihash m x bytes = .ok (some (hexEncode (x.sha256 input)))

theorem Hashes.unique {a b : Bytes} (x : Extractor) (ha : Hashes m bytes a) (hb : Hashes m bytes b) :
    a = b := by
  have heq := (ha { x with sha256 := id }).symm.trans (hb { x with sha256 := id })
  exact hexEncode_injective (Option.some.inj (Except.ok.inj heq))

/-- **The authentihash is that of the bytes outside the checksum, the entry of the certificate
table and the certificates, and signing a file that is not signed leaves them as they are.** -/
theorem authentihash_of_outside (m : Arith) (bytes : ByteSlice) :
    (∀ x hash, peAuthentihash m x bytes.val = .ok (some hash) →
      ∃ opt dirBase, IsPe bytes.val opt dirBase ∧
        Hashes m bytes.val (digested bytes.val opt dirBase)) ∧
    ∀ opt dirBase, IsPe bytes.val opt dirBase → dirBase + 40 ≤ bytes.val.length →
      (bytes.val.drop (dirBase + 32)).take 8 = List.replicate 8 0 →
      ∀ checkSum cert : Bytes, checkSum.length = 4 → bytes.val.length < 2 ^ 32 →
        cert.length < 2 ^ 32 →
        Hashes m (signedFile bytes.val opt dirBase checkSum cert) (digested bytes.val opt dirBase) := by
  refine ⟨fun x hash h => ?_, fun opt dirBase hpe hroom hzero checkSum cert hsum hlen hcert x => ?_⟩
  · obtain ⟨opt, dirBase, hpe⟩ := isPe_of_peAuthentihash h
    exact ⟨opt, dirBase, hpe, fun x => peAuthentihash_of_isPe bytes.property hpe⟩
  · have hdir := hpe.dirBase_ge
    have hsigned := @signedOf _ opt dirBase checkSum cert (by omega) hroom hsum hlen hcert
    have hentry : fieldAt bytes.val (dirBase + 36) 4 = 0 := by
      have hpart := field_field bytes.val (dirBase + 32) (Nat.le_refl (4 + 4))
      rw [fieldAt, ← hpart, hzero]
      rfl
    rw [peAuthentihash_of_isPe (by rw [hsigned.length_eq]; omega) (hsigned.isPe hpe),
      digested_signedFile hpe hroom hentry hsum hlen hcert]

/-- The headers of a PE file, up to the entry of the certificate table. -/
def tinyPe : Bytes :=
  [0x4d, 0x5a] ++ List.replicate 58 0 ++ [0x40, 0, 0, 0] ++ [0x50, 0x45, 0, 0] ++
    List.replicate 20 0 ++ [0x0b, 0x01] ++ List.replicate 134 0

theorem isPe_tinyPe : IsPe tinyPe 88 184 :=
  ⟨by decide +kernel, by decide +kernel, by decide +kernel, by decide +kernel, by decide +kernel,
    96, by decide +kernel, rfl⟩

theorem authentihash_of_outside_signed :
    Hashes .checked (signedFile tinyPe 88 184 [1, 2, 3, 4] [0x30, 0x82]) (digested tinyPe 88 184) :=
  (authentihash_of_outside .checked ⟨tinyPe, by decide +kernel⟩).2 88 184 isPe_tinyPe
    (by decide +kernel) (by decide +kernel) [1, 2, 3, 4] [0x30, 0x82] rfl (by decide +kernel)
    (by decide +kernel)

end Corpus
