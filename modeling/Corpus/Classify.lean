/-
The class of a file from its first bytes (`classify_path` of `classify.rs`).

A single `read` fills a part of the buffer, and only that part is classified.  The server
classifies all the bytes of an upload.

* `classify_take`, `classify_take_short` — the class of a prefix is that of the file, or unknown;
* `classify_path_iff` — the two classes agree exactly when the prefix has what the class rests on.
-/
import Corpus.Basic

namespace Corpus

/-- A piece at a place of a prefix is a piece at that place, if the prefix reaches so far. -/
theorem take_drop_take {α : Type*} {l w : List α} {i n : ℕ} (hw : w ≠ []) :
    ((l.take n).drop i).take w.length = w ↔
      (l.drop i).take w.length = w ∧ i + w.length ≤ n := by
  have hpos := List.length_pos_iff.mpr hw
  rw [List.drop_take, List.take_take]
  constructor
  · intro h
    have hlen := congrArg List.length h
    rw [List.length_take] at hlen
    have hmin : min w.length (n - i) = w.length := by omega
    rw [hmin] at h
    exact ⟨h, by omega⟩
  · rintro ⟨h, hle⟩
    have hmin : min w.length (n - i) = w.length := by omega
    rwa [hmin]

/-- `buf`: what the first `read` may return of a file. -/
structure FirstRead (content : Bytes) where
  n : ℕ
  le_buf : n ≤ 4096
  le_length : n ≤ content.length

/-- `classify_path`, behind the first `read`. -/
def classifyPath (content : Bytes) (read : FirstRead content) : ArtifactClass :=
  classify (content.take read.n)

/-- The magic numbers of four bytes. -/
def magics : List Bytes :=
  [[0x7f, 0x45, 0x4c, 0x46], [0xfe, 0xed, 0xfa, 0xce], [0xfe, 0xed, 0xfa, 0xcf],
    [0xce, 0xfa, 0xed, 0xfe], [0xcf, 0xfa, 0xed, 0xfe], [0xca, 0xfe, 0xba, 0xbe],
    [0xbe, 0xba, 0xfe, 0xca]]

/-- `MZ`, and the signature where `e_lfanew` points. -/
def HasPeSignature (content : Bytes) : Prop :=
  0x40 ≤ content.length ∧ content.take 2 = [0x4d, 0x5a] ∧
    eLfanew content + 4 ≤ content.length ∧
    (content.drop (eLfanew content)).take 4 = [0x50, 0x45, 0, 0]

/-- The first `n` bytes have what the class of the content rests on. -/
structure HeaderWithin (content : Bytes) (n : ℕ) : Prop where
  magic : content.take 4 ∈ magics → 4 ≤ n
  pe : HasPeSignature content → 0x40 ≤ n ∧ eLfanew content + 4 ≤ n
  script : content.take 2 = [0x23, 0x21] → 2 ≤ n

section Prefixes

variable {content : Bytes} {n : ℕ}

theorem take_four_take {m : Bytes} (hm : m.length = 4) :
    (content.take n).take 4 = m ↔ content.take 4 = m ∧ 4 ≤ n := by
  have h := @take_drop_take _ content m 0 n (by rintro rfl; cases hm)
  simpa [hm] using h

theorem take_two_take {m : Bytes} (hm : m.length = 2) :
    (content.take n).take 2 = m ↔ content.take 2 = m ∧ 2 ≤ n := by
  have h := @take_drop_take _ content m 0 n (by rintro rfl; cases hm)
  simpa [hm] using h

/-- The pointer is within the first `0x40` bytes. -/
theorem eLfanew_take (hn : 0x40 ≤ n) : eLfanew (content.take n) = eLfanew content := by
  obtain ⟨k, rfl⟩ := Nat.exists_eq_add_of_le hn
  have hdrop : (content.take (0x40 + k)).drop 0x3c = (content.drop 0x3c).take (4 + k) := by
    rw [List.drop_take]
    congr 1
    omega
  unfold eLfanew
  rw [hdrop]
  generalize content.drop 0x3c = l
  rcases l with _ | ⟨a, _ | ⟨b, _ | ⟨c, _ | ⟨d, l⟩⟩⟩⟩ <;> simp [Nat.add_comm 4]

theorem hasPeSignature_take (hn : n ≤ content.length) :
    HasPeSignature (content.take n) ↔
      HasPeSignature content ∧ 0x40 ≤ n ∧ eLfanew content + 4 ≤ n := by
  have hlen : (content.take n).length = n := List.length_take_of_le hn
  unfold HasPeSignature
  rw [hlen, take_two_take rfl]
  by_cases h40 : 0x40 ≤ n
  · have hsig := @take_drop_take _ content [0x50, 0x45, 0, 0] (eLfanew content) n (by simp)
    simp only [List.length_cons, List.length_nil] at hsig
    rw [eLfanew_take h40, hsig]
    constructor
    · rintro ⟨-, ⟨hmz, -⟩, hle, hat, -⟩
      exact ⟨⟨by omega, hmz, by omega, hat⟩, h40, hle⟩
    · rintro ⟨⟨-, hmz, -, hat⟩, -, hle⟩
      exact ⟨h40, ⟨hmz, by omega⟩, hle, hat, by omega⟩
  · exact iff_of_false (fun h => h40 h.1) fun h => h40 h.2.1

/-- A magic number is neither `MZ` nor `#!`. -/
theorem take_two_of_magic (h : content.take 4 ∈ magics) :
    content.take 2 ≠ [0x4d, 0x5a] ∧ content.take 2 ≠ [0x23, 0x21] := by
  have htwo : content.take 2 = (content.take 4).take 2 := by
    rw [List.take_take]
    rfl
  rw [htwo]
  generalize content.take 4 = m at h
  revert m
  decide

theorem classify_of_magic (h : content.take 4 ∈ magics) :
    classify content = classify (content.take 4) ∧ classify content ≠ .unknown := by
  have htake : (content.take 4).take 4 = content.take 4 := by
    rw [List.take_take, Nat.min_self]
  unfold classify
  dsimp only
  rw [htake]
  generalize content.take 4 = m at h
  simp only [magics, List.mem_cons, List.not_mem_nil, or_false] at h
  obtain rfl | rfl | rfl | rfl | rfl | rfl | rfl := h <;> simp

/-- Without a magic number the signature decides, and behind it the first two bytes. -/
theorem classify_of_not_magic (h : content.take 4 ∉ magics) :
    (HasPeSignature content → classify content = .pe) ∧
      (¬ HasPeSignature content → classify content =
        if content.take 2 = [0x23, 0x21] then .script else .unknown) := by
  simp only [magics, List.mem_cons, List.not_mem_nil, or_false, not_or] at h
  unfold HasPeSignature classify
  dsimp only
  rw [if_neg h.1, if_neg (by simp [h]), if_neg (by simp [h])]
  exact ⟨fun hpe => if_pos hpe, fun hpe => if_neg hpe⟩

theorem classify_of_pe (h : HasPeSignature content) : classify content = .pe :=
  (classify_of_not_magic fun hm => (take_two_of_magic hm).1 h.2.1).1 h

theorem classify_of_script (h : content.take 2 = [0x23, 0x21]) : classify content = .script := by
  have hpe : ¬ HasPeSignature content := by
    intro hp
    rw [hp.2.1] at h
    exact absurd h (by decide)
  rw [(classify_of_not_magic fun hm => (take_two_of_magic hm).2 h).2 hpe, if_pos h]

theorem classify_of_none (hmagic : content.take 4 ∉ magics) (hpe : ¬ HasPeSignature content)
    (hscript : content.take 2 ≠ [0x23, 0x21]) : classify content = .unknown := by
  rw [(classify_of_not_magic hmagic).2 hpe, if_neg hscript]

theorem length_of_magic {m : Bytes} (h : m ∈ magics) : m.length = 4 := by
  revert m
  decide

/-- What a prefix shows, the file has. -/
theorem magic_of_take (h : (content.take n).take 4 ∈ magics) : content.take 4 ∈ magics ∧ 4 ≤ n := by
  obtain ⟨heq, hn⟩ := (take_four_take (length_of_magic h)).mp rfl
  rw [← heq] at h
  exact ⟨h, hn⟩

/-- The prefix has the class of the file when it has what that rests on. -/
theorem classify_take (hn : n ≤ content.length) (h : HeaderWithin content n) :
    classify (content.take n) = classify content := by
  by_cases hmagic : content.take 4 ∈ magics
  · have htake : (content.take n).take 4 = content.take 4 :=
      (take_four_take (length_of_magic hmagic)).mpr ⟨rfl, h.magic hmagic⟩
    rw [(classify_of_magic hmagic).1, (classify_of_magic (htake ▸ hmagic)).1, htake]
  · by_cases hpe : HasPeSignature content
    · rw [classify_of_pe hpe, classify_of_pe ((hasPeSignature_take hn).mpr ⟨hpe, h.pe hpe⟩)]
    · by_cases hscript : content.take 2 = [0x23, 0x21]
      · rw [classify_of_script hscript,
          classify_of_script ((take_two_take rfl).mpr ⟨hscript, h.script hscript⟩)]
      · rw [classify_of_none hmagic hpe hscript]
        refine classify_of_none (fun hm => hmagic (magic_of_take hm).1) ?_ ?_
        · exact fun hp => hpe ((hasPeSignature_take hn).mp hp).1
        · exact fun hs => hscript ((take_two_take rfl).mp hs).1

/-- A prefix without it is unknown, and the file is not. -/
theorem classify_take_short (hn : n ≤ content.length) (h : ¬ HeaderWithin content n) :
    classify (content.take n) = .unknown ∧ classify content ≠ .unknown := by
  by_cases hmagic : content.take 4 ∈ magics
  · obtain ⟨hmz, hhash⟩ := take_two_of_magic hmagic
    have hshort : ¬ 4 ≤ n := fun h4 =>
      h ⟨fun _ => h4, fun hp => absurd hp.2.1 hmz, fun hs => absurd hs hhash⟩
    refine ⟨classify_of_none ?_ ?_ ?_, (classify_of_magic hmagic).2⟩
    · exact fun hm => hshort (magic_of_take hm).2
    · exact fun hp => hmz ((hasPeSignature_take hn).mp hp).1.2.1
    · exact fun hs => hhash ((take_two_take rfl).mp hs).1
  · by_cases hpe : HasPeSignature content
    · have hhash : content.take 2 ≠ [0x23, 0x21] := by
        rw [hpe.2.1]
        decide
      refine ⟨classify_of_none (fun hm => hmagic (magic_of_take hm).1) ?_ ?_, ?_⟩
      · intro hp
        obtain ⟨-, hreach⟩ := (hasPeSignature_take hn).mp hp
        exact h ⟨fun hm => absurd hm hmagic, fun _ => hreach, fun hs => absurd hs hhash⟩
      · exact fun hs => hhash ((take_two_take rfl).mp hs).1
      · rw [classify_of_pe hpe]
        decide
    · by_cases hscript : content.take 2 = [0x23, 0x21]
      · refine ⟨classify_of_none (fun hm => hmagic (magic_of_take hm).1) ?_ ?_, ?_⟩
        · exact fun hp => hpe ((hasPeSignature_take hn).mp hp).1
        · intro hs
          have hreach := ((take_two_take rfl).mp hs).2
          exact h ⟨fun hm => absurd hm hmagic, fun hp => absurd hp hpe, fun _ => hreach⟩
        · rw [classify_of_script hscript]
          decide
      · -- Nothing in the file asks for more than the prefix has.
        exact absurd ⟨fun hm => absurd hm hmagic, fun hp => absurd hp hpe,
          fun hs => absurd hs hscript⟩ h

end Prefixes

/-- The class from one `read` is the class from all the bytes, which the server assigns, if and
only if the bytes read have what that class rests on. -/
theorem classify_path_iff (content : Bytes) (read : FirstRead content) :
    classifyPath content read = classify content ↔ HeaderWithin content read.n := by
  constructor
  · intro heq
    by_contra h
    obtain ⟨hunknown, hknown⟩ := classify_take_short read.le_length h
    exact hknown (heq ▸ hunknown)
  · exact classify_take read.le_length

/-- A PE header of `0x40` bytes, with `e_lfanew` at `4096`. -/
def farHeader : Bytes := [0x4d, 0x5a] ++ List.replicate 58 0 ++ [0x00, 0x10, 0x00, 0x00]

/-- The signature stands right behind a full buffer. -/
def farPe : Bytes := farHeader ++ List.replicate 4032 0 ++ [0x50, 0x45, 0x00, 0x00]

theorem length_farPe : farPe.length = 4100 := by
  simp only [farPe, farHeader, List.length_append, List.length_replicate, List.length_cons,
    List.length_nil]

theorem hasPeSignature_farPe : HasPeSignature farPe := by
  have hptr : eLfanew farPe = 4096 := by rfl
  have hsplit : farPe.drop 4096 = [0x50, 0x45, 0x00, 0x00] :=
    List.drop_left' (by simp only [farHeader, List.length_append, List.length_replicate,
      List.length_cons, List.length_nil])
  refine ⟨by rw [length_farPe]; omega, rfl, ?_, ?_⟩
  · exact hptr ▸ Nat.le_of_eq length_farPe.symm
  · exact hptr ▸ congrArg (List.take 4) hsplit

/-- A file whose signature is past the first 4096 bytes is no PE to `classify_path`. -/
theorem far_pe_missed :
    ¬ ∀ (content : Bytes) (read : FirstRead content),
      classifyPath content read = classify content := by
  intro h
  have hfull : 4096 ≤ farPe.length := by
    rw [length_farPe]
    omega
  -- The pointer is past what the buffer holds.
  have hshort : ¬ HeaderWithin farPe 4096 := by
    intro hw
    have hptr : eLfanew farPe = 4096 := by rfl
    have hreach := (hw.pe hasPeSignature_farPe).2
    omega
  obtain ⟨hunknown, hknown⟩ := classify_take_short hfull hshort
  have heq := h farPe ⟨4096, by omega, hfull⟩
  exact hknown (heq ▸ hunknown)

end Corpus
