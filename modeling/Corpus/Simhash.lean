/-
Signatures of functions (`signature` and `similarity` of `semantic/features.rs`).

A signature has 256 bits, one for each bit of a digest: it is the vote of the tokens, by the digest
of each of them.

* `margin`, `changed` — votes for less votes against, and what tells two polls apart, in general;
* `bitOn_signature` — a bit is on just if more than half of the digests have it;
* `similarity_eq` — the similarity is the share of the bits that agree;
* `signature_stable` — so two bodies that share most of their tokens have similar signatures: only
  bits whose vote was close can differ.

The similarity is a fraction of 256, which floating point does not round.
-/
import Corpus.Features
import Mathlib.Algebra.Order.Field.Rat
import Mathlib.Data.Multiset.OrderedMonoid
import Mathlib.Tactic.Linarith
import Mathlib.Tactic.Ring

namespace Corpus.Features

/-! ### Polls -/

section Polls

variable {α : Type}

/-- Votes for less votes against. -/
def margin (on : α → Bool) (l : List α) : ℤ := (l.map fun a => if on a then 1 else -1).sum

theorem margin_eq (on : α → Bool) (l : List α) : margin on l = 2 * l.countP on - l.length := by
  unfold margin
  induction l with
  | nil => rfl
  | cons a l ih =>
    rw [List.map_cons, List.sum_cons, ih, List.countP_cons, List.length_cons]
    by_cases h : on a = true
    · rw [if_pos h, if_pos h]
      push_cast
      ring
    · rw [if_neg h, if_neg h]
      push_cast
      ring

variable [DecidableEq α]

/-- How many voters are in one of two polls only. -/
def changed (a b : List α) : ℕ := ((a : Multiset α) - b).card + ((b : Multiset α) - a).card

/-- A margin moves by no more than the voters that have changed. -/
theorem margin_changed (on : α → Bool) (a b : List α) :
    margin on a - changed a b ≤ margin on b ∧ margin on b ≤ margin on a + changed a b := by
  have hsplit : ∀ x y : List α, x.countP on = ((x : Multiset α) - y).countP (fun v => on v = true) +
      ((x : Multiset α) ∩ y).countP (fun v => on v = true) ∧
      x.length = ((x : Multiset α) - y).card + ((x : Multiset α) ∩ y).card := by
    intro x y
    have hx := Multiset.sub_add_inter (x : Multiset α) y
    rw [← Multiset.countP_add, ← Multiset.card_add, hx]
    exact ⟨by simp, by simp⟩
  obtain ⟨hona, hlena⟩ := hsplit a b
  obtain ⟨honb, hlenb⟩ := hsplit b a
  have hle := Multiset.countP_le_card (fun v => on v = true) ((a : Multiset α) - b)
  have hle' := Multiset.countP_le_card (fun v => on v = true) ((b : Multiset α) - a)
  rw [Multiset.inter_comm] at honb hlenb
  rw [margin_eq, margin_eq, hona, hlena, honb, hlenb]
  unfold changed
  push_cast
  omega

end Polls

/-! ### Bits -/

theorem bitOn_cons (x : UInt8) (xs : Bytes) (bit : ℕ) :
    (bit < 8 → bitOn (x :: xs) bit = x.toBitVec.getLsbD bit) ∧
      bitOn (x :: xs) (8 + bit) = bitOn xs bit := by
  unfold bitOn
  constructor
  · intro hbit
    rw [Nat.div_eq_of_lt hbit, Nat.mod_eq_of_lt hbit]
    rfl
  · rw [Nat.add_div_left bit (by decide), Nat.add_mod_left]
    rfl

theorem getLsbD_shift {i j : ℕ} (hi : i < 8) (hj : j < 8) :
    ((1 : UInt8) <<< UInt8.ofNat i).toBitVec.getLsbD j = decide (i = j) := by
  have hall : ∀ k l : Fin 8,
      ((1 : UInt8) <<< UInt8.ofNat k).toBitVec.getLsbD l = decide ((k : ℕ) = l) := by decide
  exact hall ⟨i, hi⟩ ⟨j, hj⟩

/-- Setting a bit sets that one. -/
theorem bitOn_setBit {sig : Bytes} {bit : ℕ} (hbit : bit < 8 * sig.length) (b : ℕ) :
    bitOn (setBit sig bit) b = (bitOn sig b || decide (bit = b)) := by
  have hdiv : bit / 8 < sig.length := by omega
  unfold bitOn setBit
  rw [List.getD_eq_getElem?_getD, List.getD_eq_getElem?_getD, List.getElem?_modify]
  by_cases hsame : bit / 8 = b / 8
  · rw [← hsame, List.getElem?_eq_getElem hdiv]
    simp only [Option.map_eq_map, Option.map_some, Option.getD_some, if_true,
      UInt8.toBitVec_or, BitVec.getLsbD_or,
      getLsbD_shift (Nat.mod_lt bit (by decide)) (Nat.mod_lt b (by decide))]
    congr 1
    exact decide_eq_decide.mpr ⟨fun h => by omega, fun h => by omega⟩
  · have hne : ¬ bit = b := fun h => hsame (h ▸ rfl)
    simp [hsame, hne]

theorem length_setBit (sig : Bytes) (bit : ℕ) : (setBit sig bit).length = sig.length :=
  List.length_modify ..

/-- Setting the bits that are wanted. -/
theorem bitOn_setBits (want : ℕ → Prop) [DecidablePred want] (bytes : ℕ) : ∀ n ≤ 8 * bytes,
    let sig := (List.range n).foldl (fun sig bit => if want bit then setBit sig bit else sig)
      (List.replicate bytes 0)
    sig.length = bytes ∧ ∀ b, bitOn sig b = decide (b < n ∧ want b) := by
  intro n
  induction n with
  | zero =>
    intro _
    refine ⟨List.length_replicate, fun b => ?_⟩
    simp [bitOn, List.getD_eq_getElem?_getD, List.getElem?_replicate]
    split <;> simp
  | succ n ih =>
    intro hn
    obtain ⟨hlen, hbits⟩ := ih (by omega)
    rw [List.range_succ, List.foldl_append, List.foldl_cons, List.foldl_nil]
    generalize (List.range n).foldl (fun sig bit => if want bit then setBit sig bit else sig)
      (List.replicate bytes 0) = sig at hlen hbits ⊢
    by_cases hwant : want n
    · rw [if_pos hwant]
      refine ⟨(length_setBit sig n).trans hlen, fun b => ?_⟩
      rw [bitOn_setBit (by omega), hbits, ← Bool.decide_or]
      refine decide_eq_decide.mpr ⟨?_, fun ⟨hlt, hb⟩ => ?_⟩
      · rintro (⟨hlt, hb⟩ | rfl)
        · exact ⟨by omega, hb⟩
        · exact ⟨Nat.lt_succ_self n, hwant⟩
      · rcases Nat.lt_succ_iff_lt_or_eq.mp hlt with hlt | rfl
        · exact .inl ⟨hlt, hb⟩
        · exact .inr rfl
    · rw [if_neg hwant]
      refine ⟨hlen, fun b => (hbits b).trans (decide_eq_decide.mpr ⟨?_, fun ⟨hlt, hb⟩ => ?_⟩)⟩
      · exact fun ⟨hlt, hb⟩ => ⟨by omega, hb⟩
      · rcases Nat.lt_succ_iff_lt_or_eq.mp hlt with hlt | rfl
        · exact ⟨hlt, hb⟩
        · exact absurd hb hwant

/-! ### Votes -/

/-- The token votes for the bit. -/
def votesFor (sha256 : Bytes → Bytes) (bit : ℕ) (token : String) : Bool :=
  bitOn (sha256 token.toUTF8.data.toList) bit

/-- No counter of votes runs over as long as there are less than 2^31 tokens. -/
theorem votes_toInt (sha256 : Bytes → Bytes) (tokens : List String) :
    ∀ (votes : List Int32) (k : ℕ), k + tokens.length < 2 ^ 31 →
      (∀ v ∈ votes, -(k : ℤ) ≤ v.toInt ∧ v.toInt ≤ k) →
    let after := tokens.foldl (fun votes t => vote votes (sha256 t.toUTF8.data.toList)) votes
    after.length = votes.length ∧ ∀ bit v, votes[bit]? = some v →
      ∃ w, after[bit]? = some w ∧ w.toInt = v.toInt + margin (votesFor sha256 bit) tokens := by
  induction tokens with
  | nil => exact fun votes k _ _ => ⟨rfl, fun bit v hv => ⟨v, hv, (add_zero _).symm⟩⟩
  | cons t tokens ih =>
    intro votes k hk hvotes
    rw [List.length_cons] at hk
    have hcount : ∀ (bit : ℕ) (v : Int32), -(k : ℤ) ≤ v.toInt → v.toInt ≤ k →
        (if bitOn (sha256 t.toUTF8.data.toList) bit then v + 1 else v - 1).toInt =
          v.toInt + if votesFor sha256 bit t then 1 else -1 := by
      intro bit v hlo hhi
      have hone : (1 : Int32).toInt = 1 := rfl
      unfold votesFor
      split
      · rw [Int32.toInt_add, hone, Int.bmod_eq_of_le (by omega) (by omega)]
      · rw [Int32.toInt_sub, hone, Int.bmod_eq_of_le (by omega) (by omega)]
        rfl
    rw [List.foldl_cons]
    have hnext : ∀ v ∈ vote votes (sha256 t.toUTF8.data.toList),
        -((k + 1 : ℕ) : ℤ) ≤ v.toInt ∧ v.toInt ≤ (k + 1 : ℕ) := by
      intro w hw
      obtain ⟨bit, hbit, rfl⟩ := List.mem_mapIdx.mp hw
      obtain ⟨hlo, hhi⟩ := hvotes _ (List.getElem_mem hbit)
      rw [hcount bit _ hlo hhi]
      split <;> omega
    obtain ⟨hlen, hafter⟩ := ih _ (k + 1) (by omega) hnext
    refine ⟨hlen.trans (List.length_mapIdx ..), fun bit v hv => ?_⟩
    obtain ⟨hlo, hhi⟩ := hvotes v (List.mem_of_getElem? hv)
    obtain ⟨w, hw, heq⟩ := hafter bit _ (by rw [vote, List.getElem?_mapIdx, hv]; rfl)
    refine ⟨w, hw, ?_⟩
    rw [heq, hcount bit v hlo hhi, margin, margin, List.map_cons, List.sum_cons]
    ring

/-- The signature has the bits with more than zero votes. -/
theorem signature_bits (sha256 : Bytes → Bytes) (tokens : List String) :
    let votes := tokens.foldl (fun votes t => vote votes (sha256 t.toUTF8.data.toList))
      (List.replicate signatureBits 0)
    (signature sha256 tokens).length = signatureBits / 8 ∧ ∀ bit,
      bitOn (signature sha256 tokens) bit =
        decide (bit < signatureBits ∧ 0 < votes.getD bit 0) := by
  intro votes
  have hbits : signatureBits ≤ 8 * (signatureBits / 8) := by decide
  have hsig : signature sha256 tokens = (List.range signatureBits).foldl
      (fun sig bit => if 0 < votes.getD bit 0 then setBit sig bit else sig)
        (List.replicate (signatureBits / 8) 0) := by
    unfold signature
    rfl
  rw [hsig]
  generalize signatureBits / 8 = bytes at hbits ⊢
  generalize signatureBits = bits at hbits ⊢
  exact bitOn_setBits (fun bit => 0 < votes.getD bit 0) bytes bits hbits

/-- A bit of the signature is on just if more tokens vote for it than against. -/
theorem bitOn_signature (sha256 : Bytes → Bytes) {tokens : List String}
    (hlen : tokens.length < 2 ^ 31) (bit : ℕ) : bitOn (signature sha256 tokens) bit =
      decide (bit < signatureBits ∧ 0 < margin (votesFor sha256 bit) tokens) := by
  obtain ⟨-, hvotes⟩ := votes_toInt sha256 tokens (List.replicate signatureBits 0) 0 (by omega) (by
    intro v hv
    obtain rfl := List.eq_of_mem_replicate hv
    decide)
  refine ((signature_bits sha256 tokens).2 bit).trans
    (decide_eq_decide.mpr (and_congr_right fun hbit => ?_))
  obtain ⟨w, hw, heq⟩ := hvotes bit 0 (by rw [List.getElem?_replicate, if_pos hbit])
  have hzero : (0 : Int32).toInt = 0 := rfl
  rw [List.getD_eq_getElem?_getD, hw, Option.getD_some, Int32.lt_iff_toInt_lt, heq, hzero, zero_add]

/-! ### Similarity -/

/-- `count_ones`. -/
def countOnes (x : UInt8) : ℕ := (List.range 8).countP fun j => x.toBitVec.getLsbD j

/-- `similarity`. -/
def similarity (a b : Bytes) : ℚ :=
  1 - (((a.zip b).map fun p => countOnes (p.1 ^^^ p.2)).sum : ℕ) / signatureBits

/-- The bits in which two signatures of the same length differ. -/
theorem sum_countOnes : ∀ {a b : Bytes}, a.length = b.length →
    ((a.zip b).map fun p => countOnes (p.1 ^^^ p.2)).sum =
      (List.range (8 * a.length)).countP fun bit => bitOn a bit != bitOn b bit
  | [], [], _ => rfl
  | x :: a, y :: b, h => by
    have ih := sum_countOnes (Nat.succ.inj h)
    have hlen : 8 * (x :: a).length = 8 + 8 * a.length := by
      rw [List.length_cons]
      omega
    rw [List.zip_cons_cons, List.map_cons, List.sum_cons, ih, hlen, List.range_add,
      List.countP_append, List.countP_map]
    congr 1
    · refine List.countP_congr fun bit hbit => ?_
      have hlt := List.mem_range.mp hbit
      rw [(bitOn_cons x a bit).1 hlt, (bitOn_cons y b bit).1 hlt, UInt8.toBitVec_xor,
        BitVec.getLsbD_xor]
    · refine List.countP_congr fun bit _ => ?_
      rw [Function.comp, (bitOn_cons x a bit).2, (bitOn_cons y b bit).2]

/-- **Signatures are stable.**  Two bodies of which `d` tokens are in one only: a bit of their
signatures can differ only if the vote on it was as close as that, and the similarity is no less
than the share of the other bits.  So it is one for the same tokens in another order. -/
theorem signature_stable (sha256 : Bytes → Bytes) {a b : List String} (ha : a.length < 2 ^ 31)
    (hb : b.length < 2 ^ 31) :
    let close bit := -(changed a b : ℤ) < margin (votesFor sha256 bit) a ∧
      margin (votesFor sha256 bit) a ≤ changed a b
    (∀ bit, bitOn (signature sha256 a) bit ≠ bitOn (signature sha256 b) bit → close bit) ∧
    1 - (((List.range signatureBits).countP fun bit => decide (close bit) : ℕ) : ℚ) /
      signatureBits ≤ similarity (signature sha256 a) (signature sha256 b) ∧
    (a.Perm b → similarity (signature sha256 a) (signature sha256 b) = 1) := by
  intro close
  have hdiffers : ∀ bit, bitOn (signature sha256 a) bit ≠ bitOn (signature sha256 b) bit →
      close bit := by
    intro bit hne
    rw [bitOn_signature sha256 ha, bitOn_signature sha256 hb, ne_eq, decide_eq_decide] at hne
    obtain ⟨hlo, hhi⟩ := margin_changed (votesFor sha256 bit) a b
    by_contra hfar
    refine hne (and_congr_right fun _ => ?_)
    simp only [close, not_and_or] at hfar
    omega
  have hsim : similarity (signature sha256 a) (signature sha256 b) =
      1 - ((List.range signatureBits).countP (fun bit => bitOn (signature sha256 a) bit !=
        bitOn (signature sha256 b) bit) : ℕ) / signatureBits := by
    have hlena := (signature_bits sha256 a).1
    have hlenb := (signature_bits sha256 b).1
    have hbits : 8 * (signatureBits / 8) = signatureBits := by decide
    rw [similarity, sum_countOnes (hlena.trans hlenb.symm), hlena, hbits]
  have hle : (List.range signatureBits).countP (fun bit => bitOn (signature sha256 a) bit !=
      bitOn (signature sha256 b) bit) ≤
        (List.range signatureBits).countP fun bit => decide (close bit) :=
    List.countP_mono_left fun bit _ hne => decide_eq_true (hdiffers bit (bne_iff_ne.mp hne))
  refine ⟨hdiffers, ?_, fun hperm => ?_⟩
  · rw [hsim]
    gcongr
  · have hsame : (a : Multiset String) = b := Multiset.coe_eq_coe.mpr hperm
    have hchanged : changed a b = 0 := by
      unfold changed
      rw [hsame, tsub_self]
      rfl
    have hnone : ∀ bit, ¬ close bit := by
      intro bit hclose
      simp only [close, hchanged] at hclose
      omega
    have hzero : (List.range signatureBits).countP (fun bit => bitOn (signature sha256 a) bit !=
        bitOn (signature sha256 b) bit) = 0 := by
      refine List.countP_eq_zero.mpr fun bit _ hne => ?_
      exact hnone bit (hdiffers bit (bne_iff_ne.mp hne))
    rw [hsim, hzero]
    simp

/-- The SHA-256 digests of some tokens. -/
def tokenDigests : List (String × ℕ) := [
  ("f1:mov", 0x2e42cb5f7067db702e75d8bc838c867f1ae574ec15cdac0b14fce99d6f755e45),
  ("f1:cmp", 0xc3bb588ae2b167e4bd3a9b1190e41009b6742a30de37b67f378ba2b382859f6b),
  ("f1:jcc", 0xc6a55ef2f626e4c0a823ef980483b002ef8adcbd987dc19b933f9e6fa06e3785),
  ("f1:call", 0x0b7fb7e1d52009e20a98baf2e6e1ffa76ece789f032f300f5da26d0f24243de9),
  ("f1:ret", 0x1f18af765549daf62fa19f85ece4c864996b4d5704e9d7f1df6d7825d0bb95d1),
  ("f1:push", 0x56b2aca14f83ca53efd3eb536ff3a34f300a16a09091e8ec81e61aec98095533)
]

def digestOf (bytes : Bytes) : Bytes :=
  let digest := ((tokenDigests.find? fun p => p.1.toUTF8.data.toList = bytes).map Prod.snd).getD 0
  (List.range 32).map fun i => UInt8.ofNat (digest >>> (8 * (31 - i)))

/-- Of five tokens one is another: the vote was close on 163 bits, so the others agree. -/
theorem signature_stable_changed :
    let a := ["f1:mov", "f1:cmp", "f1:jcc", "f1:call", "f1:ret"]
    let b := ["f1:mov", "f1:push", "f1:jcc", "f1:call", "f1:ret"]
    changed a b = 2 ∧
      1 - (163 : ℚ) / 256 ≤ similarity (signature digestOf a) (signature digestOf b) := by
  intro a b
  have hchanged : changed a b = 2 := by decide +kernel
  obtain ⟨-, hsim, -⟩ := signature_stable digestOf (a := a) (b := b) (by decide) (by decide)
  have hclose : ((List.range signatureBits).countP fun bit =>
      decide (-(changed a b : ℤ) < margin (votesFor digestOf bit) a ∧
        margin (votesFor digestOf bit) a ≤ changed a b)) = 163 := by decide +kernel
  rw [hclose] at hsim
  exact ⟨hchanged, hsim⟩

end Corpus.Features
