/-
Fuzzy digests (`similarity/fuzzy.rs`, `similarity/lsh.rs`).

A digest is `B:h1:h2`.  The rolling hash cuts a file into blocks, each block gives one
character of `h1`, and each pair of blocks one of `h2`.  `compare` scores two digests by the
edit distance of their halves; `band_keys` are the keys of the byte index.

Words are `UInt32` where the source wraps them around on purpose; block sizes, lengths and
distances are numbers here.
-/
import Mathlib.Algebra.Order.Ring.Nat
import Corpus.Basic

namespace Corpus.Fuzzy

/-! ### Text -/

/-- `as_bytes`. -/
def asBytes (s : String) : Bytes := s.toUTF8.data.toList

/-- `from_utf8`. -/
def fromUtf8 (bytes : Bytes) : Option String := String.fromUTF8? ⟨bytes.toArray⟩

/-- `splitn(n, ':')`. -/
def splitColon : ℕ → Bytes → List Bytes
  | 0, _ => []
  | 1, bytes => [bytes]
  | n + 2, bytes =>
    let head := bytes.takeWhile (· ≠ 58)
    if head.length = bytes.length then [bytes]
    else head :: splitColon (n + 1) (bytes.drop (head.length + 1))

/-- The value of decimal digits, if they are. -/
def decimal (bytes : Bytes) : Option ℕ :=
  bytes.foldlM (fun n b => if 48 ≤ b ∧ b ≤ 57 then some (n * 10 + (b.toNat - 48)) else none) 0

/-- `parse::<u32>`. -/
def parseU32 (bytes : Bytes) : Option ℕ :=
  let digits := if bytes.head? = some 43 then bytes.tail else bytes
  if digits = [] then none else (decimal digits).filter (· < 2 ^ 32)

/-! ### The rolling hash -/

/-- `BLOCKSIZE_MIN`. -/
def blocksizeMin : ℕ := 3

/-- `SPAMSUM_LENGTH`. -/
def spamsumLength : ℕ := 64

/-- `ROLL_WINDOW`. -/
def rollWindow : ℕ := 7

/-- `HASH_INIT`. -/
def hashInit : UInt32 := 0x27

/-- `B64`. -/
def b64 : List Char := "ABCDEFGHIJKLMNOPQRSTUVWXYZabcdefghijklmnopqrstuvwxyz0123456789+/".toList

/-- `F_TABLE`. -/
def fTable : List UInt32 := [
  0x00, 0x13, 0x26, 0x39, 0x0c, 0x1f, 0x32, 0x05,
  0x18, 0x2b, 0x3e, 0x11, 0x24, 0x37, 0x0a, 0x1d,
  0x30, 0x03, 0x16, 0x29, 0x3c, 0x0f, 0x22, 0x35,
  0x08, 0x1b, 0x2e, 0x01, 0x14, 0x27, 0x3a, 0x0d,
  0x20, 0x33, 0x06, 0x19, 0x2c, 0x3f, 0x12, 0x25,
  0x38, 0x0b, 0x1e, 0x31, 0x04, 0x17, 0x2a, 0x3d,
  0x10, 0x23, 0x36, 0x09, 0x1c, 0x2f, 0x02, 0x15,
  0x28, 0x3b, 0x0e, 0x21, 0x34, 0x07, 0x1a, 0x2d]

/-- `byte_hash`. -/
def byteHash (h : UInt32) (b : UInt8) : UInt32 :=
  fTable.getD (h &&& 0x3f).toNat 0 ^^^ (b.toUInt32 &&& 0x3f)

structure Roll where
  window : List UInt32
  h1 : UInt32
  h2 : UInt32
  h3 : UInt32
  n : ℕ

/-- `Roll::new`. -/
def Roll.new : Roll := ⟨List.replicate rollWindow 0, 0, 0, 0, 0⟩

/-- `Roll::update`: the state, and the value that is returned. -/
def Roll.update (r : Roll) (b : UInt8) : Roll × UInt32 :=
  let b := b.toUInt32
  let h2 := r.h2 - r.h1 + UInt32.ofNat rollWindow * b
  let h1 := r.h1 + b - r.window.getD r.n 0
  let window := r.window.set r.n b
  let n := (r.n + 1) % rollWindow
  let h3 := (r.h3 <<< 5) ^^^ b
  (⟨window, h1, h2, h3, n⟩, h1 + h2 + h3)

/-! ### The digest -/

/-- The locals of the loop of `hash_with_block`. -/
structure HashState where
  roll : Roll
  bh1 : UInt32
  bh2 : UInt32
  hs1 : List Char
  hs2 : List Char
  last1 : UInt32
  last2 : UInt32
  rh : UInt32

def HashState.new : HashState := ⟨.new, hashInit, hashInit, [], [], 0, 0, 0⟩

/-- A block of this size ends where the rolling hash has this value. -/
def endsBlock (rh : UInt32) (blockSize : ℕ) : Bool := rh.toNat % blockSize = blockSize - 1

/-- The character for a block hash. -/
def b64Char (h : UInt32) : Char := b64.getD (h &&& 0x3f).toNat 'A'

/-- The end of a block, in `h1`. -/
def HashState.cut1 (s : HashState) : HashState :=
  if s.hs1.length < spamsumLength - 1 then
    { s with hs1 := s.hs1 ++ [b64Char s.bh1], bh1 := hashInit, last1 := hashInit &&& 0x3f }
  else { s with last1 := s.bh1 &&& 0x3f }

/-- The end of a pair of blocks, in `h2`. -/
def HashState.cut2 (s : HashState) : HashState :=
  if s.hs2.length < spamsumLength / 2 - 1 then
    { s with hs2 := s.hs2 ++ [b64Char s.bh2], bh2 := hashInit, last2 := hashInit &&& 0x3f }
  else { s with last2 := s.bh2 &&& 0x3f }

/-- The body of the loop of `hash_with_block`. -/
def HashState.step (blockSize : ℕ) (s : HashState) (b : UInt8) : HashState :=
  let (roll, rh) := s.roll.update b
  let s := { s with roll, rh, bh1 := byteHash s.bh1 b, bh2 := byteHash s.bh2 b }
  if endsBlock rh blockSize then
    if endsBlock rh (blockSize * 2) then s.cut1.cut2 else s.cut1
  else s

/-- The result of `hash_with_block`. -/
structure BlockHash where
  hs1 : List Char
  hs2 : List Char
  tail1 : UInt32
  tail2 : UInt32
  rh : UInt32

/-- `hash_with_block`. -/
def hashWithBlock (data : Bytes) (blockSize : ℕ) : BlockHash :=
  let s := data.foldl (HashState.step blockSize) .new
  if s.rh ≠ 0 then ⟨s.hs1, s.hs2, s.bh1 &&& 0x3f, s.bh2 &&& 0x3f, s.rh⟩
  else ⟨s.hs1, s.hs2, s.last1, s.last2, s.rh⟩

/-- A block size: `BLOCKSIZE_MIN`, doubled `k` times. -/
def blockSize (k : ℕ) : ℕ := blocksizeMin * 2 ^ k

/-- The doublings of the `while` loop of `fuzzy_hash`, in so many rounds. -/
def doublings (len : ℕ) : ℕ → ℕ → ℕ
  | 0, k => k
  | rounds + 1, k =>
    if blockSize k * spamsumLength < len then doublings len rounds (k + 1) else k

/-- The two halves with their tails. -/
def BlockHash.halves (h : BlockHash) : List Char × List Char :=
  if h.rh ≠ 0 then
    (h.hs1 ++ [b64.getD h.tail1.toNat 'A'], h.hs2 ++ [b64.getD h.tail2.toNat 'A'])
  else (h.hs1, h.hs2)

/-- The block size is too large: a smaller one gives more characters. -/
def BlockHash.tooShort (h : BlockHash) : Bool := h.hs1.length < spamsumLength / 2

/-- The `loop` of `fuzzy_hash`, which halves the block size: the last one, and the halves. -/
def digestFrom (data : Bytes) : ℕ → ℕ × List Char × List Char
  | 0 => (0, (hashWithBlock data (blockSize 0)).halves)
  | k + 1 =>
    let h := hashWithBlock data (blockSize (k + 1))
    if h.tooShort then digestFrom data k else (k + 1, h.halves)

/-- `format!("{block_size}:{hs1}:{hs2}")`. -/
def render (blockSize : ℕ) (h1 h2 : List Char) : String :=
  toString blockSize ++ ":" ++ String.ofList h1 ++ ":" ++ String.ofList h2

/-- `fuzzy_hash`. -/
def fuzzyHash (data : Bytes) : String :=
  let r := digestFrom data (doublings data.length data.length 0)
  render (blockSize r.1) r.2.1 r.2.2

/-! ### Scores -/

/-- `strip_sequences`: no character more than three times in a row. -/
def stripSequences (b : Bytes) : Bytes :=
  let r := b.take 3 ++ (List.range' 3 (b.length - 3)).filterMap fun i =>
    if b.getD i 0 ≠ b.getD (i - 1) 0 ∨ b.getD i 0 ≠ b.getD (i - 2) 0 ∨ b.getD i 0 ≠ b.getD (i - 3) 0 then
      some (b.getD i 0)
    else none
  ((fromUtf8 r).map asBytes).getD []

/-- The inner loop of `levenshtein`: the rest of `v1`, after the value `left`. -/
def levRow (sc : UInt8) : ℕ → Bytes → List ℕ → List ℕ
  | left, tc :: t, diag :: up :: v0 =>
    let cost := if sc = tc then 0 else 1
    let v := min (min (left + 1) (up + 1)) (diag + cost)
    v :: levRow sc v t (up :: v0)
  | _, _, _ => []

/-- The outer loop of `levenshtein`, from the row `v0` of the first `i` characters. -/
def levRows (t : Bytes) : Bytes → ℕ → List ℕ → List ℕ
  | [], _, v0 => v0
  | sc :: s, i, v0 => levRows t s (i + 1) ((i + 1) :: levRow sc (i + 1) t v0)

/-- `levenshtein`. -/
def levenshtein (s t : Bytes) : ℕ :=
  if s = t then 0
  else if s = [] then t.length
  else if t = [] then s.length
  else (levRows t s 0 (List.range (t.length + 1))).getD t.length 0

/-- The `while` loop of `common_substring`. -/
def commonRun : Bytes → Bytes → ℕ
  | a :: s, b :: t => if a = b then commonRun s t + 1 else 0
  | _, _ => 0

/-- `common_substring`. -/
def commonSubstring (s1 s2 : Bytes) : Bool :=
  (List.range s1.length).any fun i => (List.range s2.length).any fun j =>
    decide (commonRun (s1.drop i) (s2.drop j) ≥ rollWindow)

/-- `score_strings`. -/
def scoreStrings (s1 s2 : Bytes) (blockSize : ℕ) : ℤ :=
  if commonSubstring s1 s2 then
    let dist := levenshtein s1 s2
    let score := dist * spamsumLength / (s1.length + s2.length)
    let score := 100 * score / spamsumLength
    let score := (100 : ℤ) - score
    let cap := ((blockSize / blocksizeMin * min s1.length s2.length : ℕ) : ℤ)
    if score > cap then cap else score
  else 0

/-- The `parse` of `compare`. -/
def parseDigest (h : String) : Option (ℕ × Bytes × Bytes) := do
  let parts := splitColon 3 (asBytes h)
  let bs ← parts[0]?.bind parseU32
  return (bs, ← parts[1]?, ← parts[2]?)

/-- `compare`, of the digests as parsed. -/
def compareParsed (d1 d2 : ℕ × Bytes × Bytes) : ℤ :=
  let bs1 := d1.1
  let bs2 := d2.1
  if bs1 ≠ bs2 ∧ bs1 ≠ bs2 * 2 ∧ bs2 ≠ bs1 * 2 then 0
  else
    let s1a := stripSequences d1.2.1
    let s1b := stripSequences d1.2.2
    let s2a := stripSequences d2.2.1
    let s2b := stripSequences d2.2.2
    if bs1 = bs2 ∧ s1a = s2a then 100
    else if bs1 = bs2 then max (scoreStrings s1a s2a bs1) (scoreStrings s1b s2b (bs2 * 2))
    else if bs1 = bs2 * 2 then scoreStrings s1a s2b bs1
    else scoreStrings s1b s2a bs2

/-- `compare`. -/
def compare (hash1 hash2 : String) : ℤ :=
  match parseDigest hash1, parseDigest hash2 with
  | some d1, some d2 => compareParsed d1 d2
  | _, _ => 0

/-! ### Bands -/

/-- `BAND_WIDTH`. -/
def bandWidth : ℕ := 3

/-- What the bands of a half are taken from: its windows, or itself if it is short. -/
def bandTexts (half : Bytes) : List Bytes :=
  if half.length < bandWidth then (if half.isEmpty then [] else [half])
  else (List.range (half.length - (bandWidth - 1))).map fun i => (half.drop i).take bandWidth

/-- `band_keys`. -/
def bandKeys (ssdeep : String) : List (ℕ × String) :=
  let parts := splitColon 3 (asBytes ssdeep)
  let text (b : Bytes) : String := (fromUtf8 b).getD ""
  let bs := text (parts.getD 0 [])
  (bandTexts (parts.getD 1 []) ++ bandTexts (parts.getD 2 [])).zipIdx.map fun w =>
    (w.2, bs ++ ":" ++ text w.1)

example : fuzzyHash (asBytes "hello world!") = "3:iKFSMPE:rJPE" := by decide +kernel

end Corpus.Fuzzy
