/-
Features of function bodies (`semantic/features.rs`).

A body is decoded at the address where it lies in its file.  The features are to stay the same when
it moves: they are counts of instructions, and digests of tokens about the mnemonics.  Blocks are
counted by addresses, though: one begins where an instruction follows a branch.

* `featuresFor` — the function of the source, over a disassembler;
* `Disassembler.shape` — mnemonics and control flow, of which no part is an address;
* `Scan.foldl_iter` — the loop meets the address after a branch just at the next instruction;
* `features_of_shape` — so the features are those of the shape;
* `moved_function_matches` — a function of the same shape elsewhere is stored with the same hashes.

The disassembler is a parameter; what it says of an instruction does not depend on the address.
-/
import Corpus.Extraction
import Corpus.TokenSets

namespace Corpus.Features

/-! ### Instructions -/

/-- `Mnemonic`, by its name, which is what `{:?}` prints. -/
structure Mnemonic where
  name : String
  deriving DecidableEq

/-- `FlowControl`. -/
inductive FlowControl where
  | next
  | unconditionalBranch
  | indirectBranch
  | conditionalBranch
  | ret
  | call
  | indirectCall
  | interrupt
  | xbeginXabortXend
  | exception
  deriving DecidableEq

/-- An instruction without its address. -/
structure Decoded where
  mnemonic : Mnemonic
  flow : FlowControl
  len : ℕ

/-- The disassembler: the instruction at the start of some bytes. -/
structure Disassembler where
  decode : Bytes → Decoded
  len_pos : ∀ bytes, 0 < (decode bytes).len
  len_le : ∀ bytes, bytes ≠ [] → (decode bytes).len ≤ bytes.length

/-- An instruction at its address. -/
structure Instruction where
  mnemonic : Mnemonic
  flow : FlowControl
  ip : UInt64
  nextIp : UInt64

namespace Disassembler

variable (d : Disassembler)

/-- `decoder.iter()`, of so many instructions at most. -/
def iter : ℕ → Bytes → UInt64 → List Instruction
  | 0, _, _ => []
  | _ + 1, [], _ => []
  | n + 1, b :: bytes, ip =>
    let x := d.decode (b :: bytes)
    let nextIp := ip + UInt64.ofNat x.len
    ⟨x.mnemonic, x.flow, ip, nextIp⟩ :: iter n ((b :: bytes).drop x.len) nextIp

/-- As `iter`, without addresses. -/
def shapeIn : ℕ → Bytes → List (Mnemonic × FlowControl)
  | 0, _ => []
  | _ + 1, [] => []
  | n + 1, b :: bytes =>
    let x := d.decode (b :: bytes)
    (x.mnemonic, x.flow) :: shapeIn n ((b :: bytes).drop x.len)

/-- The mnemonics of a body, and how control goes on from each of them. -/
def shape (code : Bytes) : List (Mnemonic × FlowControl) := d.shapeIn code.length code

end Disassembler

def FlowControl.isBranch (f : FlowControl) : Bool :=
  f = .conditionalBranch || f = .unconditionalBranch

/-! ### Tokens -/

/-- `starts_with`. -/
def startsWith (s p : String) : Bool := p.toList.isPrefixOf s.toList

/-- `family`. -/
def family (m : Mnemonic) : String :=
  if m.name ∈ ["Mov", "Movzx", "Movsx", "Movsxd", "Cmove", "Cmovne", "Cmovl", "Cmovle", "Cmovg",
    "Cmovge", "Cmovb", "Cmovbe", "Cmova", "Cmovae", "Cmovs", "Cmovns", "Cmovp", "Cmovnp", "Cmovo",
    "Cmovno", "Xchg"] then "mov"
  else if m.name ∈ ["Add", "Sub", "Imul", "Xor", "And", "Or", "Shl", "Shr", "Sar", "Inc", "Dec",
    "Neg", "Not", "Adc", "Sbb", "Mul", "Div", "Idiv"] then "arith"
  else if m.name ∈ ["Cmp", "Test"] then "cmp"
  else if m.name = "Lea" then "lea"
  else if m.name = "Call" then "call"
  else if m.name = "Ret" then "ret"
  else if m.name ∈ ["Push", "Pushfq"] then "push"
  else if m.name ∈ ["Pop", "Popfq"] then "pop"
  else if m.name ∈ ["Nop", "Pause", "Int3"] then "nop"
  else if startsWith m.name "J" then "jcc"
  else if startsWith m.name "Set" then "set"
  else "other:" ++ m.name

/-- `bucket`. -/
def bucket (n : ℕ) : ℕ :=
  if n = 0 then 0
  else if n ≤ 2 then 1
  else if n ≤ 5 then 2
  else if n ≤ 10 then 3
  else if n ≤ 20 then 4
  else if n ≤ 40 then 5
  else 6

/-- `families.windows(2)`. -/
def bigrams : List String → List (String × String)
  | [] => []
  | f :: fs => (fs.head?.map fun g => (f, g)).toList ++ bigrams fs

/-- The counts of the instruction mix. -/
def mixCounts (ms : List Mnemonic) : List ℕ :=
  [ms.countP fun m => startsWith m.name "Mov",
    ms.countP fun m => m.name ∈ ["Add", "Sub", "Imul", "Xor", "And", "Or", "Shl", "Shr", "Sar"],
    ms.countP fun m => m.name ∈ ["Cmp", "Test"],
    ms.countP fun m => startsWith m.name "J",
    ms.countP fun m => m.name ∈ ["Call", "Ret"],
    ms.countP fun m => startsWith m.name "Push" || startsWith m.name "Pop"]

/-- The tokens of these mnemonics, and of the numbers of blocks and calls. -/
def tokensOf (ms : List Mnemonic) (blocks calls : ℕ) : List String :=
  let families := ms.map family
  families.map (fun f => s!"f1:{f}") ++
    (bigrams families).map (fun w => s!"f2:{w.1}:{w.2}") ++
    (mixCounts ms).mapIdx (fun i c => s!"mix{i}:{bucket c}") ++
    [s!"blocks:{bucket blocks}", s!"calls:{bucket calls}", s!"insns:{bucket ms.length}"]

/-! ### The loop -/

/-- The variables of the loop of `feature_tokens`. -/
structure Scan where
  mnemonics : List Mnemonic
  blocks : ℕ
  calls : ℕ
  branchTargets : Finset UInt64

def Scan.start : Scan := ⟨[], 1, 0, ∅⟩

/-- One instruction. -/
def Scan.step (s : Scan) (insn : Instruction) : Scan :=
  let mnemonics := s.mnemonics ++ [insn.mnemonic]
  let targets :=
    if insn.flow.isBranch then insert insn.nextIp s.branchTargets else s.branchTargets
  { mnemonics := mnemonics
    blocks := if insn.ip ∈ targets ∧ 1 < mnemonics.length then s.blocks + 1 else s.blocks
    calls := if insn.flow = .call then s.calls + 1 else s.calls
    branchTargets := targets }

/-- `feature_tokens`: the tokens, the numbers of instructions, blocks and calls, and whether the
body is a thunk. -/
def featureTokens (d : Disassembler) (bytes : Bytes) (addr : UInt64) :
    List String × ℕ × ℕ × ℕ × Bool :=
  let s := (d.iter bytes.length bytes addr).foldl Scan.step .start
  let isThunk := decide (s.mnemonics.length ≤ 2) &&
    s.mnemonics.all fun m => m.name = "Jmp" || m.name = "Ret"
  (tokensOf s.mnemonics s.blocks s.calls, s.mnemonics.length, s.blocks, s.calls, isThunk)

/-! ### Signatures -/

/-- `SIGNATURE_BITS`. -/
def signatureBits : ℕ := 256

/-- `(h[bit / 8] >> (bit % 8)) & 1 == 1`. -/
def bitOn (h : Bytes) (bit : ℕ) : Bool := (h.getD (bit / 8) 0).toBitVec.getLsbD (bit % 8)

/-- The votes after a token with the digest `h`. -/
def vote (votes : List Int32) (h : Bytes) : List Int32 :=
  votes.mapIdx fun bit v => if bitOn h bit then v + 1 else v - 1

/-- `sig[bit / 8] |= 1 << (bit % 8)`. -/
def setBit (sig : Bytes) (bit : ℕ) : Bytes :=
  sig.modify (bit / 8) fun byte => byte ||| (1 <<< UInt8.ofNat (bit % 8))

/-- `signature`. -/
def signature (sha256 : Bytes → Bytes) (tokens : List String) : Bytes :=
  let votes := tokens.foldl (fun votes t => vote votes (sha256 t.toUTF8.data.toList))
    (List.replicate signatureBits 0)
  (List.range signatureBits).foldl
    (fun sig bit => if 0 < votes.getD bit 0 then setBit sig bit else sig)
    (List.replicate (signatureBits / 8) 0)

/-- `FunctionFeatures`. -/
structure FunctionFeatures where
  signature : Bytes
  tokenHashes : List UInt64
  insnCount : ℕ
  blockEstimate : ℕ
  callCount : ℕ
  isThunk : Bool
  deriving DecidableEq

/-- `features_for`. -/
def featuresFor (d : Disassembler) (sha256 : Bytes → Bytes) (code : Bytes)
    (spanFileOffset : UInt64) : FunctionFeatures :=
  let (tokens, insnCount, blockEstimate, callCount, isThunk) :=
    featureTokens d code spanFileOffset
  ⟨signature sha256 tokens, tokenHashes sha256 tokens, insnCount, blockEstimate, callCount, isThunk⟩

/-! ### Blocks -/

/-- How many instructions come right after a branch; `prev` says whether there was one before. -/
def afterBranches : Bool → List FlowControl → ℕ
  | _, [] => 0
  | prev, f :: fs => (if prev then 1 else 0) + afterBranches f.isBranch fs

theorem afterBranches_eq (flows : List FlowControl) :
    afterBranches false flows = flows.dropLast.countP FlowControl.isBranch := by
  have hstep : ∀ (fs : List FlowControl) (prev : FlowControl),
      afterBranches prev.isBranch fs = (prev :: fs).dropLast.countP FlowControl.isBranch := by
    intro fs
    induction fs with
    | nil => exact fun _ => rfl
    | cons f fs ih =>
      intro prev
      rw [afterBranches, ih f, List.dropLast_cons_cons, List.countP_cons, add_comm]
  cases flows with
  | nil => rfl
  | cons f fs =>
    rw [afterBranches, hstep fs f]
    exact Nat.zero_add _

/-- Addresses inside a body are told apart by their offsets. -/
theorem add_ofNat_inj {addr : UInt64} {a b : ℕ} (ha : a < 2 ^ 64) (hb : b < 2 ^ 64) :
    addr + UInt64.ofNat a = addr + UInt64.ofNat b ↔ a = b := by
  constructor
  · intro h
    have hnat := congrArg UInt64.toNat h
    rw [UInt64.toNat_add, UInt64.toNat_add, UInt64.toNat_ofNat_of_lt' ha,
      UInt64.toNat_ofNat_of_lt' hb] at hnat
    have haddr := addr.toNat_lt
    omega
  · rintro rfl
    rfl

/-- The targets of a scan that has come to the offset `off` are addresses up to it, and that
address itself is one just if the last instruction was a branch. -/
structure Scan.At (addr : UInt64) (off : ℕ) (prev : Bool) (s : Scan) : Prop where
  targets : ∀ t ∈ s.branchTargets, ∃ o, 0 < o ∧ o ≤ off ∧ t = addr + UInt64.ofNat o
  here : addr + UInt64.ofNat off ∈ s.branchTargets ↔ prev = true
  first : s.mnemonics = [] → prev = false

theorem Scan.at_start (addr : UInt64) : Scan.At addr 0 false .start where
  targets := fun t h => absurd h (Finset.notMem_empty t)
  here := by simp [Scan.start]
  first := fun _ => rfl

theorem add_ofNat_add (addr : UInt64) (a b : ℕ) :
    addr + UInt64.ofNat a + UInt64.ofNat b = addr + UInt64.ofNat (a + b) := by
  rw [UInt64.add_assoc, UInt64.ofNat_add]

/-- One instruction: it opens a block just if it comes after a branch. -/
theorem Scan.At.step {addr : UInt64} {off len : ℕ} {prev : Bool} {s : Scan} {m : Mnemonic}
    {f : FlowControl} (h : s.At addr off prev) (hlen : 0 < len) (hlt : off + len < 2 ^ 64) :
    let s' := s.step ⟨m, f, addr + UInt64.ofNat off, addr + UInt64.ofNat (off + len)⟩
    s'.At addr (off + len) f.isBranch ∧ s'.mnemonics = s.mnemonics ++ [m] ∧
      s'.blocks = s.blocks + (if prev then 1 else 0) ∧
      s'.calls = s.calls + (if f = .call then 1 else 0) := by
  intro s'
  have hnext : addr + UInt64.ofNat (off + len) ∉ s.branchTargets := by
    intro hmem
    obtain ⟨o, -, hle, ho⟩ := h.targets _ hmem
    have := (add_ofNat_inj hlt (by omega)).mp ho
    omega
  have hne : addr + UInt64.ofNat off ≠ addr + UInt64.ofNat (off + len) := by
    intro heq
    have := (add_ofNat_inj (by omega) hlt).mp heq
    omega
  have htargets : s'.branchTargets = if f.isBranch then
      insert (addr + UInt64.ofNat (off + len)) s.branchTargets else s.branchTargets := rfl
  have hhere : addr + UInt64.ofNat off ∈ s'.branchTargets ↔ prev = true := by
    rw [htargets]
    split
    · rw [Finset.mem_insert, or_iff_right hne]
      exact h.here
    · exact h.here
  refine ⟨⟨?_, ?_, ?_⟩, rfl, ?_, ?_⟩
  · intro t ht
    have hold : t ∈ s.branchTargets →
        ∃ o, 0 < o ∧ o ≤ off + len ∧ t = addr + UInt64.ofNat o := by
      intro ht
      obtain ⟨o, hpos, hle, rfl⟩ := h.targets t ht
      exact ⟨o, hpos, by omega, rfl⟩
    rw [htargets] at ht
    split at ht
    · rcases Finset.mem_insert.mp ht with rfl | ht
      · exact ⟨off + len, by omega, le_rfl, rfl⟩
      · exact hold ht
    · exact hold ht
  · rw [htargets]
    cases f.isBranch with
    | true => simp
    | false => simpa using hnext
  · intro hnil
    exact absurd hnil (by simp [s', Scan.step])
  · cases prev with
    | true =>
      have hlong : 1 < (s.mnemonics ++ [m]).length := by
        have hne : s.mnemonics ≠ [] := fun hnil => Bool.noConfusion (h.first hnil)
        have := List.length_pos_of_ne_nil hne
        rw [List.length_append, List.length_singleton]
        omega
      exact if_pos ⟨hhere.mpr rfl, hlong⟩
    | false => exact if_neg fun hin => Bool.noConfusion (hhere.mp hin.1)
  · show (if f = .call then s.calls + 1 else s.calls) = _
    split <;> rfl

/-- **The loop does not see addresses.** -/
theorem Scan.foldl_iter (d : Disassembler) (addr : UInt64) (n : ℕ) :
    ∀ (bytes : Bytes) (off : ℕ) (prev : Bool) (s : Scan), s.At addr off prev →
      off + bytes.length < 2 ^ 64 →
      let r := (d.iter n bytes (addr + UInt64.ofNat off)).foldl Scan.step s
      let shape := d.shapeIn n bytes
      r.mnemonics = s.mnemonics ++ shape.map Prod.fst ∧
        r.blocks = s.blocks + afterBranches prev (shape.map Prod.snd) ∧
        r.calls = s.calls + (shape.map Prod.snd).count .call := by
  induction n with
  | zero =>
    intro bytes off prev s _ _
    simp [Disassembler.iter, Disassembler.shapeIn, afterBranches]
  | succ n ih =>
    intro bytes off prev s hs hlt
    cases bytes with
    | nil => simp [Disassembler.iter, Disassembler.shapeIn, afterBranches]
    | cons b bytes =>
      have hpos := d.len_pos (b :: bytes)
      have hle := d.len_le (b :: bytes) (List.cons_ne_nil _ _)
      rw [Disassembler.iter, Disassembler.shapeIn]
      dsimp only
      generalize d.decode (b :: bytes) = x at hpos hle ⊢
      rw [add_ofNat_add, List.foldl_cons]
      obtain ⟨hat, hmnemonics, hblocks, hcalls⟩ :=
        hs.step (m := x.mnemonic) (f := x.flow) hpos (by omega)
      obtain ⟨hm, hb, hc⟩ := ih ((b :: bytes).drop x.len) (off + x.len) x.flow.isBranch _ hat (by
        rw [List.length_drop]
        omega)
      rw [hm, hb, hc, hmnemonics, hblocks, hcalls]
      refine ⟨by simp, ?_, ?_⟩
      · rw [List.map_cons, afterBranches]
        dsimp only
        omega
      · rw [List.map_cons, List.count_cons]
        simp only [beq_iff_eq]
        omega

/-! ### Features of a shape -/

/-- The features that go with a shape. -/
def featuresOf (sha256 : Bytes → Bytes) (shape : List (Mnemonic × FlowControl)) :
    FunctionFeatures :=
  let ms := shape.map Prod.fst
  let flows := shape.map Prod.snd
  let blocks := 1 + flows.dropLast.countP FlowControl.isBranch
  let calls := flows.count .call
  let tokens := tokensOf ms blocks calls
  ⟨signature sha256 tokens, tokenHashes sha256 tokens, ms.length, blocks, calls,
    decide (ms.length ≤ 2) && ms.all fun m => m.name = "Jmp" || m.name = "Ret"⟩

/-- **The features of a body are those of its shape**, wherever it lies. -/
theorem features_of_shape (d : Disassembler) (sha256 : Bytes → Bytes) {code : Bytes}
    (hcode : code.length < 2 ^ 63) (addr : UInt64) :
    featuresFor d sha256 code addr = featuresOf sha256 (d.shape code) := by
  obtain ⟨hmnemonics, hblocks, hcalls⟩ :=
    Scan.foldl_iter d addr code.length code 0 false .start (Scan.at_start addr) (by omega)
  have haddr : addr + UInt64.ofNat 0 = addr := UInt64.add_zero addr
  have hblocks' : Scan.start.blocks = 1 := rfl
  have hcalls' : Scan.start.calls = 0 := rfl
  rw [haddr] at hmnemonics hblocks hcalls
  rw [hblocks', afterBranches_eq] at hblocks
  rw [hcalls', Nat.zero_add] at hcalls
  have hmnemonics' : ((d.iter code.length code addr).foldl Scan.step .start).mnemonics =
      (d.shape code).map Prod.fst := hmnemonics
  unfold featuresFor featureTokens featuresOf
  dsimp only
  rw [hmnemonics', hblocks, hcalls]
  rfl

/-- What is stored of the features, and decides. -/
def FunctionFeatures.stored (f : FunctionFeatures) : Corpus.FunctionFeatures :=
  ⟨f.tokenHashes, f.insnCount, f.isThunk⟩

/-- Extraction with these features. -/
def withFeatures (d : Disassembler) (x : Extractor) : Extractor :=
  { x with featuresFor := fun code offset =>
      (featuresFor d x.sha256 code (UInt64.ofNat offset)).stored }

theorem decodeSpan_of {m : Arith} {x : Extractor} {code : CodeSection} {s : FunctionSpan}
    {body : Bytes} (hbody : clampedSlice m code.bytes s.offset s.size = .ok body) :
    decodeSpan m x code s = .ok (if (x.featuresFor body s.fileOffset).isSignificant then
      some (s.row (x.featuresFor body s.fileOffset)) else none) := by
  rw [decodeSpan, hbody]
  rfl

/-- **A function is found again where it has moved to.**  Spans whose bodies have the same
mnemonics, and the same flow of control, in one file or in two, at whatever addresses, and whatever
their operands are: both are stored or neither is, with the same number of instructions and the
same hashes, so that the pair scores one. -/
theorem moved_function_matches (d : Disassembler) (x : Extractor) {m : Arith}
    {code code' : CodeSection} {s s' : FunctionSpan} {body body' : Bytes}
    (hbody : clampedSlice m code.bytes s.offset s.size = .ok body)
    (hbody' : clampedSlice m code'.bytes s'.offset s'.size = .ok body')
    (hlen : body.length < 2 ^ 63) (hlen' : body'.length < 2 ^ 63)
    (hshape : d.shape body = d.shape body') :
    featuresFor d x.sha256 body (UInt64.ofNat s.fileOffset) =
      featuresFor d x.sha256 body' (UInt64.ofNat s'.fileOffset) ∧
    ∃ row row', decodeSpan m (withFeatures d x) code s = .ok row ∧
      decodeSpan m (withFeatures d x) code' s' = .ok row' ∧ row.isSome = row'.isSome ∧
      ∀ r r', row = some r → row' = some r' → r.insnCount = r'.insnCount ∧
        r.tokenHashes = r'.tokenHashes ∧ jaccardLoop r.tokenHashes r'.tokenHashes = 1 := by
  have hfeatures : ∀ offset offset', featuresFor d x.sha256 body offset =
      featuresFor d x.sha256 body' offset' := by
    intro offset offset'
    rw [features_of_shape d _ hlen, features_of_shape d _ hlen', hshape]
  have hstored : (withFeatures d x).featuresFor body s.fileOffset =
      (withFeatures d x).featuresFor body' s'.fileOffset :=
    congrArg FunctionFeatures.stored (hfeatures _ _)
  refine ⟨hfeatures _ _, _, _, decodeSpan_of hbody, decodeSpan_of hbody', ?_⟩
  rw [hstored]
  generalize (withFeatures d x).featuresFor body' s'.fileOffset = f
  by_cases hsig : f.isSignificant = true
  · rw [if_pos hsig, if_pos hsig]
    refine ⟨rfl, fun r r' hr hr' => ?_⟩
    obtain rfl := Option.some.inj hr
    obtain rfl := Option.some.inj hr'
    exact ⟨rfl, rfl, (jaccardLoop_eq _ _).trans (jaccard_self _)⟩
  · rw [if_neg hsig, if_neg hsig]
    exact ⟨rfl, fun r r' hr => absurd hr (by simp)⟩

/-- A few instructions of x86, by their opcodes; what is none of them, or cut off, is invalid. -/
def opcode (b : UInt8) : Decoded :=
  if b = 0x55 then ⟨⟨"Push"⟩, .next, 1⟩
  else if b = 0xb8 then ⟨⟨"Mov"⟩, .next, 5⟩
  else if b = 0x3d then ⟨⟨"Cmp"⟩, .next, 5⟩
  else if b = 0x74 then ⟨⟨"Je"⟩, .conditionalBranch, 2⟩
  else if b = 0xeb then ⟨⟨"Jmp"⟩, .unconditionalBranch, 2⟩
  else if b = 0xe8 then ⟨⟨"Call"⟩, .call, 5⟩
  else if b = 0x90 then ⟨⟨"Nop"⟩, .next, 1⟩
  else if b = 0xc3 then ⟨⟨"Ret"⟩, .ret, 1⟩
  else ⟨⟨"INVALID"⟩, .exception, 1⟩

def fewOpcodes : Disassembler where
  decode bytes :=
    let x := opcode (bytes.getD 0 0)
    if x.len ≤ bytes.length then x else ⟨⟨"INVALID"⟩, .exception, max 1 bytes.length⟩
  len_pos bytes := by
    have hpos : 0 < (opcode (bytes.getD 0 0)).len := by
      unfold opcode
      split_ifs <;> exact Nat.succ_pos _
    dsimp only
    split
    · exact hpos
    · exact lt_max_of_lt_left Nat.one_pos
  len_le bytes hne := by
    dsimp only
    split
    · next hle => exact hle
    · exact max_le (List.length_pos_of_ne_nil hne) le_rfl

/-- Of what extraction is given besides the disassembler, only the digest is used here. -/
def copyExtractor : Extractor where
  sha256 bytes := (bytes ++ List.replicate 32 0).take 32
  toLowercase := id
  fromUtf8Lossy _ := ""
  trim := id
  fuzzyHash _ := ""
  parseError _ _ := ""
  extractMacho _ f := f
  triage _ _ := (false, "")
  featuresFor _ _ := ⟨[], 0, false⟩

/-- A comparison with a branch that is not taken to a call: other constants, and other targets,
elsewhere in another file. -/
theorem moved_function_matches_opcodes :
    let body : Bytes := [0x55, 0xb8, 1, 0, 0, 0, 0x3d, 2, 0, 0, 0, 0x74, 5, 0xe8, 9, 0, 0, 0, 0xc3]
    let body' : Bytes := [0x55, 0xb8, 7, 0, 0, 0, 0x3d, 0, 1, 0, 0, 0x74, 5, 0xe8, 0, 2, 0, 0, 0xc3]
    featuresFor fewOpcodes copyExtractor.sha256 body 4097 =
        featuresFor fewOpcodes copyExtractor.sha256 body' 64 ∧
      (featuresFor fewOpcodes copyExtractor.sha256 body 4097).blockEstimate = 2 ∧
      body ≠ body' := by
  intro body body'
  let code : CodeSection := ⟨0x90 :: body, 4096, 0, 0⟩
  let code' : CodeSection := ⟨body', 64, 0, 0⟩
  let span : FunctionSpan := ⟨1, 4097, 19, none, .prologueScan⟩
  let span' : FunctionSpan := ⟨0, 64, 19, none, .prologueScan⟩
  have hbody : clampedSlice .checked code.bytes span.offset span.size = .ok body := rfl
  have hbody' : clampedSlice .checked code'.bytes span'.offset span'.size = .ok body' := rfl
  refine ⟨(moved_function_matches fewOpcodes copyExtractor hbody hbody' (by decide) (by decide)
    (by decide +kernel)).1, ?_, by decide⟩
  decide +kernel

end Corpus.Features
