/-
Feature extraction over hostile files (`similarity/extract.rs`, and the loop of
`semantic/edges.rs` over recovered spans).

`extract` reads the sections of a container by their headers, `semanticRows` decodes the
spans of `functionsFor`.  Each slice and each sum is one that may panic.  Text tables, the
digest, the disassembler and the triage heuristics are arbitrary (`Extractor`).
-/
import Corpus.Spans
import Corpus.Analysis

namespace Corpus

/-- `FunctionFeatures`, by the members that are stored or decide. -/
structure FunctionFeatures where
  tokenHashes : List UInt64
  insnCount : ℕ
  isThunk : Bool

/-- What extraction takes from other crates, and its parts that read no headers. -/
structure Extractor where
  sha256 : Bytes → Bytes
  toLowercase : String → String
  fromUtf8Lossy : Bytes → String
  trim : String → String
  fuzzyHash : Bytes → String
  parseError : ArtifactClass → Bytes → String
  extractMacho : Bytes → ExtractedFeatures → ExtractedFeatures
  triage : ArtifactClass → Bytes → Bool × String
  featuresFor : Bytes → ℕ → FunctionFeatures

/-- `sha256_hex_parts`: each part ends in a NUL. -/
def Extractor.sha256HexParts (x : Extractor) (parts : List String) : String :=
  hexEncode (x.sha256 (parts.flatMap fun p => p.toUTF8.data.toList ++ [0]))

/-- `sort` and `dedup`. -/
def nameSet (names : List String) : List String :=
  (names.insertionSort (· ≤ ·)).destutter (· ≠ ·)

/-- `{:x}`. -/
def lowerHex (n : ℕ) : String := String.ofList (Nat.toDigits 16 n)

/-- `from_le_bytes(bytes[start..stop])`. -/
def readLe (bytes : Bytes) (start stop : ℕ) : Checked ℕ := do
  let s ← checkedRange bytes start stop
  return fromLe s

/-! ### PE -/

/-- Where the data directories begin in the optional header, by its magic. -/
def dirOffset (magic : ℕ) : Option ℕ :=
  if magic = 0x10b then some 96 else if magic = 0x20b then some 112 else none

/-- The ranges left out of the digest: the checksum, the certificate table's entry, and the
certificates. -/
def excludedRanges (m : Arith) (bytes : Bytes) (opt dirBase : ℕ) : Checked (List (ℕ × ℕ)) := do
  let checkSum ← m.add 64 opt 64
  let checkSumEnd ← m.add 64 opt 68
  let entry ← m.add 64 dirBase 32
  let entryEnd ← m.add 64 dirBase 40
  let ranges := [(checkSum, checkSumEnd), (entry, entryEnd)]
  if entryEnd ≤ bytes.length then do
    let entryMid ← m.add 64 dirBase 36
    let certOff ← readLe bytes entry entryMid
    let certLen ← readLe bytes entryMid entryEnd
    if certLen > 0 ∧ certOff < bytes.length then do
      let certEnd ← m.add 64 certOff certLen
      return ranges ++ [(certOff, min certEnd bytes.length)]
    else return ranges
  else return ranges

/-- The order of pairs. -/
def rangeLe (a b : ℕ × ℕ) : Prop := a.1 < b.1 ∨ a.1 = b.1 ∧ a.2 ≤ b.2

instance : DecidableRel rangeLe := fun a b =>
  inferInstanceAs (Decidable (a.1 < b.1 ∨ a.1 = b.1 ∧ a.2 ≤ b.2))

/-- The loop that hashes what is between the ranges: how far it got, and what it took. -/
def hashBetween (bytes : Bytes) : List (ℕ × ℕ) → ℕ → Bytes → Checked (ℕ × Bytes)
  | [], pos, taken => return (pos, taken)
  | r :: rest, pos, taken =>
    if r.1 > bytes.length then return (pos, taken)
    else if r.1 > pos then do
      let part ← checkedRange bytes pos (min r.1 bytes.length)
      hashBetween bytes rest (max pos (min r.2 bytes.length)) (taken ++ part)
    else hashBetween bytes rest (max pos (min r.2 bytes.length)) taken

/-- The bytes outside the ranges. -/
def hashedBytes (bytes : Bytes) (ranges : List (ℕ × ℕ)) : Checked Bytes := do
  let r ← hashBetween bytes (ranges.insertionSort rangeLe) 0 []
  if r.1 < bytes.length then do
    let tail ← checkedRange bytes r.1 bytes.length
    return r.2 ++ tail
  else return r.2

/-- The end of `pe_authentihash`, once the optional header is found. -/
def authentihashAt (m : Arith) (x : Extractor) (bytes : Bytes) (opt : ℕ) :
    Checked (Option String) := do
  let magicEnd ← m.add 64 opt 2
  let magic ← readLe bytes opt magicEnd
  match dirOffset magic with
  | none => return none
  | some k => do
    let dirBase ← m.add 64 opt k
    let ranges ← excludedRanges m bytes opt dirBase
    let hashed ← hashedBytes bytes ranges
    return some (hexEncode (x.sha256 hashed))

/-- `pe_authentihash`. -/
def peAuthentihash (m : Arith) (x : Extractor) (bytes : Bytes) : Checked (Option String) :=
  if bytes.length < 0x40 ∨ bytes.take 2 ≠ [0x4d, 0x5a] then return none
  else do
    let peOff ← readLe bytes 0x3c 0x40
    let headerEnd ← m.add 64 peOff 0x18
    if headerEnd > bytes.length then return none
    else do
      let signatureEnd ← m.add 64 peOff 4
      let signature ← checkedRange bytes peOff signatureEnd
      if signature ≠ [0x50, 0x45, 0, 0] then return none
      else do
        let opt ← m.add 64 peOff 24
        let optEnd ← m.add 64 opt 0x70
        if optEnd > bytes.length then return none else authentihashAt m x bytes opt

/-- One line of the section layout of a PE file. -/
def peLayoutLine (m : Arith) (x : Extractor) (bytes : Bytes) (s : PeSection) : Checked String := do
  let body ← clampedSlice m bytes s.pointerToRawData.toNat s.sizeOfRawData.toNat
  let name := x.fromUtf8Lossy (trimEndNul s.name)
  let characteristics := lowerHex s.characteristics.toNat
  let digest := hexEncode (x.sha256 body)
  return s!"{name}:{s.virtualSize}:{s.sizeOfRawData}:{characteristics}:{digest}"

/-- The imported functions, in order. -/
def Pe.importNames (x : Extractor) (pe : Pe) : List String :=
  pe.imports.map fun i => x.toLowercase i.dll ++ "." ++ x.toLowercase i.name

/-- `extract_pe`. -/
def extractPe (m : Arith) (x : Extractor) (bytes : Bytes) (pe : Pe) (f : ExtractedFeatures) :
    Checked ExtractedFeatures := do
  let authentihash ← peAuthentihash m x bytes
  let layout ← pe.sections.mapM (peLayoutLine m x bytes)
  let imports := pe.importNames x
  return { f with
    normalized := f.normalized ++ (authentihash.map ("authentihash", ·)).toList ++
      if imports.isEmpty then [] else [("imphash", x.sha256HexParts imports)]
    importSet :=
      if imports.isEmpty then f.importSet else some (x.sha256HexParts (nameSet imports))
    exportSet :=
      if pe.exports.isEmpty then f.exportSet
      else some (x.sha256HexParts (nameSet (pe.exports.reduceOption.map x.toLowercase)))
    sectionLayout := if layout.isEmpty then f.sectionLayout else some (x.sha256HexParts layout) }

/-! ### ELF -/

/-- `parse_gnu_build_id`. -/
def parseGnuBuildId (m : Arith) (note : Bytes) : Checked (Option String) :=
  if note.length < 12 then return none
  else do
    let namesz ← readLe note 0 4
    let descsz ← readLe note 4 8
    let noteType ← readLe note 8 12
    if noteType ≠ 3 then return none
    else do
      let descOff ← m.add 64 12 ((namesz + 3) / 4 * 4)
      let descEnd ← m.add 64 descOff descsz
      if descEnd > note.length then return none
      else do
        let desc ← checkedRange note descOff descEnd
        return some (hexEncode desc)

/-- The build id of a note section. -/
def elfBuildId (m : Arith) (bytes : Bytes) (sh : ElfSection) : Checked (Option String) := do
  let note ← clampedSlice m bytes sh.shOffset.toNat sh.shSize.toNat
  parseGnuBuildId m note

/-- The text of a comment section, if there is one. -/
def elfComment (m : Arith) (x : Extractor) (bytes : Bytes) (sh : ElfSection) :
    Checked (Option String) := do
  let comment ← clampedSlice m bytes sh.shOffset.toNat sh.shSize.toNat
  let text := x.trim (x.fromUtf8Lossy comment)
  return if text = "" then none else some text

/-- The undefined dynamic symbols, in order. -/
def Elf.undefined (x : Extractor) (elf : Elf) : List String :=
  (elf.dynsyms.filter fun s => s.stShndx = 0 && s.stName ≠ 0).filterMap fun s =>
    (elf.dynstrtab s.stName).map x.toLowercase

/-- One line of the section layout of an ELF file, if the section has a name. -/
def elfLayoutLine (elf : Elf) (sh : ElfSection) : Option String :=
  (elf.shdrStrtab sh.shName).map fun name =>
    name ++ ":" ++ toString sh.shSize ++ ":" ++ lowerHex sh.shFlags.toNat ++ ":" ++
      toString sh.shType

/-- `extract_elf`; the last comment is the compiler's hint. -/
def extractElf (m : Arith) (x : Extractor) (bytes : Bytes) (elf : Elf) (f : ExtractedFeatures) :
    Checked ExtractedFeatures := do
  let ids ← (elf.named ".note.gnu.build-id").mapM (elfBuildId m bytes)
  let comments ← (elf.named ".comment").mapM (elfComment m x bytes)
  let undef := elf.undefined x
  let layout := elf.sectionHeaders.filterMap (elfLayoutLine elf)
  let noImports := elf.libraries.isEmpty && undef.isEmpty
  return { f with
    normalized := f.normalized ++ ids.reduceOption.map ("elf_build_id", ·) ++
      if noImports then []
      else [("elf_import_hash",
        x.sha256HexParts (elf.libraries.map x.toLowercase ++ [";"] ++ undef))]
    importSet := if noImports then f.importSet else some (x.sha256HexParts (nameSet undef))
    sectionLayout := if layout.isEmpty then f.sectionLayout else some (x.sha256HexParts layout)
    compilerHint := comments.reduceOption.getLast?.or f.compilerHint }

/-! ### Files -/

/-- What is known of any file. -/
def baseFeatures (g : Goblin) (x : Extractor) (bytes : Bytes) : ExtractedFeatures where
  sizeBytes := bytes.length
  entropy := g.entropy bytes
  ssdeep := x.fuzzyHash bytes
  normalized := []
  sectionLayout := none
  importSet := none
  exportSet := none
  compilerHint := none
  parseLimitation := none

/-- `extract`. -/
def extract (m : Arith) (g : Goblin) (x : Extractor) (bytes : Bytes) :
    Checked ExtractedFeatures :=
  let f := baseFeatures g x bytes
  match classify bytes with
  | .pe =>
    match g.parsePe bytes with
    | some pe => extractPe m x bytes pe f
    | none => return { f with parseLimitation := some ("pe parse: " ++ x.parseError .pe bytes) }
  | .elf =>
    match g.parseElf bytes with
    | some elf => extractElf m x bytes elf f
    | none => return { f with parseLimitation := some ("elf parse: " ++ x.parseError .elf bytes) }
  | .machO | .machOFat => return x.extractMacho bytes f
  | .script | .unknown => return f

/-! ### Decoding spans -/

/-- `significance_min_insns`. -/
def significanceMinInsns : ℕ := 5

/-- `is_significant`. -/
def FunctionFeatures.isSignificant (f : FunctionFeatures) : Bool :=
  f.insnCount ≥ significanceMinInsns && !f.isThunk

/-- The row of a span with these features. -/
def FunctionSpan.row (s : FunctionSpan) (f : FunctionFeatures) : FunctionRow :=
  ⟨s.fileOffset, s.size, s.name, f.insnCount, f.tokenHashes⟩

/-- One span, decoded: its row, if it is significant. -/
def decodeSpan (m : Arith) (x : Extractor) (code : CodeSection) (s : FunctionSpan) :
    Checked (Option FunctionRow) := do
  let body ← clampedSlice m code.bytes s.offset s.size
  let f := x.featuresFor body s.fileOffset
  return if f.isSignificant then some (s.row f) else none

/-- The loop of `extract_and_store` over the code sections; one that looks packed ends it. -/
def decodeRegions (m : Arith) (x : Extractor) :
    List (CodeSection × List FunctionSpan) → List FunctionRow × ℕ →
      Checked (Except String (List FunctionRow × ℕ))
  | [], acc => return .ok acc
  | r :: rest, acc =>
    if modelV1.packedEntropyLimit < r.1.entropy then
      return .error
        s!"packed_or_high_entropy_code: entropy {r.1.entropy} > {modelV1.packedEntropyLimit}"
    else do
      let rows ← r.2.mapM (decodeSpan m x r.1)
      decodeRegions m x rest (acc.1 ++ rows.reduceOption, acc.2 + r.2.length)

/-- What `extract_and_store` computes of the bytes: the significant functions and the number
of spans, or the limitation. -/
def semanticRows (m : Arith) (g : Goblin) (x : Extractor) (cls : ArtifactClass) (bytes : Bytes) :
    Checked (Except String (List FunctionRow × ℕ)) :=
  let report := x.triage cls bytes
  let summary := report.2
  if report.1 then return .error s!"packed_or_virtualized: {summary}"
  else do
    let regions ← functionsFor m g cls bytes
    decodeRegions m x regions ([], 0)

end Corpus
