/-
Function boundary recovery (`semantic/extract.rs`).

What the goblin crate reports of a container is arbitrary here: any headers and symbols,
over any bytes.  `functionsFor` maps the code sections, finds the starts of functions in
them, and gives each a span; slices and word arithmetic may panic.
-/
import Corpus.Basic
import Corpus.Machine
import Mathlib.Data.List.Destutter
import Mathlib.Data.List.ReduceOption
import Mathlib.Data.List.Sort
import Mathlib.Data.Rat.Defs

namespace Corpus

/-- A byte slice: none is longer than `isize::MAX`. -/
abbrev ByteSlice := {bytes : Bytes // bytes.length < 2 ^ 63}

/-! ### Containers -/

/-- An ELF section header. -/
structure ElfSection where
  shName : UInt64
  shType : UInt32
  shFlags : UInt64
  shAddr : UInt64
  shOffset : UInt64
  shSize : UInt64

/-- An ELF symbol. -/
structure ElfSym where
  stName : UInt64
  stType : UInt8
  stShndx : UInt64
  stValue : UInt64
  stSize : UInt64

/-- `goblin::elf::Elf`. -/
structure Elf where
  machine : UInt16
  sectionHeaders : List ElfSection
  shdrStrtab : UInt64 → Option String
  syms : List ElfSym
  strtab : UInt64 → Option String
  dynsyms : List ElfSym
  dynstrtab : UInt64 → Option String
  libraries : List String

/-- A PE section header. -/
structure PeSection where
  name : Bytes
  virtualSize : UInt32
  virtualAddress : UInt32
  sizeOfRawData : UInt32
  pointerToRawData : UInt32
  characteristics : UInt32

/-- An imported function of a PE file. -/
structure PeImport where
  dll : String
  name : String

/-- A `RUNTIME_FUNCTION` of `.pdata`. -/
structure RuntimeFunction where
  beginAddress : UInt32
  endAddress : UInt32

/-- `goblin::pe::PE`; an entry of `.pdata` may fail to parse. -/
structure Pe where
  machine : UInt16
  sections : List PeSection
  imports : List PeImport
  exports : List (Option String)
  exceptionData : Option (List (Option RuntimeFunction))

/-- A section of a Mach-O segment, with its data. -/
structure MachoSection where
  sectname : Bytes
  offset : UInt32
  addr : UInt64
  data : ByteSlice

/-- A Mach-O symbol. -/
structure MachoSymbol where
  name : String
  isGlobal : Bool
  nType : UInt8
  nValue : UInt64

/-- `goblin::mach::MachO`; the sections of a segment may fail to parse. -/
structure MachO where
  cputype : UInt32
  segments : List (Option (List MachoSection))
  symbols : List MachoSymbol

/-- The parsers, and the entropy of a byte string. -/
structure Goblin where
  parseElf : Bytes → Option Elf
  parsePe : Bytes → Option Pe
  parseMacho : Bytes → Option MachO
  entropy : Bytes → ℚ

/-! ### Spans -/

/-- `MAX_FUNCTIONS`. -/
def maxFunctions : ℕ := 512

/-- `MIN_FUNCTION_GAP`. -/
def minFunctionGap : ℕ := 8

inductive SpanSource where
  | symbol
  | pdata
  | prologueScan
  deriving DecidableEq

structure FunctionSpan where
  offset : ℕ
  fileOffset : ℕ
  size : ℕ
  name : Option String
  source : SpanSource
  deriving DecidableEq

structure CodeSection where
  bytes : Bytes
  fileOffset : ℕ
  virtualAddress : ℕ
  entropy : ℚ

/-- `PROLOGUES`. -/
def prologues : List Bytes :=
  [[0x55, 0x48, 0x89, 0xe5], [0xf3, 0x0f, 0x1e, 0xfa], [0x48, 0x83, 0xec], [0x40, 0x53],
    [0x48, 0x89, 0x5c]]

/-- The body of the loop of `prologue_scan`. -/
def scanStep (bytes : Bytes) (starts : List ℕ) (i : ℕ) : List ℕ :=
  if prologues.any (fun p => p.isPrefixOf (bytes.drop i)) &&
      starts.getLast?.all fun last => decide (i ≥ last + minFunctionGap) then starts ++ [i]
  else starts

/-- `prologue_scan`. -/
def prologueScan (bytes : Bytes) : List ℕ :=
  ((List.range (bytes.length - 4)).foldl (scanStep bytes) []).take maxFunctions

/-- One span of `spans_from_starts`: it reaches to the next start, or to the end. -/
def spanAt (m : Arith) (starts : List ℕ) (codeLen fileOffset : ℕ) (source : SpanSource)
    (e : ℕ × ℕ) : Checked FunctionSpan := do
  let end' := starts[e.2 + 1]?.getD codeLen
  let sum ← m.add 64 fileOffset e.1
  return ⟨e.1, sum, end' - e.1, none, source⟩

/-- `spans_from_starts`. -/
def spansFromStarts (m : Arith) (starts : List ℕ) (codeLen fileOffset : ℕ) (source : SpanSource) :
    Checked (List FunctionSpan) := do
  let starts := ((starts.insertionSort (· ≤ ·)).destutter (· ≠ ·)).take maxFunctions
  let spans ← starts.zipIdx.mapM (spanAt m starts codeLen fileOffset source)
  return spans.filter fun s => decide (s.size ≥ 1)

/-- The spans found by symbols or tables, or else those of the prologue scan. -/
def orPrologues (m : Arith) (code : CodeSection) (spans : List FunctionSpan) :
    Checked (CodeSection × List FunctionSpan) :=
  if spans.isEmpty then do
    let scanned ← spansFromStarts m (prologueScan code.bytes) code.bytes.length code.fileOffset
      .prologueScan
    return (code, scanned)
  else return (code, spans)

/-! ### ELF -/

/-- `EM_X86_64`. -/
def emX8664 : UInt16 := 62

/-- `STT_FUNC` with a size. -/
def ElfSym.isSizedFunction (s : ElfSym) : Bool := s.stType = 2 && s.stSize > 0

/-- The span of a symbol, if it starts in the section. -/
def elfSpan (m : Arith) (elf : Elf) (code : CodeSection) (s : ElfSym) :
    Checked (Option FunctionSpan) :=
  let va := s.stValue.toNat
  if va ≥ code.virtualAddress then do
    let limit ← m.add 64 code.virtualAddress code.bytes.length
    if va < limit then do
      let sum ← m.add 64 code.fileOffset (va - code.virtualAddress)
      return some ⟨va - code.virtualAddress, sum, s.stSize.toNat, elf.strtab s.stName, .symbol⟩
    else return none
  else return none

/-- One code section of `elf_functions`. -/
def elfSection (m : Arith) (g : Goblin) (elf : Elf) (bytes : Bytes) (sh : ElfSection) :
    Checked (CodeSection × List FunctionSpan) := do
  let data ← clampedSlice m bytes sh.shOffset.toNat sh.shSize.toNat
  let code : CodeSection := ⟨data, sh.shOffset.toNat, sh.shAddr.toNat, g.entropy data⟩
  let spans ← (elf.syms.filter ElfSym.isSizedFunction).mapM (elfSpan m elf code)
  orPrologues m code (spans.reduceOption.take maxFunctions)

/-- The section headers called `name`. -/
def Elf.named (elf : Elf) (name : String) : List ElfSection :=
  elf.sectionHeaders.filter fun sh => elf.shdrStrtab sh.shName = some name

/-- `elf_functions`. -/
def elfFunctions (m : Arith) (g : Goblin) (bytes : Bytes) :
    Checked (List (CodeSection × List FunctionSpan)) :=
  match g.parseElf bytes with
  | none => return []
  | some elf =>
    if elf.machine ≠ emX8664 then return []
    else (elf.named ".text").mapM (elfSection m g elf bytes)

/-! ### PE -/

/-- `COFF_MACHINE_X86_64`. -/
def coffMachineX8664 : UInt16 := 0x8664

/-- `trim_end_matches('\0')`, on bytes. -/
def trimEndNul (name : Bytes) : Bytes := (name.reverse.dropWhile (· = 0)).reverse

/-- The bytes of `.text`. -/
def textName : Bytes := [0x2e, 0x74, 0x65, 0x78, 0x74]

/-- The span of a `.pdata` entry, if it starts in the section and is not empty. -/
def pdataSpan (m : Arith) (code : CodeSection) (f : RuntimeFunction) :
    Checked (Option FunctionSpan) := do
  let start := f.beginAddress.toNat
  let size ← m.sub 32 f.endAddress.toNat f.beginAddress.toNat
  if start < code.bytes.length ∧ size > 0 then do
    let sum ← m.add 64 code.fileOffset start
    return some ⟨start, sum, min size (code.bytes.length - start), none, .pdata⟩
  else return none

/-- The entries of `.pdata` that parse. -/
def Pe.functions (pe : Pe) : List RuntimeFunction := (pe.exceptionData.getD []).reduceOption

/-- One code section of `pe_functions`. -/
def peSection (m : Arith) (g : Goblin) (pe : Pe) (bytes : Bytes) (s : PeSection) :
    Checked (CodeSection × List FunctionSpan) := do
  let data ← clampedSlice m bytes s.pointerToRawData.toNat s.sizeOfRawData.toNat
  let code : CodeSection :=
    ⟨data, s.pointerToRawData.toNat, s.virtualAddress.toNat, g.entropy data⟩
  let spans ← pe.functions.mapM (pdataSpan m code)
  orPrologues m code (spans.reduceOption.take maxFunctions)

/-- The code sections. -/
def Pe.textSections (pe : Pe) : List PeSection :=
  pe.sections.filter fun s => trimEndNul s.name = textName

/-- `pe_functions`. -/
def peFunctions (m : Arith) (g : Goblin) (bytes : Bytes) :
    Checked (List (CodeSection × List FunctionSpan)) :=
  match g.parsePe bytes with
  | none => return []
  | some pe =>
    if pe.machine ≠ coffMachineX8664 then return []
    else pe.textSections.mapM (peSection m g pe bytes)

/-! ### Mach-O -/

/-- `CPU_TYPE_X86_64`. -/
def cpuTypeX8664 : UInt32 := 0x1000007

/-- `N_SECT`. -/
def nSect : UInt8 := 0xe

/-- The bytes of `__text`. -/
def machoTextName : Bytes := [0x5f, 0x5f, 0x74, 0x65, 0x78, 0x74]

/-- The start of a symbol in the section, if it is a global one there. -/
def machoStart (m : Arith) (code : CodeSection) (s : MachoSymbol) : Checked (Option ℕ) :=
  if s.name ≠ "" ∧ s.isGlobal = true ∧ s.nType = nSect ∧ s.nValue.toNat ≥ code.virtualAddress then do
    let limit ← m.add 64 code.virtualAddress code.bytes.length
    if s.nValue.toNat < limit then return some (s.nValue.toNat - code.virtualAddress) else return none
  else return none

/-- The span of a symbol: it reaches to the next one, or to the end. -/
def machoSpan (m : Arith) (code : CodeSection) (starts : List ℕ) (e : ℕ × ℕ) :
    Checked FunctionSpan :=
  spanAt m starts code.bytes.length code.fileOffset .symbol e

/-- One code section of `macho_functions`. -/
def machoSection (m : Arith) (g : Goblin) (macho : MachO) (sec : MachoSection) :
    Checked (CodeSection × List FunctionSpan) := do
  let code : CodeSection :=
    ⟨sec.data.val, sec.offset.toNat, sec.addr.toNat, g.entropy sec.data.val⟩
  let found ← macho.symbols.mapM (machoStart m code)
  let starts := found.reduceOption
  if starts.isEmpty then orPrologues m code []
  else do
    let starts := (starts.insertionSort (· ≤ ·)).destutter (· ≠ ·)
    let spans ← starts.zipIdx.mapM (machoSpan m code starts)
    return (code, (spans.filter fun s => decide (s.size > 0)).take maxFunctions)

/-- The code sections of all segments. -/
def MachO.textSections (macho : MachO) : List MachoSection :=
  macho.segments.reduceOption.flatten.filter fun s =>
    machoTextName.isSuffixOf (trimEndNul s.sectname)

/-- `macho_functions`. -/
def machoFunctions (m : Arith) (g : Goblin) (bytes : Bytes) :
    Checked (List (CodeSection × List FunctionSpan)) :=
  match g.parseMacho bytes with
  | none => return []
  | some macho =>
    if macho.cputype ≠ cpuTypeX8664 then return []
    else macho.textSections.mapM (machoSection m g macho)

/-- `functions_for`. -/
def functionsFor (m : Arith) (g : Goblin) (cls : ArtifactClass) (bytes : Bytes) :
    Checked (List (CodeSection × List FunctionSpan)) :=
  match cls with
  | .elf => elfFunctions m g bytes
  | .pe => peFunctions m g bytes
  | .machO => machoFunctions m g bytes
  | .machOFat | .script | .unknown => return []

end Corpus
