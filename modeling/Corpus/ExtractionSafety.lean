/-
When extraction panics on a hostile file.

The parts of `extract_pe` and `extract_elf` that check their bounds never panic
(`peAuthentihash_safe`, `parseGnuBuildId_safe`).  Section ranges have only their end clamped,
and sums and differences of header fields are taken as they are: extraction neither panics
nor overflows exactly when the headers it reads say what `HeadersFit` and `CodeFits` ask
(`extraction_safe_iff`).
-/
import Corpus.Extraction
import Corpus.SpanBounds

namespace Corpus

open Checked

variable {m : Arith} {g : Goblin} {x : Extractor}

/-! ### Parts that check their bounds -/

theorem readLe_returns {bytes : Bytes} {start stop : ℕ} (h : start ≤ stop)
    (h' : stop ≤ bytes.length) :
    Returns (readLe bytes start stop) (· < 256 ^ (stop - start)) := by
  refine (checkedRange_returns h h').bind fun s hs => returns_ok ?_
  rw [← hs]
  exact fromLe_lt s

/-- A build id is read only where the note has room for it. -/
theorem parseGnuBuildId_safe (note : Bytes) : Safe (parseGnuBuildId m note) := by
  unfold parseGnuBuildId
  split
  · exact safe_ok none
  · next hlen =>
    have hlen : 12 ≤ note.length := Nat.not_lt.mp hlen
    -- Each field is below 2 ^ 32, so no sum of them leaves the type.
    refine (readLe_returns (by omega) (by omega)).safe_bind fun namesz hname => ?_
    refine (readLe_returns (by omega) (by omega)).safe_bind fun descsz hdesc => ?_
    refine (readLe_returns (by omega) (by omega)).safe_bind fun noteType _ => ?_
    split
    · exact safe_ok none
    · refine (Arith.add_returns (by omega)).safe_bind fun descOff hoff => ?_
      refine (Arith.add_returns (by omega)).safe_bind fun descEnd hend => ?_
      split
      · exact safe_ok none
      · refine (checkedRange_returns (by omega) (by omega)).safe_bind fun desc _ => ?_
        exact safe_ok _

/-- The excluded ranges are read where the file has them. -/
theorem excludedRanges_returns {bytes : ByteSlice} {opt dirBase : ℕ} (hopt : opt ≤ bytes.val.length)
    (hdir : dirBase ≤ bytes.val.length + 112) :
    Returns (excludedRanges m bytes.val opt dirBase) fun _ => True := by
  have hlen := bytes.property
  unfold excludedRanges
  refine (Arith.add_returns (by omega)).bind fun _ _ => ?_
  refine (Arith.add_returns (by omega)).bind fun _ _ => ?_
  refine (Arith.add_returns (by omega)).bind fun entry hentry => ?_
  refine (Arith.add_returns (by omega)).bind fun entryEnd hend => ?_
  show Returns (if entryEnd ≤ bytes.val.length then _ else _) _
  split
  · refine (Arith.add_returns (by omega)).bind fun entryMid hmid => ?_
    refine (readLe_returns (by omega) (by omega)).bind fun certOff hoff => ?_
    refine (readLe_returns (by omega) (by omega)).bind fun certLen hcert => ?_
    have hcert : certLen < 256 ^ 4 := by
      rwa [show entryEnd - entryMid = 4 by omega] at hcert
    show Returns (if certLen > 0 ∧ certOff < bytes.val.length then _ else _) _
    split
    · refine (Arith.add_returns (by omega)).bind fun certEnd _ => ?_
      exact returns_ok trivial
    · exact returns_ok trivial
  · exact returns_ok trivial

/-- The loop stays in the file. -/
theorem hashBetween_returns (bytes : Bytes) (ranges : List (ℕ × ℕ)) (pos : ℕ) (taken : Bytes)
    (hpos : pos ≤ bytes.length) :
    Returns (hashBetween bytes ranges pos taken) fun r => r.1 ≤ bytes.length := by
  -- The invariant of the loop: the position is in the file.
  induction ranges generalizing pos taken with
  | nil => exact returns_ok hpos
  | cons r ranges ih =>
    have hnext : max pos (min r.2 bytes.length) ≤ bytes.length := by omega
    unfold hashBetween
    split
    · exact returns_ok hpos
    · split
      · refine (checkedRange_returns (by omega) (by omega)).bind fun part _ => ?_
        exact ih _ _ hnext
      · exact ih _ _ hnext

theorem hashedBytes_safe (bytes : Bytes) (ranges : List (ℕ × ℕ)) :
    Safe (hashedBytes bytes ranges) := by
  refine (hashBetween_returns bytes _ 0 [] (Nat.zero_le _)).safe_bind fun r hr => ?_
  split
  · refine (checkedRange_returns hr le_rfl).safe_bind fun tail _ => safe_ok _
  · exact safe_ok _

theorem dirOffset_le {magic k : ℕ} (h : dirOffset magic = some k) : k ≤ 112 := by
  unfold dirOffset at h
  split at h
  · obtain rfl := Option.some.inj h
    decide
  · split at h
    · obtain rfl := Option.some.inj h
      exact le_rfl
    · exact absurd h (by simp)

theorem authentihashAt_safe {bytes : ByteSlice} {opt : ℕ} (hopt : opt + 0x70 ≤ bytes.val.length) :
    Safe (authentihashAt m x bytes.val opt) := by
  have hlen := bytes.property
  refine (Arith.add_returns (by omega)).safe_bind fun magicEnd hend => ?_
  refine (readLe_returns (by omega) (by omega)).safe_bind fun magic _ => ?_
  cases hdir : dirOffset magic with
  | none => exact safe_ok none
  | some k =>
    -- The directory begins at most 112 bytes behind the optional header, which is in the file.
    have hk := dirOffset_le hdir
    refine (Arith.add_returns (by omega)).safe_bind fun dirBase hbase => ?_
    refine (excludedRanges_returns (by omega) (by omega)).safe_bind fun ranges _ => ?_
    obtain ⟨hashed, hhashed⟩ := hashedBytes_safe bytes.val ranges
    exact Checked.safe_bind.mpr ⟨hashed, hhashed, safe_ok _⟩

/-- The authentihash checks each offset before it reads there. -/
theorem peAuthentihash_safe (bytes : ByteSlice) : Safe (peAuthentihash m x bytes.val) := by
  have hbytes := bytes.property
  unfold peAuthentihash
  split
  · exact safe_ok none
  · next hlen =>
    have hlen : 0x40 ≤ bytes.val.length := by
      by_contra h
      exact hlen (Or.inl (Nat.not_le.mp h))
    refine (readLe_returns (by omega) hlen).safe_bind fun peOff hoff => ?_
    refine (Arith.add_returns (by omega)).safe_bind fun headerEnd hend => ?_
    split
    · exact safe_ok none
    · refine (Arith.add_returns (by omega)).safe_bind fun signatureEnd hsig => ?_
      refine (checkedRange_returns (by omega) (by omega)).safe_bind fun signature _ => ?_
      split
      · exact safe_ok none
      · refine (Arith.add_returns (by omega)).safe_bind fun opt hopt => ?_
        refine (Arith.add_returns (by omega)).safe_bind fun optEnd hoptEnd => ?_
        split
        · exact safe_ok none
        · exact authentihashAt_safe (by omega)

/-! ### Headers -/

/-- The section begins in the file, and its end is a number of the type. -/
def ElfSection.InFile (bytes : Bytes) (sh : ElfSection) : Prop :=
  sh.shOffset.toNat + sh.shSize.toNat < 2 ^ 64 ∧ sh.shOffset.toNat ≤ bytes.length

theorem safe_elfSlice {bytes : Bytes} {sh : ElfSection} :
    Safe (clampedSlice m bytes sh.shOffset.toNat sh.shSize.toNat) ↔ sh.InFile bytes :=
  safe_clampedSlice sh.shOffset.toNat_lt sh.shSize.toNat_lt

theorem safe_peSlice {bytes : Bytes} {s : PeSection} :
    Safe (clampedSlice m bytes s.pointerToRawData.toNat s.sizeOfRawData.toNat) ↔
      s.pointerToRawData.toNat ≤ bytes.length := by
  have hpointer := s.pointerToRawData.toNat_lt
  have hsize := s.sizeOfRawData.toNat_lt
  rw [safe_clampedSlice (by omega) (by omega)]
  exact and_iff_right (by omega)

theorem extractPe_safe_iff {bytes : ByteSlice} {pe : Pe} {f : ExtractedFeatures} :
    Safe (extractPe m x bytes.val pe f) ↔
      ∀ s ∈ pe.sections, s.pointerToRawData.toNat ≤ bytes.val.length := by
  have hline : ∀ s, Safe (peLayoutLine m x bytes.val s) ↔
      s.pointerToRawData.toNat ≤ bytes.val.length := fun s =>
    (safe_bind_of_safe fun _ => safe_ok _).trans safe_peSlice
  have hlayout : Safe (pe.sections.mapM (peLayoutLine m x bytes.val)) ↔
      ∀ s ∈ pe.sections, s.pointerToRawData.toNat ≤ bytes.val.length := by
    simp only [safe_mapM, hline]
  -- The authentihash is safe in any file; only the layout reads where the sections say.
  refine (safe_bind_iff fun _ _ => ?_).trans (and_iff_right (peAuthentihash_safe bytes))
  exact (safe_bind_of_safe fun _ => safe_ok _).trans hlayout

theorem elfBuildId_safe_iff {bytes : Bytes} {sh : ElfSection} :
    Safe (elfBuildId m bytes sh) ↔ sh.InFile bytes :=
  (safe_bind_of_safe fun note => parseGnuBuildId_safe note).trans safe_elfSlice

theorem elfComment_safe_iff {bytes : Bytes} {sh : ElfSection} :
    Safe (elfComment m x bytes sh) ↔ sh.InFile bytes :=
  (safe_bind_of_safe fun _ => safe_ok _).trans safe_elfSlice

theorem extractElf_safe_iff {bytes : Bytes} {elf : Elf} {f : ExtractedFeatures} :
    Safe (extractElf m x bytes elf f) ↔
      ∀ sh ∈ elf.named ".note.gnu.build-id" ++ elf.named ".comment", sh.InFile bytes := by
  have hids : Safe ((elf.named ".note.gnu.build-id").mapM (elfBuildId m bytes)) ↔
      ∀ sh ∈ elf.named ".note.gnu.build-id", sh.InFile bytes := by
    simp only [safe_mapM, elfBuildId_safe_iff]
  have hcomments : Safe ((elf.named ".comment").mapM (elfComment m x bytes)) ↔
      ∀ sh ∈ elf.named ".comment", sh.InFile bytes := by
    simp only [safe_mapM, elfComment_safe_iff]
  rw [List.forall_mem_append, ← hids]
  refine safe_bind_iff fun _ _ => ?_
  exact (safe_bind_of_safe fun _ => safe_ok _).trans hcomments

/-- What the headers that `extract` reads have to say. -/
def HeadersFit (g : Goblin) (bytes : Bytes) : Prop :=
  match classify bytes with
  | .pe => ∀ pe, g.parsePe bytes = some pe →
    ∀ s ∈ pe.sections, s.pointerToRawData.toNat ≤ bytes.length
  | .elf => ∀ elf, g.parseElf bytes = some elf →
    ∀ sh ∈ elf.named ".note.gnu.build-id" ++ elf.named ".comment", sh.InFile bytes
  | .machO | .machOFat | .script | .unknown => True

theorem extract_safe_iff {bytes : ByteSlice} :
    Safe (extract m g x bytes.val) ↔ HeadersFit g bytes.val := by
  unfold extract HeadersFit
  cases classify bytes.val with
  | pe =>
    cases hp : g.parsePe bytes.val with
    | none => exact iff_of_true (safe_ok _) (by simp)
    | some pe =>
      simp only [Option.some.injEq, forall_eq']
      exact extractPe_safe_iff
  | elf =>
    cases hp : g.parseElf bytes.val with
    | none => exact iff_of_true (safe_ok _) (by simp)
    | some elf =>
      simp only [Option.some.injEq, forall_eq']
      exact extractElf_safe_iff
  | machO | machOFat | script | unknown => exact iff_of_true (safe_ok _) trivial

/-! ### Code sections -/

theorem spanAt_safe {starts : List ℕ} {codeLen fileOffset : ℕ} {source : SpanSource}
    {e : ℕ × ℕ} (hlt : e.1 < codeLen) (hoff : fileOffset + codeLen < 2 ^ 64) :
    Safe (spanAt m starts codeLen fileOffset source e) :=
  (Arith.add_returns (show fileOffset + e.1 < 2 ^ 64 by omega)).safe_bind fun _ _ => safe_ok _

theorem spansBetween_safe {starts : List ℕ} {codeLen fileOffset : ℕ} {source : SpanSource}
    (hlt : ∀ i ∈ starts, i < codeLen) (hoff : fileOffset + codeLen < 2 ^ 64) :
    Safe (starts.zipIdx.mapM (spanAt m starts codeLen fileOffset source)) :=
  safe_mapM.mpr fun _ he => spanAt_safe (hlt _ (List.fst_mem_of_mem_zipIdx he)) hoff

/-- The prologue scan is safe in any section. -/
theorem orPrologues_safe {code : CodeSection} {spans : List FunctionSpan}
    (hoff : code.fileOffset + code.bytes.length < 2 ^ 64) : Safe (orPrologues m code spans) := by
  unfold orPrologues
  split
  · refine (safe_bind_of_safe fun _ => safe_ok _).mpr ?_
    refine (safe_bind_of_safe fun _ => safe_ok _).mpr ?_
    refine spansBetween_safe (fun i hi => ?_) hoff
    exact lt_of_mem_prologueScan (mem_sort_destutter (List.mem_of_mem_take hi))
  · exact safe_ok _

/-- A symbol is compared with the end of its section, which may leave the type. -/
theorem elfSpan_safe_iff {elf : Elf} {code : CodeSection} {s : ElfSym}
    (hoff : code.fileOffset + code.bytes.length < 2 ^ 64) :
    Safe (elfSpan .checked elf code s) ↔
      (code.virtualAddress ≤ s.stValue.toNat →
        code.virtualAddress + code.bytes.length < 2 ^ 64) := by
  unfold elfSpan
  -- The sum is made only for a symbol at or behind the address of the section.
  by_cases hge : s.stValue.toNat ≥ code.virtualAddress
  · rw [if_pos hge, safe_bind_iff (P := True), Arith.safe_add, and_true]
    · exact ⟨fun h _ => h, fun h => h hge⟩
    · intro limit hlimit
      obtain ⟨-, rfl⟩ := Arith.add_eq_ok.mp hlimit
      refine iff_true_intro ?_
      split
      · exact (Arith.add_returns (by omega)).safe_bind fun _ _ => safe_ok _
      · exact safe_ok _
  · rw [if_neg hge]
    exact iff_of_true (safe_ok _) fun h => absurd h hge

theorem elfSection_safe_iff {elf : Elf} {bytes : ByteSlice} {sh : ElfSection} :
    Safe (elfSection .checked g elf bytes.val sh) ↔ sh.InFile bytes.val ∧
      ∀ s ∈ elf.syms.filter ElfSym.isSizedFunction, sh.shAddr.toNat ≤ s.stValue.toNat →
        sh.shAddr.toNat + (sh.data bytes.val).length < 2 ^ 64 := by
  rw [← safe_elfSlice (m := .checked)]
  refine safe_bind_iff fun data hdata => ?_
  have hoff := clampedSlice_end_lt sh.shOffset.toNat_lt sh.shSize.toNat_lt hdata
  obtain ⟨-, -, rfl⟩ := (clampedSlice_eq_ok sh.shOffset.toNat_lt sh.shSize.toNat_lt).mp hdata
  refine (safe_bind_of_safe fun spans => orPrologues_safe hoff).trans (safe_mapM.trans ?_)
  exact forall₂_congr fun s _ => elfSpan_safe_iff hoff

/-- The size of a `.pdata` entry is a difference, which may leave the type. -/
theorem pdataSpan_safe {code : CodeSection} {f : RuntimeFunction}
    (hoff : code.fileOffset + code.bytes.length < 2 ^ 64) :
    Safe (pdataSpan m code f) ↔ (m = .checked → f.beginAddress.toNat ≤ f.endAddress.toNat) := by
  rw [← Arith.safe_sub (w := 32)]
  refine safe_bind_of_safe fun size => ?_
  split
  · next hin =>
    exact (Arith.add_returns (show _ < 2 ^ 64 by omega)).safe_bind fun _ _ => safe_ok _
  · exact safe_ok _

theorem peSection_safe {pe : Pe} {bytes : ByteSlice} {s : PeSection} :
    Safe (peSection m g pe bytes.val s) ↔
      s.pointerToRawData.toNat ≤ bytes.val.length ∧
        (m = .checked → ∀ f ∈ pe.functions, f.beginAddress.toNat ≤ f.endAddress.toNat) := by
  have hpointer := s.pointerToRawData.toNat_lt
  have hsize := s.sizeOfRawData.toNat_lt
  rw [← safe_peSlice (m := m)]
  refine safe_bind_iff fun data hdata => ?_
  have hoff := clampedSlice_end_lt (by omega) (by omega) hdata
  refine (safe_bind_of_safe fun spans => orPrologues_safe hoff).trans (safe_mapM.trans ?_)
  constructor
  · exact fun h hm f hf => (pdataSpan_safe hoff).mp (h f hf) hm
  · exact fun h f hf => (pdataSpan_safe hoff).mpr fun hm => h hm f hf

/-- The symbol is one that is compared with the end of the section. -/
def MachoSymbol.Compared (addr : ℕ) (s : MachoSymbol) : Prop :=
  s.name ≠ "" ∧ s.isGlobal = true ∧ s.nType = nSect ∧ addr ≤ s.nValue.toNat

theorem machoStart_safe_iff {code : CodeSection} {s : MachoSymbol} :
    Safe (machoStart .checked code s) ↔
      (s.Compared code.virtualAddress → code.virtualAddress + code.bytes.length < 2 ^ 64) := by
  unfold machoStart MachoSymbol.Compared
  by_cases hsym : s.name ≠ "" ∧ s.isGlobal = true ∧ s.nType = nSect ∧
      code.virtualAddress ≤ s.nValue.toNat
  · rw [if_pos hsym, ← Arith.safe_add]
    refine Iff.trans (safe_bind_of_safe fun limit => ?_) ⟨fun h _ => h, fun h => h hsym⟩
    split
    · exact safe_ok _
    · exact safe_ok _
  · rw [if_neg hsym]
    exact iff_of_true (safe_ok _) fun h => absurd h hsym

theorem machoSection_safe_iff {macho : MachO} {sec : MachoSection} :
    Safe (machoSection .checked g macho sec) ↔
      ∀ s ∈ macho.symbols, s.Compared sec.addr.toNat →
        sec.addr.toNat + sec.data.val.length < 2 ^ 64 := by
  have hlen := sec.data.property
  have hoffset := sec.offset.toNat_lt
  have hoff : sec.offset.toNat + sec.data.val.length < 2 ^ 64 := by omega
  refine (safe_bind_iff (P := True) fun found hfound => iff_true_intro ?_).trans ?_
  -- Starts that were found are inside, whatever the addresses.
  · have hin : ∀ i ∈ found.reduceOption, i < sec.data.val.length := by
      rw [machoStarts_eq (g := g) hfound]
      exact fun i hi => lt_of_mem_startsIn hi
    show Safe (if found.reduceOption.isEmpty then _ else _)
    split
    · exact orPrologues_safe hoff
    · refine (safe_bind_of_safe fun _ => safe_ok _).mpr ?_
      exact spansBetween_safe (fun i hi => hin i (mem_sort_destutter hi)) hoff
  · rw [and_true, safe_mapM]
    exact forall₂_congr fun s _ => machoStart_safe_iff

/-! ### Decoding -/

theorem decodeSpan_safe_iff {code : CodeSection} {s : FunctionSpan} (hoff : s.offset < 2 ^ 64)
    (hsize : s.size < 2 ^ 64) : Safe (decodeSpan m x code s) ↔
      s.offset + s.size < 2 ^ 64 ∧ s.offset ≤ code.bytes.length :=
  (safe_bind_of_safe fun _ => safe_ok _).trans (safe_clampedSlice hoff hsize)

/-- Spans inside their section can be decoded. -/
theorem decode_safe_of_inside {code : CodeSection} {spans : List FunctionSpan}
    (hlen : code.bytes.length < 2 ^ 64)
    (h : ∀ s ∈ spans, s.offset + s.size ≤ code.bytes.length) :
    Safe (spans.mapM (decodeSpan m x code)) := by
  refine safe_mapM.mpr fun s hs => ?_
  have hin := h s hs
  exact (decodeSpan_safe_iff (by omega) (by omega)).mpr ⟨by omega, by omega⟩

/-- The section does not look packed. -/
def unpacked (entropy : ℚ) : Bool := decide (entropy ≤ modelV1.packedEntropyLimit)

/-- The loop is safe when the spans of each section up to the first packed one are. -/
theorem decodeRegions_safe_iff {α : Type} (entropy : α → ℚ) (fits : α → Prop) {l : List α}
    {regions : List (CodeSection × List FunctionSpan)}
    (h : List.Forall₂ (fun a r => r.1.entropy = entropy a ∧
      (Safe (r.2.mapM (decodeSpan m x r.1)) ↔ fits a)) l regions)
    (acc : List FunctionRow × ℕ) : Safe (decodeRegions m x regions acc) ↔
      ∀ a ∈ l.takeWhile (fun a => unpacked (entropy a)), fits a := by
  -- The loop ends at the first section that looks packed; what comes before is decoded.
  induction h generalizing acc with
  | nil => exact iff_of_true (safe_ok _) (by simp)
  | @cons a r l regions hr _ ih =>
    unfold decodeRegions
    rw [hr.1]
    by_cases hlim : modelV1.packedEntropyLimit < entropy a
    · rw [if_pos hlim, List.takeWhile_cons_of_neg]
      · exact iff_of_true (safe_ok _) (by simp)
      · rw [unpacked, decide_eq_true_iff, not_le]
        exact hlim
    · rw [if_neg hlim, List.takeWhile_cons_of_pos, List.forall_mem_cons, ← hr.2]
      · exact safe_bind_iff fun rows _ => ih _
      · exact decide_eq_true (not_lt.mp hlim)

/-- When every section has spans inside it, packed ones make no difference. -/
theorem decodeRegions_safe {regions : List (CodeSection × List FunctionSpan)}
    (hlen : ∀ r ∈ regions, r.1.bytes.length < 2 ^ 64)
    (h : ∀ r ∈ regions, ∀ s ∈ r.2, s.offset + s.size ≤ r.1.bytes.length)
    (acc : List FunctionRow × ℕ) : Safe (decodeRegions m x regions acc) := by
  refine (decodeRegions_safe_iff (fun r => r.1.entropy) (fun _ => True)
    (List.forall₂_same.mpr fun r hr => ⟨rfl, iff_true_intro ?_⟩) acc).mpr fun _ _ => trivial
  exact decode_safe_of_inside (hlen r hr) (h r hr)

/-- The sums of the spans of ELF symbols stay in the type. -/
def Elf.SumsFit (elf : Elf) (bytes : Bytes) (sh : ElfSection) : Prop :=
  ∀ s ∈ (elf.functionsIn bytes sh).take maxFunctions,
    s.stValue.toNat - sh.shAddr.toNat + s.stSize.toNat < 2 ^ 64

theorem elfDecode_safe_iff {elf : Elf} {bytes : ByteSlice} {sh : ElfSection}
    {r : CodeSection × List FunctionSpan}
    (h : elfSection .checked g elf bytes.val sh = .ok r) :
    Safe (r.2.mapM (decodeSpan m x r.1)) ↔ elf.SumsFit bytes.val sh := by
  have hspans := elfSection_spans h
  have hlen : (sh.data bytes.val).length < 2 ^ 64 :=
    lt_of_le_of_lt ((List.length_take_le' _ _).trans (by rw [List.length_drop]; omega))
      (Nat.lt_trans bytes.property (by decide))
  rw [hspans.code_eq]
  -- Spans of the scan end in the section; those of symbols have the sizes that the symbols say.
  by_cases hnil : elf.functionsIn bytes.val sh = []
  · have hr := hspans.scanned (by rw [hnil, List.map_nil])
    have hin := hr.inside.mpr trivial
    rw [hspans.code_eq] at hin
    refine iff_of_true (decode_safe_of_inside hlen hin) ?_
    unfold Elf.SumsFit
    simp [hnil]
  · rw [hspans.first (by simpa using hnil), ← List.map_take, safe_mapM, List.forall_mem_map]
    refine forall₂_congr fun s hs => ?_
    obtain ⟨hge, -, hlt⟩ := ElfSym.startsIn_iff.mp
      (List.mem_filter.mp (List.mem_of_mem_take hs)).2
    have hvalue := s.stValue.toNat_lt
    rw [decodeSpan_safe_iff (show s.stValue.toNat - sh.shAddr.toNat < 2 ^ 64 by omega)
      s.stSize.toNat_lt]
    exact and_iff_left (show s.stValue.toNat - sh.shAddr.toNat ≤ (sh.data bytes.val).length by
      omega)

/-! ### Files -/

/-- What the headers and symbols that `extract_and_store` reads have to say. -/
def CodeFits (g : Goblin) (cls : ArtifactClass) (bytes : Bytes) : Prop :=
  match cls with
  | .elf => ∀ elf, g.parseElf bytes = some elf → elf.machine = emX8664 →
    (∀ sh ∈ elf.named ".text", sh.InFile bytes ∧
      ∀ s ∈ elf.syms.filter ElfSym.isSizedFunction, sh.shAddr.toNat ≤ s.stValue.toNat →
        sh.shAddr.toNat + (sh.data bytes).length < 2 ^ 64) ∧
    ∀ sh ∈ (elf.named ".text").takeWhile fun sh => unpacked (g.entropy (sh.data bytes)),
      elf.SumsFit bytes sh
  | .pe => ∀ pe, g.parsePe bytes = some pe → pe.machine = coffMachineX8664 →
    ∀ s ∈ pe.textSections, s.pointerToRawData.toNat ≤ bytes.length ∧
      ∀ f ∈ pe.functions, f.beginAddress.toNat ≤ f.endAddress.toNat
  | .machO => ∀ macho, g.parseMacho bytes = some macho → macho.cputype = cpuTypeX8664 →
    ∀ sec ∈ macho.textSections, ∀ s ∈ macho.symbols, s.Compared sec.addr.toNat →
      sec.addr.toNat + sec.data.val.length < 2 ^ 64
  | .machOFat | .script | .unknown => True

theorem elfFunctions_decode_iff {bytes : ByteSlice} :
    Safe (elfFunctions .checked g bytes.val >>= fun regions =>
      decodeRegions .checked x regions ([], 0)) ↔ CodeFits g .elf bytes.val := by
  unfold elfFunctions CodeFits
  cases hp : g.parseElf bytes.val with
  | none => exact iff_of_true (safe_ok _) (by simp)
  | some elf =>
    by_cases hmachine : elf.machine = emX8664
    · simp only [hmachine, ne_eq, not_true_eq_false, if_false, Option.some.injEq, forall_eq',
        forall_const]
      rw [safe_bind_iff fun regions hregions => ?_]
      · simp only [safe_mapM, elfSection_safe_iff]
        rfl
      · refine decodeRegions_safe_iff (fun sh : ElfSection => g.entropy (sh.data bytes.val))
          (elf.SumsFit bytes.val) ?_ _
        refine (mapM_eq_ok_iff.mp hregions).imp fun sh r hr => ⟨?_, elfDecode_safe_iff hr⟩
        rw [(elfSection_spans hr).code_eq]
        rfl
    · simp only [ne_eq, hmachine, not_false_eq_true, if_true]
      exact iff_of_true (safe_ok _) (by simp [hmachine])

theorem peFunctions_decode_iff {bytes : ByteSlice} :
    Safe (peFunctions .checked g bytes.val >>= fun regions =>
      decodeRegions .checked x regions ([], 0)) ↔ CodeFits g .pe bytes.val := by
  unfold peFunctions CodeFits
  cases hp : g.parsePe bytes.val with
  | none => exact iff_of_true (safe_ok _) (by simp)
  | some pe =>
    by_cases hmachine : pe.machine = coffMachineX8664
    · simp only [hmachine, ne_eq, not_true_eq_false, if_false, Option.some.injEq, forall_eq',
        forall_const]
      rw [safe_bind_iff fun regions hregions => iff_true_intro ?_, and_true]
      · simp only [safe_mapM, peSection_safe, true_imp_iff]
      · -- a `.pdata` span is clipped, so decoding it never fails
        refine decodeRegions_safe (fun r hr => ?_) (fun r hr => ?_) _
        · obtain ⟨s, -, hs⟩ := exists_of_mem_mapM hregions hr
          rw [(peSection_spans hs).code_eq]
          refine lt_of_le_of_lt ((List.length_take_le' _ _).trans ?_)
            (Nat.lt_trans bytes.property (by decide))
          rw [List.length_drop]
          omega
        · obtain ⟨s, -, hs⟩ := exists_of_mem_mapM hregions hr
          exact (peSection_recovered hs).inside.mpr trivial
    · simp only [ne_eq, hmachine, not_false_eq_true, if_true]
      exact iff_of_true (safe_ok _) (by simp [hmachine])

theorem machoFunctions_decode_iff {bytes : ByteSlice} :
    Safe (machoFunctions .checked g bytes.val >>= fun regions =>
      decodeRegions .checked x regions ([], 0)) ↔ CodeFits g .machO bytes.val := by
  unfold machoFunctions CodeFits
  cases hp : g.parseMacho bytes.val with
  | none => exact iff_of_true (safe_ok _) (by simp)
  | some macho =>
    by_cases hcpu : macho.cputype = cpuTypeX8664
    · simp only [hcpu, ne_eq, not_true_eq_false, if_false, Option.some.injEq, forall_eq',
        forall_const]
      rw [safe_bind_iff fun regions hregions => iff_true_intro ?_, and_true]
      · simp only [safe_mapM, machoSection_safe_iff]
      · -- a span ends at the next start, so decoding it never fails
        refine decodeRegions_safe (fun r hr => ?_) (fun r hr => ?_) _
        · obtain ⟨sec, -, hs⟩ := exists_of_mem_mapM hregions hr
          rw [machoSection_code hs]
          exact Nat.lt_trans sec.data.property (by decide)
        · obtain ⟨sec, -, hs⟩ := exists_of_mem_mapM hregions hr
          exact (machoSection_recovered hs).inside.mpr trivial
    · simp only [ne_eq, hcpu, not_false_eq_true, if_true]
      exact iff_of_true (safe_ok _) (by simp [hcpu])

theorem semanticRows_safe_iff {cls : ArtifactClass} {bytes : ByteSlice} :
    Safe (semanticRows .checked g x cls bytes.val) ↔
      ((x.triage cls bytes.val).1 = false → CodeFits g cls bytes.val) := by
  unfold semanticRows
  cases hblocked : (x.triage cls bytes.val).1 with
  | true =>
    simp only [hblocked, if_true]
    exact iff_of_true (safe_ok _) (by simp)
  | false =>
    simp only [hblocked, Bool.false_eq_true, if_false, forall_const]
    cases cls with
    | elf => exact elfFunctions_decode_iff
    | pe => exact peFunctions_decode_iff
    | machO => exact machoFunctions_decode_iff
    | machOFat | script | unknown => exact iff_of_true (safe_ok _) trivial

/-- **Extraction neither panics nor overflows exactly when the headers fit.** -/
theorem extraction_safe_iff (g : Goblin) (x : Extractor) (cls : ArtifactClass)
    (bytes : ByteSlice) :
    Safe (extract .checked g x bytes.val) ∧ Safe (semanticRows .checked g x cls bytes.val) ↔
      HeadersFit g bytes.val ∧
        ((x.triage cls bytes.val).1 = false → CodeFits g cls bytes.val) :=
  and_congr extract_safe_iff semanticRows_safe_iff

/-- An ELF file of four bytes whose comment section is said to begin at `0x1000`. -/
def commentPastEnd : Goblin where
  parseElf _ := some {
    machine := emX8664
    sectionHeaders := [⟨1, 1, 0, 0, 0x1000, 4⟩]
    shdrStrtab := fun _ => some ".comment"
    syms := []
    strtab := fun _ => none
    dynsyms := []
    dynstrtab := fun _ => none
    libraries := [] }
  parsePe _ := none
  parseMacho _ := none
  entropy _ := 0

/-- Texts, digests and decoders that say nothing. -/
def Extractor.plain : Extractor where
  sha256 := id
  toLowercase := id
  fromUtf8Lossy _ := ""
  trim := id
  fuzzyHash _ := ""
  parseError _ _ := ""
  extractMacho _ f := f
  triage _ _ := (false, "")
  featuresFor _ _ := ⟨[], 0, false⟩

/-- The start of a section range is not clamped: a header past the end of the file stops
the extraction. -/
theorem comment_past_end_panics :
    extract .checked commentPastEnd .plain [0x7f, 0x45, 0x4c, 0x46] = .error .range ∧
      extract .wrapping commentPastEnd .plain [0x7f, 0x45, 0x4c, 0x46] = .error .range :=
  ⟨rfl, rfl⟩

/-! ### The analyzer -/

/-- A region with its spans decoded, significant or not. -/
def decodedRegion (x : Extractor) (r : CodeSection × List FunctionSpan) : CodeRegion :=
  ⟨r.1.entropy, r.2.map fun s =>
    s.row (x.featuresFor ((r.1.bytes.drop s.offset).take s.size) s.fileOffset)⟩

/-- Where no slice fails, the loop computes the significant functions of the analyzer whose
regions are the decoded ones. -/
theorem decodeRegions_eq {an : Analyzer} {regions : List (CodeSection × List FunctionSpan)}
    (hsig : ∀ r ∈ regions, ∀ s ∈ r.2,
      an.isSignificant (s.row (x.featuresFor ((r.1.bytes.drop s.offset).take s.size) s.fileOffset)) =
        (x.featuresFor ((r.1.bytes.drop s.offset).take s.size) s.fileOffset).isSignificant)
    (hword : ∀ r ∈ regions, ∀ s ∈ r.2, s.offset < 2 ^ 64 ∧ s.size < 2 ^ 64)
    {acc : List FunctionRow × ℕ} {result : Except String (List FunctionRow × ℕ)}
    (h : decodeRegions m x regions acc = .ok result) :
    result = significantFunctions an (regions.map (decodedRegion x)) acc := by
  induction regions generalizing acc with
  | nil => exact (Except.ok.inj h).symm
  | cons r regions ih =>
    unfold decodeRegions at h
    rw [List.map_cons]
    unfold significantFunctions
    show result = if modelV1.packedEntropyLimit < r.1.entropy then _ else _
    split at h
    · next hlim =>
      rw [if_pos hlim]
      exact (Except.ok.inj h).symm
    · next hlim =>
      rw [if_neg hlim]
      obtain ⟨rows, hrows, h⟩ := bind_eq_ok.mp h
      -- A span whose slice did not fail, decoded and kept if it is significant.
      have hspan : ∀ s ∈ r.2, ∀ o, decodeSpan m x r.1 s = .ok o →
          o = if an.isSignificant (s.row (x.featuresFor ((r.1.bytes.drop s.offset).take s.size)
              s.fileOffset)) then
            some (s.row (x.featuresFor ((r.1.bytes.drop s.offset).take s.size) s.fileOffset))
          else none := by
        intro s hs o ho
        obtain ⟨hoff, hsize⟩ := hword r List.mem_cons_self s hs
        obtain ⟨body, hbody, ho⟩ := bind_eq_ok.mp ho
        obtain ⟨-, -, rfl⟩ := (clampedSlice_eq_ok hoff hsize).mp hbody
        rw [hsig r List.mem_cons_self s hs]
        exact (Except.ok.inj ho).symm
      have heq := eq_map_of_mapM_eq_ok hspan hrows
      have hrows : rows.reduceOption = (decodedRegion x r).spans.filter an.isSignificant := by
        rw [heq, reduceOption_map_ite, decodedRegion, List.filter_map]
        rfl
      rw [hrows] at h
      refine (ih (fun r' hr' => hsig r' (List.mem_cons_of_mem _ hr'))
        (fun r' hr' => hword r' (List.mem_cons_of_mem _ hr')) h).trans ?_
      rw [decodedRegion, List.length_map]

end Corpus
