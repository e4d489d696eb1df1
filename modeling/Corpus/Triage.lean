/-
Packed-code triage (`semantic/triage.rs`).

`triage` measures an artifact: the entropy of its executable sections, its imports, its
overlay, the marker bytes of known packers.  Each measurement is a signal that has fired or
not, and the signals decide whether semantic edges are blocked.  By the module's policy a
packer marker blocks only beside another signal; the code counts the fired signals, and every
marker that occurs is a signal of its own.

* `blockSemantic_iff` — when the report blocks;
* `exists_fired_other_iff` — when a signal other than a marker has fired;
* `blocks_by_policy_iff` — the report follows the policy exactly when fewer than two markers
  occur, or another signal has fired.

The entropy of a byte string is an arbitrary exact value.
-/
import Corpus.Basic
import Mathlib.Algebra.BigOperators.Group.List.Basic
import Mathlib.Algebra.Order.Field.Rat
import Mathlib.Data.List.Infix
import Mathlib.Tactic.NormNum

namespace Corpus.Triage

/-! ### The report -/

/-- `SectionMeta`. -/
structure SectionMeta where
  name : String
  bytes : Bytes
  exec : Bool
  writable : Bool

/-- One measurement, its threshold and whether it fired. -/
structure TriageSignal (K : Type) where
  name : String
  value : K
  threshold : K
  fired : Bool
  detail : String

structure TriageReport (K : Type) where
  version : String
  format : String
  signals : List (TriageSignal K)
  blockSemantic : Bool
  summary : String

/-- `TRIAGE_VERSION`. -/
def triageVersion : String := "triage:v1"

/-- What the report is computed with: `shannon_entropy`, and the text of a value under
`{:.2}`. -/
structure Measure (K : Type) where
  entropy : Bytes → K
  text : K → String

/-- `find_bytes`: some window of the file is the needle. -/
def findBytes (hay needle : Bytes) : Bool :=
  (List.range (hay.length + 1 - needle.length)).any fun i =>
    (hay.drop i).take needle.length == needle

/-- The markers of `triage`, with the packer each one names. -/
def markers : List (Bytes × String) :=
  [([85, 80, 88, 48], "upx_section"), ([85, 80, 88, 49], "upx_section"),
    ([85, 80, 88, 33], "upx_magic"), ([46, 110, 115, 112, 48], "nspack"),
    ([80, 69, 67, 50], "pecompact")]

section Report

variable {K : Type} [Field K] [LinearOrder K]

/-- `MODEL_V1.packed_entropy_limit`. -/
def packedEntropyLimit : K := 72 / 10

/-- What the loop over the sections carries. -/
structure Walk (K : Type) where
  signals : List (TriageSignal K)
  codeBytes : ℕ
  weightedEntropy : K
  maxSectionEntropy : K
  execWritable : ℕ

/-- The signal of a section that is executable and writable. -/
def writableSignal (s : SectionMeta) : TriageSignal K :=
  ⟨"exec_writable_section", 1, 0, true, s!"section {s.name} is executable and writable"⟩

/-- One section. -/
def Walk.step (m : Measure K) (w : Walk K) (s : SectionMeta) : Walk K :=
  if s.exec && !s.bytes.isEmpty then
    let e := m.entropy s.bytes
    let w := { w with
      weightedEntropy := w.weightedEntropy + e * s.bytes.length
      codeBytes := w.codeBytes + s.bytes.length
      maxSectionEntropy := max w.maxSectionEntropy e }
    if s.writable then
      { w with execWritable := w.execWritable + 1, signals := w.signals ++ [writableSignal s] }
    else w
  else w

/-- The loop over the sections. -/
def walk (m : Measure K) (sections : List SectionMeta) : Walk K :=
  sections.foldl (Walk.step m) ⟨[], 0, 0, 0, 0⟩

/-- The mean over the sections walked; over the file, when they hold no code. -/
def Walk.meanCodeEntropy (m : Measure K) (w : Walk K) (whole : Bytes) : K :=
  if w.codeBytes = 0 then m.entropy whole else w.weightedEntropy / w.codeBytes

def meanSignal (m : Measure K) (mean : K) : TriageSignal K :=
  ⟨"mean_code_entropy", mean, packedEntropyLimit, packedEntropyLimit < mean,
    s!"mean code entropy {m.text mean}"⟩

def maxSignal (m : Measure K) (e : K) : TriageSignal K :=
  ⟨"max_section_entropy", e, packedEntropyLimit + 3 / 10, packedEntropyLimit + 3 / 10 < e,
    s!"max section entropy {m.text e}"⟩

def importSignal (importCount : ℕ) (mean : K) : TriageSignal K :=
  ⟨"import_sparsity", importCount, 3,
    decide (0 < importCount) && decide ((importCount : K) < 3) && decide (65 / 10 < mean),
    s!"{importCount} imports with elevated entropy"⟩

def overlaySignal (hasOverlay : Bool) (mean : K) : TriageSignal K :=
  ⟨"overlay_present", if hasOverlay then 1 else 0, 5 / 10, hasOverlay && decide (68 / 10 < mean),
    if hasOverlay then "file has overlay past section data" else "no overlay"⟩

/-- The signal of a marker that occurs. -/
def markerSignal (label : String) : TriageSignal K := ⟨"packer_marker", 1, 5 / 10, true, label⟩

/-- The markers that occur in the file. -/
def markersOf (whole : Bytes) : List (Bytes × String) :=
  markers.filter fun p => findBytes whole p.1

/-- `triage`. -/
def triage (m : Measure K) (format : String) (whole : Bytes) (codeSections : List SectionMeta)
    (importCount : ℕ) (hasOverlay : Bool) : TriageReport K :=
  let w := walk m codeSections
  let mean := w.meanCodeEntropy m whole
  let signals : List (TriageSignal K) := w.signals ++ [meanSignal m mean, maxSignal m w.maxSectionEntropy,
    importSignal importCount mean, overlaySignal hasOverlay mean] ++
    (markersOf whole).map fun p => markerSignal p.2
  -- Each marker that occurs is a fired signal, so two of them are two signals.
  let fired := signals.filter TriageSignal.fired
  let entropyBlock := signals.any fun s => s.name == "mean_code_entropy" && s.fired
  let markerBlock := (signals.any fun s => s.name == "packer_marker" && s.fired) &&
    decide (2 ≤ fired.length)
  { version := triageVersion
    format := format
    signals := signals
    blockSemantic := entropyBlock || markerBlock ||
      (decide (0 < w.execWritable) && decide (65 / 10 < mean))
    summary := if fired.isEmpty then "no packing signals"
      else "; ".intercalate (fired.map fun s => s!"{s.name}={s.detail}") }

/-! ### The walk over the sections -/

/-- The sections that count as code. -/
def codeOf (sections : List SectionMeta) : List SectionMeta :=
  sections.filter fun s => s.exec && !s.bytes.isEmpty

/-- The size-weighted mean entropy of the code, or the entropy of the file if there is none. -/
def meanEntropy (m : Measure K) (whole : Bytes) (sections : List SectionMeta) : K :=
  if codeOf sections = [] then m.entropy whole
  else ((codeOf sections).map fun s => m.entropy s.bytes * s.bytes.length).sum /
    ((codeOf sections).map fun s => s.bytes.length).sum

/-- The largest entropy of a code section. -/
def maxEntropy (m : Measure K) (sections : List SectionMeta) : K :=
  ((codeOf sections).map fun s => m.entropy s.bytes).foldl max 0

/-- The walk has summed the code sections. -/
theorem foldl_step (m : Measure K) (sections : List SectionMeta) (w : Walk K) :
    sections.foldl (Walk.step m) w =
      { signals := w.signals ++
          ((codeOf sections).filter SectionMeta.writable).map writableSignal
        codeBytes := w.codeBytes + ((codeOf sections).map fun s => s.bytes.length).sum
        weightedEntropy := w.weightedEntropy +
          ((codeOf sections).map fun s => m.entropy s.bytes * s.bytes.length).sum
        maxSectionEntropy :=
          ((codeOf sections).map fun s => m.entropy s.bytes).foldl max w.maxSectionEntropy
        execWritable := w.execWritable +
          ((codeOf sections).filter SectionMeta.writable).length } := by
  induction sections generalizing w with
  | nil => simp [codeOf]
  | cons s rest ih =>
    rw [List.foldl_cons, ih]
    by_cases hcode : (s.exec && !s.bytes.isEmpty) = true
    · have hcons : codeOf (s :: rest) = s :: codeOf rest := List.filter_cons_of_pos hcode
      rw [hcons]
      by_cases hw : s.writable = true
      · simp only [Walk.step, hcode, hw, if_true, List.map_cons, List.sum_cons, List.foldl_cons,
          List.filter_cons_of_pos, List.append_assoc, List.singleton_append, List.length_cons,
          add_assoc]
        congr 1
        omega
      · simp only [Walk.step, hcode, hw, if_true, if_false, List.map_cons, List.sum_cons,
          List.foldl_cons, List.filter_cons_of_neg, add_assoc, Bool.false_eq_true, not_false_eq_true]
    · have hskip : codeOf (s :: rest) = codeOf rest := List.filter_cons_of_neg hcode
      rw [hskip]
      simp only [Walk.step, hcode]
      rfl

/-- A section that is non-empty, executable and writable. -/
def HasWritableCode (sections : List SectionMeta) : Prop :=
  ∃ s ∈ sections, s.bytes ≠ [] ∧ s.exec = true ∧ s.writable = true

theorem codeOf_writable_iff (sections : List SectionMeta) :
    0 < ((codeOf sections).filter SectionMeta.writable).length ↔ HasWritableCode sections := by
  rw [List.length_pos_iff_exists_mem]
  constructor
  · rintro ⟨s, hs⟩
    obtain ⟨hcode, hw⟩ := List.mem_filter.mp hs
    obtain ⟨hmem, h⟩ := List.mem_filter.mp hcode
    rw [Bool.and_eq_true, Bool.not_eq_true', List.isEmpty_eq_false_iff] at h
    exact ⟨s, hmem, h.2, h.1, hw⟩
  · rintro ⟨s, hmem, hne, hexec, hw⟩
    refine ⟨s, List.mem_filter.mpr ⟨List.mem_filter.mpr ⟨hmem, ?_⟩, hw⟩⟩
    rw [Bool.and_eq_true, Bool.not_eq_true', List.isEmpty_eq_false_iff]
    exact ⟨hexec, hne⟩

/-- The sizes of the code sum to zero only if there is none: its sections are non-empty. -/
theorem sum_codeOf_eq_zero_iff (sections : List SectionMeta) :
    ((codeOf sections).map fun s => s.bytes.length).sum = 0 ↔ codeOf sections = [] := by
  constructor
  · intro h
    by_contra hne
    -- A section of code has a byte.
    obtain ⟨s, hs⟩ := List.exists_mem_of_ne_nil _ hne
    have hcode := (List.mem_filter.mp hs).2
    rw [Bool.and_eq_true, Bool.not_eq_true', List.isEmpty_eq_false_iff] at hcode
    have hzero := List.sum_eq_zero_iff_forall_eq_nat.mp h _ (List.mem_map_of_mem hs)
    exact hcode.2 (List.length_eq_zero_iff.mp hzero)
  · intro h
    rw [h]
    rfl

theorem meanCodeEntropy_walk (m : Measure K) (whole : Bytes) (sections : List SectionMeta) :
    (walk m sections).meanCodeEntropy m whole = meanEntropy m whole sections := by
  unfold Walk.meanCodeEntropy walk meanEntropy
  rw [foldl_step]
  simp only [zero_add, sum_codeOf_eq_zero_iff]

/-! ### Markers -/

/-- The search finds the needles that occur. -/
theorem findBytes_eq (hay needle : Bytes) : findBytes hay needle = decide (needle <:+: hay) := by
  rw [Bool.eq_iff_iff, decide_eq_true_iff]
  simp only [findBytes, List.any_eq_true, List.mem_range, beq_iff_eq]
  constructor
  · rintro ⟨i, -, hi⟩
    -- The window at `i` is the needle.
    refine ⟨hay.take i, (hay.drop i).drop needle.length, ?_⟩
    have hdrop := List.take_append_drop needle.length (hay.drop i)
    rw [hi] at hdrop
    rw [List.append_assoc, hdrop, List.take_append_drop]
  · rintro ⟨before, after, rfl⟩
    refine ⟨before.length, ?_, ?_⟩
    · simp only [List.length_append]
      omega
    · rw [List.append_assoc, List.drop_left, List.take_left]

/-- The markers that occur in the file. -/
def occurring (whole : Bytes) : List (Bytes × String) :=
  markers.filter fun p => decide (p.1 <:+: whole)

theorem markersOf_eq (whole : Bytes) : markersOf whole = occurring whole := by
  simp only [markersOf, occurring, findBytes_eq]

theorem occurring_pos_iff (whole : Bytes) :
    0 < (occurring whole).length ↔ ∃ p ∈ markers, p.1 <:+: whole := by
  simp only [occurring, List.length_pos_iff_exists_mem, List.mem_filter, decide_eq_true_iff]

/-! ### The policy -/

/-- The signals that no marker contributes. -/
def otherSignals (m : Measure K) (whole : Bytes) (sections : List SectionMeta) (importCount : ℕ)
    (hasOverlay : Bool) : List (TriageSignal K) :=
  ((codeOf sections).filter SectionMeta.writable).map writableSignal ++
    [meanSignal m (meanEntropy m whole sections), maxSignal m (maxEntropy m sections),
      importSignal importCount (meanEntropy m whole sections),
      overlaySignal hasOverlay (meanEntropy m whole sections)]

/-- Another signal than a marker has fired, read off the input. -/
def Corroborated (m : Measure K) (whole : Bytes) (sections : List SectionMeta) (importCount : ℕ)
    (hasOverlay : Bool) : Prop :=
  HasWritableCode sections ∨
    packedEntropyLimit < meanEntropy m whole sections ∨
    packedEntropyLimit + 3 / 10 < maxEntropy m sections ∨
    (0 < importCount ∧ (importCount : K) < 3 ∧ 65 / 10 < meanEntropy m whole sections) ∨
    (hasOverlay = true ∧ 68 / 10 < meanEntropy m whole sections)

/-- The blocking policy of the module, over the signals reported. -/
def BlocksByPolicy (m : Measure K) (whole : Bytes) (sections : List SectionMeta)
    (signals : List (TriageSignal K)) : Prop :=
  packedEntropyLimit < meanEntropy m whole sections ∨
    ((∃ p ∈ markers, p.1 <:+: whole) ∧
      ∃ s ∈ signals, s.fired = true ∧ s.name ≠ "packer_marker") ∨
    (HasWritableCode sections ∧ 65 / 10 < meanEntropy m whole sections)

section Verdict

variable (m : Measure K) (format : String) (whole : Bytes) (sections : List SectionMeta)
  (importCount : ℕ) (hasOverlay : Bool)

theorem triage_signals : (triage m format whole sections importCount hasOverlay).signals =
    otherSignals m whole sections importCount hasOverlay ++
      (occurring whole).map fun p => markerSignal p.2 := by
  simp only [triage, otherSignals, meanCodeEntropy_walk, markersOf_eq]
  simp only [walk, foldl_step, List.nil_append]
  rfl

theorem name_of_mem_otherSignals {s : TriageSignal K}
    (h : s ∈ otherSignals m whole sections importCount hasOverlay) : s.name ≠ "packer_marker" := by
  rw [otherSignals, List.mem_append, List.mem_map] at h
  obtain ⟨s, -, rfl⟩ | h := h
  · exact ne_of_beq_false rfl
  · simp only [List.mem_cons, List.not_mem_nil, or_false] at h
    obtain rfl | rfl | rfl | rfl := h <;> exact ne_of_beq_false rfl

/-- A signal other than a marker has fired exactly when the input corroborates. -/
theorem fired_otherSignals_iff :
    (∃ s ∈ otherSignals m whole sections importCount hasOverlay, s.fired = true) ↔
      Corroborated m whole sections importCount hasOverlay := by
  have hwritable : (∃ s ∈ ((codeOf sections).filter SectionMeta.writable).map
      (writableSignal : SectionMeta → TriageSignal K), s.fired = true) ↔
        HasWritableCode sections := by
    rw [← codeOf_writable_iff, List.length_pos_iff_exists_mem]
    constructor
    · rintro ⟨_, hs, -⟩
      obtain ⟨s, hs, -⟩ := List.mem_map.mp hs
      exact ⟨s, hs⟩
    · rintro ⟨s, hs⟩
      exact ⟨_, List.mem_map_of_mem hs, rfl⟩
  simp only [otherSignals, List.mem_append, or_and_right, exists_or, hwritable, List.mem_cons,
    List.not_mem_nil, or_false, exists_eq_left, Corroborated, meanSignal, maxSignal, importSignal,
    overlaySignal, Bool.and_eq_true, decide_eq_true_iff, and_assoc]

/-- The mean signal is the only one of its name. -/
theorem any_mean_iff : ((triage m format whole sections importCount hasOverlay).signals.any
    fun s => s.name == "mean_code_entropy" && s.fired) = true ↔
      packedEntropyLimit < meanEntropy m whole sections := by
  -- All signals have names of their own but those of sections and of markers.
  rw [triage_signals, List.any_append, otherSignals, List.any_append]
  simp [List.any_map, Function.comp_def, writableSignal, meanSignal, maxSignal, importSignal,
    overlaySignal, markerSignal]

/-- A marker signal is there for every marker that occurs, and has fired. -/
theorem any_marker_iff : ((triage m format whole sections importCount hasOverlay).signals.any
    fun s => s.name == "packer_marker" && s.fired) = true ↔ 0 < (occurring whole).length := by
  rw [triage_signals, List.any_append, otherSignals, List.any_append]
  simp [List.any_map, Function.comp_def, writableSignal, meanSignal, maxSignal, importSignal,
    overlaySignal, markerSignal, List.length_pos_iff_exists_mem]

/-- The signals that fired: the others that did, and a signal for each marker. -/
theorem length_fired : ((triage m format whole sections importCount hasOverlay).signals.filter
    TriageSignal.fired).length =
      ((otherSignals m whole sections importCount hasOverlay).filter TriageSignal.fired).length +
        (occurring whole).length := by
  have hall : ((occurring whole).map fun p => (markerSignal p.2 : TriageSignal K)).filter
      TriageSignal.fired = (occurring whole).map fun p => markerSignal p.2 := by
    rw [List.filter_eq_self]
    intro s hs
    obtain ⟨p, -, rfl⟩ := List.mem_map.mp hs
    rfl
  rw [triage_signals, List.filter_append, hall, List.length_append, List.length_map]

theorem execWritable_walk :
    0 < (walk m sections).execWritable ↔ HasWritableCode sections := by
  have hcount : (walk m sections).execWritable =
      ((codeOf sections).filter SectionMeta.writable).length := by
    simp only [walk, foldl_step, Nat.zero_add]
  rw [hcount, codeOf_writable_iff]

/-- When the report blocks. -/
theorem blockSemantic_iff :
    (triage m format whole sections importCount hasOverlay).blockSemantic = true ↔
      packedEntropyLimit < meanEntropy m whole sections ∨
        (0 < (occurring whole).length ∧
          2 ≤ ((otherSignals m whole sections importCount hasOverlay).filter
            TriageSignal.fired).length + (occurring whole).length) ∨
        (HasWritableCode sections ∧ 65 / 10 < meanEntropy m whole sections) := by
  have hverdict : (triage m format whole sections importCount hasOverlay).blockSemantic =
      (((triage m format whole sections importCount hasOverlay).signals.any
          fun s => s.name == "mean_code_entropy" && s.fired) ||
        (((triage m format whole sections importCount hasOverlay).signals.any
          fun s => s.name == "packer_marker" && s.fired) &&
        decide (2 ≤ ((triage m format whole sections importCount hasOverlay).signals.filter
          TriageSignal.fired).length)) ||
      (decide (0 < (walk m sections).execWritable) &&
        decide (65 / 10 < (walk m sections).meanCodeEntropy m whole))) := rfl
  rw [hverdict, Bool.or_eq_true, Bool.or_eq_true, Bool.and_eq_true, Bool.and_eq_true,
    any_mean_iff, any_marker_iff, length_fired, meanCodeEntropy_walk]
  simp only [decide_eq_true_iff, execWritable_walk, or_assoc]

/-- What the report calls a fired signal other than a marker. -/
theorem exists_fired_other_iff :
    (∃ s ∈ (triage m format whole sections importCount hasOverlay).signals,
      s.fired = true ∧ s.name ≠ "packer_marker") ↔
        Corroborated m whole sections importCount hasOverlay := by
  rw [← fired_otherSignals_iff]
  constructor
  · rintro ⟨s, hs, hfired, hname⟩
    rw [triage_signals, List.mem_append] at hs
    obtain hs | hs := hs
    · exact ⟨s, hs, hfired⟩
    · obtain ⟨p, -, rfl⟩ := List.mem_map.mp hs
      exact absurd rfl hname
  · rintro ⟨s, hs, hfired⟩
    refine ⟨s, ?_, hfired, name_of_mem_otherSignals m whole sections importCount hasOverlay hs⟩
    rw [triage_signals]
    exact List.mem_append_left _ hs

/-- The report follows the policy exactly when fewer than two markers occur, or the input
corroborates the ones that do. -/
theorem blocks_by_policy_iff :
    ((triage m format whole sections importCount hasOverlay).blockSemantic = true ↔
      BlocksByPolicy m whole sections
        (triage m format whole sections importCount hasOverlay).signals) ↔
    ((occurring whole).length < 2 ∨ Corroborated m whole sections importCount hasOverlay) := by
  have hother : Corroborated m whole sections importCount hasOverlay ↔
      0 < ((otherSignals m whole sections importCount hasOverlay).filter
        TriageSignal.fired).length := by
    rw [← fired_otherSignals_iff, List.length_pos_iff_exists_mem]
    simp only [List.mem_filter]
  have hmean : packedEntropyLimit < meanEntropy m whole sections →
      Corroborated m whole sections importCount hasOverlay := fun h => .inr (.inl h)
  have hwritable : HasWritableCode sections →
      Corroborated m whole sections importCount hasOverlay := .inl
  rw [blockSemantic_iff, BlocksByPolicy, exists_fired_other_iff, ← occurring_pos_iff]
  -- The policy asks for another signal, the code for a second one.
  by_cases hc : Corroborated m whole sections importCount hasOverlay
  · -- A marker and another signal are two signals.
    have hpos := hother.mp hc
    have hcount : 0 < (occurring whole).length →
        2 ≤ ((otherSignals m whole sections importCount hasOverlay).filter
          TriageSignal.fired).length + (occurring whole).length := by omega
    refine iff_of_true ?_ (.inr hc)
    exact or_congr_right (or_congr_left (and_congr_right fun hb => iff_of_true (hcount hb) hc))
  · -- Nothing but markers fires, so the count is that of the markers.
    have hzero : ((otherSignals m whole sections importCount hasOverlay).filter
        TriageSignal.fired).length = 0 := by
      have := mt hother.mpr hc
      omega
    have hlow : ¬ packedEntropyLimit < meanEntropy m whole sections := mt hmean hc
    have hno : ¬ HasWritableCode sections := mt hwritable hc
    rw [hzero]
    simp only [hlow, hno, hc, false_or, false_and, and_false, or_false, iff_false]
    omega

end Verdict

/-- Two markers of one packer, in a file of eight bytes without sections: the report blocks,
and nothing but the markers has fired. -/
theorem two_markers_block :
    let m : Measure ℚ := ⟨fun _ => 9 / 4, fun _ => "2.25"⟩
    let whole : Bytes := [85, 80, 88, 48, 85, 80, 88, 49]
    let report := triage m "raw" whole [] 0 false
    report.blockSemantic = true ∧ ¬ BlocksByPolicy m whole [] report.signals := by
  intro m whole report
  have htwo : (occurring whole).length = 2 := by decide
  have hmean : meanEntropy m whole [] = 9 / 4 := rfl
  have hmax : maxEntropy m [] = 0 := rfl
  constructor
  · refine (blockSemantic_iff m "raw" whole [] 0 false).mpr (.inr (.inl ?_))
    omega
  · rintro (hlow | ⟨-, hother⟩ | ⟨⟨s, hs, -⟩, -⟩)
    · rw [hmean, packedEntropyLimit] at hlow
      norm_num at hlow
    · rw [exists_fired_other_iff, Corroborated, hmean, hmax, packedEntropyLimit] at hother
      obtain ⟨s, hs, -⟩ | hlow | hlow | ⟨hpos, -⟩ | ⟨hoverlay, -⟩ := hother
      · exact absurd hs List.not_mem_nil
      · norm_num at hlow
      · norm_num at hlow
      · exact absurd hpos (Nat.lt_irrefl 0)
      · cases hoverlay
    · exact absurd hs List.not_mem_nil

end Report

end Corpus.Triage
