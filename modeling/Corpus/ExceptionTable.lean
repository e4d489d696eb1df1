/-
Spans of the exception table (`semantic/extract.rs`).

An entry of `.pdata` gives relative virtual addresses, and a span is at an offset in its
section.  `elf_functions` subtracts the address of the section from the address of a symbol;
`pe_functions` does not.

* `emits_iff` — which entry gets which span;
* `pdata_spans_denote_iff` — when that is the span of the code that the entry denotes.
-/
import Corpus.ExtractionSafety

namespace Corpus

open Checked

variable {m : Arith} {g : Goblin} {pe : Pe} {bytes : ByteSlice} {s : PeSection} {i k : ℕ}
  {f : RuntimeFunction} {span : FunctionSpan}

/-- The offset of an address in a section, if it is one of the section. -/
def sectionOffset (virtualAddress len va : ℕ) : Option ℕ :=
  if virtualAddress ≤ va ∧ va < virtualAddress + len then some (va - virtualAddress) else none

/-- What `elf_functions` makes of the address of a symbol. -/
theorem elfSpan_offset {elf : Elf} {code : CodeSection} {sym : ElfSym} {o : Option FunctionSpan}
    (haddr : code.virtualAddress + code.bytes.length < 2 ^ 64)
    (hoff : code.fileOffset + code.bytes.length < 2 ^ 64) (h : elfSpan m elf code sym = .ok o) :
    o.map FunctionSpan.offset =
      sectionOffset code.virtualAddress code.bytes.length sym.stValue.toNat := by
  rw [elfSpan_eq (by omega) hoff h, sectionOffset]
  by_cases hin : code.virtualAddress ≤ sym.stValue.toNat ∧
      sym.stValue.toNat < code.virtualAddress + code.bytes.length
  · rw [if_pos hin, if_pos (ElfSym.startsIn_iff.mpr ⟨hin.1, haddr, hin.2⟩)]
    rfl
  · rw [if_neg hin, if_neg fun h' => hin ?_]
    · rfl
    · obtain ⟨hge, -, hlt⟩ := ElfSym.startsIn_iff.mp h'
      exact ⟨hge, hlt⟩

/-- The span of the code that an entry denotes, if that is in the section. -/
def RuntimeFunction.denoted (code : CodeSection) (f : RuntimeFunction) : Option FunctionSpan :=
  (sectionOffset code.virtualAddress code.bytes.length f.beginAddress.toNat).map fun offset =>
    ⟨offset, code.fileOffset + offset,
      min (f.endAddress.toNat - f.beginAddress.toNat) (code.bytes.length - offset), none, .pdata⟩

/-! ### The loop, with the numbers of the entries -/

/-- The span of an entry, with its number. -/
def numberedSpan (m : Arith) (code : CodeSection) (e : RuntimeFunction × ℕ) :
    Checked (Option (ℕ × FunctionSpan)) := do
  let span ← pdataSpan m code e.1
  return span.map (Prod.mk e.2)

/-- The spans of all entries, with their numbers. -/
def numberedSpans (m : Arith) (code : CodeSection) (entries : List RuntimeFunction) :
    Checked (List (ℕ × FunctionSpan)) := do
  let spans ← entries.zipIdx.mapM (numberedSpan m code)
  return spans.reduceOption.take maxFunctions

/-- `pe_functions` returns, and a span of its `k`-th section is that of the `i`-th entry. -/
def Emits (m : Arith) (g : Goblin) (pe : Pe) (bytes : Bytes) (k i : ℕ) (span : FunctionSpan) :
    Prop :=
  ∃ regions r spans, peFunctions m g bytes = .ok regions ∧ regions[k]? = some r ∧
    numberedSpans m r.1 pe.functions = .ok spans ∧ r.2 = spans.map Prod.snd ∧ (i, span) ∈ spans

/-- The first items that pass a test, with their numbers. -/
theorem mem_take_filter_zipIdx {α : Type} {p : α → Bool} {a : α} {l : List α} : ∀ {n i : ℕ} (k : ℕ),
    (a, k + i) ∈ ((l.zipIdx k).filter fun e => p e.1).take n ↔
      l[i]? = some a ∧ p a = true ∧ ((l.take i).filter p).length < n := by
  induction l with
  | nil => simp
  | cons x l ih =>
    intro n i k
    -- An item of the rest has a greater number than the first.
    have hrest : ∀ {j}, (a, j) ∈ l.zipIdx (k + 1) → k < j := by
      intro j hj
      exact (List.mem_zipIdx hj).1
    rw [List.zipIdx_cons, List.filter_cons]
    cases i with
    | zero =>
      cases hp : p x with
      | true =>
        rw [if_pos rfl]
        cases n with
        | zero => simp
        | succ n =>
          rw [List.take_succ_cons, List.mem_cons]
          constructor
          · rintro (heq | hmem)
            · obtain ⟨rfl, -⟩ := Prod.mk.inj heq
              exact ⟨rfl, hp, Nat.zero_lt_succ n⟩
            · have hlt := hrest (List.mem_filter.mp (List.mem_of_mem_take hmem)).1
              omega
          · rintro ⟨heq, -, -⟩
            obtain rfl := Option.some.inj heq
            exact Or.inl rfl
      | false =>
        rw [if_neg Bool.false_ne_true]
        constructor
        · intro hmem
          have hlt := hrest (List.mem_filter.mp (List.mem_of_mem_take hmem)).1
          omega
        · rintro ⟨heq, hpa, -⟩
          obtain rfl := Option.some.inj heq
          exact absurd (hp.symm.trans hpa) Bool.false_ne_true
    | succ i =>
      have hnum : k + (i + 1) = k + 1 + i := by omega
      rw [List.getElem?_cons_succ, List.take_succ_cons, List.filter_cons, hnum]
      cases hp : p x with
      | true =>
        rw [if_pos rfl, if_pos rfl, List.length_cons]
        cases n with
        | zero => simp
        | succ n =>
          rw [List.take_succ_cons, List.mem_cons, ih (k + 1), Nat.succ_lt_succ_iff]
          refine or_iff_right fun heq => ?_
          have := (Prod.mk.inj heq).2
          omega
      | false =>
        rw [if_neg Bool.false_ne_true, if_neg Bool.false_ne_true, ih (k + 1)]

/-- The numbered spans, when the loop returns. -/
theorem numberedSpans_eq {code : CodeSection} {spans : List (ℕ × FunctionSpan)}
    (hoff : code.fileOffset + code.bytes.length < 2 ^ 64)
    (h : numberedSpans m code pe.functions = .ok spans) :
    spans = (((pe.functions.zipIdx).filter fun e => e.1.startsIn code.bytes.length).take
      maxFunctions).map fun e => (e.2, entrySpan code e.1) := by
  obtain ⟨os, hos, h⟩ := bind_eq_ok.mp h
  obtain rfl := Except.ok.inj h
  have hstep : ∀ e ∈ pe.functions.zipIdx, ∀ o, numberedSpan m code e = .ok o →
      o = if e.1.startsIn code.bytes.length then some (e.2, entrySpan code e.1) else none := by
    intro e _ o ho
    obtain ⟨p, hp, ho⟩ := bind_eq_ok.mp ho
    obtain rfl := Except.ok.inj ho
    rw [pdataSpan_eq hoff hp]
    split
    · rfl
    · rfl
  have hmap := eq_map_of_mapM_eq_ok hstep hos
  rw [hmap, reduceOption_map_ite, List.map_take]

/-- The loop with the numbers returns when the loop does. -/
theorem numberedSpans_returns {code : CodeSection}
    (h : ∀ f ∈ pe.functions, Safe (pdataSpan m code f)) :
    Safe (numberedSpans m code pe.functions) := by
  refine (safe_bind_of_safe fun _ => safe_ok _).mpr (safe_mapM.mpr fun e he => ?_)
  exact (safe_bind_of_safe fun _ => safe_ok _).mpr (h e.1 (List.fst_mem_of_mem_zipIdx he))

/-! ### When the loops return -/

/-- The code of a section of the file. -/
theorem section_offset (h : s.pointerToRawData.toNat ≤ bytes.val.length) :
    (s.code g bytes.val).fileOffset + (s.code g bytes.val).bytes.length < 2 ^ 64 := by
  have hlen := bytes.property
  show s.pointerToRawData.toNat + ((bytes.val.drop s.pointerToRawData.toNat).take _).length < _
  rw [List.length_take, List.length_drop]
  omega

/-- The sections start in the file, and no size is taken below zero. -/
structure Pe.Readable (m : Arith) (pe : Pe) (bytes : Bytes) : Prop where
  placed : ∀ s ∈ pe.textSections, s.pointerToRawData.toNat ≤ bytes.length
  ordered : m = .checked → ∀ f ∈ pe.functions, f.beginAddress.toNat ≤ f.endAddress.toNat

theorem peFunctions_eq (hpe : g.parsePe bytes.val = some pe) (hmachine : pe.machine = coffMachineX8664) :
    peFunctions m g bytes.val = pe.textSections.mapM (peSection m g pe bytes.val) := by
  rw [peFunctions, hpe]
  exact if_neg fun h => h hmachine

theorem peFunctions_safe (hpe : g.parsePe bytes.val = some pe)
    (hmachine : pe.machine = coffMachineX8664) (hs : pe.textSections[k]? = some s) :
    Safe (peFunctions m g bytes.val) ↔ pe.Readable m bytes.val := by
  rw [peFunctions_eq hpe hmachine, safe_mapM]
  constructor
  · intro h
    exact ⟨fun t ht => (peSection_safe.mp (h t ht)).1,
      (peSection_safe.mp (h s (List.mem_of_getElem? hs))).2⟩
  · exact fun h t ht => peSection_safe.mpr ⟨h.placed t ht, h.ordered⟩

/-! ### Which spans are emitted -/

/-- The loop reaches the entry and keeps its span. -/
structure Kept (m : Arith) (pe : Pe) (bytes : Bytes) (s : PeSection) (i : ℕ) (f : RuntimeFunction) :
    Prop where
  readable : pe.Readable m bytes
  starts : f.beginAddress.toNat < (s.data bytes).length
  early : ((pe.functions.take i).filter (RuntimeFunction.startsIn (s.data bytes).length)).length <
    maxFunctions

/-- The region of a section. -/
theorem region_eq {α β : Type} {F : α → Checked β} {l : List α} {rs : List β} {a : α} {r : β}
    (h : List.Forall₂ (fun a r => F a = .ok r) l rs) (ha : l[k]? = some a) (hr : rs[k]? = some r) :
    F a = .ok r := by
  obtain ⟨hk, rfl⟩ := List.getElem?_eq_some_iff.mp ha
  obtain ⟨hk', rfl⟩ := List.getElem?_eq_some_iff.mp hr
  exact (List.forall₂_iff_get.mp h).2 k hk hk'

/-- Without the numbers, these are the spans of the entries that start in the section. -/
theorem map_snd_numbered {code : CodeSection} (entries : List RuntimeFunction)
    (p : RuntimeFunction → Bool) :
    (((entries.zipIdx.filter fun e => p e.1).take maxFunctions).map fun e =>
      (e.2, entrySpan code e.1)).map Prod.snd =
    ((entries.filter p).map (entrySpan code)).take maxFunctions := by
  have hfst : (entries.zipIdx.filter fun e => p e.1).map Prod.fst = entries.filter p := by
    have hmap := List.filter_map (f := Prod.fst) (p := p) (l := entries.zipIdx)
    rw [List.zipIdx_map_fst] at hmap
    exact hmap.symm
  rw [List.map_map, ← hfst, List.map_map, ← List.map_take]
  rfl

/-- An entry that is kept gets the span at its address, taken as an offset. -/
theorem emits_iff (hpe : g.parsePe bytes.val = some pe) (hmachine : pe.machine = coffMachineX8664)
    (hs : pe.textSections[k]? = some s) (hf : pe.functions[i]? = some f)
    (hlt : f.beginAddress < f.endAddress) :
    Emits m g pe bytes.val k i span ↔
      Kept m pe bytes.val s i f ∧ span = entrySpan (s.code g bytes.val) f := by
  have hne : f.beginAddress ≠ f.endAddress := UInt32.ne_of_lt hlt
  constructor
  · rintro ⟨regions, r, spans, hrun, hr, hspans, -, hmem⟩
    have hread := (peFunctions_safe hpe hmachine hs).mp ⟨regions, hrun⟩
    rw [peFunctions_eq hpe hmachine] at hrun
    have hsection := region_eq (mapM_eq_ok_iff.mp hrun) hs hr
    have hcode := (peSection_spans hsection).code_eq
    have hoff := section_offset (g := g) (hread.placed s (List.mem_of_getElem? hs))
    rw [hcode] at hspans
    rw [numberedSpans_eq hoff hspans, List.mem_map] at hmem
    obtain ⟨⟨f', j⟩, hmem, heq⟩ := hmem
    obtain ⟨rfl, rfl⟩ := Prod.mk.inj heq
    rw [← Nat.zero_add j, mem_take_filter_zipIdx 0] at hmem
    obtain ⟨hf', hin, hearly⟩ := hmem
    obtain rfl := Option.some.inj (hf.symm.trans hf')
    exact ⟨⟨hread, (RuntimeFunction.startsIn_iff.mp hin).1, hearly⟩, rfl⟩
  · rintro ⟨hkept, rfl⟩
    obtain ⟨regions, hrun⟩ := (peFunctions_safe hpe hmachine hs).mpr hkept.readable
    have hall := mapM_eq_ok_iff.mp ((peFunctions_eq hpe hmachine).symm.trans hrun)
    have hplaced := hkept.readable.placed s (List.mem_of_getElem? hs)
    have hoff := section_offset (g := g) hplaced
    obtain ⟨hk, -⟩ := List.getElem?_eq_some_iff.mp hs
    have hk' : k < regions.length := hall.length_eq ▸ hk
    have hr : regions[k]? = some regions[k] := List.getElem?_eq_getElem hk'
    have hspansOf := peSection_spans (region_eq hall hs hr)
    have hin : f.startsIn (s.data bytes.val).length = true :=
      RuntimeFunction.startsIn_iff.mpr ⟨hkept.starts, hne⟩
    have hfound : f ∈ pe.functionsIn bytes.val s := List.mem_filter.mpr ⟨List.mem_of_getElem? hf, hin⟩
    have hreturns : Safe (numberedSpans m (s.code g bytes.val) pe.functions) :=
      numberedSpans_returns fun f hf => (pdataSpan_safe hoff).mpr fun hm =>
        hkept.readable.ordered hm f hf
    obtain ⟨spans, hspans⟩ := hreturns
    have heq := numberedSpans_eq hoff hspans
    refine ⟨regions, _, spans, hrun, hr, ?_, ?_, ?_⟩
    · rwa [hspansOf.code_eq]
    · rw [heq, map_snd_numbered]
      exact hspansOf.first fun hnil => List.not_mem_nil (hnil ▸ List.mem_map_of_mem hfound)
    · rw [heq]
      refine List.mem_map.mpr ⟨(f, i), ?_, rfl⟩
      have hmem := (mem_take_filter_zipIdx (p := RuntimeFunction.startsIn (s.data bytes.val).length)
        (l := pe.functions) (n := maxFunctions) (i := i) (a := f) 0).mpr ⟨hf, hin, hkept.early⟩
      rwa [Nat.zero_add] at hmem

theorem denoted_eq_some {code : CodeSection} : f.denoted code = some span ↔
    (code.virtualAddress ≤ f.beginAddress.toNat ∧
      f.beginAddress.toNat < code.virtualAddress + code.bytes.length) ∧
    span = ⟨f.beginAddress.toNat - code.virtualAddress,
      code.fileOffset + (f.beginAddress.toNat - code.virtualAddress),
      min (f.endAddress.toNat - f.beginAddress.toNat)
        (code.bytes.length - (f.beginAddress.toNat - code.virtualAddress)), none, .pdata⟩ := by
  unfold RuntimeFunction.denoted sectionOffset
  split
  · next h => rw [Option.map_some, Option.some.injEq, and_iff_right h, eq_comm]
  · next h => exact iff_of_false (by simp) fun h' => h h'.1

/-- **An entry gets the span of the code that it denotes exactly when the section is at the
address zero, if it is kept, and when it is not in the section, if it is not.** -/
theorem pdata_spans_denote_iff (m : Arith) (hpe : g.parsePe bytes.val = some pe)
    (hmachine : pe.machine = coffMachineX8664) (hs : pe.textSections[k]? = some s)
    (hf : pe.functions[i]? = some f) (hlt : f.beginAddress < f.endAddress) :
    (∀ span, Emits m g pe bytes.val k i span ↔ f.denoted (s.code g bytes.val) = some span) ↔
      (Kept m pe bytes.val s i f → s.virtualAddress.toNat = 0) ∧
      (¬ Kept m pe bytes.val s i f → ¬ (s.virtualAddress.toNat ≤ f.beginAddress.toNat ∧
        f.beginAddress.toNat < s.virtualAddress.toNat + (s.data bytes.val).length)) := by
  have hend : f.beginAddress.toNat < f.endAddress.toNat := UInt32.lt_iff_toNat_lt.mp hlt
  have hsize : f.size = f.endAddress.toNat - f.beginAddress.toNat := by
    have := f.endAddress.toNat_lt
    unfold RuntimeFunction.size
    omega
  simp only [emits_iff hpe hmachine hs hf hlt, denoted_eq_some]
  constructor
  · intro h
    refine ⟨fun hkept => ?_, fun hkept hin => ?_⟩
    · -- The offsets of the two spans differ by the address of the section.
      obtain ⟨⟨hge, -⟩, heq⟩ := (h _).mp ⟨hkept, rfl⟩
      have hoff : f.beginAddress.toNat = f.beginAddress.toNat - s.virtualAddress.toNat :=
        congrArg FunctionSpan.offset heq
      have hge : s.virtualAddress.toNat ≤ f.beginAddress.toNat := hge
      omega
    · exact hkept ((h _).mpr ⟨hin, rfl⟩).1
  · rintro ⟨hzero, hout⟩ span
    by_cases hkept : Kept m pe bytes.val s i f
    · have haddr : (s.code g bytes.val).virtualAddress = 0 := hzero hkept
      have hstarts : f.beginAddress.toNat < (s.code g bytes.val).bytes.length := hkept.starts
      rw [and_iff_right hkept, haddr, Nat.sub_zero, Nat.zero_add,
        and_iff_right ⟨Nat.zero_le _, hstarts⟩, entrySpan, hsize]
    · exact iff_of_false (fun h => hkept h.1) fun h => hout hkept h.1

/-! ### A file -/

/-- A file with a `.text` of four bytes at an address, and one entry. -/
def oneEntry (virtualAddress : UInt32) (f : RuntimeFunction) : Pe where
  machine := coffMachineX8664
  sections := [⟨textName ++ [0, 0, 0], 4, virtualAddress, 4, 0, 0x60000020⟩]
  imports := []
  exports := []
  exceptionData := some [some f]

def oneEntryParser (pe : Pe) : Goblin where
  parseElf _ := none
  parsePe _ := some pe
  parseMacho _ := none
  entropy _ := 0

/-- A section that is not moved when it is loaded. -/
theorem pdata_spans_denote_iff_unmoved :
    (∀ span, Emits .checked (oneEntryParser (oneEntry 0 ⟨0, 3⟩)) (oneEntry 0 ⟨0, 3⟩) retBytes.val 0 0
        span ↔
      RuntimeFunction.denoted ⟨retBytes.val, 0, 0, 0⟩ ⟨0, 3⟩ = some span) ↔
      (Kept .checked (oneEntry 0 ⟨0, 3⟩) retBytes.val ⟨textName ++ [0, 0, 0], 4, 0, 4, 0, 0x60000020⟩ 0
        ⟨0, 3⟩ → 0 = 0) ∧
      (¬ Kept .checked (oneEntry 0 ⟨0, 3⟩) retBytes.val
        ⟨textName ++ [0, 0, 0], 4, 0, 4, 0, 0x60000020⟩ 0 ⟨0, 3⟩ → ¬ (0 ≤ 0 ∧ 0 < 0 + 4)) :=
  @pdata_spans_denote_iff (oneEntryParser (oneEntry 0 ⟨0, 3⟩)) (oneEntry 0 ⟨0, 3⟩) retBytes
    ⟨textName ++ [0, 0, 0], 4, 0, 4, 0, 0x60000020⟩ 0 0 ⟨0, 3⟩ .checked rfl rfl rfl rfl (by decide)

/-- The function at the start of a section that is loaded at `0x1000` gets no span. -/
theorem pdata_span_missed :
    ¬ ∀ span, Emits .checked (oneEntryParser (oneEntry 0x1000 ⟨0x1000, 0x1003⟩))
        (oneEntry 0x1000 ⟨0x1000, 0x1003⟩) retBytes.val 0 0 span ↔
      RuntimeFunction.denoted ⟨retBytes.val, 0, 0x1000, 0⟩ ⟨0x1000, 0x1003⟩ = some span := by
  intro h
  have hemits := (h ⟨0, 0, 3, none, .pdata⟩).mpr (by decide)
  have hkept := (@emits_iff .checked (oneEntryParser (oneEntry 0x1000 ⟨0x1000, 0x1003⟩))
    (oneEntry 0x1000 ⟨0x1000, 0x1003⟩) retBytes _ 0 0 ⟨0x1000, 0x1003⟩ ⟨0, 0, 3, none, .pdata⟩
    rfl rfl rfl rfl (by decide)).mp hemits
  exact absurd hkept.1.starts (by decide)

end Corpus
