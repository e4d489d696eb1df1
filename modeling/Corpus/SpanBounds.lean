/-
Where recovered functions lie.

The cap on spans is applied to each code section, not to the file, and the size of a symbol
is not clipped to its section.  So the spans of a file are bounded and inside their sections
exactly when the counts of its sections add up to the cap at most, and each ELF symbol that
gives a span ends in its section (`functionsFor_bounded_iff`).

The spans of a prologue scan, of `.pdata` and of Mach-O symbols are inside in any file
(`spanAt_bounds`, `pdataSpan_eq`), and a span is always where its offset says
(`Recovered.placed`).
-/
import Corpus.SortOrders
import Corpus.Spans

namespace Corpus

/-- The spans of a file number `maxFunctions` at most, and each lies in its section. -/
structure Bounded (regions : List (CodeSection × List FunctionSpan)) : Prop where
  capped : (regions.map fun r => r.2.length).sum ≤ maxFunctions
  inside : ∀ r ∈ regions, ∀ s ∈ r.2, s.offset + s.size ≤ r.1.bytes.length
  placed : ∀ r ∈ regions, ∀ s ∈ r.2, s.fileOffset = r.1.fileOffset + s.offset

/-- The spans of a region number `n`, lie where they say, and stay inside it just when
`fits`. -/
structure Recovered (n : ℕ) (fits : Prop) (r : CodeSection × List FunctionSpan) : Prop where
  count : r.2.length = n
  inside : (∀ s ∈ r.2, s.offset + s.size ≤ r.1.bytes.length) ↔ fits
  placed : ∀ s ∈ r.2, s.fileOffset = r.1.fileOffset + s.offset

/-- What is known of each region decides whether the file is bounded. -/
theorem bounded_iff {α : Type} {count : α → ℕ} {fits : α → Prop} {l : List α}
    {regions : List (CodeSection × List FunctionSpan)}
    (h : List.Forall₂ (fun a r => Recovered (count a) (fits a) r) l regions) :
    Bounded regions ↔ (l.map count).sum ≤ maxFunctions ∧ ∀ a ∈ l, fits a := by
  -- The cap is on the sum over the sections, the rest is said of each section on its own.
  have hcount : regions.map (fun r => r.2.length) = l.map count := by
    induction h with
    | nil => rfl
    | cons hr _ ih => rw [List.map_cons, List.map_cons, hr.count, ih]
  have hinside : (∀ r ∈ regions, ∀ s ∈ r.2, s.offset + s.size ≤ r.1.bytes.length) ↔
      ∀ a ∈ l, fits a := by
    clear hcount
    induction h with
    | nil => simp
    | cons hr _ ih => rw [List.forall_mem_cons, List.forall_mem_cons, hr.inside, ih]
  have hplaced : ∀ r ∈ regions, ∀ s ∈ r.2, s.fileOffset = r.1.fileOffset + s.offset := by
    clear hcount hinside
    induction h with
    | nil => exact fun _ h => absurd h List.not_mem_nil
    | cons hr _ ih => exact List.forall_mem_cons.mpr ⟨hr.placed, ih⟩
  rw [← hcount, ← hinside]
  exact ⟨fun hb => ⟨hb.capped, hb.inside⟩, fun hb => ⟨hb.1, hb.2, hplaced⟩⟩

/-! ### Spans between starts -/

/-- The loop of the scan finds starts in increasing order. -/
theorem scan_sorted (bytes : Bytes) (n : ℕ) :
    ((List.range n).foldl (scanStep bytes) []).Pairwise (· < ·) ∧
      ∀ i ∈ (List.range n).foldl (scanStep bytes) [], i < n := by
  induction n with
  | zero => exact ⟨List.Pairwise.nil, fun _ h => absurd h List.not_mem_nil⟩
  | succ n ih =>
    rw [List.range_succ, List.foldl_append, List.foldl_cons, List.foldl_nil]
    generalize (List.range n).foldl (scanStep bytes) [] = starts at ih
    unfold scanStep
    -- A start is put behind those before it.
    split
    · refine ⟨List.pairwise_append.mpr ⟨ih.1, List.pairwise_singleton _ _, ?_⟩, ?_⟩
      · intro a ha b hb
        rw [List.mem_singleton.mp hb]
        exact ih.2 a ha
      · intro i hi
        rcases List.mem_append.mp hi with hi | hi
        · exact Nat.lt_succ_of_lt (ih.2 i hi)
        · exact (List.mem_singleton.mp hi) ▸ Nat.lt_succ_self n
    · exact ⟨ih.1, fun i hi => Nat.lt_succ_of_lt (ih.2 i hi)⟩

theorem prologueScan_sorted (bytes : Bytes) : (prologueScan bytes).Pairwise (· < ·) :=
  (scan_sorted bytes _).1.sublist (List.take_sublist _ _)

theorem lt_of_mem_prologueScan {bytes : Bytes} {i : ℕ} (h : i ∈ prologueScan bytes) :
    i < bytes.length := by
  have hlt := (scan_sorted bytes _).2 i (List.mem_of_mem_take h)
  omega

theorem length_prologueScan_le (bytes : Bytes) : (prologueScan bytes).length ≤ maxFunctions :=
  List.length_take_le _ _

/-- Sorting and removing repetitions do nothing to starts in increasing order. -/
theorem sort_destutter_of_sorted {starts : List ℕ} (h : starts.Pairwise (· < ·)) :
    (starts.insertionSort (· ≤ ·)).destutter (· ≠ ·) = starts := by
  have hle : starts.Pairwise (· ≤ ·) := h.imp fun hab => Nat.le_of_lt hab
  rw [hle.insertionSort_eq, hle.destutter_eq_dedup, List.dedup_eq_self]
  exact h.imp fun hab => Nat.ne_of_lt hab

/-- There are as many of them as there are different ones. -/
theorem length_sort_destutter (starts : List ℕ) :
    ((starts.insertionSort (· ≤ ·)).destutter (· ≠ ·)).length = starts.dedup.length := by
  rw [(List.pairwise_insertionSort (· ≤ ·) starts).destutter_eq_dedup]
  exact (List.perm_insertionSort _ _).dedup.length_eq

theorem mem_sort_destutter {starts : List ℕ} {i : ℕ}
    (h : i ∈ (starts.insertionSort (· ≤ ·)).destutter (· ≠ ·)) : i ∈ starts :=
  (List.mem_insertionSort _).mp ((List.destutter_sublist _ _).subset h)

variable {m : Arith}

/-- A span between starts is not empty, ends in the section and lies where it says. -/
theorem spanAt_bounds {starts : List ℕ} {codeLen fileOffset : ℕ} {source : SpanSource}
    {e : ℕ × ℕ} {s : FunctionSpan} (hsorted : starts.Pairwise (· < ·))
    (hlt : ∀ i ∈ starts, i < codeLen) (hoff : fileOffset + codeLen < 2 ^ 64)
    (he : e ∈ starts.zipIdx) (h : spanAt m starts codeLen fileOffset source e = .ok s) :
    0 < s.size ∧ s.offset + s.size ≤ codeLen ∧ s.fileOffset = fileOffset + s.offset := by
  obtain ⟨-, hidx, hget⟩ := List.mem_zipIdx (x := e.1) (i := e.2) (k := 0) he
  have hidx : e.2 < starts.length := by omega
  have he1 : e.1 < codeLen := hlt e.1 (List.fst_mem_of_mem_zipIdx he)
  -- A span ends at the next start, or with the section.
  have hend : e.1 < starts[e.2 + 1]?.getD codeLen ∧ starts[e.2 + 1]?.getD codeLen ≤ codeLen := by
    by_cases hnext : e.2 + 1 < starts.length
    · rw [List.getElem?_eq_getElem hnext, Option.getD_some]
      refine ⟨?_, Nat.le_of_lt (hlt _ (List.getElem_mem hnext))⟩
      have hgt := List.pairwise_iff_getElem.mp hsorted e.2 (e.2 + 1) hidx hnext (Nat.lt_succ_self _)
      simpa [hget] using hgt
    · rw [List.getElem?_eq_none (Nat.not_lt.mp hnext), Option.getD_none]
      exact ⟨he1, le_refl _⟩
  rw [spanAt, Arith.add_of_lt (show fileOffset + e.1 < 2 ^ 64 by omega)] at h
  obtain rfl := Except.ok.inj h
  refine ⟨Nat.sub_pos_of_lt hend.1, ?_, rfl⟩
  show e.1 + (starts[e.2 + 1]?.getD codeLen - e.1) ≤ codeLen
  omega

/-- The spans of a loop over starts. -/
theorem spans_between {starts : List ℕ} {codeLen fileOffset : ℕ} {source : SpanSource}
    {spans : List FunctionSpan} (hsorted : starts.Pairwise (· < ·))
    (hlt : ∀ i ∈ starts, i < codeLen) (hoff : fileOffset + codeLen < 2 ^ 64)
    (h : starts.zipIdx.mapM (spanAt m starts codeLen fileOffset source) = .ok spans) :
    spans.length = starts.length ∧ ∀ s ∈ spans,
      0 < s.size ∧ s.offset + s.size ≤ codeLen ∧ s.fileOffset = fileOffset + s.offset := by
  refine ⟨(Checked.mapM_eq_ok_iff.mp h).length_eq.symm.trans List.length_zipIdx, fun s hs => ?_⟩
  obtain ⟨e, he, hes⟩ := Checked.exists_of_mem_mapM h hs
  exact spanAt_bounds hsorted hlt hoff he hes

/-! ### Regions -/

/-- How many spans a section gets: up to `maxFunctions` of those that symbols or tables
give, or those of the prologue scan when they give none. -/
def spanCount (code : Bytes) (n : ℕ) : ℕ :=
  if n = 0 then (prologueScan code).length else min maxFunctions n

/-- The prologue scan gives spans that are inside. -/
theorem scan_recovered {code : CodeSection} {spans : List FunctionSpan}
    (hoff : code.fileOffset + code.bytes.length < 2 ^ 64)
    (h : spansFromStarts m (prologueScan code.bytes) code.bytes.length code.fileOffset
      .prologueScan = .ok spans) :
    Recovered (spanCount code.bytes 0) True (code, spans) := by
  have htake : (prologueScan code.bytes).take maxFunctions = prologueScan code.bytes :=
    List.take_of_length_le (length_prologueScan_le _)
  rw [spansFromStarts, sort_destutter_of_sorted (prologueScan_sorted _), htake] at h
  obtain ⟨found, hfound, h⟩ := Checked.bind_eq_ok.mp h
  obtain ⟨hcount, hin⟩ := spans_between (prologueScan_sorted _)
    (fun i hi => lt_of_mem_prologueScan hi) hoff hfound
  -- No span between different starts is empty, so the filter keeps them all.
  have hall : found.filter (fun s => decide (s.size ≥ 1)) = found :=
    List.filter_eq_self.mpr fun s hs => decide_eq_true (hin s hs).1
  rw [hall] at h
  obtain rfl := Except.ok.inj h
  exact ⟨hcount, iff_true_intro fun s hs => (hin s hs).2.1, fun s hs => (hin s hs).2.2⟩

/-- The spans of a region are the first of those `found` by symbols or tables, or, when there
are none, those of the prologue scan, which lie inside. -/
structure SpansOf (code : CodeSection) (found : List FunctionSpan)
    (r : CodeSection × List FunctionSpan) : Prop where
  code_eq : r.1 = code
  first : found ≠ [] → r.2 = found.take maxFunctions
  scanned : found = [] → Recovered (spanCount code.bytes 0) True r

theorem orPrologues_spans {code : CodeSection} {found : List FunctionSpan}
    {r : CodeSection × List FunctionSpan}
    (hoff : code.fileOffset + code.bytes.length < 2 ^ 64)
    (h : orPrologues m code (found.take maxFunctions) = .ok r) : SpansOf code found r := by
  cases found with
  | nil =>
    obtain ⟨spans, hspans, h⟩ := Checked.bind_eq_ok.mp h
    obtain rfl := Except.ok.inj h
    exact ⟨rfl, fun hne => absurd rfl hne, fun _ => scan_recovered hoff hspans⟩
  | cons a found =>
    obtain rfl := Except.ok.inj h
    exact ⟨rfl, fun _ => rfl, fun hnil => absurd hnil (List.cons_ne_nil _ _)⟩

/-- The spans that were found decide whether the region is inside. -/
theorem SpansOf.recovered {code : CodeSection} {found : List FunctionSpan}
    {r : CodeSection × List FunctionSpan} (h : SpansOf code found r)
    (hplaced : ∀ s ∈ found, s.fileOffset = code.fileOffset + s.offset) :
    Recovered (spanCount code.bytes found.length)
      (∀ s ∈ found.take maxFunctions, s.offset + s.size ≤ code.bytes.length) r := by
  by_cases hnil : found = []
  · have hr := h.scanned hnil
    subst hnil
    exact ⟨hr.count, hr.inside.trans (by simp), hr.placed⟩
  · refine ⟨?_, ?_, ?_⟩
    · rw [h.first hnil, List.length_take, spanCount,
        if_neg fun h0 => hnil (List.length_eq_zero_iff.mp h0)]
    · rw [h.first hnil, h.code_eq]
    · rw [h.first hnil, h.code_eq]
      exact fun s hs => hplaced s (List.mem_of_mem_take hs)

/-- The items kept by a test, among optional results. -/
theorem reduceOption_map_ite {α β : Type} (p : α → Bool) (f : α → β) (l : List α) :
    (l.map fun a => if p a then some (f a) else none).reduceOption = (l.filter p).map f := by
  induction l with
  | nil => rfl
  | cons a l ih =>
    rw [List.map_cons, List.filter_cons]
    cases hp : p a with
    | true =>
      show (some (f a) :: _).reduceOption = _
      rw [List.reduceOption_cons_of_some, ih, if_pos rfl, List.map_cons]
    | false =>
      show (none :: _).reduceOption = _
      rw [List.reduceOption_cons_of_none, ih]
      rfl

/-- A slice of the file ends in the file. -/
theorem clampedSlice_end_lt {bytes : ByteSlice} {start size : ℕ} {data : Bytes}
    (hstart : start < 2 ^ 64) (hsize : size < 2 ^ 64)
    (h : clampedSlice m bytes.val start size = .ok data) : start + data.length < 2 ^ 64 := by
  obtain ⟨-, hle, rfl⟩ := (clampedSlice_eq_ok hstart hsize).mp h
  have hlen := bytes.property
  rw [List.length_take, List.length_drop]
  omega

/-! ### ELF -/

/-- The bytes of the section in the file. -/
def ElfSection.data (bytes : Bytes) (sh : ElfSection) : Bytes :=
  (bytes.drop sh.shOffset.toNat).take sh.shSize.toNat

/-- The section as a code section. -/
def ElfSection.code (g : Goblin) (bytes : Bytes) (sh : ElfSection) : CodeSection :=
  ⟨sh.data bytes, sh.shOffset.toNat, sh.shAddr.toNat, g.entropy (sh.data bytes)⟩

/-- The symbol lies in the address range, which does not wrap around. -/
def ElfSym.startsIn (addr len : ℕ) (s : ElfSym) : Bool :=
  decide (addr ≤ s.stValue.toNat ∧ addr + len < 2 ^ 64 ∧ s.stValue.toNat < addr + len)

theorem ElfSym.startsIn_iff {addr len : ℕ} {s : ElfSym} : s.startsIn addr len = true ↔
    addr ≤ s.stValue.toNat ∧ addr + len < 2 ^ 64 ∧ s.stValue.toNat < addr + len :=
  decide_eq_true_iff

/-- The sized functions that start in the section. -/
def Elf.functionsIn (elf : Elf) (bytes : Bytes) (sh : ElfSection) : List ElfSym :=
  (elf.syms.filter ElfSym.isSizedFunction).filter
    (ElfSym.startsIn sh.shAddr.toNat (sh.data bytes).length)

/-- The functions that get spans end in the section. -/
def Elf.EndsIn (elf : Elf) (bytes : Bytes) (sh : ElfSection) : Prop :=
  ∀ s ∈ (elf.functionsIn bytes sh).take maxFunctions,
    s.stValue.toNat - sh.shAddr.toNat + s.stSize.toNat ≤ (sh.data bytes).length

/-- The span that a symbol gives. -/
def symbolSpan (elf : Elf) (code : CodeSection) (s : ElfSym) : FunctionSpan :=
  ⟨s.stValue.toNat - code.virtualAddress,
    code.fileOffset + (s.stValue.toNat - code.virtualAddress), s.stSize.toNat,
    elf.strtab s.stName, .symbol⟩

theorem elfSpan_eq {elf : Elf} {code : CodeSection} {s : ElfSym} {o : Option FunctionSpan}
    (haddr : code.virtualAddress < 2 ^ 64)
    (hoff : code.fileOffset + code.bytes.length < 2 ^ 64) (h : elfSpan m elf code s = .ok o) :
    o = if s.startsIn code.virtualAddress code.bytes.length then some (symbolSpan elf code s)
      else none := by
  unfold elfSpan at h
  by_cases hge : s.stValue.toNat ≥ code.virtualAddress
  · rw [if_pos hge] at h
    obtain ⟨limit, hlimit, h⟩ := Checked.bind_eq_ok.mp h
    -- With wrapping arithmetic the limit may be less than the address, and then no symbol is
    -- below it.
    have hiff := Arith.lt_add_iff haddr (by omega) hge hlimit
    by_cases hlt : s.stValue.toNat < limit
    · have hin := hiff.mp hlt
      rw [if_pos hlt, Arith.add_of_lt (by omega)] at h
      rw [if_pos (ElfSym.startsIn_iff.mpr ⟨hge, hin⟩)]
      exact (Except.ok.inj h).symm
    · rw [if_neg hlt] at h
      rw [if_neg fun hin => hlt (hiff.mpr (ElfSym.startsIn_iff.mp hin).2)]
      exact (Except.ok.inj h).symm
  · rw [if_neg hge] at h
    rw [if_neg fun hin => hge (ElfSym.startsIn_iff.mp hin).1]
    exact (Except.ok.inj h).symm

theorem elfSection_spans {g : Goblin} {elf : Elf} {bytes : ByteSlice} {sh : ElfSection}
    {r : CodeSection × List FunctionSpan} (h : elfSection m g elf bytes.val sh = .ok r) :
    SpansOf (sh.code g bytes.val)
      ((elf.functionsIn bytes.val sh).map (symbolSpan elf (sh.code g bytes.val))) r := by
  obtain ⟨data, hdata, h⟩ := Checked.bind_eq_ok.mp h
  have hoff := clampedSlice_end_lt sh.shOffset.toNat_lt sh.shSize.toNat_lt hdata
  obtain ⟨-, -, rfl⟩ := (clampedSlice_eq_ok sh.shOffset.toNat_lt sh.shSize.toNat_lt).mp hdata
  obtain ⟨spans, hspans, h⟩ := Checked.bind_eq_ok.mp h
  have heq := Checked.eq_map_of_mapM_eq_ok
    (fun s _ o ho => elfSpan_eq (sh.shAddr.toNat_lt) hoff ho) hspans
  rw [heq, reduceOption_map_ite] at h
  exact orPrologues_spans hoff h

theorem elfSection_recovered {g : Goblin} {elf : Elf} {bytes : ByteSlice} {sh : ElfSection}
    {r : CodeSection × List FunctionSpan} (h : elfSection m g elf bytes.val sh = .ok r) :
    Recovered (spanCount (sh.data bytes.val) (elf.functionsIn bytes.val sh).length)
      (elf.EndsIn bytes.val sh) r := by
  have hr := (elfSection_spans h).recovered (List.forall_mem_map.mpr fun _ _ => rfl)
  rw [List.length_map, ← List.map_take, List.forall_mem_map] at hr
  exact hr

/-! ### PE -/

/-- The bytes of the section in the file. -/
def PeSection.data (bytes : Bytes) (s : PeSection) : Bytes :=
  (bytes.drop s.pointerToRawData.toNat).take s.sizeOfRawData.toNat

/-- The section as a code section. -/
def PeSection.code (g : Goblin) (bytes : Bytes) (s : PeSection) : CodeSection :=
  ⟨s.data bytes, s.pointerToRawData.toNat, s.virtualAddress.toNat, g.entropy (s.data bytes)⟩

/-- The entry starts in a section of this length and is not empty. -/
def RuntimeFunction.startsIn (len : ℕ) (f : RuntimeFunction) : Bool :=
  decide (f.beginAddress.toNat < len ∧ f.beginAddress ≠ f.endAddress)

theorem RuntimeFunction.startsIn_iff {len : ℕ} {f : RuntimeFunction} :
    f.startsIn len = true ↔ f.beginAddress.toNat < len ∧ f.beginAddress ≠ f.endAddress :=
  decide_eq_true_iff

/-- The entries of `.pdata` that start in the section. -/
def Pe.functionsIn (pe : Pe) (bytes : Bytes) (s : PeSection) : List RuntimeFunction :=
  pe.functions.filter (RuntimeFunction.startsIn (s.data bytes).length)

/-- The size of an entry, modulo the word. -/
def RuntimeFunction.size (f : RuntimeFunction) : ℕ :=
  (f.endAddress.toNat + 2 ^ 32 - f.beginAddress.toNat) % 2 ^ 32

/-- The span that an entry gives. -/
def entrySpan (code : CodeSection) (f : RuntimeFunction) : FunctionSpan :=
  ⟨f.beginAddress.toNat, code.fileOffset + f.beginAddress.toNat,
    min f.size (code.bytes.length - f.beginAddress.toNat), none, .pdata⟩

/-- Whatever the arithmetic, the size is the difference modulo the word. -/
theorem RuntimeFunction.sub_eq {f : RuntimeFunction} {size : ℕ}
    (h : m.sub 32 f.endAddress.toNat f.beginAddress.toNat = .ok size) : size = f.size := by
  have hend := f.endAddress.toNat_lt
  have hbegin := f.beginAddress.toNat_lt
  by_cases hle : f.beginAddress.toNat ≤ f.endAddress.toNat
  · obtain rfl := Except.ok.inj ((Arith.sub_of_le hle).symm.trans h)
    unfold RuntimeFunction.size
    omega
  -- An entry that ends before it begins: checked arithmetic fails, wrapping gives the remainder.
  · cases m with
    | checked => exact absurd (Arith.sub_eq_ok.mp h).1 hle
    | wrapping =>
      rw [Arith.sub, if_neg hle] at h
      exact (Except.ok.inj h).symm

theorem RuntimeFunction.size_pos {f : RuntimeFunction} :
    f.size > 0 ↔ f.beginAddress ≠ f.endAddress := by
  have hend := f.endAddress.toNat_lt
  have hbegin := f.beginAddress.toNat_lt
  rw [ne_eq, ← UInt32.toNat_inj]
  unfold RuntimeFunction.size
  omega

theorem pdataSpan_eq {code : CodeSection} {f : RuntimeFunction} {o : Option FunctionSpan}
    (hoff : code.fileOffset + code.bytes.length < 2 ^ 64) (h : pdataSpan m code f = .ok o) :
    o = if f.startsIn code.bytes.length then some (entrySpan code f) else none := by
  obtain ⟨size, hsize, h⟩ := Checked.bind_eq_ok.mp h
  obtain rfl := RuntimeFunction.sub_eq hsize
  by_cases hin : f.beginAddress.toNat < code.bytes.length ∧ f.size > 0
  · rw [if_pos hin, Arith.add_of_lt (by omega)] at h
    rw [if_pos (RuntimeFunction.startsIn_iff.mpr ⟨hin.1, RuntimeFunction.size_pos.mp hin.2⟩)]
    exact (Except.ok.inj h).symm
  · rw [if_neg hin] at h
    rw [if_neg fun h' => hin ⟨(RuntimeFunction.startsIn_iff.mp h').1,
      RuntimeFunction.size_pos.mpr (RuntimeFunction.startsIn_iff.mp h').2⟩]
    exact (Except.ok.inj h).symm

theorem peSection_spans {g : Goblin} {pe : Pe} {bytes : ByteSlice} {s : PeSection}
    {r : CodeSection × List FunctionSpan} (h : peSection m g pe bytes.val s = .ok r) :
    SpansOf (s.code g bytes.val)
      ((pe.functionsIn bytes.val s).map (entrySpan (s.code g bytes.val))) r := by
  have hpointer := s.pointerToRawData.toNat_lt
  have hsize := s.sizeOfRawData.toNat_lt
  obtain ⟨data, hdata, h⟩ := Checked.bind_eq_ok.mp h
  have hoff := clampedSlice_end_lt (by omega) (by omega) hdata
  obtain ⟨-, -, rfl⟩ := (clampedSlice_eq_ok (by omega) (by omega)).mp hdata
  obtain ⟨spans, hspans, h⟩ := Checked.bind_eq_ok.mp h
  have heq := Checked.eq_map_of_mapM_eq_ok (fun f _ o ho => pdataSpan_eq hoff ho) hspans
  rw [heq, reduceOption_map_ite] at h
  exact orPrologues_spans hoff h

/-- A span of `.pdata` is clipped to its section. -/
theorem entrySpan_inside {code : CodeSection} {f : RuntimeFunction}
    (h : f.startsIn code.bytes.length = true) :
    (entrySpan code f).offset + (entrySpan code f).size ≤ code.bytes.length := by
  have hlt := (RuntimeFunction.startsIn_iff.mp h).1
  show f.beginAddress.toNat + min f.size (_ - f.beginAddress.toNat) ≤ _
  omega

theorem peSection_recovered {g : Goblin} {pe : Pe} {bytes : ByteSlice} {s : PeSection}
    {r : CodeSection × List FunctionSpan} (h : peSection m g pe bytes.val s = .ok r) :
    Recovered (spanCount (s.data bytes.val) (pe.functionsIn bytes.val s).length) True r := by
  have hr := (peSection_spans h).recovered (List.forall_mem_map.mpr fun _ _ => rfl)
  rw [List.length_map, ← List.map_take, List.forall_mem_map] at hr
  exact ⟨hr.count, iff_true_intro (hr.inside.mpr fun f hf =>
    entrySpan_inside (List.mem_filter.mp (List.mem_of_mem_take hf)).2), hr.placed⟩

/-! ### Mach-O -/

/-- The symbol is a global one of the section, whose address range does not wrap around. -/
def MachoSymbol.startsIn (addr len : ℕ) (s : MachoSymbol) : Bool :=
  decide (s.name ≠ "" ∧ s.isGlobal = true ∧ s.nType = nSect ∧ addr ≤ s.nValue.toNat ∧
    addr + len < 2 ^ 64 ∧ s.nValue.toNat < addr + len)

/-- The offsets of the symbols in the section. -/
def MachO.startsIn (macho : MachO) (sec : MachoSection) : List ℕ :=
  (macho.symbols.filter (MachoSymbol.startsIn sec.addr.toNat sec.data.val.length)).map
    fun s => s.nValue.toNat - sec.addr.toNat

theorem machoStart_eq {code : CodeSection} {s : MachoSymbol} {o : Option ℕ}
    (haddr : code.virtualAddress < 2 ^ 64) (hlen : code.bytes.length < 2 ^ 64)
    (h : machoStart m code s = .ok o) :
    o = if s.startsIn code.virtualAddress code.bytes.length then
      some (s.nValue.toNat - code.virtualAddress) else none := by
  unfold machoStart at h
  by_cases hsym : s.name ≠ "" ∧ s.isGlobal = true ∧ s.nType = nSect ∧
      s.nValue.toNat ≥ code.virtualAddress
  · rw [if_pos hsym] at h
    obtain ⟨limit, hlimit, h⟩ := Checked.bind_eq_ok.mp h
    have hiff := Arith.lt_add_iff haddr hlen hsym.2.2.2 hlimit
    have hin : s.startsIn code.virtualAddress code.bytes.length = true ↔
        s.nValue.toNat < limit := by
      rw [hiff, MachoSymbol.startsIn, decide_eq_true_iff]
      exact ⟨fun h' => h'.2.2.2.2, fun h' => ⟨hsym.1, hsym.2.1, hsym.2.2.1, hsym.2.2.2, h'⟩⟩
    by_cases hlt : s.nValue.toNat < limit
    · rw [if_pos hlt] at h
      rw [if_pos (hin.mpr hlt)]
      exact (Except.ok.inj h).symm
    · rw [if_neg hlt] at h
      rw [if_neg fun h' => hlt (hin.mp h')]
      exact (Except.ok.inj h).symm
  · rw [if_neg hsym] at h
    rw [if_neg]
    · exact (Except.ok.inj h).symm
    · intro h'
      obtain ⟨hname, hglobal, htype, hge, -⟩ := of_decide_eq_true h'
      exact hsym ⟨hname, hglobal, htype, hge⟩

/-- The section as a code section. -/
def MachoSection.code (g : Goblin) (sec : MachoSection) : CodeSection :=
  ⟨sec.data.val, sec.offset.toNat, sec.addr.toNat, g.entropy sec.data.val⟩

/-- What the loop over the symbols finds. -/
theorem machoStarts_eq {g : Goblin} {macho : MachO} {sec : MachoSection}
    {found : List (Option ℕ)} (h : macho.symbols.mapM (machoStart m (sec.code g)) = .ok found) :
    found.reduceOption = macho.startsIn sec := by
  have hlen : sec.data.val.length < 2 ^ 64 := Nat.lt_trans sec.data.property (by decide)
  have heq := Checked.eq_map_of_mapM_eq_ok
    (fun s _ o ho => machoStart_eq sec.addr.toNat_lt hlen ho) h
  rw [heq, reduceOption_map_ite]
  rfl

theorem lt_of_mem_startsIn {macho : MachO} {sec : MachoSection} {i : ℕ}
    (h : i ∈ macho.startsIn sec) : i < sec.data.val.length := by
  obtain ⟨s, hs, rfl⟩ := List.mem_map.mp h
  obtain ⟨-, -, -, hge, -, hlt⟩ := of_decide_eq_true (List.mem_filter.mp hs).2
  omega

theorem machoSection_code {g : Goblin} {macho : MachO} {sec : MachoSection}
    {r : CodeSection × List FunctionSpan} (h : machoSection m g macho sec = .ok r) :
    r.1 = sec.code g := by
  have hlen := sec.data.property
  have hoff := sec.offset.toNat_lt
  obtain ⟨found, -, h⟩ := Checked.bind_eq_ok.mp h
  cases hnil : found.reduceOption.isEmpty with
  | true =>
    rw [if_pos hnil] at h
    exact (@orPrologues_spans m _ [] _
      (show sec.offset.toNat + sec.data.val.length < 2 ^ 64 by omega) h).code_eq
  | false =>
    rw [if_neg (by rw [hnil]; exact Bool.false_ne_true)] at h
    obtain ⟨spans, -, h⟩ := Checked.bind_eq_ok.mp h
    obtain rfl := Except.ok.inj h
    rfl

theorem machoSection_recovered {g : Goblin} {macho : MachO} {sec : MachoSection}
    {r : CodeSection × List FunctionSpan} (h : machoSection m g macho sec = .ok r) :
    Recovered (spanCount sec.data.val (macho.startsIn sec).dedup.length) True r := by
  have hlen := sec.data.property
  have hoff := sec.offset.toNat_lt
  obtain ⟨found, hfound, h⟩ := Checked.bind_eq_ok.mp h
  rw [machoStarts_eq hfound] at h
  cases hnil : (macho.startsIn sec).isEmpty with
  | true =>
    rw [if_pos hnil] at h
    rw [List.isEmpty_iff.mp hnil, List.dedup_nil]
    exact (@orPrologues_spans m _ [] _
      (show sec.offset.toNat + sec.data.val.length < 2 ^ 64 by omega) h).scanned rfl
  | false =>
    rw [if_neg (by rw [hnil]; exact Bool.false_ne_true)] at h
    obtain ⟨spans, hspans, h⟩ := Checked.bind_eq_ok.mp h
    obtain ⟨hcount, hall⟩ := spans_between (sort_destutter_sorted _)
      (fun i hi => lt_of_mem_startsIn (mem_sort_destutter hi))
      (show sec.offset.toNat + sec.data.val.length < 2 ^ 64 by omega) hspans
    have hfilter : spans.filter (fun s => decide (s.size > 0)) = spans :=
      List.filter_eq_self.mpr fun s hs => decide_eq_true (hall s hs).1
    rw [hfilter] at h
    obtain rfl := Except.ok.inj h
    refine ⟨?_, iff_true_intro fun s hs => (hall s (List.mem_of_mem_take hs)).2.1,
      fun s hs => (hall s (List.mem_of_mem_take hs)).2.2⟩
    -- Some symbol starts here, so the spans are those of the symbols.
    have hne : (macho.startsIn sec).dedup.length ≠ 0 := by
      rw [ne_eq, List.length_eq_zero_iff, List.dedup_eq_nil]
      intro h'
      rw [h'] at hnil
      cases hnil
    rw [spanCount, if_neg hne, List.length_take, hcount, length_sort_destutter]

/-! ### Files -/

/-- What of the headers and symbols decides whether the spans of a file are bounded: the
counts of its sections add up to the cap at most, and ELF symbols end in their section. -/
def SpansFit (g : Goblin) (cls : ArtifactClass) (bytes : Bytes) : Prop :=
  match cls with
  | .elf => ∀ elf, g.parseElf bytes = some elf → elf.machine = emX8664 →
    ((elf.named ".text").map fun sh =>
      spanCount (sh.data bytes) (elf.functionsIn bytes sh).length).sum ≤ maxFunctions ∧
    ∀ sh ∈ elf.named ".text", elf.EndsIn bytes sh
  | .pe => ∀ pe, g.parsePe bytes = some pe → pe.machine = coffMachineX8664 →
    (pe.textSections.map fun s =>
      spanCount (s.data bytes) (pe.functionsIn bytes s).length).sum ≤ maxFunctions
  | .machO => ∀ macho, g.parseMacho bytes = some macho → macho.cputype = cpuTypeX8664 →
    (macho.textSections.map fun sec =>
      spanCount sec.data.val (macho.startsIn sec).dedup.length).sum ≤ maxFunctions
  | .machOFat | .script | .unknown => True

/-- A file in which nothing is found is bounded. -/
theorem bounded_nil : Bounded [] := ⟨Nat.zero_le _, by simp, by simp⟩

/-- Each section's result is that of the section alone. -/
theorem bounded_sections {α : Type} {f : α → Checked (CodeSection × List FunctionSpan)}
    {count : α → ℕ} {fits : α → Prop} {l : List α}
    {regions : List (CodeSection × List FunctionSpan)}
    (hf : ∀ a r, f a = .ok r → Recovered (count a) (fits a) r) (h : l.mapM f = .ok regions) :
    Bounded regions ↔ (l.map count).sum ≤ maxFunctions ∧ ∀ a ∈ l, fits a :=
  bounded_iff ((Checked.mapM_eq_ok_iff.mp h).imp hf)

/-- A file that parses to the machine of the decoder is decided by its sections. -/
theorem bounded_parsed {γ : Type} {parsed : Option γ} {known fits : γ → Prop}
    {regions : List (CodeSection × List FunctionSpan)} (hnone : parsed = none → regions = [])
    (hother : ∀ c, parsed = some c → ¬ known c → regions = [])
    (hknown : ∀ c, parsed = some c → known c → (Bounded regions ↔ fits c)) :
    Bounded regions ↔ ∀ c, parsed = some c → known c → fits c := by
  cases hp : parsed with
  | none =>
    rw [hnone hp]
    exact iff_of_true bounded_nil fun c hc => by cases hc
  | some c =>
    by_cases hc : known c
    · rw [hknown c hp hc]
      exact ⟨fun h c' hc' _ => Option.some.inj hc' ▸ h, fun h => h c rfl hc⟩
    · rw [hother c hp hc]
      exact iff_of_true bounded_nil fun c' hc' h => absurd (Option.some.inj hc' ▸ h) hc

/-- **The spans that are returned are bounded and inside their sections exactly when
`SpansFit`.** -/
theorem functionsFor_bounded_iff {g : Goblin} {cls : ArtifactClass} {bytes : ByteSlice}
    {regions : List (CodeSection × List FunctionSpan)}
    (h : functionsFor m g cls bytes.val = .ok regions) :
    Bounded regions ↔ SpansFit g cls bytes.val := by
  cases cls with
  | elf =>
    unfold functionsFor elfFunctions at h
    refine bounded_parsed (fun hp => ?_) (fun elf hp hother => ?_) fun elf hp hknown => ?_
    · rw [hp] at h
      exact (Except.ok.inj h).symm
    · simp only [hp, ne_eq, hother, not_false_eq_true, if_true] at h
      exact (Except.ok.inj h).symm
    · simp only [hp, ne_eq, hknown, not_true_eq_false, if_false] at h
      exact bounded_sections (fun _ _ => elfSection_recovered) h
  | pe =>
    unfold functionsFor peFunctions at h
    refine bounded_parsed (fun hp => ?_) (fun pe hp hother => ?_) fun pe hp hknown => ?_
    · rw [hp] at h
      exact (Except.ok.inj h).symm
    · simp only [hp, ne_eq, hother, not_false_eq_true, if_true] at h
      exact (Except.ok.inj h).symm
    · simp only [hp, ne_eq, hknown, not_true_eq_false, if_false] at h
      exact (bounded_sections (fun _ _ => peSection_recovered) h).trans (by simp)
  | machO =>
    unfold functionsFor machoFunctions at h
    refine bounded_parsed (fun hp => ?_) (fun macho hp hother => ?_) fun macho hp hknown => ?_
    · rw [hp] at h
      exact (Except.ok.inj h).symm
    · simp only [hp, ne_eq, hother, not_false_eq_true, if_true] at h
      exact (Except.ok.inj h).symm
    · simp only [hp, ne_eq, hknown, not_true_eq_false, if_false] at h
      exact (bounded_sections (fun _ _ => machoSection_recovered) h).trans (by simp)
  | machOFat | script | unknown =>
    obtain rfl := Except.ok.inj h
    exact iff_of_true bounded_nil trivial

/-- A file with a `.text` of four bytes at the address `0x1000`, and a function symbol there
of the given size. -/
def oneFunction (size : UInt64) : Goblin where
  parseElf _ := some {
    machine := emX8664
    sectionHeaders := [⟨1, 1, 6, 0x1000, 0, 4⟩]
    shdrStrtab := fun _ => some ".text"
    syms := [⟨1, 2, 1, 0x1000, size⟩]
    strtab := fun _ => some "main"
    dynsyms := []
    dynstrtab := fun _ => none
    libraries := [] }
  parsePe _ := none
  parseMacho _ := none
  entropy _ := 0

/-- `ret`, and padding. -/
def retBytes : ByteSlice := ⟨[0xc3, 0x90, 0x90, 0x90], by decide⟩

/-- What is recovered of it: the span has the size of the symbol. -/
def oneFunctionRegions (size : ℕ) : List (CodeSection × List FunctionSpan) :=
  [(⟨retBytes.val, 0, 0x1000, 0⟩, [⟨0, 0, size, some "main", .symbol⟩])]

theorem functionsFor_bounded_iff_four :
    functionsFor .checked (oneFunction 4) .elf retBytes.val = .ok (oneFunctionRegions 4) ∧
      (Bounded (oneFunctionRegions 4) ↔ SpansFit (oneFunction 4) .elf retBytes.val) :=
  ⟨rfl, functionsFor_bounded_iff (m := .checked) rfl⟩

/-- The size of a symbol is taken as it is, past the end of the section. -/
theorem symbol_past_section :
    functionsFor .checked (oneFunction 1000) .elf retBytes.val = .ok (oneFunctionRegions 1000) ∧
      ¬ Bounded (oneFunctionRegions 1000) := by
  refine ⟨rfl, fun h => ?_⟩
  have hin := h.inside _ List.mem_cons_self _ List.mem_cons_self
  exact absurd hin (by decide)

end Corpus
