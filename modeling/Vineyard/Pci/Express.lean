import Vineyard.Int.Ioapic
import Vineyard.Lib.Bytes
import Vineyard.Mman.Calls
import Vineyard.Util.Sequences

/-!
# The segments of PCI Express

`pci_express_init` of `pci/express/init.c` makes a list of the entries of the MCFG table, each a
segment, a range of buses and a base address, and `pci_express_read` searches this list.  The search
looks at the segment only: it finds the first entry of the segment, whichever bus is asked for.
-/

namespace Vineyard

open Bytes Function Links

/-! ## The table -/

/-- `pcie_segment_t` -/
structure PcieSegmentT where
  seg : ℕ
  busStart : ℕ
  busEnd : ℕ
  phys : ℕ
  deriving DecidableEq

/-- What `pci_express_read` uses of it. -/
def PcieSegmentT.segment (config : PcieSegmentT) : PcieSegment := ⟨config.seg, config.phys⟩

/-- `pcie_segments`, with the memory of its nodes and of the segments that they point to. -/
structure PcieSegments where
  list : ListT
  heap : NodeHeap
  configs : ℕ → PcieSegmentT

/-- Entry `i` of the table at `mcfg`, a packed `pcie_config_t` behind the 44 bytes of the header. -/
def mcfgEntry (mem : Memory) (mcfg i : ℕ) : PcieSegmentT where
  seg := load mem (mcfg + 44 + 16 * i + 8) 2
  busStart := load mem (mcfg + 44 + 16 * i + 10) 1
  busEnd := load mem (mcfg + 44 + 16 * i + 11) 1
  phys := load mem (mcfg + 44 + 16 * i) 8

/-- The loop of `pci_express_init` from entry `i` on, for `n` entries; `malloc` is what each call of
it returns. -/
def pciExpressInitLoop (mem : Memory) (mcfg : ℕ) (malloc : ℕ → ℕ) :
    ℕ → ℕ → PcieSegments → Except Fault PcieSegments
  | 0, _, s => .ok s
  | n + 1, i, s =>
    let node := malloc (2 * i)
    let segment := malloc (2 * i + 1)
    if node = 0 ∨ segment = 0 then .error nullPointer
    else
      let configs := update s.configs segment (mcfgEntry mem mcfg i)
      let heap := update s.heap node { s.heap node with data := segment }
      let (list, heap) := listAppend s.list node heap
      pciExpressInitLoop mem mcfg malloc n (i + 1) ⟨list, heap, configs⟩

/-- The table is what `acpi_get_table` has found, if anything. -/
def pciExpressInit (mem : Memory) (malloc : ℕ → ℕ) (table : Option ℕ) (s : PcieSegments) :
    Except Fault PcieSegments :=
  match table with
  | none => .error (.assertion "status == AE_OK && mcfg")
  | some mcfg =>
    pciExpressInitLoop mem mcfg malloc (Word32.sub (load mem (mcfg + 4) 4) 44 >>> 4) 0 s

/-! ## The search -/

/-- The search of `pci_express_read` from `node` on, for at most so many nodes. -/
def findSegment (s : PcieSegments) (segment : ℕ) : ℕ → ℕ → Option PcieSegmentT
  | 0, _ => none
  | left + 1, node =>
    if node = 0 then none
    else if (s.configs (s.heap node).data).seg = segment then some (s.configs (s.heap node).data)
    else findSegment s segment left (s.heap node).next

/-- `config` of `pci_express_read` -/
def PcieSegments.config (s : PcieSegments) (segment : ℕ) : Option PcieSegmentT :=
  findSegment s segment s.list.length s.list.head

/-- `pci_express_read`, with the search on the list -/
def pciExpressReadList (segments : PcieSegments) (mmio : ℕ → ℕ) (segment bus slot function offset : ℕ)
    (s : Sys) : Except Fault (ℕ × Sys) :=
  match segments.config segment with
  | none => .error (.panic "[PCIe]\tsegment %hu not found\n")
  | some config => pciExpressRead [config.segment] mmio config.seg bus slot function offset s

/-- The list has these segments, in this order. -/
def PcieSegments.Has (s : PcieSegments) (configs : List PcieSegmentT) : Prop :=
  ∃ nodes, ListWellFormed s.heap s.list nodes ∧
    nodes.map (fun node => s.configs (s.heap node).data) = configs

theorem findSegment_seg {s : PcieSegments} {b : ℕ} {nodes : List ℕ}
    (seg : Seg (fun p => (s.heap p).next) (fun p => (s.heap p).prev) b nodes 0) (segment : ℕ) :
    findSegment s segment nodes.length (nodes.headD 0) =
      (nodes.map fun node => s.configs (s.heap node).data).find? fun config =>
        config.seg = segment := by
  induction nodes generalizing b with
  | nil => rfl
  | cons node nodes ih =>
    have after : (s.heap node).next = nodes.headD 0 := seg.2.2.1
    have rest := ih seg.2.2.2
    by_cases here : (s.configs (s.heap node).data).seg = segment
    · simp [findSegment, seg.1, here]
    · rw [List.map_cons, List.find?_cons_of_neg (by simpa using here), ← rest, ← after]
      simp [findSegment, seg.1, here]

/-- The search finds the first entry of the segment. -/
theorem PcieSegments.Has.config_eq {s : PcieSegments} {configs : List PcieSegmentT}
    (has : s.Has configs) (segment : ℕ) : s.config segment = configs.find? fun config =>
      config.seg = segment := by
  rcases has with ⟨nodes, wf, rfl⟩
  rw [PcieSegments.config, wf.holds.length, wf.holds.links.head_eq]
  exact findSegment_seg wf.holds.links.seg segment

/-- On the list the read is the one that searches its entries. -/
theorem PcieSegments.Has.read_eq {s : PcieSegments} {configs : List PcieSegmentT}
    (has : s.Has configs) :
    pciExpressReadList s = pciExpressRead (configs.map PcieSegmentT.segment) := by
  funext mmio segment bus slot function offset sys
  have mapped : (configs.map PcieSegmentT.segment).find? (fun config => config.seg = segment) =
      (configs.find? fun config => config.seg = segment).map PcieSegmentT.segment := List.find?_map
  rw [pciExpressReadList, has.config_eq, pciExpressRead, mapped]
  cases find : configs.find? fun config => config.seg = segment with
  | none => rfl
  | some config =>
    have same : config.seg = segment := by simpa using List.find?_some find
    simp [pciExpressRead, PcieSegmentT.segment, same]

/-! ## The list of the table -/

/-- The first `n` results of `malloc` are addresses, and no two are the same. -/
structure FreshMalloc (malloc : ℕ → ℕ) (n : ℕ) : Prop where
  isNode : ∀ i < n, IsNode (malloc i)
  distinct : ∀ i < n, ∀ j < n, malloc i = malloc j → i = j

/-- The first `i` entries of the table are in the list. -/
structure Loading (mem : Memory) (mcfg : ℕ) (malloc : ℕ → ℕ) (i : ℕ) (s : PcieSegments) : Prop where
  wellFormed : ListWellFormed s.heap s.list ((List.range i).map fun k => malloc (2 * k))
  data : ∀ k < i, (s.heap (malloc (2 * k))).data = malloc (2 * k + 1)
  configs : ∀ k < i, s.configs (malloc (2 * k + 1)) = mcfgEntry mem mcfg k

section Init

variable {mem : Memory} {mcfg n i : ℕ} {malloc : ℕ → ℕ} {s : PcieSegments}

theorem Loading.has (loading : Loading mem mcfg malloc n s) :
    s.Has ((List.range n).map (mcfgEntry mem mcfg)) := by
  refine ⟨_, loading.wellFormed, ?_⟩
  rw [List.map_map]
  refine List.map_congr_left fun k mem => ?_
  have less := List.mem_range.1 mem
  simp [loading.data k less, loading.configs k less]

/-- One round of the loop puts the next entry behind the others. -/
theorem Loading.append (fresh : FreshMalloc malloc (2 * n)) (less : i < n)
    (loading : Loading mem mcfg malloc i s) :
    let heap := update s.heap (malloc (2 * i))
      { s.heap (malloc (2 * i)) with data := malloc (2 * i + 1) }
    Loading mem mcfg malloc (i + 1)
      ⟨(listAppend s.list (malloc (2 * i)) heap).1, (listAppend s.list (malloc (2 * i)) heap).2,
        update s.configs (malloc (2 * i + 1)) (mcfgEntry mem mcfg i)⟩ := by
  have apart : ∀ k < i, malloc (2 * k) ≠ malloc (2 * i) := fun k lt same => by
    have := fresh.distinct (2 * k) (by omega) (2 * i) (by omega) same
    omega
  have unlisted : malloc (2 * i) ∉ (List.range i).map fun k => malloc (2 * k) := by
    simpa using apart
  intro heap
  have wf : ListWellFormed heap s.list ((List.range i).map fun k => malloc (2 * k)) :=
    loading.wellFormed.congr fun x mem => update_of_ne (ne_of_mem_of_not_mem mem unlisted) _ _
  have leaves := listAppend_leaves wf (fresh.isNode _ (by omega)) unlisted
  refine ⟨?_, fun k lt => ?_, fun k lt => ?_⟩
  · simpa [List.range_succ] using leaves.wellFormed
  · rw [leaves.data]
    rcases Nat.lt_succ_iff_lt_or_eq.1 lt with old | rfl
    · simpa [heap, apart k old] using loading.data k old
    · simp [heap]
  · rcases Nat.lt_succ_iff_lt_or_eq.1 lt with old | rfl
    · have other : malloc (2 * k + 1) ≠ malloc (2 * i + 1) := fun same => by
        have := fresh.distinct _ (by omega) _ (by omega) same
        omega
      simpa [other] using loading.configs k old
    · simp

theorem pciExpressInitLoop_spec (fresh : FreshMalloc malloc (2 * n)) :
    ∀ left i s, i + left = n → Loading mem mcfg malloc i s →
      ∃ t, pciExpressInitLoop mem mcfg malloc left i s = .ok t ∧ Loading mem mcfg malloc n t := by
  intro left
  induction left with
  | zero =>
    intro i s all loading
    exact ⟨s, rfl, by rwa [← all]⟩
  | succ left ih =>
    intro i s all loading
    have node := (fresh.isNode (2 * i) (by omega)).1
    have segment := (fresh.isNode (2 * i + 1) (by omega)).1
    simp only [pciExpressInitLoop, node, segment, or_self, if_false]
    exact ih (i + 1) _ (by omega) (loading.append fresh (by omega))

/-- The static variable before the initialization -/
def PcieSegments.Empty (s : PcieSegments) : Prop := s.list = ⟨0, 0, 0⟩

/-- After the initialization the list has the entries of the table. -/
theorem pciExpressInit_has (fresh : FreshMalloc malloc (2 * n)) (empty : s.Empty)
    (length : load mem (mcfg + 4) 4 = 44 + 16 * n) :
    ∃ t, pciExpressInit mem malloc (some mcfg) s = .ok t ∧
      t.Has ((List.range n).map (mcfgEntry mem mcfg)) := by
  have small := load_lt mem (mcfg + 4) 4
  have entries : Word32.sub (load mem (mcfg + 4) 4) 44 >>> 4 = n := by
    rw [Word32.sub_eq (by omega) (by omega), length, Nat.shiftRight_eq_div_pow]
    omega
  have start : Loading mem mcfg malloc 0 s :=
    ⟨⟨empty.symm ▸ listHolds_nil _, by simp⟩, fun k none => absurd none (Nat.not_lt_zero k),
      fun k none => absurd none (Nat.not_lt_zero k)⟩
  rcases pciExpressInitLoop_spec fresh n 0 s (Nat.zero_add n) start with ⟨t, run, loading⟩
  exact ⟨t, by rw [pciExpressInit, entries, run], loading.has⟩

end Init

/-! ## Bus ranges -/

/-- The entry is for the buses of a segment around this one. -/
def PcieSegmentT.Covers (config : PcieSegmentT) (segment bus : ℕ) : Prop :=
  config.seg = segment ∧ config.busStart ≤ bus ∧ bus ≤ config.busEnd

instance (config : PcieSegmentT) (segment bus : ℕ) : Decidable (config.Covers segment bus) :=
  inferInstanceAs (Decidable (_ ∧ _))

/-- The read of a segment goes to the configuration space at a base address. -/
structure UsesBase (s : PcieSegments) (segment phys : ℕ) : Prop where
  found : (s.config segment).map PcieSegmentT.phys = some phys
  read : ∀ mmio bus slot function offset sys,
    pciExpressReadList s mmio segment bus slot function offset sys =
      pciExpressRead [⟨segment, phys⟩] mmio segment bus slot function offset sys

/-- The read of a segment panics. -/
structure NotFound (s : PcieSegments) (segment : ℕ) : Prop where
  found : s.config segment = none
  read : ∀ mmio bus slot function offset sys,
    pciExpressReadList s mmio segment bus slot function offset sys =
      .error (.panic "[PCIe]\tsegment %hu not found\n")

/-- A covered bus is read at the base of its entry, and any other is not found. -/
structure RespectsRanges (s : PcieSegments) (configs : List PcieSegmentT) (segment bus : ℕ) :
  Prop where
  covered : ∀ e ∈ configs, e.Covers segment bus → UsesBase s segment e.phys
  uncovered : (∀ e ∈ configs, ¬ e.Covers segment bus) → NotFound s segment

/-- The first entry of a segment -/
def FirstOf (configs : List PcieSegmentT) (segment : ℕ) (first : PcieSegmentT) : Prop :=
  ∃ before after, configs = before ++ first :: after ∧ first.seg = segment ∧
    ∀ e ∈ before, e.seg ≠ segment

/-- The ranges say no more than the segments: a covered bus has the base of the first entry of its
segment, and a segment with an uncovered bus has no entry. -/
structure SegmentDecides (configs : List PcieSegmentT) (segment bus : ℕ) : Prop where
  covered : ∀ e ∈ configs, e.Covers segment bus → ∀ first, FirstOf configs segment first →
    first.phys = e.phys
  uncovered : (∀ e ∈ configs, ¬ e.Covers segment bus) → ∀ e ∈ configs, e.seg ≠ segment

section Ranges

variable {s : PcieSegments} {configs : List PcieSegmentT} {segment : ℕ}

theorem firstOf_iff {first : PcieSegmentT} :
    FirstOf configs segment first ↔ configs.find? (fun config => config.seg = segment) =
      some first := by
  rw [List.find?_eq_some_iff_append, FirstOf]
  constructor
  · rintro ⟨before, after, split, same, others⟩
    exact ⟨by simpa using same, before, after, split, by simpa using others⟩
  · rintro ⟨same, before, after, split, others⟩
    exact ⟨before, after, split, by simpa using same, by simpa using others⟩

theorem PcieSegments.Has.usesBase_iff (has : s.Has configs) (phys : ℕ) :
    UsesBase s segment phys ↔ ∃ first, FirstOf configs segment first ∧ first.phys = phys := by
  simp only [firstOf_iff, ← has.config_eq segment]
  constructor
  · intro uses
    simpa using uses.found
  · rintro ⟨first, found, rfl⟩
    have same : first.seg = segment := by
      rw [has.config_eq] at found
      simpa using List.find?_some found
    refine ⟨by simp [found], fun mmio bus slot function offset sys => ?_⟩
    simp [pciExpressReadList, found, PcieSegmentT.segment, same]

theorem PcieSegments.Has.notFound_iff (has : s.Has configs) :
    NotFound s segment ↔ ∀ e ∈ configs, e.seg ≠ segment := by
  have none : s.config segment = none ↔ ∀ e ∈ configs, e.seg ≠ segment := by
    rw [has.config_eq, List.find?_eq_none]
    simp
  rw [← none]
  refine ⟨NotFound.found, fun found => ⟨found, fun mmio bus slot function offset sys => ?_⟩⟩
  rw [pciExpressReadList, found]

/-- A segment with an entry has a first one. -/
theorem exists_firstOf {e : PcieSegmentT} (mem : e ∈ configs) (same : e.seg = segment) :
    ∃ first, FirstOf configs segment first := by
  simp only [firstOf_iff]
  exact Option.isSome_iff_exists.1 (List.find?_isSome.2 ⟨e, mem, by simpa using same⟩)

theorem FirstOf.unique {first other : PcieSegmentT} (h : FirstOf configs segment first)
    (h' : FirstOf configs segment other) : first = other :=
  Option.some.inj ((firstOf_iff.1 h).symm.trans (firstOf_iff.1 h'))

theorem PcieSegments.Has.respectsRanges_iff (has : s.Has configs) (bus : ℕ) :
    RespectsRanges s configs segment bus ↔ SegmentDecides configs segment bus := by
  constructor
  · intro respects
    refine ⟨fun e mem covers first isFirst => ?_, fun none =>
      has.notFound_iff.1 (respects.uncovered none)⟩
    rcases (has.usesBase_iff e.phys).1 (respects.covered e mem covers) with ⟨other, isFirst', base⟩
    rw [isFirst.unique isFirst', base]
  · intro decides
    refine ⟨fun e mem covers => ?_, fun none => has.notFound_iff.2 (decides.uncovered none)⟩
    rcases exists_firstOf mem covers.1 with ⟨first, isFirst⟩
    exact (has.usesBase_iff e.phys).2 ⟨first, isFirst, decides.covered e mem covers first isFirst⟩

end Ranges

/-- For every table and every bus of a segment, the read respects the bus ranges exactly when they say
no more than the segments. -/
theorem pciExpressRead_ranges_iff (mem : Memory) (mcfg n : ℕ)
    (length : load mem (mcfg + 4) 4 = 44 + 16 * n) (malloc : ℕ → ℕ)
    (fresh : FreshMalloc malloc (2 * n)) (s : PcieSegments) (empty : s.Empty) :
    ∃ t, pciExpressInit mem malloc (some mcfg) s = .ok t ∧ ∀ segment bus,
      RespectsRanges t ((List.range n).map (mcfgEntry mem mcfg)) segment bus ↔
        SegmentDecides ((List.range n).map (mcfgEntry mem mcfg)) segment bus := by
  rcases pciExpressInit_has fresh empty length with ⟨t, run, has⟩
  exact ⟨t, run, fun segment bus => has.respectsRanges_iff bus⟩

/-- A table in memory, by its bytes from the length on -/
def mcfgAt (bytes : List UInt8) : Memory := fun a => bytes.getD (a - 0x1004) 0

/-- 40 bytes that nothing reads lie between the length and the entries. -/
def mcfgBytes (length : UInt8) (entries : List UInt8) : List UInt8 :=
  [length, 0, 0, 0] ++ List.replicate 36 0 ++ entries

/-- One entry for all buses of segment 0 -/
def wholeSegment : Memory :=
  mcfgAt (mcfgBytes 60 [0, 0, 0, 0xE0, 0, 0, 0, 0, 0, 0, 0, 0xFF, 0, 0, 0, 0])

/-- Segment 0 in two halves, with the second one elsewhere -/
def splitSegment : Memory :=
  mcfgAt (mcfgBytes 76 [0, 0, 0, 0xE0, 0, 0, 0, 0, 0, 0, 0, 0x7F, 0, 0, 0, 0,
    0, 0, 0, 0xC0, 0, 0, 0, 0, 0, 0, 0x80, 0xFF, 0, 0, 0, 0])

def emptySegments : PcieSegments := ⟨⟨0, 0, 0⟩, fun _ => ⟨0, 0, 0⟩, fun _ => ⟨0, 0, 0, 0⟩⟩

/-- Memory of 32 bytes for each call -/
def bumpMalloc (i : ℕ) : ℕ := 0x8000 + 32 * i

theorem bumpMalloc_fresh {n : ℕ} (small : n ≤ 2 ^ 32) : FreshMalloc bumpMalloc n := by
  refine ⟨fun i less => ?_, fun i _ j _ same => ?_⟩
  · refine ⟨?_, ?_⟩ <;> unfold bumpMalloc <;> omega
  · unfold bumpMalloc at same
    omega

theorem pciExpressRead_ranges_whole :
    ∃ t, pciExpressInit wholeSegment bumpMalloc (some 0x1000) emptySegments = .ok t ∧ ∀ segment bus,
      RespectsRanges t ((List.range 1).map (mcfgEntry wholeSegment 0x1000)) segment bus ↔
        SegmentDecides ((List.range 1).map (mcfgEntry wholeSegment 0x1000)) segment bus :=
  pciExpressRead_ranges_iff wholeSegment 0x1000 1 (by decide +kernel) bumpMalloc
    (bumpMalloc_fresh (by decide)) emptySegments rfl

/-- Bus 200 of the split segment is read at the base of bus 0. -/
theorem pciExpressRead_ranges_split :
    ((List.range 2).map (mcfgEntry splitSegment 0x1000)).Pairwise
      (fun e f => ∀ segment bus, e.Covers segment bus → ¬ f.Covers segment bus) ∧
    ∃ t, pciExpressInit splitSegment bumpMalloc (some 0x1000) emptySegments = .ok t ∧
      ¬ RespectsRanges t ((List.range 2).map (mcfgEntry splitSegment 0x1000)) 0 200 := by
  have entries : (List.range 2).map (mcfgEntry splitSegment 0x1000) =
      [⟨0, 0, 127, 0xE0000000⟩, ⟨0, 128, 255, 0xC0000000⟩] := by decide +kernel
  rcases pciExpressInit_has (bumpMalloc_fresh (n := 2 * 2) (by decide)) (s := emptySegments) rfl
    (show load splitSegment (0x1000 + 4) 4 = 44 + 16 * 2 by decide +kernel) with ⟨t, run, has⟩
  rw [entries] at has ⊢
  refine ⟨?_, t, run, fun respects => ?_⟩
  · simp [PcieSegmentT.Covers]
    omega
  · have decides := (has.respectsRanges_iff 200).1 respects
    have base := decides.covered ⟨0, 128, 255, 0xC0000000⟩ (by simp) (by decide)
      ⟨0, 0, 127, 0xE0000000⟩ ⟨[], _, rfl, rfl, by simp⟩
    exact absurd base (by decide)

end Vineyard
