import Vineyard.Mman.Maps
import Vineyard.Mman.Reuse
import Vineyard.Pci.Walk
import Vineyard.Lib.Bytes

/-!
# Configuration space in memory

PCI Express shows the configuration space of each function as a page of memory.  `pci_express_read`
reserves a page of addresses, maps it there, reads eight bytes and takes both steps back.  What it
reads is what `pci_config_read` gets through the ports, and of the memory manager it changes one
thing: page tables that the mapping needed stay, and are seen in the window.
-/

namespace Vineyard

open Bytes

/-! ## The two views -/

/-- The bytes of each function's configuration space. -/
abbrev ConfigSpace := PciFunction → Memory

/-- Where the page of a function lies in the memory-mapped area. -/
def PciFunction.ecamOffset (f : PciFunction) : ℕ :=
  f.bus.toNat <<< 20 ||| f.device.toNat <<< 15 ||| f.function.toNat <<< 12

/-- The memory-mapped area at `base` has the 4096 bytes of every function. -/
def ConfigSpace.InMemory (config : ConfigSpace) (mmio : ℕ → ℕ) (base : ℕ) : Prop :=
  ∀ f : PciFunction, f.device < 32 → f.function < 8 → ∀ offset < 0x1000,
    mmio (base + f.ecamOffset + offset) % 0x100 = (config f offset).toNat

/-- The function that configuration mechanism #1 selects for an address. -/
def PciFunction.selected (addr : UInt32) : PciFunction :=
  ⟨(addr >>> 16).toUInt8, (addr >>> 11 &&& 0x1F).toUInt8, (addr >>> 8 &&& 7).toUInt8⟩

/-- With the enable bit set and the reserved bits clear, the data port gives the selected dword. -/
def ConfigSpace.AtPorts (config : ConfigSpace) (space : PciSpace) : Prop :=
  ∀ addr : UInt32, addr.toNat / 2 ^ 24 = 0x80 →
    (space addr).toNat = load (config (.selected addr)) (addr.toNat % 0x100 / 4 * 4) 4

theorem PciFunction.ecamOffset_eq {f : PciFunction} (device : f.device < 32)
    (function : f.function < 8) :
    f.ecamOffset = f.bus.toNat * 2 ^ 20 + f.device.toNat * 2 ^ 15 + f.function.toNat * 2 ^ 12 := by
  have dlt : f.device.toNat < 32 := device
  have flt : f.function.toNat < 8 := function
  rw [ecamOffset, Nat.shiftLeft_eq, Nat.shiftLeft_eq, Nat.shiftLeft_eq,
    @Words.or_eq_add (f.bus.toNat * 2 ^ 20) _ 20 (by omega) (by omega),
    @Words.or_eq_add _ _ 15 (by omega) (by omega)]

/-- The two encodings: an address made from a function selects it again. -/
theorem PciFunction.selected_pciAddress {f : PciFunction} {offset : UInt32} (device : f.device < 32)
    (function : f.function < 8) (small : offset < 256) :
    selected (pciAddress f.bus.toUInt32 f.device.toUInt32 f.function.toUInt32 offset) = f := by
  have address := @pciAddress_toNat f.bus _ _ _ device function small
  have dlt : f.device.toNat < 32 := device
  have flt : f.function.toNat < 8 := function
  have olt : offset.toNat < 256 := small
  have blt := f.bus.toNat_lt
  have five (x : ℕ) : x &&& 31 = x % 2 ^ 5 := Words.and_low x 5
  have three (x : ℕ) : x &&& 7 = x % 2 ^ 3 := Words.and_low x 3
  generalize pciAddress f.bus.toUInt32 f.device.toUInt32 f.function.toUInt32 offset = addr at address
  have bus : (selected addr).bus = f.bus := by
    rw [← UInt8.toNat_inj]
    simp [selected, address, Nat.shiftRight_eq_div_pow]
    omega
  have dev : (selected addr).device = f.device := by
    rw [← UInt8.toNat_inj]
    simp [selected, address, Nat.shiftRight_eq_div_pow, five]
    omega
  have func : (selected addr).function = f.function := by
    rw [← UInt8.toNat_inj]
    simp [selected, address, Nat.shiftRight_eq_div_pow, three]
    omega
  show PciFunction.mk (selected addr).bus (selected addr).device (selected addr).function = f
  rw [bus, dev, func]

/-! ## Reading from a mapped page -/

/-- A number that is put together byte by byte, the lowest first. -/
theorem foldlM_load {read : ℕ → Except Fault ℕ} {mem : Memory} {a : ℕ} (n : ℕ)
    (bytes : ∀ i < n, read i = .ok (mem (a + i)).toNat) :
    (List.range n).foldlM (fun data i => do
      let byte ← read i
      return data ||| byte <<< (8 * i)) 0 = .ok (load mem a n) := by
  induction n with
  | zero => rfl
  | succ n ih =>
    have small := load_lt mem a n
    rw [List.range_succ, List.foldlM_append, ih fun i less => bytes i (Nat.lt_succ_of_lt less),
      Fallible.ok_bind]
    rw [List.foldlM_cons, bytes n (Nat.lt_succ_self n), load_add, Fallible.ok_bind]
    have place : load mem a n ||| (mem (a + n)).toNat <<< (8 * n) =
        load mem a n + 256 ^ n * (mem (a + n)).toNat := by
      have power : (256 : ℕ) ^ n = 2 ^ (8 * n) := by rw [Nat.pow_mul]
      rw [power] at small ⊢
      rw [Nat.shiftLeft_eq, Nat.mul_comm, Nat.or_comm, Words.or_eq_add (Nat.mul_mod_right _ _) small,
        Nat.add_comm]
    rw [place]
    rfl

theorem readMmio64_eq {m : Mm} {mmio : ℕ → ℕ} {mem : Memory} {virt page offset : ℕ}
    (mapped : ∀ b, pageNumber b = pageNumber virt → m.translate b = .ok page)
    (aligned : virt % 0x1000 = 0) (bytes : ∀ i < 0x1000, mmio (page + i) % 0x100 = (mem i).toNat)
    (inside : offset ≤ 0xFF8) :
    readMmio64 mmio (virt + offset) m = .ok (load mem offset 8) := by
  refine foldlM_load 8 fun i less => ?_
  have byte := bytes (offset + i) (by omega)
  rw [readMmio, mapped (virt + offset + i) (by simp only [pageNumber]; omega), Fallible.ok_bind,
    show (virt + offset + i) % 0x1000 = offset + i by omega, byte]
  rfl

/-! ## Mapping and unmapping a page -/

/-- A page whose table is there gets another entry. -/
theorem Mm.Ok.map_found {m : Mm} {phys virt t : ℕ} (ok : m.Ok) (outside : OutsideWindow virt)
    (word : virt < 2 ^ 64) (found : m.walk (tablePath virt) = some t) (physWord : phys < 2 ^ 64)
    (flags : ℕ) : ∃ m', mmVirtualMap phys virt 1 flags m = .ok m' ∧ SameTables m m' ∧
      m'.pte virt = phys ||| flags ∧ ∀ b, pageNumber b ≠ pageNumber virt →
        m'.translate b = m.translate b := by
  obtain ⟨same, written, unwritten⟩ := ok.setEntry outside found (phys ||| flags)
  refine ⟨_, ok.self.map_found word found physWord flags, same, written, fun b ne => ?_⟩
  by_cases inside : OutsideWindow b
  · exact Mm.translate_congr (unwritten b inside ne)
  · exact same.translate_window ok.self inside

theorem Mm.pte_congr_pageNumber (m : Mm) {a b : ℕ} (same : pageNumber a = pageNumber b) :
    m.pte a = m.pte b := by
  obtain ⟨path, slot⟩ := pageNumber_eq_iff.1 same
  rw [Mm.pte, Mm.pte, path, slot]

/-- What mapping a page leaves, and what taking it back does: the second call finds the table of the
first one, so it needs no page. -/
theorem Mm.Ok.unmap_page {m : Mm} {page virt : ℕ} (ok : m.Ok) (phys : PhysPage page)
    (outside : OutsideWindow virt) (word : virt < 2 ^ 64)
    (entry : m.pte virt = page ||| (pagePresent ||| pageWrite)) :
    (∀ b, pageNumber b = pageNumber virt → m.translate b = .ok page) ∧
    ∃ m', mmVirtualMap page virt 1 0 m = .ok m' ∧
      (∀ b, pageNumber b = pageNumber virt → m'.translate b = .error (.pageFault b)) ∧
      ∀ b, pageNumber b ≠ pageNumber virt → m'.translate b = m.translate b := by
  have at_ : ∀ b, pageNumber b = pageNumber virt → m.translate b = .ok page := fun b same =>
    Mm.translate_of_pte phys (by decide) (by decide) ((m.pte_congr_pageNumber same).trans entry)
  have absent : page &&& pagePresent = 0 := by
    have aligned := phys.aligned
    rw [show pagePresent = 2 ^ 1 - 1 from rfl, Words.and_low]
    omega
  obtain ⟨t, found⟩ := Mm.walk_of_pte (Mm.translate_eq_ok.1 (at_ virt rfl)).1
  obtain ⟨m', run, _, written, same⟩ :=
    ok.map_found outside word found (phys.bounded.trans (by decide)) 0
  refine ⟨at_, m', run, fun b here => ?_, same⟩
  rw [Mm.translate_eq, m'.pte_congr_pageNumber here, written, Nat.or_zero, if_neg (not_not.2 absent)]

/-- Memory after a page has been mapped and unmapped. -/
structure Unmaps (m m' : Mm) (virt : ℕ) : Prop where
  unmapped : ∀ b, pageNumber b = pageNumber virt → m'.translate b = .error (.pageFault b)
  others : ∀ b, OutsideWindow b → pageNumber b ≠ pageNumber stackAddr →
    pageNumber b ≠ pageNumber virt →
    m'.translate b = m.translate b
  found : m.walk (tablePath virt) ≠ none → ∀ b, pageNumber b ≠ pageNumber virt →
    m'.translate b = m.translate b

/-- The page is mapped in between.  Only when its table is missing can the allocator fail. -/
theorem Mm.Ok.map_unmap {m : Mm} {page virt : ℕ} (ok : m.Ok) (fresh : FreshSupply m)
    (phys : PhysPage page) (args : MapArgs page virt 1) :
    (∃ m₁ m₂, mmVirtualMap page virt 1 (pagePresent ||| pageWrite) m = .ok m₁ ∧
      (∀ b, pageNumber b = pageNumber virt → m₁.translate b = .ok page) ∧
      mmVirtualMap page virt 1 0 m₁ = .ok m₂ ∧ Unmaps m m₂ virt) ∨
    ∃ e, mmVirtualMap page virt 1 (pagePresent ||| pageWrite) m = .error e ∧
      m.walk (tablePath virt) = none ∧ GetFailsWithin 3 m e := by
  have outside : OutsideWindow virt := by simpa using args.outside 0 Nat.one_pos
  cases table : m.walk (tablePath virt) with
  | some t =>
    rcases ok.map_found outside args.start table (phys.bounded.trans (by decide))
      (pagePresent ||| pageWrite)
      with ⟨m₁, run, same, written, kept⟩
    obtain ⟨at_, m₂, run₂, unmapped, kept₂⟩ := same.ok.unmap_page phys outside args.start written
    have all : ∀ b, pageNumber b ≠ pageNumber virt → m₂.translate b = m.translate b := fun b ne =>
      (kept₂ b ne).trans (kept b ne)
    exact .inl ⟨m₁, m₂, run, at_, run₂, unmapped, fun b _ _ ne => all b ne, fun _ => all⟩
  | none =>
    have spec : (∃ m₁ ps, mmVirtualMap page virt 1 (pagePresent ||| pageWrite) m = .ok m₁ ∧
        Maps m m₁ ps page virt 1 (pagePresent ||| pageWrite)) ∨
        ∃ e, mmVirtualMap page virt 1 (pagePresent ||| pageWrite) m = .error e ∧
          GetFailsWithin 3 m e :=
      mmVirtualMapRec_spec ok fresh args (Nat.lt_succ_self 1)
    rcases spec with ⟨m₁, ps, run, maps⟩ | ⟨e, run, fails⟩
    · have entry := maps.mapped 0 Nat.one_pos
      rw [Nat.zero_mul, Nat.add_zero, Nat.add_zero] at entry
      obtain ⟨at_, m₂, run₂, unmapped, kept₂⟩ := maps.ok.unmap_page phys outside args.start entry
      refine .inl ⟨m₁, m₂, run, at_, run₂, unmapped, fun b out stack ne => ?_, fun there => ?_⟩
      · rw [kept₂ b ne]
        refine Mm.translate_congr (maps.other b out stack fun k hk => ?_)
        rwa [Nat.lt_one_iff.1 hk, Nat.zero_mul, Nat.add_zero]
      · exact absurd table there
    · exact .inr ⟨e, run, rfl, fails⟩

/-! ## `pci_express_read` -/

section Read

variable {s : Sys} {vmm : Vmm} {virt base : ℕ} {config : ConfigSpace} {mmio : ℕ → ℕ}
  {space : PciSpace}
  {f : PciFunction} {offset data : ℕ}

theorem mmVirtualAlloc_page {rs : List Region} (holds : s.vmm.Holds rs) (paged : Paged rs)
    (alloc : mmVirtualAlloc 1 s.vmm = .ok (virt, vmm)) (found : virt ≠ 0) :
    virt % 0x1000 = 0 ∧ virt + 0x1000 ≤ 2 ^ 64 := by
  rcases mmVirtualAlloc_cases holds paged (by decide) alloc with ⟨zero, _⟩ | ⟨_, rs', fit, _⟩
  · exact absurd zero found
  have paged' := paged.firstFit fit (by decide) (by decide)
  obtain ⟨l, r, k, _, rfl, rfl, len, _⟩ := fit.node
  have stop := paged'.words r (by simp)
  rw [len] at stop
  exact ⟨paged'.start_aligned r (by simp), stop⟩

/-- As long as only what was allocated is freed, the page lies outside the window. -/
theorem LedgerRun.alloc_outside {kernelSize : ℕ} {L : List (ℕ × ℕ)} (pos : 0 < pageUp kernelSize)
    (small : pageUp kernelSize < 0x80000000) (run : LedgerRun kernelSize L s.vmm)
    (alloc : mmVirtualAlloc 1 s.vmm = .ok (virt, vmm)) (found : virt ≠ 0) : OutsideWindow virt := by
  obtain ⟨rs, holds, ledger⟩ := run.ledger pos small
  obtain ⟨_, _, region, _⟩ := ledger.alloc holds (by decide) alloc found
  have managed := (region.first rfl).1
  rw [Nat.zero_mul, Nat.add_zero] at managed
  exact managed.outside

/-- The value is the number in the eight bytes at the offset, and the legacy access gives its low
half. -/
structure AgreesWithPorts (config : ConfigSpace) (space : PciSpace) (f : PciFunction)
  (offset data : ℕ) :
    Prop where
  bytes : data = load (config f) offset 8
  low : offset % 4 = 0 → offset ≤ 252 → ∀ t,
    (pciConfigRead space f.bus.toUInt32 f.device.toUInt32 f.function.toUInt32
      (UInt32.ofNat offset)).run t =
      (.ok (UInt32.ofNat (data % 2 ^ 32)), t)

theorem agreesWithPorts_load (ports : config.AtPorts space) (device : f.device < 32)
    (function : f.function < 8) (offset : ℕ) :
    AgreesWithPorts config space f offset (load (config f) offset 8) := by
  refine ⟨rfl, fun dword low t => ?_⟩
  have value : (UInt32.ofNat offset).toNat = offset := by
    rw [UInt32.toNat_ofNat']
    omega
  have aligned : UInt32.ofNat offset &&& 3 = 0 := by
    rw [← UInt32.toNat_inj, UInt32.toNat_and, value]
    exact (Words.and_low offset 2).trans dword
  have small : UInt32.ofNat offset < 256 := by
    rw [UInt32.lt_iff_toNat_lt, value]
    exact low.trans_lt (by decide)
  have address := @pciAddress_toNat f.bus _ _ _ device function small
  have dlt : f.device.toNat < 32 := device
  have flt : f.function.toNat < 8 := function
  have blt := f.bus.toNat_lt
  have dwordAt := ports
    (pciAddress f.bus.toUInt32 f.device.toUInt32 f.function.toUInt32 (UInt32.ofNat offset))
    (by omega)
  rw [PciFunction.selected_pciAddress device function small, address, value,
    show (2 ^ 31 + f.bus.toNat * 2 ^ 16 + f.device.toNat * 2 ^ 11 + f.function.toNat * 2 ^ 8 +
      offset) % 0x100 / 4 * 4 = offset by omega] at dwordAt
  have half : load (config f) offset 8 % 2 ^ 32 = load (config f) offset 4 := load_mod _ _ 4 4
  rw [pciConfigRead, if_neg (not_not.2 aligned), half, ← dwordAt, UInt32.ofNat_toNat]
  rfl

/-- The regions are as before, and so is memory but for what a temporary mapping leaves. -/
structure Sys.Restored (s s' : Sys) (virt : ℕ) : Prop where
  regions : ∀ flag b, s'.vmm.InNode flag b ↔ s.vmm.InNode flag b
  memory : Unmaps s.mm s'.mm virt

/-- **The two accesses agree**, and the one through memory leaves memory management as it was, but for
the page tables it needed. -/
theorem pciExpressRead_agrees {kernelSize : ℕ} (pos : 0 < pageUp kernelSize)
    (small : pageUp kernelSize < 0x80000000) (regions : VmmRun kernelSize s.vmm) (ok : s.mm.Ok)
    (fresh : FreshSupply s.mm) (alloc : mmVirtualAlloc 1 s.vmm = .ok (virt, vmm)) (found : virt ≠ 0)
    (outside : OutsideWindow virt) (baseAligned : base % 0x1000 = 0) (stop : base + 2 ^ 28 ≤ 2 ^ 52)
    (memory : config.InMemory mmio base) (ports : config.AtPorts space) (device : f.device < 32)
    (function : f.function < 8) (inside : offset ≤ 0xFF8) :
    (∃ data s', pciExpressRead [⟨0, base⟩] mmio 0 f.bus.toNat f.device.toNat f.function.toNat
        offset s = .ok (data, s') ∧
      AgreesWithPorts config space f offset data ∧ s.Restored s' virt) ∨
    ∃ e, pciExpressRead [⟨0, base⟩] mmio 0 f.bus.toNat f.device.toNat f.function.toNat
        offset s = .error e ∧
      s.mm.walk (tablePath virt) = none ∧ GetFailsWithin 3 s.mm e := by
  obtain ⟨rs, holds, paged, flagged⟩ := regions.regions pos small
  obtain ⟨aligned, end_⟩ := mmVirtualAlloc_page holds paged alloc found
  obtain ⟨vmm', free, _⟩ := mmVirtualAlloc_again holds paged (by decide) alloc found
  have place := PciFunction.ecamOffset_eq device function
  have dlt : f.device.toNat < 32 := device
  have flt : f.function.toNat < 8 := function
  have blt := f.bus.toNat_lt
  have page : Word64.add base
    (f.bus.toNat <<< 20 ||| f.device.toNat <<< 15 ||| f.function.toNat <<< 12) =
      base + f.ecamOffset := Word64.add_eq (by rw [← PciFunction.ecamOffset]; omega)
  have phys : PhysPage (base + f.ecamOffset) := ⟨by omega, by omega⟩
  have args : MapArgs (base + f.ecamOffset) virt 1 :=
    ⟨aligned, by omega, by omega, by decide, fun k hk => by omega, fun k hk => by
      rwa [Nat.lt_one_iff.1 hk, Nat.zero_mul, Nat.add_zero]⟩
  simp only [pciExpressRead, List.find?_cons, decide_true, page, alloc, Fallible.ok_bind]
  rcases ok.map_unmap fresh phys args with
    ⟨m₁, m₂, map, mapped, unmap, unmaps⟩ | ⟨e, map, none, fails⟩
  · left
    have read := readMmio64_eq mapped aligned (memory f device function) inside
    refine ⟨load (config f) offset 8, ⟨m₂, vmm'⟩, ?_,
      agreesWithPorts_load ports device function offset,
      allocFree_inNode holds paged flagged (by decide) alloc found free, unmaps⟩
    simp only [map, unmap, free, read, Fallible.ok_bind, if_neg (show ¬ offset > 0x1000 - 8 by omega)]
    rfl
  · right
    exact ⟨e, by simp [map], none, fails⟩

end Read

/-- Functions whose configuration bytes are their offsets -/
def offsetBytes : ConfigSpace := fun _ offset => UInt8.ofNat offset

/-- What the devices then answer, and what the data port gives for an address. -/
def offsetMmio (p : ℕ) : ℕ := p % 0x1000

def offsetPorts : PciSpace := fun addr =>
  UInt32.ofNat (addr.toNat % 0x100 / 4 * 4 * 0x01010101 + 0x03020100)

theorem offsetBytes_inMemory {base : ℕ} (aligned : base % 0x1000 = 0) :
    offsetBytes.InMemory offsetMmio base := by
  intro f device function offset inside
  have place := PciFunction.ecamOffset_eq device function
  rw [offsetMmio, offsetBytes, UInt8.toNat_ofNat']
  omega

theorem offsetBytes_atPorts : offsetBytes.AtPorts offsetPorts := by
  intro addr _
  have le : addr.toNat % 0x100 / 4 * 4 ≤ 252 := by omega
  simp only [offsetPorts, UInt32.toNat_ofNat', load, offsetBytes, UInt8.toNat_ofNat']
  generalize addr.toNat % 0x100 / 4 * 4 = offset at le
  simp (disch := omega) only [Nat.mod_eq_of_lt]
  omega

/-- The BARs of device 3 on bus 0 -/
theorem pciExpressRead_agrees_boot : ∃ vmm data s', LedgerRun 0x200000 [] vmm ∧
    pciExpressRead [⟨0, 0xE0000000⟩] offsetMmio 0 0 3 0 0x10 ⟨bootMm, vmm⟩ = .ok (data, s') ∧
    AgreesWithPorts offsetBytes offsetPorts ⟨0, 3, 0⟩ 0x10 data ∧
    Sys.Restored ⟨bootMm, vmm⟩ s' 0xFFFFFE0000021000 := by
  obtain ⟨vmm, init, regions⟩ := bootVmm_run
  rcases boot_returns (pciExpressRead [⟨0, 0xE0000000⟩] offsetMmio 0 0 3 0 0x10) init
    (by decide +kernel) with
    ⟨⟨data, s'⟩, call⟩
  obtain ⟨vmm', alloc⟩ := boot_page init
  have agrees := pciExpressRead_agrees (s := ⟨bootMm, vmm⟩) (by decide)
    (by decide) regions.vmmRun bootMm_ok
    bootMm_serves.fresh alloc (by decide) (by decide)
      (show 0xE0000000 % 0x1000 = 0 by decide) (by decide)
    (offsetBytes_inMemory (by decide)) offsetBytes_atPorts (f := ⟨0, 3, 0⟩) (by decide) (by decide)
    (show 0x10 ≤ 0xFF8 by decide)
  rcases agrees with ⟨data', s'', call', same, restored⟩ | ⟨e, failed, _⟩
  · obtain ⟨rfl, rfl⟩ := Prod.mk.inj (Except.ok.inj (call.symm.trans call'))
    exact ⟨vmm, data, s', regions, call, same, restored⟩
  · cases call.symm.trans failed

/-- Every page but the temporary one is translated as before. -/
def KeepsTranslations (s s' : Sys) (virt : ℕ) : Prop :=
  ∀ b, pageNumber b ≠ pageNumber virt → s'.mm.translate b = s.mm.translate b

theorem not_keepsTranslations_of {vmm : Vmm} (init : bootVmm = .ok vmm) {m : Mm} {b v : ℕ}
    (after : (bootVmm >>= fun vmm =>
      pciExpressRead [⟨0, 0xE0000000⟩] offsetMmio 0 0 3 0 0x10 ⟨m, vmm⟩ >>=
      fun r => r.2.mm.translate b) = .ok v) (before : m.translate b ≠ .ok v)
    (other : pageNumber b ≠ pageNumber 0xFFFFFE0000021000) :
    ∃ data s', pciExpressRead [⟨0, 0xE0000000⟩] offsetMmio 0 0 3 0 0x10 ⟨m, vmm⟩ = .ok (data, s') ∧
      ¬ KeepsTranslations ⟨m, vmm⟩ s' 0xFFFFFE0000021000 := by
  rw [init, Fallible.ok_bind] at after
  obtain ⟨⟨data, s'⟩, call, after⟩ := Fallible.bind_eq_ok.1 after
  exact ⟨data, s', call, fun keeps => before ((keeps b other).symm.trans after)⟩

/-- After boot the table that holds the entry of the page is new, and appears in the window.  With an
empty stack on top, the page allocator maps another one at `STACK_ADDR` to get it. -/
theorem not_keepsTranslations : offsetBytes.InMemory offsetMmio 0xE0000000 ∧
      offsetBytes.AtPorts offsetPorts ∧
    ∃ vmm vmm', LedgerRun 0x200000 [] vmm ∧ mmVirtualAlloc 1 vmm = .ok (0xFFFFFE0000021000, vmm') ∧
    (bootMm.Ok ∧ FreshSupply bootMm ∧ ∃ data s',
      pciExpressRead [⟨0, 0xE0000000⟩] offsetMmio 0 0 3 0 0x10 ⟨bootMm, vmm⟩ = .ok (data, s') ∧
      ¬ KeepsTranslations ⟨bootMm, vmm⟩ s' 0xFFFFFE0000021000) ∧
    (emptyTopMm.Ok ∧ FreshSupply emptyTopMm ∧ ∃ data s',
      pciExpressRead [⟨0, 0xE0000000⟩] offsetMmio 0 0 3 0 0x10 ⟨emptyTopMm, vmm⟩ = .ok (data, s') ∧
      ¬ KeepsTranslations ⟨emptyTopMm, vmm⟩ s' 0xFFFFFE0000021000) := by
  obtain ⟨vmm, init, regions⟩ := bootVmm_run
  obtain ⟨vmm', alloc⟩ := boot_page init
  refine ⟨offsetBytes_inMemory (by decide), offsetBytes_atPorts, vmm, vmm', regions, alloc,
    ⟨bootMm_ok, bootMm_serves.fresh, ?_⟩,
    ⟨.of_tablesIn (by decide) emptyTopMm_tables (by decide), emptyTopMm_serves.fresh, ?_⟩⟩
  · exact not_keepsTranslations_of init (b := (mmVirtualIndices 0xFFFFFE0000021000).pml1)
      (v := 0x2F9000)
      (by decide +kernel) (by decide +kernel) (by decide)
  · exact not_keepsTranslations_of init (b := stackAddr) (v := 0x5000) (by decide +kernel)
      (by decide +kernel) (by decide)

end Vineyard
