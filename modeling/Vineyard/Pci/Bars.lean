import Mathlib.Logic.Function.Basic
import Vineyard.Pci.Walk

/-!
# Base address registers

`pci_config_bar` of `pci/config.c` on the two ports of the configuration mechanism.  A write to port
0xCF8 selects a register, port 0xCFC reads and writes it, and each register has bits that a write
changes and bits that it does not.  A memory BAR is such a register, or two of them, whose writable
bits are those from its size on.
-/

namespace Vineyard

open Function Programs Programs.Prog

/-- The address port and the registers behind the data port. -/
structure PciPorts where
  latch : UInt32
  space : PciSpace

/-- The bits of each register that a write changes. -/
abbrev PciWritable := UInt32 → UInt32

abbrev PciPortM := Prog Fault PciPorts

namespace PciPorts

/-- `outl(0xCF8, addr)` -/
def outAddress (addr : UInt32) : PciPortM Unit := modify fun s => { s with latch := addr }

/-- `inl(0xCFC)` -/
def inData : PciPortM UInt32 := do
  let s ← get
  return s.space s.latch

/-- What a register holds after a write. -/
def written (mask old value : UInt32) : UInt32 := (old &&& ~~~mask) ||| (value &&& mask)

/-- `outl(0xCFC, value)` -/
def outData (writable : PciWritable) (value : UInt32) : PciPortM Unit :=
  modify fun s => { s with
    space := update s.space s.latch (written (writable s.latch) (s.space s.latch) value) }

/-- `pci_config_read` -/
def configRead (bus slot func offset : UInt32) : PciPortM UInt32 :=
  let addr := pciAddress bus slot func offset
  if offset &&& 3 ≠ 0 then fail (.assertion "!(offset & 3)")
  else do
    outAddress addr
    inData

/-- `pci_config_write` -/
def configWrite (writable : PciWritable) (bus slot func offset value : UInt32) : PciPortM Unit :=
  let addr := pciAddress bus slot func offset
  if offset &&& 3 ≠ 0 then fail (.assertion "!(offset & 3)")
  else do
    outAddress addr
    outData writable value

end PciPorts

/-- `pci_bar_t` -/
structure PciBar where
  addr : UInt64
  size : UInt64
  deriving DecidableEq

/-- `_BAR` -/
def barOffset (x : ℕ) : UInt32 := (0x10 : UInt32) + UInt32.ofNat (x <<< 2)

open PciPorts

/-- `pci_config_bar`; the source writes to `info` as it goes, and the caller sees it at the end. -/
def pciConfigBar (writable : PciWritable) (bus slot function : UInt32) (bar : UInt8) :
    PciPortM PciBar := do
  let addr := (← configRead bus slot function (barOffset bar.toNat)).toUInt64
  if addr &&& 1 ≠ 0 then fail (.panic "I/O space\n")
  else if addr &&& 4 ≠ 0 then do
    -- 64 bits
    let addr := addr &&& 0xFFFFFFFFFFFFFFF0
    let high ← configRead bus slot function (barOffset (bar.toNat + 1))
    let addr := addr ||| high.toUInt64 <<< 32
    configWrite writable bus slot function (barOffset bar.toNat) 0xFFFFFFFF
    configWrite writable bus slot function (barOffset (bar.toNat + 1)) 0xFFFFFFFF
    let size := (← configRead bus slot function (barOffset bar.toNat)).toUInt64
    let high ← configRead bus slot function (barOffset (bar.toNat + 1))
    let size := size ||| high.toUInt64 <<< 32
    configWrite writable bus slot function (barOffset bar.toNat) (addr &&& 0xFFFFFFFF).toUInt32
    configWrite writable bus slot function (barOffset (bar.toNat + 1))
      ((addr >>> 32).toUInt32 &&& 0xFFFFFFFF)
    return ⟨addr, ~~~(size &&& 0xFFFFFFFFFFFFFFF0) + 1⟩
  else do
    -- 32 bits
    configWrite writable bus slot function (barOffset bar.toNat) 0xFFFFFFFF
    let size ← configRead bus slot function (barOffset bar.toNat)
    configWrite writable bus slot function (barOffset bar.toNat) (addr &&& 0xFFFFFFFF).toUInt32
    return ⟨addr &&& 0xFFFFFFFFFFFFFFF0, (~~~(size &&& 0xFFFFFFF0) + 1).toUInt64 &&& 0xFFFFFFFF⟩

/-! ## The ports -/

section Ports

variable {writable : PciWritable} {bus slot func offset : UInt32}

theorem run_configRead (aligned : offset &&& 3 = 0) (s : PciPorts) :
    (configRead bus slot func offset).run s =
      (.ok (s.space (pciAddress bus slot func offset)),
        ⟨pciAddress bus slot func offset, s.space⟩) := by
  rw [configRead, if_neg (fun h => h aligned)]
  rfl

theorem run_configWrite (aligned : offset &&& 3 = 0) (value : UInt32) (s : PciPorts) :
    (configWrite writable bus slot func offset value).run s =
      (.ok (), ⟨pciAddress bus slot func offset, update s.space (pciAddress bus slot func offset)
        (written (writable (pciAddress bus slot func offset))
          (s.space (pciAddress bus slot func offset)) value)⟩) := by
  rw [configWrite, if_neg (fun h => h aligned)]
  rfl

/-- The ports read the space that the walk over the buses sees. -/
theorem configRead_space (s : PciPorts) (walk : PciWalk) :
    ((configRead bus slot func offset).run s).1 =
      ((pciConfigRead s.space bus slot func offset).run walk).1 := by
  unfold configRead pciConfigRead
  split_ifs <;> rfl

theorem barOffset_toNat (x : ℕ) : (barOffset x).toNat = (0x10 + 4 * x) % 2 ^ 32 := by
  rw [barOffset, UInt32.toNat_add, UInt32.toNat_ofNat', Nat.shiftLeft_eq]
  show (16 + x * 2 ^ 2 % 2 ^ 32) % 2 ^ 32 = _
  omega

theorem barOffset_aligned (x : ℕ) : barOffset x &&& 3 = 0 := by
  apply UInt32.toNat_inj.1
  rw [UInt32.toNat_and, barOffset_toNat]
  refine (Words.and_low _ 2).trans ?_
  show (0x10 + 4 * x) % 2 ^ 32 % 2 ^ 2 = 0
  omega

/-- The lowest byte of a register's address is that of its offset. -/
theorem pciAddress_low (bus slot func offset : UInt32) :
    (pciAddress bus slot func offset).toNat % 2 ^ 8 = offset.toNat % 2 ^ 8 := by
  have shifted (x n : ℕ) (h : 8 ≤ n) : x <<< n % 2 ^ 32 % 2 ^ 8 = 0 := by
    rw [Nat.shiftLeft_eq, Nat.mod_mod_of_dvd _ (Nat.pow_dvd_pow 2 (by decide))]
    exact Nat.mod_eq_zero_of_dvd ((Nat.pow_dvd_pow 2 h).mul_left x)
  unfold pciAddress
  simp only [UInt32.toNat_or, UInt32.toNat_shiftLeft, Nat.or_mod_two_pow]
  rw [shifted _ _ (by decide), shifted _ _ (by decide), shifted _ _ (by decide),
    shifted _ _ (by decide)]
  simp

/-- The two registers of a wide BAR have different addresses. -/
theorem barAddress_ne (x : ℕ) (bus slot func : UInt32) :
    pciAddress bus slot func (barOffset x) ≠ pciAddress bus slot func (barOffset (x + 1)) := by
  intro same
  have low := congrArg (fun a : UInt32 => a.toNat % 2 ^ 8) same
  simp only [pciAddress_low, barOffset_toNat] at low
  omega

end Ports

/-! ## Memory BARs -/

/-- A memory BAR of `2 ^ k` bytes at `base`; `kind` are the type and prefetch bits. -/
structure MemoryBar where
  /-- It spans two registers. -/
  wide : Bool
  k : ℕ
  base : UInt64
  kind : UInt32
  four_le : 4 ≤ k
  le : k ≤ if wide then 63 else 31
  aligned : base.toNat % 2 ^ k = 0
  narrow : wide = false → base.toNat < 2 ^ 32
  kind_lt : kind.toNat < 16
  memory : kind &&& 1 = 0
  width : kind &&& 4 ≠ 0 ↔ wide = true

namespace MemoryBar

/-- The bits from the size on. -/
def mask (b : MemoryBar) : UInt64 := UInt64.ofNat (2 ^ 64 - 2 ^ b.k)

/-- The registers `reg` and, if it is wide, `next` are the BAR. -/
structure At (b : MemoryBar) (writable : PciWritable) (space : PciSpace) (reg next : UInt32) :
    Prop where
  low : space reg = b.base.toUInt32 ||| b.kind
  low_writable : writable reg = b.mask.toUInt32
  high : b.wide = true → space next = (b.base >>> 32).toUInt32
  high_writable : b.wide = true → writable next = (b.mask >>> 32).toUInt32

end MemoryBar

theorem uint32_and_ones (x : UInt32) : x &&& 0xFFFFFFFF = x := UInt32.and_neg_one

theorem uint32_or_and (x y z : UInt32) : (x ||| y) &&& z = x &&& z ||| y &&& z :=
  UInt32.toNat_inj.1 (by simp only [UInt32.toNat_and, UInt32.toNat_or, Nat.and_or_distrib_right])

section Words

variable {m v kind : UInt32}

/-- All ones show which bits are writable. -/
theorem written_ones (inside : v &&& m = v) (fixed : kind &&& m = 0) :
    written m (v ||| kind) 0xFFFFFFFF = m ||| kind := by
  apply UInt32.toBitVec_inj.1
  apply BitVec.eq_of_getLsbD_eq
  intro i hi
  have inside := congrArg (fun x => x.toBitVec.getLsbD i) inside
  have fixed := congrArg (fun x => x.toBitVec.getLsbD i) fixed
  have ones : (4294967295#32)[i] = true := by
    rw [show 4294967295#32 = BitVec.allOnes 32 from rfl, BitVec.getElem_allOnes]
  simp [written, hi, ones] at inside fixed ⊢
  cases hm : m.toBitVec[i] <;> simp_all

/-- What is written back replaces the writable bits. -/
theorem written_back {x : UInt32} (inside : x &&& m = v) (fixed : kind &&& m = 0) :
    written m (m ||| kind) x = v ||| kind := by
  rw [← inside]
  apply UInt32.toBitVec_inj.1
  apply BitVec.eq_of_getLsbD_eq
  intro i hi
  have fixed := congrArg (fun x => x.toBitVec.getLsbD i) fixed
  simp [written, hi] at fixed ⊢
  cases hm : m.toBitVec[i] <;> simp_all

end Words

/-- A 64-bit word is put together from its halves, without the bits that were added to the low one. -/
theorem halves {x : UInt64} (low : x.toNat % 16 = 0) {kind : UInt32} (small : kind.toNat < 16) :
    ((x.toUInt32 ||| kind).toUInt64 &&& (0xFFFFFFFFFFFFFFF0 : UInt64)) |||
      ((x >>> 32).toUInt32.toUInt64 <<< (32 : UInt64)) = x := by
  have lt := x.toNat_lt
  apply UInt64.toNat_inj.1
  have mask (y : ℕ) : y &&& 0xFFFFFFFFFFFFFFF0 = y % 2 ^ 64 / 2 ^ 4 * 2 ^ 4 :=
    Words.and_field y 4 64 (by decide)
  simp only [UInt64.toNat_or, UInt64.toNat_and, UInt32.toNat_toUInt64, UInt32.toNat_or,
    UInt64.toNat_toUInt32, UInt64.toNat_shiftLeft, UInt64.toNat_shiftRight, UInt64.reduceToNat, mask,
    Nat.shiftRight_eq_div_pow, Nat.shiftLeft_eq, Nat.reduceMod, Nat.reducePow]
  rw [@Words.or_eq_add (x.toNat % 4294967296) _ 4 (by omega) small, Nat.or_comm,
    @Words.or_eq_add _ _ 32 (by omega) (by omega)]
  omega

namespace MemoryBar

variable (b : MemoryBar)

theorem k_lt : b.k < 64 := by
  have := b.le
  split at this <;> omega

theorem mask_toNat : b.mask.toNat = 2 ^ 64 - 2 ^ b.k := by
  have pos := Nat.two_pow_pos b.k
  rw [mask, UInt64.toNat_ofNat', Nat.mod_eq_of_lt (by omega)]

/-- The bits from the size on make up every multiple of the size. -/
theorem base_and_mask : b.base &&& b.mask = b.base := by
  apply UInt64.toNat_inj.1
  have lt := b.base.toNat_lt
  have whole := Nat.div_mul_cancel (Nat.dvd_of_mod_eq_zero b.aligned)
  rw [UInt64.toNat_and, mask_toNat, Words.and_field _ _ _ b.k_lt.le, Nat.mod_eq_of_lt lt, whole]

theorem mod_16 {x : ℕ} (h : x % 2 ^ b.k = 0) : x % 16 = 0 :=
  Nat.mod_eq_zero_of_dvd ((Nat.pow_dvd_pow 2 b.four_le).trans (Nat.dvd_of_mod_eq_zero h))

theorem base_low : b.base.toNat % 16 = 0 := b.mod_16 b.aligned

theorem mask_low : b.mask.toNat % 16 = 0 := by
  have dvd : 2 ^ b.k ∣ 2 ^ 64 - 2 ^ b.k := Nat.dvd_sub (Nat.pow_dvd_pow 2 b.k_lt.le) (dvd_refl _)
  rw [mask_toNat]
  exact b.mod_16 (Nat.mod_eq_zero_of_dvd dvd)

theorem kind_and_mask : b.kind &&& b.mask.toUInt32 = 0 := by
  apply UInt32.toNat_inj.1
  have low := b.mask_low
  have small : b.kind.toNat &&& 0xF = b.kind.toNat :=
    (Words.and_low _ 4).trans (Nat.mod_eq_of_lt b.kind_lt)
  have apart : 0xF &&& b.mask.toNat % 2 ^ 32 = 0 := by
    rw [Nat.and_comm]
    refine (Words.and_low _ 4).trans ?_
    omega
  rw [UInt32.toNat_and, UInt64.toNat_toUInt32]
  exact Words.and_eq_zero_of_inside small apart

theorem low_and_mask : b.base.toUInt32 &&& b.mask.toUInt32 = b.base.toUInt32 := by
  rw [← UInt64.toUInt32_and, b.base_and_mask]

theorem high_and_mask :
    (b.base >>> 32).toUInt32 &&& (b.mask >>> 32).toUInt32 = (b.base >>> 32).toUInt32 := by
  rw [← UInt64.toUInt32_and, ← UInt64.shiftRight_and, b.base_and_mask]

/-- The type bits lie below the address. -/
theorem low_toNat : (b.base.toUInt32 ||| b.kind).toNat = b.base.toNat % 2 ^ 32 + b.kind.toNat := by
  have low := b.base_low
  rw [UInt32.toNat_or, UInt64.toNat_toUInt32]
  exact @Words.or_eq_add _ _ 4 (by omega) b.kind_lt

theorem low_memory : (b.base.toUInt32 ||| b.kind).toUInt64 &&& 1 = 0 := by
  have low := b.base_low
  have memory : b.kind.toNat % 2 = 0 :=
    (Words.and_low _ 1).symm.trans (congrArg UInt32.toNat b.memory)
  apply UInt64.toNat_inj.1
  rw [UInt64.toNat_and, UInt32.toNat_toUInt64, low_toNat]
  refine (Words.and_low _ 1).trans ?_
  show (b.base.toNat % 2 ^ 32 + b.kind.toNat) % 2 ^ 1 = 0
  omega

theorem low_width : (b.base.toUInt32 ||| b.kind).toUInt64 &&& 4 ≠ 0 ↔ b.wide = true := by
  have low := b.base_low
  have field (x : ℕ) : x &&& 4 = x % 2 ^ 3 / 2 ^ 2 * 2 ^ 2 := Words.and_field x 2 3 (by decide)
  have both : (b.base.toUInt32 ||| b.kind).toNat &&& 4 = b.kind.toNat &&& 4 := by
    rw [field, field, low_toNat]
    omega
  rw [← b.width, ne_eq, ne_eq, ← UInt64.toNat_inj, ← UInt32.toNat_inj]
  refine not_congr ?_
  rw [UInt64.toNat_and, UInt32.toNat_and, UInt32.toNat_toUInt64]
  exact iff_of_eq (congrArg (· = 0) both)

/-- Two's complement of the mask is the size. -/
theorem neg_mask : (~~~b.mask + 1).toNat = 2 ^ b.k := by
  have k := b.k_lt
  have lt : 2 ^ b.k < 2 ^ 64 := Nat.pow_lt_pow_right (by decide) k
  have pos := Nat.two_pow_pos b.k
  rw [UInt64.toNat_add, UInt64.toNat_not, mask_toNat]
  show (2 ^ 64 - 1 - (2 ^ 64 - 2 ^ b.k) + 1) % 2 ^ 64 = 2 ^ b.k
  omega

theorem neg_mask_narrow (narrow : b.wide = false) :
    ((~~~b.mask.toUInt32 + 1).toUInt64 &&& 0xFFFFFFFF).toNat = 2 ^ b.k := by
  have le := b.le
  rw [narrow, if_neg (by decide)] at le
  have le : 2 ^ b.k ≤ 2 ^ 31 := Nat.pow_le_pow_right (by decide) le
  have pos := Nat.two_pow_pos b.k
  rw [UInt64.toNat_and, UInt32.toNat_toUInt64, UInt32.toNat_add, UInt32.toNat_not,
    UInt64.toNat_toUInt32, mask_toNat]
  refine (Words.and_low _ 32).trans ?_
  show (2 ^ 32 - 1 - (2 ^ 64 - 2 ^ b.k) % 2 ^ 32 + 1) % 2 ^ 32 % 2 ^ 32 = 2 ^ b.k
  omega

/-- The size is put together before the type bits are cut off, the address after that. -/
theorem mask_halves :
    ((b.mask.toUInt32 ||| b.kind).toUInt64 ||| (b.mask >>> 32).toUInt32.toUInt64 <<< (32 :
      UInt64)) &&&
      (0xFFFFFFFFFFFFFFF0 : UInt64) = b.mask := by
  have high (x : UInt32) : x.toUInt64 <<< (32 : UInt64) &&& (0xFFFFFFFFFFFFFFF0 : UInt64) =
      x.toUInt64 <<< (32 : UInt64) := by
    apply UInt64.toNat_inj.1
    rw [UInt64.toNat_and, UInt64.toNat_shiftLeft, Nat.shiftLeft_eq]
    refine (Words.and_field _ 4 64 (by decide)).trans ?_
    show x.toUInt64.toNat * 2 ^ 32 % 2 ^ 64 % 2 ^ 64 / 2 ^ 4 * 2 ^ 4 =
      x.toUInt64.toNat * 2 ^ 32 % 2 ^ 64
    omega
  have distrib (x y z : UInt64) : (x ||| y) &&& z = x &&& z ||| y &&& z :=
    UInt64.toNat_inj.1 (by simp only [UInt64.toNat_and, UInt64.toNat_or, Nat.and_or_distrib_right])
  rw [distrib, high]
  exact halves b.mask_low b.kind_lt

/-- The type bits of a narrow BAR are cut off. -/
theorem base_narrow (narrow : b.wide = false) :
    (b.base.toUInt32 ||| b.kind).toUInt64 &&& 0xFFFFFFFFFFFFFFF0 = b.base := by
  have low := b.base_low
  have small := b.narrow narrow
  have kind := b.kind_lt
  apply UInt64.toNat_inj.1
  rw [UInt64.toNat_and, UInt32.toNat_toUInt64, low_toNat]
  refine (Words.and_field _ 4 64 (by decide)).trans ?_
  omega

theorem mask_narrow : (b.mask.toUInt32 ||| b.kind) &&& 0xFFFFFFF0 = b.mask.toUInt32 := by
  have low := b.mask_low
  have kind := b.kind_lt
  apply UInt32.toNat_inj.1
  rw [UInt32.toNat_and, UInt32.toNat_or, UInt64.toNat_toUInt32,
    @Words.or_eq_add _ _ 4 (by omega) kind]
  refine (Words.and_field _ 4 32 (by decide)).trans ?_
  omega

end MemoryBar

/-- A register that is written and then written back. -/
theorem restored (space : PciSpace) {reg v w : UInt32} (same : w = space reg) :
    update (update space reg v) reg w = space := by
  rw [update_idem, same, update_eq_self]

section Probe

variable {b : MemoryBar} {writable : PciWritable} {space : PciSpace} {bus slot function : UInt32}
  {bar : UInt8} (here : b.At writable space
    (pciAddress bus slot function (barOffset bar.toNat))
    (pciAddress bus slot function (barOffset (bar.toNat + 1))))

include here

theorem pciConfigBar_wide (wide : b.wide = true) (latch : UInt32) :
    (pciConfigBar writable bus slot function bar).run ⟨latch, space⟩ =
      (.ok ⟨b.base, ~~~b.mask + 1⟩,
        ⟨pciAddress bus slot function (barOffset (bar.toNat + 1)), space⟩) := by
  have first := barOffset_aligned bar.toNat
  have second := barOffset_aligned (bar.toNat + 1)
  have ne := barAddress_ne bar.toNat bus slot function
  have high := here.high wide
  have highMask := here.high_writable wide
  have highOnes : written (b.mask >>> 32).toUInt32 (b.base >>> 32).toUInt32 0xFFFFFFFF =
      (b.mask >>> 32).toUInt32 := by
    simpa using @written_ones _ _ 0 b.high_and_mask UInt32.zero_and
  have highBack : written (b.mask >>> 32).toUInt32 (b.mask >>> 32).toUInt32
      ((b.base >>> 32).toUInt32 &&& 0xFFFFFFFF) = (b.base >>> 32).toUInt32 := by
    rw [uint32_and_ones]
    simpa using @written_back _ _ 0 _ b.high_and_mask UInt32.zero_and
  have lowBack : written b.mask.toUInt32 (b.mask.toUInt32 ||| b.kind)
      (b.base &&& 0xFFFFFFFF).toUInt32 = b.base.toUInt32 ||| b.kind := by
    rw [UInt64.toUInt32_and]
    exact written_back ((congrArg (· &&& _) (uint32_and_ones _)).trans b.low_and_mask)
      b.kind_and_mask
  unfold pciConfigBar
  -- the address
  rw [run_bind_of_ok (run_configRead first _)]
  dsimp only
  rw [here.low, if_neg (not_not.2 b.low_memory), if_pos (b.low_width.2 wide),
    run_bind_of_ok (run_configRead second _)]
  dsimp only
  -- all ones
  rw [high, halves b.base_low b.kind_lt, run_bind_of_ok (run_configWrite first _ _)]
  dsimp only
  rw [here.low, here.low_writable, written_ones b.low_and_mask b.kind_and_mask,
    run_bind_of_ok (run_configWrite second _ _)]
  dsimp only
  -- the size
  rw [highMask, update_of_ne ne.symm, high, highOnes, run_bind_of_ok (run_configRead first _)]
  dsimp only
  rw [update_of_ne ne, update_self, run_bind_of_ok (run_configRead second _)]
  dsimp only
  -- both registers as before
  rw [update_self, b.mask_halves, run_bind_of_ok (run_configWrite first _ _)]
  dsimp only
  rw [update_of_ne ne, update_self, here.low_writable, lowBack, update_comm ne.symm,
    restored space here.low.symm, run_bind_of_ok (run_configWrite second _ _)]
  dsimp only
  rw [update_self, highMask, highBack, restored space high.symm]
  rfl

theorem pciConfigBar_narrow (narrow : b.wide = false) (latch : UInt32) :
    (pciConfigBar writable bus slot function bar).run ⟨latch, space⟩ =
      (.ok ⟨b.base, (~~~b.mask.toUInt32 + 1).toUInt64 &&& 0xFFFFFFFF⟩,
        ⟨pciAddress bus slot function (barOffset bar.toNat), space⟩) := by
  have aligned := barOffset_aligned bar.toNat
  have inside : (b.base.toUInt32 ||| b.kind) &&& b.mask.toUInt32 = b.base.toUInt32 := by
    rw [uint32_or_and, b.low_and_mask, b.kind_and_mask, UInt32.or_zero]
  have back : written b.mask.toUInt32 (b.mask.toUInt32 ||| b.kind)
      ((b.base.toUInt32 ||| b.kind).toUInt64 &&& 0xFFFFFFFF).toUInt32 =
        b.base.toUInt32 ||| b.kind := by
    rw [UInt64.toUInt32_and, UInt32.toUInt32_toUInt64]
    exact written_back ((congrArg (· &&& _) (uint32_and_ones _)).trans inside) b.kind_and_mask
  have notWide : ¬ (b.base.toUInt32 ||| b.kind).toUInt64 &&& 4 ≠ 0 := by
    rw [b.low_width, narrow]
    decide
  unfold pciConfigBar
  rw [run_bind_of_ok (run_configRead aligned _)]
  dsimp only
  rw [here.low, if_neg (not_not.2 b.low_memory), if_neg notWide,
    run_bind_of_ok (run_configWrite aligned _ _)]
  dsimp only
  rw [here.low, here.low_writable, written_ones b.low_and_mask b.kind_and_mask,
    run_bind_of_ok (run_configRead aligned _)]
  dsimp only
  rw [update_self, b.mask_narrow, b.base_narrow narrow,
    run_bind_of_ok (run_configWrite aligned _ _), here.low_writable]
  dsimp only
  rw [update_self, run_pure, back, restored space here.low.symm]

end Probe

/-- **Probing a memory BAR** finds its address and its size and leaves all registers as they were. -/
theorem pciConfigBar_exact {b : MemoryBar} {writable : PciWritable} {space : PciSpace}
    {bus slot function : UInt32} {bar : UInt8}
    (here : b.At writable space (pciAddress bus slot function (barOffset bar.toNat))
      (pciAddress bus slot function (barOffset (bar.toNat + 1))))
    (latch : UInt32) :
    ∃ info latch', (pciConfigBar writable bus slot function bar).run ⟨latch, space⟩ =
        (.ok info, ⟨latch', space⟩) ∧ info.addr = b.base ∧ info.size.toNat = 2 ^ b.k := by
  cases wide : b.wide with
  | true => exact ⟨_, _, pciConfigBar_wide here wide latch, rfl, b.neg_mask⟩
  | false => exact ⟨_, _, pciConfigBar_narrow here wide latch, rfl, b.neg_mask_narrow wide⟩

/-- 8 GiB at 24 GiB. -/
def largeBar : MemoryBar where
  wide := true
  k := 33
  base := 0x600000000
  kind := 0xC
  four_le := by decide
  le := by decide
  aligned := by decide
  narrow := by decide
  kind_lt := by decide
  memory := by decide
  width := by decide

/-- The registers of a device with that BAR, the first two at offset 0x10; all others are zero. -/
def largeBarSpace : PciSpace :=
  update (update (fun _ => 0) (pciAddress 0 3 0 0x10) 0xC) (pciAddress 0 3 0 0x14) 6

theorem pciConfigBar_exact_large : ∃ info latch,
    (pciConfigBar (update (fun _ => 0) (pciAddress 0 3 0 0x14) 0xFFFFFFFE) 0 3 0 0).run
      ⟨0, largeBarSpace⟩ = (.ok info, ⟨latch, largeBarSpace⟩) ∧
    info.addr = 0x600000000 ∧ info.size.toNat = 2 ^ 33 :=
  pciConfigBar_exact (b := largeBar) ⟨by decide, by decide, by decide, by decide⟩ 0

end Vineyard
