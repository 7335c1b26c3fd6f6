import Vineyard.Lib.Bytes
import Vineyard.Nvme.Controller

/-!
# The geometry of a namespace

What `nvme_ns_probe` makes of the Identify Namespace page.  The page is read through the structs of
`nvme.h`: the C rules lay out `nvme_lba_format_t`, which is not packed and names a byte behind the
fields of the format, in six bytes, where a format of the page has four.
-/

namespace Vineyard

open Bytes Programs Programs.Prog

/-- The next multiple of `alignment`. -/
def padTo (alignment a : ℕ) : ℕ := (a + (alignment - 1)) / alignment * alignment

/-- Where C puts scalar fields of these sizes, from `a` on: each at a multiple of its size. -/
def fieldOffsets (a : ℕ) : List ℕ → List ℕ
  | [] => []
  | size :: rest => padTo size a :: fieldOffsets (padTo size a + size) rest

/-- The end of these fields. -/
def fieldsEnd (a : ℕ) : List ℕ → ℕ
  | [] => a
  | size :: rest => fieldsEnd (padTo size a + size) rest

/-- `sizeof` of a struct of such fields, a multiple of the largest alignment. -/
def structSize (sizes : List ℕ) : ℕ := padTo (sizes.foldl max 1) (fieldsEnd 0 sizes)

/-- The fields of `nvme_lba_format_t`: `metadata_size`, `lba_data_size`, `relative_performance` and
`reserved`. -/
def nvmeLbaFormat : List ℕ := [2, 1, 1, 1]

/-- The fields of `nvme_id_ns_t` in front of `lba_format`, which is packed: `ns_size`, `ns_capacity`,
`ns_utilization`, `ns_features`, `lba_formats`, `formatted_lba_size` and `bytes`. -/
def nvmeIdNs : List ℕ := [8, 8, 8, 1, 1, 1, 101]

/-- The offset of a field of `nvme_id_ns_t`. -/
def nvmeIdNsOffset (field : ℕ) : ℕ := (nvmeIdNs.take field).sum

/-- `info->lba_format[i].lba_data_size` -/
def nvmeLbaDataSize (info : Memory) (i : ℕ) : ℕ :=
  load info
    (nvmeIdNsOffset 7 + structSize nvmeLbaFormat * i + (fieldOffsets 0 nvmeLbaFormat).getD 1 0) 1

/-- `nvme_ns_t`, with the number of the controller. -/
structure NvmeNsInfo where
  controller : ℕ
  id : ℕ
  lbaCount : ℕ
  blockSize : ℕ
  deriving DecidableEq

/-- `nvme_ns_probe` on a page that the controller returned.  A shift by the width of the word or more
is caught by the sanitizer that the kernel is built with. -/
def nvmeNsProbePage (controller namespaces id : ℕ) (info : Memory) : Except Fault NvmeNsInfo :=
  if namespaces ≤ id then .error (.panic "[NVMe]\tinvalid namespace id %u")
  else
    let lbaDataSize := nvmeLbaDataSize info (load info (nvmeIdNsOffset 5) 1 &&& 0x0F)
    if lbaDataSize < 9 then .error (.panic "[NVMe]\tinvalid block size given: 2^%u = %u")
    else if 32 ≤ lbaDataSize then .error (.panic "shift out of bounds\n")
    else .ok
      { controller := controller
        id := id
        lbaCount := load info (nvmeIdNsOffset 1) 8
        blockSize := 1 <<< lbaDataSize }

/-- The index of the format in use. -/
def activeFormat (page : Memory) : ℕ := (page 26).toNat % 16

/-- `LBADS` of the format in use, where the page has it: the formats are four bytes each. -/
def lbads (page : Memory) : ℕ := (page (128 + 4 * activeFormat page + 2)).toNat

variable {controller namespaces id : ℕ} {page : Memory}

theorem load_byte (mem : Memory) (a : ℕ) : load mem a 1 = (mem a).toNat := rfl

theorem nvmeIdNsOffset_formats : nvmeIdNsOffset 7 = 128 := by decide

theorem nvmeLbaFormat_size : structSize nvmeLbaFormat = 6 := by decide

/-- The code reads the formats six bytes apart. -/
theorem nvmeLbaDataSize_eq (page : Memory) (i : ℕ) :
    nvmeLbaDataSize page i = (page (128 + 6 * i + 2)).toNat := by
  rw [nvmeLbaDataSize, nvmeIdNsOffset_formats, nvmeLbaFormat_size, load_byte]
  rfl

theorem activeFormat_eq (page : Memory) :
    load page (nvmeIdNsOffset 5) 1 &&& 0x0F = activeFormat page := by
  exact Words.and_low (page 26).toNat 4

/-- **The geometry is decoded** from the page exactly when the byte read has the value of the
byte of the format in use. -/
theorem nvmeNsProbePage_iff (known : id < namespaces) (low : 9 ≤ lbads page)
    (high : lbads page < 32) :
    nvmeNsProbePage controller namespaces id page =
        .ok ⟨controller, id, load page 8 8, 2 ^ lbads page⟩ ↔
      page (128 + 6 * activeFormat page + 2) = page (128 + 4 * activeFormat page + 2) := by
  rw [nvmeNsProbePage, if_neg (by omega), activeFormat_eq, nvmeLbaDataSize_eq]
  dsimp only
  constructor
  · intro probed
    split at probed
    · cases probed
    · split at probed
      · cases probed
      · have size := congrArg NvmeNsInfo.blockSize (Except.ok.inj probed)
        dsimp only at size
        rw [Nat.one_shiftLeft] at size
        exact UInt8.toNat_inj.1 (Nat.pow_right_injective (Nat.le_refl 2) size)
  · intro same
    rw [same, if_neg (by unfold lbads at low; omega), if_neg (by unfold lbads at high; omega),
      Nat.one_shiftLeft]
    rfl

/-- A page with 512-byte and 4096-byte formats, the second of them in use. -/
def twoFormats (active : UInt8) : Memory := fun a =>
  if a = 26 then active else if a = 130 then 9 else if a = 134 then 12 else 0

theorem nvmeNsProbePage_iff_first :
    nvmeNsProbePage 0 1 0 (twoFormats 0) = .ok ⟨0, 0, 0, 512⟩ :=
  (@nvmeNsProbePage_iff 0 1 0 (twoFormats 0) (by decide) (by decide) (by decide)).2 (by decide)

/-- With the second format in use the byte read is the first of the third format, which is unused. -/
theorem nvmeNsProbePage_second : lbads (twoFormats 1) = 12 ∧
    nvmeNsProbePage 0 1 0 (twoFormats 1) =
      .error (.panic "[NVMe]\tinvalid block size given: 2^%u = %u") ∧
    nvmeNsProbePage 0 1 0 (twoFormats 1) ≠
      .ok ⟨0, 0, load (twoFormats 1) 8 8, 2 ^ lbads (twoFormats 1)⟩ := by
  decide

/-- The driver's probe ends as the decoding of the page does. -/
theorem nvmeNsProbe_run {env : NvmeEnv} {s t : Nvme} (known : id < env.namespaces)
    (byte : env.lbaDataSize = nvmeLbaDataSize page (activeFormat page)) (small : env.lbaDataSize < 32)
    (identified : (nvmeIdentifyNs env id).run s = (.ok (), t)) :
    (nvmeNsProbe env id).run s =
      ((nvmeNsProbePage controller env.namespaces id page).map fun _ => (), t) := by
  have listed : ¬ env.namespaces ≤ id := Nat.not_le.2 known
  rw [nvmeNsProbe, if_neg listed, run_bind_of_ok identified, nvmeNsProbePage, if_neg listed,
    activeFormat_eq]
  dsimp only
  rw [← byte]
  by_cases less : env.lbaDataSize < 9
  · rw [if_pos less, if_pos less]
    rfl
  · rw [if_neg less, if_neg less, if_neg (Nat.not_le.2 small)]
    rfl

end Vineyard
