import Vineyard.Nvme.Io
import Vineyard.Stdio.Composition

/-!
# The partition table

`gpt_init` of `fs/gpt/gpt.c` with the checks of `btrfs/check.c` and `fat32/check.c`: the header and its
entries are read from the disk, and a block device is added for the entries up to the first that does
not start anywhere.  A buffer from the heap holds arbitrary bytes until it is read into.  The reads go
over the I/O queues of the controller and can fail.
-/

namespace Vineyard

open Bytes Programs Programs.Prog

/-- The bytes of a string literal. -/
def chars (s : String) : List Byte := s.toList.map ascii

/-- The `n` bytes at `a`. -/
def bytesAt (mem : Memory) (a n : ℕ) : List Byte := (List.range n).map fun i => mem (a + i)

/-! ## `gpt_header_t` -/

def gptSignature (header : Memory) : List Byte := bytesAt header 0 8

def partitionEntriesLba (header : Memory) : ℕ := load header 72 8

def partitionEntriesCount (header : Memory) : ℕ := load header 80 4

def partitionEntrySize (header : Memory) : ℕ := load header 84 4

/-- The offset of `entries[i]`. -/
def entryOffset (i : ℕ) : ℕ := 512 + 128 * i

/-- The type of the partition. -/
def entryGuid (header : Memory) (i : ℕ) : List Byte := bytesAt header (entryOffset i) 16

def startLba (header : Memory) (i : ℕ) : ℕ := load header (entryOffset i + 32) 8

def endLba (header : Memory) (i : ℕ) : ℕ := load header (entryOffset i + 40) 8

/-- `sizeof(gpt_header_t)` -/
def gptHeaderSize : ℕ := 512 + 128 * 128

/-! ## The scan -/

/-- `block_t` -/
structure Block where
  name : List Byte
  deriving DecidableEq

/-- What was printed, the list of block devices, and the I/O queues with the controller. -/
structure Fs where
  console : List Byte
  blockList : List Block
  io : NvmeSystem

abbrev FsM := Prog Fault Fs

def printf (format : String) (args : List VaArg) : FsM Unit :=
  modify fun s => { s with console := s.console ++ delivered (chars format) args }

theorem run_printf (format : String) (args : List VaArg) (s : Fs) :
    ∃ t, (printf format args).run s = (.ok (), t) ∧ t.io = s.io ∧ t.blockList = s.blockList :=
  ⟨_, rfl, rfl, rfl⟩

def asprintf (format : String) (args : List VaArg) : List Byte := delivered (chars format) args

def blockAdd (dev : Block) : FsM Unit :=
  modify fun s => { s with blockList := s.blockList ++ [dev] }

/-- A step on the I/O queues. -/
def onIo {α : Type} (step : NvmeSystem → Except Fault (α × NvmeSystem)) : FsM α := do
  let s ← get
  match step s.io with
  | .ok (a, io) =>
    modify fun s => { s with io := io }
    return a
  | .error fault => fail fault

theorem run_onIo_ok {α : Type} {step : NvmeSystem → Except Fault (α × NvmeSystem)} {s : Fs} {a : α}
    {io : NvmeSystem} (run : step s.io = .ok (a, io)) :
    (onIo step).run s = (.ok a, { s with io := io }) := by
  unfold onIo
  rw [run_bind, run_get]
  dsimp only
  rw [run]
  rfl

theorem run_onIo_error {α : Type} {step : NvmeSystem → Except Fault (α × NvmeSystem)} {s : Fs}
    {fault : Fault} (run : step s.io = .error fault) : (onIo step).run s = (.error fault, s) := by
  unfold onIo
  rw [run_bind, run_get]
  dsimp only
  rw [run]
  rfl

def btrfsCheckPartition (ns : NvmeNs) (d : NvmeDevice) (heap : Memory) (start : ℕ) : FsM Bool := do
  let r ← onIo (nvmeReadIo ns d (Word64.add start (64 * 1024)) 0x1000 heap heap)
  return strncmp (bytesAt r.buf 0x40 8) (chars "_BHRfS_M") 8 = 0

def fat32CheckPartition (ns : NvmeNs) (d : NvmeDevice) (heap : Memory) (start : ℕ) : FsM Bool := do
  let r ← onIo (nvmeReadIo ns d (Word64.add start 512) 512 heap heap)
  return strncmp (bytesAt r.buf 0 4) (chars "RRaA") 4 = 0 ∧
    strncmp (bytesAt r.buf 0x1E4 4) (chars "rrAa") 4 = 0

/-- `entries[i].start_lba << 9` -/
def entryStart (header : Memory) (i : ℕ) : ℕ := startLba header i <<< 9 % 2 ^ 64

/-- `(entries[i].end_lba + 1) << 9` -/
def entryEnd (header : Memory) (i : ℕ) : ℕ := Word64.add (endLba header i) 1 <<< 9 % 2 ^ 64

/-- The name of the block device for `entries[i]`. -/
def blockName (ns : NvmeNs) (i : ℕ) : List Byte :=
  asprintf "nvme%zun%up%zu" [.long (.ofNat 64 ns.num), .int (.ofNat 32 ns.id), .long (.ofNat 64 i)]

/-- What is done for an entry that starts somewhere. -/
def gptPartition (ns : NvmeNs) (d : NvmeDevice) (heap header : Memory) (i : ℕ) : FsM Unit := do
  let start := entryStart header i
  let size := Word64.sub (entryEnd header i) start
  printf "partition %lu, %lu MiB, start %lu, end %lu"
    [.long (.ofNat 64 (i + 1)), .long (.ofNat 64 (size >>> 20)),
      .long (.ofNat 64 (startLba header i)), .long (.ofNat 64 (endLba header i))]
  let btrfs ← btrfsCheckPartition ns d heap start
  if btrfs then printf ", btrfs" []
  else
    let fat32 ← fat32CheckPartition ns d heap start
    if fat32 then printf ", fat32" [] else pure ()
  blockAdd ⟨blockName ns i⟩
  printf "\n" []

/-- The loop over the entries, with `left` of them to go. -/
def gptLoop (ns : NvmeNs) (d : NvmeDevice) (heap header : Memory) : ℕ → ℕ → FsM Unit
  | 0, _ => return ()
  | left + 1, i =>
    if 128 ≤ i then fail (.outOfBounds i)
    else if entryStart header i = 0 then return ()
    else do
      gptPartition ns d heap header i
      gptLoop ns d heap header left (i + 1)

def gptInit (ns : NvmeNs) (d : NvmeDevice) (heap : Memory) : FsM Unit := do
  let r ← onIo (nvmeReadIo ns d 512 gptHeaderSize heap heap)
  if strncmp (chars "EFI PART") (gptSignature r.buf) 8 ≠ 0 then fail (.panic "[GPT]\tno header found")
  else gptLoop ns d heap r.buf (partitionEntriesCount r.buf) 0

end Vineyard
