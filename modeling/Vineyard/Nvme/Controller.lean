import Vineyard.Lib.Programs
import Vineyard.Nvme.Queues

/-!
# The NVMe controller: initialization and commands

`nvme_init` of `nvme.c` with the queue creation of `queues.c`, the identification of `identify.c` and
`ns.c`, and the reads of `rw.c`, over the queue pairs of `Nvme.Queues`.  What the controller decides is
an environment: its capability register, its status register and the completion queues at each
moment, the identification data.  The state keeps every slot of a queue that the driver touches, every
doorbell that it rings and every queue size that it announces, newest first.
-/

namespace Vineyard

open Function Programs Programs.Prog

/-- The two queue pairs of a controller. -/
inductive NvmeQueue where
  | admin
  | io
  deriving DecidableEq

/-- What the driver does to the memory of the queues and to the registers of the controller. -/
inductive NvmeAccess where
  /-- A submission entry is written. -/
  | sqWrite (queue : NvmeQueue) (slot : ℕ)
  /-- A completion entry is read. -/
  | cqRead (queue : NvmeQueue) (slot : ℕ)
  | doorbell (address : ℕ)
  /-- The controller is told of a queue with that many entries of that many bytes. -/
  | announce (entries entrySize : ℕ)
  deriving DecidableEq

/-- The controller and the heap as the driver sees them; a moment passes with each look at them. -/
structure NvmeEnv where
  /-- The register `cap`. -/
  cap : ℕ
  /-- The register `csts` at each moment. -/
  csts : ℕ → ℕ
  /-- The memory of the completion queues at each moment. -/
  completions : ℕ → NvmeQueue → ℕ → NvmeCqEntry
  /-- The physical address of the buffer allocated at each moment. -/
  phys : ℕ → ℕ
  /-- `namespaces` of the identification of the controller. -/
  namespaces : ℕ
  /-- `lba_data_size` of the format of the first namespace. -/
  lbaDataSize : ℕ

/-- `nvme_t`, with the passing of time and the accesses so far. -/
structure Nvme where
  base : ℕ
  doorbellStride : ℕ
  sq : NvmeQueue → NvmeSq
  time : ℕ
  accesses : List NvmeAccess

/-- The driver's programs. -/
abbrev NvmeM := Prog Fault Nvme

/-- `NVME_CAP_DSTRD` -/
def nvmeCapDstrd (cap : ℕ) : ℕ := cap >>> 32 &&& 0x0F

/-- `NVME_CAP_TO` -/
def nvmeCapTo (cap : ℕ) : ℕ := cap >>> 24 &&& 0xFF

/-- `sizeof(nvme_cq_entry_t)` -/
def cqEntrySize : ℕ := 16

/-- `sizeof(nvme_sq_entry_t)` -/
def sqEntrySize : ℕ := 64

/-- Notes an access. -/
def Nvme.note (a : NvmeAccess) (s : Nvme) : Nvme := { s with accesses := a :: s.accesses }

/-- Replaces a queue pair. -/
def Nvme.setSq (q : NvmeQueue) (sq : NvmeSq) (s : Nvme) : Nvme := { s with sq := update s.sq q sq }

/-- A moment passes, and the completion queue holds what the controller put there. -/
def Nvme.look (env : NvmeEnv) (q : NvmeQueue) (s : Nvme) : Nvme :=
  { s.setSq q { s.sq q with cq.entry := env.completions s.time q } with time := s.time + 1 }

/-- The buffer that `memalign` returns, by its physical address. -/
def nvmeBuffer (env : NvmeEnv) : NvmeM ℕ := do
  let s ← get
  modify fun s => { s with time := s.time + 1 }
  return env.phys s.time

/-- The loop of `nvme_wait_csts_rdy`, with `left` of its iterations to go. -/
def nvmeWaitCstsRdyLoop (env : NvmeEnv) (rdy : ℕ) : ℕ → NvmeM Unit
  | 0 => fail (.panic "[NVMe]\tCSTS.RDY != %u after timeout")
  | left + 1 => do
    let s ← get
    modify fun s => { s with time := s.time + 1 }
    if env.csts s.time &&& 1 = rdy then return ()
    else nvmeWaitCstsRdyLoop env rdy left

def nvmeWaitCstsRdy (env : NvmeEnv) (rdy : ℕ) : NvmeM Unit :=
  nvmeWaitCstsRdyLoop env rdy (nvmeCapTo env.cap)

/-- `nvme_poll_cq`, which reads the entry at the head. -/
def nvmePoll (env : NvmeEnv) (q : NvmeQueue) : NvmeM Bool := do
  modify fun s => (s.look env q).note (.cqRead q (s.sq q).cq.head)
  let s ← get
  return nvmePollCq (s.sq q).cq

/-- `nvme_command_cqe`, which polls once more, reads the entry and rings the doorbell. -/
def nvmeCqe (env : NvmeEnv) (q : NvmeQueue) : NvmeM NvmeCqEntry := do
  let _ ← nvmePoll env q
  let s ← get
  match nvmeCommandCqe (s.sq q) with
  | .error fault => fail fault
  | .ok (cqe, sq) =>
    modify fun s => ((s.note (.cqRead q (s.sq q).cq.head)).setSq q sq).note
      (.doorbell sq.cq.doorbell.address)
    return cqe

/-- The loop of `nvme_wait`, with `left` of its 500 polls to go. -/
def nvmeAwaitLoop (env : NvmeEnv) (q : NvmeQueue) : ℕ → NvmeM NvmeCqEntry
  | 0 => fail (.panic "[NVMe]\ttimed out waiting for command")
  | left + 1 => do
    let ready ← nvmePoll env q
    if ready then nvmeCqe env q
    else nvmeAwaitLoop env q left

/-- `nvme_wait` -/
def nvmeAwait (env : NvmeEnv) (q : NvmeQueue) : NvmeM NvmeCqEntry := nvmeAwaitLoop env q 500

/-- What a caller of `nvme_command_create` passes and then fills in. -/
structure NvmeOp where
  opcode : ℕ
  metadata : ℕ
  data : ℕ
  nsId : ℕ
  dword10 : ℕ
  dword11 : ℕ
  dword12 : ℕ

/-- `nvme_command_create`, the further fields, and `nvme_command_submit`. -/
def nvmeIssue (q : NvmeQueue) (op : NvmeOp) : NvmeM Unit := do
  let s ← get
  match nvmeCommandCreate op.opcode op.metadata op.data (s.sq q) with
  | .error fault => fail fault
  | .ok (slot, sq) =>
    let sqe := { sq.entry slot with
      nsId := op.nsId, dword10 := op.dword10, dword11 := op.dword11, dword12 := op.dword12 }
    let sq := nvmeCommandSubmit { sq with entry := update sq.entry slot sqe }
    modify fun s => ((s.note (.sqWrite q slot)).setSq q sq).note (.doorbell sq.doorbell.address)

/-- A command is issued and waited for; a status other than zero ends the driver with `message`. -/
def nvmeExecute (env : NvmeEnv) (q : NvmeQueue) (message : String) (op : NvmeOp) : NvmeM Unit := do
  nvmeIssue q op
  let cqe ← nvmeAwait env q
  if cqe.status >>> 1 ≠ 0 then fail (.panic message) else return ()

def nvmeIdentifyController (env : NvmeEnv) : NvmeM Unit := do
  let id ← nvmeBuffer env
  nvmeExecute env .admin "[NVMe]\tcontroller id failed with status %x\n" ⟨6, 0, id, 0, 1, 0, 0⟩

def nvmeIdentifyNs (env : NvmeEnv) (nsId : ℕ) : NvmeM Unit := do
  let id ← nvmeBuffer env
  nvmeExecute env .admin "[NVMe]\tns id failed with status %x\n" ⟨6, 0, id, nsId + 1, 0, 0, 0⟩

def nvmeNsProbe (env : NvmeEnv) (id : ℕ) : NvmeM Unit :=
  if env.namespaces ≤ id then fail (.panic "[NVMe]\tinvalid namespace id %u")
  else do
    nvmeIdentifyNs env id
    if env.lbaDataSize < 9 then fail (.panic "[NVMe]\tinvalid block size given: 2^%u = %u")
    else return ()

/-- The length of an I/O queue: what the controller allows, cut to what the constant allows. -/
def nvmeIoLength (cap entrySize : ℕ) : ℕ :=
  let length := 1 + (cap &&& 0xFFFF)
  if length > 0x1000 / entrySize then 0x1000 / entrySize else length

/-- The word `dword[10]` of a queue creation. -/
def queueWord (mask index : ℕ) : ℕ := mask <<< 16 % 2 ^ 32 ||| index >>> 1

def nvmeIoCqInit (env : NvmeEnv) (index : ℕ) : NvmeM Unit := do
  let s ← get
  match nvmeCqInit s.base s.doorbellStride index (nvmeIoLength env.cap cqEntrySize) with
  | .error fault => fail fault
  | .ok cq =>
    let dword10 := queueWord cq.mask index
    modify fun s => (s.setSq .io { s.sq .io with cq := cq }).note
      (.announce (dword10 / 2 ^ 16 + 1) cqEntrySize)
    let data ← nvmeBuffer env
    nvmeExecute env .admin "[NVMe]\tcreating I/O cq returned %u" ⟨5, 0, data, 0, dword10, 1, 0⟩

/-- The length is cut by the size of a completion entry here too. -/
def nvmeIoSqInit (env : NvmeEnv) (index : ℕ) : NvmeM Unit := do
  let s ← get
  match nvmeSqInit s.base s.doorbellStride index (nvmeIoLength env.cap cqEntrySize)
      (s.sq .io).cq with
  | .error fault => fail fault
  | .ok sq =>
    let dword10 := queueWord sq.mask index
    modify fun s => (s.setSq .io sq).note (.announce (dword10 / 2 ^ 16 + 1) sqEntrySize)
    let data ← nvmeBuffer env
    nvmeExecute env .admin "[NVMe]\tcreating I/O cq returned %u"
      ⟨1, 0, data, 0, dword10, (index >>> 1) <<< 16 ||| 1, 0⟩

/-- The admin queues, and `aqa` with their sizes. -/
def nvmeAdminInit : NvmeM Unit := do
  let s ← get
  match nvmeCqInit s.base s.doorbellStride 1 (0x1000 / cqEntrySize) with
  | .error fault => fail fault
  | .ok cq =>
    match nvmeSqInit s.base s.doorbellStride 0 (0x1000 / sqEntrySize) cq with
    | .error fault => fail fault
    | .ok sq =>
      let aqa := cq.mask <<< 16 % 2 ^ 32 ||| sq.mask
      modify fun s => ((s.setSq .admin sq).note (.announce (aqa / 2 ^ 16 + 1) cqEntrySize)).note
        (.announce (aqa % 2 ^ 16 + 1) sqEntrySize)

/-- `nvme_init` from the first look at `cap` on. -/
def nvmeInit (env : NvmeEnv) : NvmeM Unit := do
  modify fun s => { s with doorbellStride := 4 <<< nvmeCapDstrd env.cap % 2 ^ 32 }
  nvmeWaitCstsRdy env 0
  nvmeAdminInit
  nvmeWaitCstsRdy env 1
  nvmeIdentifyController env
  nvmeNsProbe env 0
  nvmeIoCqInit env 3
  nvmeIoSqInit env 2

/-- The command of `nvme_rw_read`. -/
def nvmeReadOp (nsId lba count buf : ℕ) : NvmeOp :=
  ⟨2, 0, buf, nsId + 1, lba &&& 0xFFFFFFFF, lba >>> 32 &&& 0xFFFFFFFF,
    (count + (2 ^ 32 - 1)) % 2 ^ 32⟩

/-- The controller structure as `calloc` returns it, with the pages at `base` mapped. -/
def Nvme.calloc (base : ℕ) : Nvme :=
  { base := base
    doorbellStride := 0
    sq := fun _ => ⟨⟨0, 0⟩, 0, fun _ => ⟨0, 0, 0, 0, 0, 0, 0, 0⟩,
      ⟨⟨0, 0⟩, 0, fun _ => ⟨0, 0, 0, 0, 0, 0⟩, 0, 0⟩, 0, 0⟩
    time := 0
    accesses := [] }

/-- The driver initializes the controller and then executes commands on the queues. -/
def nvmeRun (env : NvmeEnv) (ops : List (NvmeQueue × NvmeOp)) : NvmeM Unit := do
  nvmeInit env
  forEach ops fun op => nvmeExecute env op.1 "[NVMe]\tI/O read failed with status %#x" op.2

end Vineyard
