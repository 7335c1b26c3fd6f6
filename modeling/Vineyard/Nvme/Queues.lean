import Mathlib.Logic.Function.Basic
import Vineyard.Machine

/-!
# NVMe queue pairs

The queues of `driver/nvme`: `queues.c`, `command.c` and the polling of `wait.c`.  A submission queue
owns its completion queue, as `sq->cq` is the only way the code reaches it.  The memory behind
`entry` is a map from slots to entries, and a doorbell is a register with an address, of which the
last value written is kept.
-/

namespace Vineyard

open Function

/-- `nvme_cq_entry_t` -/
structure NvmeCqEntry where
  cmd : ℕ
  reserved : ℕ
  sqHead : ℕ
  sqId : ℕ
  commandId : ℕ
  status : ℕ
  deriving DecidableEq

/-- `dword[3]`, the last two fields as one word. -/
def NvmeCqEntry.dword3 (e : NvmeCqEntry) : ℕ := e.commandId ||| e.status <<< 16

/-- `nvme_sq_entry_t`; of the dwords behind the named fields, those that the driver writes. -/
structure NvmeSqEntry where
  cmd : ℕ
  nsId : ℕ
  metadataPtr : ℕ
  dataPrp1 : ℕ
  dataPrp2 : ℕ
  dword10 : ℕ
  dword11 : ℕ
  dword12 : ℕ
  deriving DecidableEq

/-- A doorbell register and the value last written to it. -/
structure Doorbell where
  address : ℕ
  value : ℕ
  deriving DecidableEq

/-- `nvme_cq_t` -/
structure NvmeCq where
  doorbell : Doorbell
  mask : ℕ
  entry : ℕ → NvmeCqEntry
  head : ℕ
  phase : ℕ

/-- `nvme_sq_t` -/
structure NvmeSq where
  doorbell : Doorbell
  mask : ℕ
  entry : ℕ → NvmeSqEntry
  cq : NvmeCq
  head : ℕ
  tail : ℕ

/-- `controller->base + 0x1000 + (index * controller->doorbell_stride)` -/
def doorbellAddress (base stride index : ℕ) : ℕ :=
  Word64.add (Word64.add base 0x1000) (index * stride % 2 ^ 32)

/-- `length - 1`, as the 32-bit field `mask` holds it. -/
def queueMask (length : ℕ) : ℕ := (length + (2 ^ 32 - 1)) % 2 ^ 32

def nvmeCqInit (base stride index length : ℕ) : Except Fault NvmeCq :=
  if index &&& 1 ≠ 1 then .error (.assertion "(index & 1) == 1")
  else .ok
    { doorbell := ⟨doorbellAddress base stride index, 0⟩
      mask := queueMask length
      entry := fun _ => ⟨0, 0, 0, 0, 0, 0⟩
      head := 0
      phase := 1 }

def nvmeSqInit (base stride index length : ℕ) (cq : NvmeCq) : Except Fault NvmeSq :=
  if index &&& 1 ≠ 0 then .error (.assertion "(index & 1) == 0")
  else .ok
    { doorbell := ⟨doorbellAddress base stride index, 0⟩
      mask := queueMask length
      entry := fun _ => ⟨0, 0, 0, 0, 0, 0, 0, 0⟩
      cq := cq
      head := 0
      tail := 0 }

/-- `(x + 1) & mask` on 32-bit words -/
def nextSlot (x mask : ℕ) : ℕ := (x + 1) % 2 ^ 32 &&& mask

/-- Returns the slot of the command; the caller fills in further fields there. -/
def nvmeCommandCreate (opcode metadata data : ℕ) (sq : NvmeSq) : Except Fault (ℕ × NvmeSq) :=
  if data &&& 0xFFF ≠ 0 then .error (.assertion "(data & 0xFFF) == 0")
  else
    let sqe : NvmeSqEntry :=
      { cmd := opcode ||| sq.tail <<< 16 % 2 ^ 32
        nsId := 0
        metadataPtr := metadata
        dataPrp1 := data
        dataPrp2 := 0
        dword10 := 0
        dword11 := 0
        dword12 := 0 }
    .ok (sq.tail, { sq with entry := update sq.entry sq.tail sqe })

def nvmeCommandSubmit (sq : NvmeSq) : NvmeSq :=
  let tail := nextSlot sq.tail sq.mask
  { sq with tail := tail, doorbell := { sq.doorbell with value := tail } }

def nvmePollCq (cq : NvmeCq) : Bool :=
  let dword := (cq.entry cq.head).dword3
  (if dword &&& 1 <<< 16 ≠ 0 then 1 else 0) = cq.phase

/-- `(uint8_t) ~phase` -/
def invertPhase (phase : ℕ) : ℕ := 2 ^ 8 - 1 - phase % 2 ^ 8

def nvmeCommandCqe (sq : NvmeSq) : Except Fault (NvmeCqEntry × NvmeSq) :=
  let cq := sq.cq
  if nvmePollCq cq = false then .error (.panic "[NVMe]\tno completion queue entry ready")
  else
    let cqe := cq.entry cq.head
    let head := nextSlot cq.head cq.mask
    let cq := { cq with
      phase := if head ≠ (cq.head + 1) % 2 ^ 32 then invertPhase cq.phase else cq.phase
      head := head
      doorbell := { cq.doorbell with value := head } }
    .ok (cqe, { sq with cq := cq, head := cqe.sqHead })

end Vineyard
