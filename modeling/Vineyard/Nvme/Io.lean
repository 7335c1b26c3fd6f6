import Vineyard.Nvme.Read
import Vineyard.Nvme.Ring

/-!
# Reads over the I/O queues

`nvme_rw_read` and `nvme_read` of `rw.c` over the queues of `nvme_init` and a controller like the one
of the completion protocol: a read can time out, and it can be answered with a status other than
zero.  The controller sees a command when its doorbell moves, so that a queue of an odd length, whose
tail never leaves slot 0, carries none; every other queue carries those of the first lap of its mask.
-/

namespace Vineyard

open Bytes Function

/-- How the controller answers a read: after how many polls, and with what. -/
structure NvmeAnswer where
  delay : ℕ
  result : ℕ
  status : ℕ

/-- What the controller and the heap decide: the answer to each command, by its number and the first
block it reads, and the physical page of the buffer for it. -/
structure NvmeDevice where
  answer : ℕ → ℕ → NvmeAnswer
  page : ℕ → ℕ

/-- The I/O queues after `nvme_init`, and the controller, which reads the sizes of the queues from the
words of the commands that create them. -/
def nvmeIo (base stride cap : ℕ) : Except Fault NvmeSystem := do
  let sq ← nvmeIoQueues base stride cap
  return {
    sq := sq
    controller := ⟨queueWord sq.mask 2 / 2 ^ 16 + 1, queueWord sq.cq.mask 3 / 2 ^ 16 + 1, 0, 0, 1, []⟩
    returned := []
    polls := [] }

/-- The request of `nvme_rw_read`, and when and how it is answered. -/
def nvmeReadRequest (op : NvmeOp) (a : NvmeAnswer) : NvmeRequest :=
  ⟨op.opcode, op.metadata, op.data, op.nsId, op.dword10, op.dword11, op.dword12, a.delay, a.result,
    a.status⟩

/-- A page after the controller has executed a read into it. -/
def NvmeNs.transfer (ns : NvmeNs) (page : Memory) (sqe : NvmeSqEntry) : Memory := fun j =>
  if j < (sqe.dword12 + 1) * 512 then ns.disk ((sqe.dword10 + sqe.dword11 * 2 ^ 32) * 512 + j)
  else page j

/-- `nvme_rw_read` into `page`. -/
def nvmeRwRead (ns : NvmeNs) (d : NvmeDevice) (lba count : ℕ) (page : Memory) (s : NvmeSystem) :
    Except Fault (Memory × NvmeSystem) := do
  let n := s.returned.length
  let r := nvmeReadRequest (nvmeReadOp ns.id lba count (d.page n * 0x1000)) (d.answer n lba)
  let s ← s.submit r
  let page := ns.transfer page (s.sq.entry s.controller.sqHead)
  let s ← nvmeWait r s
  if s.returned.head?.any fun cqe => cqe.status >>> 1 ≠ 0 then
    .error (.panic "[NVMe]\tI/O read failed with status %#x")
  else return (page, s)

/-- The loop of `nvme_read`, with at most `steps` iterations to go; `page` is the bounce buffer. -/
def nvmeReadIoLoop (ns : NvmeNs) (d : NvmeDevice) (lba blocks : ℕ) :
    ℕ → ℕ → ℕ → Memory → NvmeReading → NvmeSystem → Except Fault (NvmeReading × NvmeSystem)
  | 0, _, _, _, r, s => .ok (r, s)
  | steps + 1, i, left, page, r, s =>
    if i < blocks then do
      let (page, s) ← nvmeRwRead ns d (lba + i) 8 page s
      let r : NvmeReading :=
        ⟨copy r.buf (i <<< 9) page 0 (min left 0x1000), (lba + i, 8) :: r.commands⟩
      if 0x1000 ≤ left then nvmeReadIoLoop ns d lba blocks steps (i + 8) (left - 0x1000) page r s
      else return (r, s)
    else return (r, s)

/-- `nvme_read`; the bounce buffer holds what the heap left there. -/
def nvmeReadIo (ns : NvmeNs) (d : NvmeDevice) (physical length : ℕ) (page buf : Memory)
    (s : NvmeSystem) : Except Fault (NvmeReading × NvmeSystem) :=
  if ns.blockSize ≠ 512 then .error (.assertion "ns->block_size == 512")
  else if length &&& 0x1FF ≠ 0 then .error (.assertion "!(length & 0x1FF)")
  else
    let lba := physical >>> 9
    let blocks := length >>> 9
    let blocks :=
      if Word64.add physical length >>> 9 > Word64.add (lba <<< 9) length >>> 9 then blocks + 1
      else blocks
    nvmeReadIoLoop ns d lba blocks blocks 0 length page ⟨buf, []⟩ s

/-! ## The first lap -/

variable {ns : NvmeNs} {d : NvmeDevice} {r : NvmeRequest} {s : NvmeSystem} {b c k : ℕ}

/-- Driver and controller after `k` commands, up to the end of the first lap of the mask. -/
structure IoInStep (b c k : ℕ) (s : NvmeSystem) : Prop where
  sqMask : s.sq.mask + 1 = 2 ^ b * (2 * c + 1)
  cqMask : s.sq.cq.mask + 1 = 2 ^ b * (2 * c + 1)
  sqSize : s.controller.sqSize = 2 ^ b * (2 * c + 1)
  cqSize : s.controller.cqSize = 2 ^ b * (2 * c + 1)
  le : k ≤ 2 ^ b
  tail : s.sq.tail = k % 2 ^ b
  sqHead : s.controller.sqHead = k % (2 ^ b * (2 * c + 1))
  head : s.sq.cq.head = k % 2 ^ b
  cqTail : s.controller.cqTail = k % (2 ^ b * (2 * c + 1))
  phase : s.sq.cq.phase = if k < 2 ^ b then 1 else 0xFE
  devicePhase : k < 2 ^ b → s.controller.phase = 1
  clear : ∀ i, k ≤ i → s.sq.cq.entry i = ⟨0, 0, 0, 0, 0, 0⟩
  count : s.returned.length = k

theorem nvmeIo_inStep (base stride cap : ℕ)
    (length : min (cap % 2 ^ 16 + 1) 256 = 2 ^ b * (2 * c + 1)) :
    ∃ s, nvmeIo base stride cap = .ok s ∧ IoInStep b c 0 s := by
  have size : queueMask (min (cap % 2 ^ 16 + 1) 256) + 1 = min (cap % 2 ^ 16 + 1) 256 :=
    queueMask_eq (by omega) (by omega)
  have sqWord : queueWord (queueMask (min (cap % 2 ^ 16 + 1) 256)) 2 / 2 ^ 16 + 1 =
    2 ^ b * (2 * c + 1) := by
    rw [queueWord_entries (by omega) (by decide), size, length]
  have cqWord : queueWord (queueMask (min (cap % 2 ^ 16 + 1) 256)) 3 / 2 ^ 16 + 1 =
    2 ^ b * (2 * c + 1) := by
    rw [queueWord_entries (by omega) (by decide), size, length]
  rw [nvmeIo, nvmeIoQueues, nvmeIoLength_eq]
  refine ⟨_, rfl, ⟨size.trans length, size.trans length, sqWord, cqWord, Nat.zero_le _, ?_,
    ?_, ?_, ?_, ?_, fun _ => rfl, fun _ _ => rfl, rfl⟩⟩
  · rw [Nat.zero_mod]
  · rw [Nat.zero_mod]
  · rw [Nat.zero_mod]
  · rw [Nat.zero_mod]
  · rw [if_pos (Nat.two_pow_pos b)]

/-- A command is submitted and not answered yet. -/
structure IoWaiting (b c k : ℕ) (s : NvmeSystem) : Prop where
  lap : k < 2 ^ b
  sqMask : s.sq.mask + 1 = 2 ^ b * (2 * c + 1)
  cqMask : s.sq.cq.mask + 1 = 2 ^ b * (2 * c + 1)
  sqSize : s.controller.sqSize = 2 ^ b * (2 * c + 1)
  cqSize : s.controller.cqSize = 2 ^ b * (2 * c + 1)
  tail : s.sq.tail = (k + 1) % 2 ^ b
  doorbell : s.sq.doorbell.value = (k + 1) % 2 ^ b
  sqHead : s.controller.sqHead = k
  head : s.sq.cq.head = k
  cqTail : s.controller.cqTail = k
  phase : s.sq.cq.phase = 1
  devicePhase : s.controller.phase = 1
  clear : ∀ i, k ≤ i → s.sq.cq.entry i = ⟨0, 0, 0, 0, 0, 0⟩
  count : s.returned.length = k

theorem lap_lt (lap : k < 2 ^ b) (c : ℕ) : k < 2 ^ b * (2 * c + 1) :=
  lap.trans_le (Nat.le_mul_of_pos_right _ (by omega))

/-- The command is in its slot, and the doorbell is rung. -/
theorem IoInStep.submit (h : IoInStep b c k s) (lap : k < 2 ^ b) (fits : b < 32)
    (aligned : r.data % 0x1000 = 0) :
    ∃ s' cmd, s.submit r = .ok s' ∧ IoWaiting b c k s' ∧
      s'.sq.entry k = ⟨cmd, r.nsId, r.metadata, r.data, 0, r.dword10, r.dword11, r.dword12⟩ ∧
      s'.returned = s.returned := by
  have low : r.data &&& 0xFFF = 0 := and_0xFFF aligned
  have tail : s.sq.tail = k := h.tail.trans (Nat.mod_eq_of_lt lap)
  have next : nextSlot s.sq.tail s.sq.mask = (k + 1) % 2 ^ b := by
    rw [tail, nextSlot_mod h.sqMask fits lap]
  rw [NvmeSystem.submit, nvmeCommandCreate, if_neg (by simp [low])]
  refine ⟨_, r.opcode ||| s.sq.tail <<< 16 % 2 ^ 32, rfl,
    ⟨lap, h.sqMask, h.cqMask, h.sqSize, h.cqSize, next,
    next, ?_, ?_, ?_, ?_, h.devicePhase lap, h.clear, h.count⟩, ?_, rfl⟩
  · exact h.sqHead.trans (Nat.mod_eq_of_lt (lap_lt lap c))
  · exact h.head.trans (Nat.mod_eq_of_lt lap)
  · exact h.cqTail.trans (Nat.mod_eq_of_lt (lap_lt lap c))
  · exact h.phase.trans (if_pos lap)
  · simp [nvmeCommandSubmit, tail]

namespace IoWaiting

theorem quiet (h : IoWaiting b c k s) (n : ℕ) : IoWaiting b c k (s.quiet n) := { h with }

theorem poll (h : IoWaiting b c k s) : nvmePollCq s.sq.cq = false := by
  have clear := h.clear k le_rfl
  rw [nvmePollCq_eq] <;> simp [h.head, clear, h.phase]

/-- On a queue of an odd length the doorbell does not move. -/
theorem doorbell_eq_iff (h : IoWaiting b c k s) :
    s.sq.doorbell.value = s.controller.sqHead ↔ b = 0 := by
  have lap := h.lap
  rw [h.doorbell, h.sqHead]
  constructor
  · intro same
    by_contra pos
    have two : 2 ^ 1 ≤ 2 ^ b := Nat.pow_le_pow_right (by decide) (by omega)
    by_cases last : k + 1 = 2 ^ b
    · rw [last, Nat.mod_self] at same
      omega
    · rw [Nat.mod_eq_of_lt (by omega)] at same
      omega
  · rintro rfl
    rw [Nat.pow_zero] at lap ⊢
    omega

theorem post (h : IoWaiting b c k s) (even : b ≠ 0) : s.post r = s.answered r := by
  rw [NvmeSystem.post, if_neg]
  rwa [h.doorbell_eq_iff]

/-- The entry that the controller writes. -/
theorem entry_answered (h : IoWaiting b c k s) :
    (s.answered r).sq.cq.entry k = s.controller.answer s.sq r := by
  simp [NvmeSystem.answered, h.cqTail]

theorem poll_answered (h : IoWaiting b c k s) : nvmePollCq (s.answered r).sq.cq = true := by
  have head : (s.answered r).sq.cq.head = k := h.head
  have phase : (s.answered r).sq.cq.phase = 1 := h.phase
  rw [nvmePollCq_eq] <;> rw [head, h.entry_answered]
  · rw [phase, NvmeController.answer, h.devicePhase]
    exact decide_eq_true (by dsimp only; omega)
  · simp only [NvmeController.answer]
    omega

/-- The answer is consumed, and driver and controller are in step again. -/
theorem finish (h : IoWaiting b c k s) (fits : b < 32) :
    ∃ s', (s.answered r).notePoll.consume = .ok s' ∧
    IoInStep b c (k + 1) s' ∧ s'.returned = s.controller.answer s.sq r :: s.returned := by
  have lap := h.lap
  have shorter := lap_lt lap c
  have head : (s.answered r).sq.cq.head = k := h.head
  have next : nextSlot k s.sq.cq.mask = (k + 1) % 2 ^ b := nextSlot_mod h.cqMask fits lap
  have small : 2 ^ b ≤ 2 ^ 31 := Nat.pow_le_pow_right (by decide) (by omega)
  have poll := h.poll_answered (r := r)
  have entry := h.entry_answered (r := r)
  rw [NvmeSystem.consume_eq (s := (s.answered r).notePoll) poll]
  simp only [NvmeSystem.notePoll_sq, head, entry]
  refine ⟨_, rfl, ⟨h.sqMask, h.cqMask, h.sqSize, h.cqSize, lap, h.tail, ?_, ?_, ?_, ?_, ?_, ?_, ?_⟩,
    rfl⟩
  · simp only [NvmeSystem.answered, NvmeSystem.notePoll, h.sqHead, h.sqSize]
  · simp [NvmeSystem.answered, NvmeSq.advance, h.head, next]
  · simp only [NvmeSystem.answered, NvmeSystem.notePoll, h.cqTail, h.cqSize]
  · simp only [NvmeSystem.answered, NvmeSq.advance, h.head, next, h.phase]
    rw [Nat.mod_eq_of_lt (a := k + 1) (b := 2 ^ 32) (by omega)]
    by_cases more : k + 1 < 2 ^ b
    · rw [Nat.mod_eq_of_lt more, if_neg (not_not.2 rfl), if_pos more]
    · have last : k + 1 = 2 ^ b := Nat.le_antisymm lap (Nat.le_of_not_lt more)
      rw [last, Nat.mod_self, if_pos (Nat.two_pow_pos b).ne, if_neg (Nat.lt_irrefl _)]
      rfl
  · intro more
    simp only [NvmeSystem.answered, NvmeSystem.notePoll, h.cqTail, h.cqSize, h.devicePhase]
    rw [if_neg (lap_lt more c).ne]
  · intro i above
    simp only [NvmeSystem.answered, NvmeSq.advance, h.cqTail]
    rw [update_of_ne (by omega), h.clear i (by omega)]
  · simp only [NvmeSystem.answered, NvmeSystem.notePoll, List.length_cons]
    exact congrArg (· + 1) h.count

end IoWaiting

/-- Without an answer no poll reports anything, and the wait times out. -/
theorem nvmeWaitLoop_silent {left : ℕ} (short : left ≤ 500) (before : nvmePollCq s.sq.cq = false)
    (silent : 500 ≤ r.delay ∨ s.sq.doorbell.value = s.controller.sqHead) :
    nvmeWaitLoop r left s = .error (.panic "[NVMe]\ttimed out waiting for command") := by
  induction left generalizing s with
  | zero => rfl
  | succ left ih =>
    have same : s.tick r (left + 1) = s := by
      rw [NvmeSystem.tick]
      split_ifs with now
      · rw [NvmeSystem.post, if_pos]
        exact silent.resolve_left (by omega)
      · rfl
    rw [nvmeWaitLoop, same, before]
    exact ih (s := s.notePoll) (by omega) before silent

/-! ## A command -/

theorem lap_fits (short : 2 ^ b * (2 * c + 1) ≤ 256) : b < 32 := by
  have : 2 ^ b ≤ 2 ^ b * (2 * c + 1) := Nat.le_mul_of_pos_right _ (by omega)
  exact (Nat.pow_lt_pow_iff_right (by decide)).1 (show 2 ^ b < 2 ^ 32 by omega)

/-- The number of commands that fresh I/O queues of the length carry. -/
def ioCommands (length : ℕ) : ℕ := if length % 2 = 0 then Nat.gcd length 256 else 0

theorem ioCommands_eq (short : 2 ^ b * (2 * c + 1) ≤ 256) :
    ioCommands (2 ^ b * (2 * c + 1)) = if b = 0 then 0 else 2 ^ b := by
  have le : b ≤ 8 := by
    have : 2 ^ b ≤ 2 ^ b * (2 * c + 1) := Nat.le_mul_of_pos_right _ (by omega)
    exact (Nat.pow_le_pow_iff_right (by decide)).1 (show 2 ^ b ≤ 2 ^ 8 by omega)
  have split : 256 = 2 ^ b * 2 ^ (8 - b) := by
    rw [← Nat.pow_add, Nat.add_sub_cancel' le]
  have odd : Nat.Coprime (2 * c + 1) (2 ^ (8 - b)) := by
    apply Nat.Coprime.pow_right
    rw [Nat.coprime_two_right]
    exact ⟨c, rfl⟩
  have common : Nat.gcd (2 ^ b * (2 * c + 1)) 256 = 2 ^ b := by
    rw [split, Nat.gcd_mul_left, odd.gcd_eq_one, Nat.mul_one]
  rw [ioCommands, common]
  cases b with
  | zero =>
    rw [if_neg (by omega), if_pos rfl]
  | succ b =>
    rw [if_neg (Nat.succ_ne_zero b), if_pos]
    rw [Nat.pow_succ, Nat.mul_right_comm]
    exact Nat.mul_mod_left _ 2

/-- A command that the queues carry and that is answered in time. -/
theorem IoInStep.command (h : IoInStep b c k s) (short : 2 ^ b * (2 * c + 1) ≤ 256)
    (carried : k < ioCommands (2 ^ b * (2 * c + 1))) (soon : r.delay < 500)
    (aligned : r.data % 0x1000 = 0) :
    ∃ s₁ s' cmd cqe, s.submit r = .ok s₁ ∧ s₁.controller.sqHead = k ∧
      s₁.sq.entry k = ⟨cmd, r.nsId, r.metadata, r.data, 0, r.dword10, r.dword11, r.dword12⟩ ∧
      nvmeWait r s₁ = .ok s' ∧ IoInStep b c (k + 1) s' ∧ s'.returned = cqe :: s.returned ∧
      cqe.status = 2 * r.status + 1 := by
  rw [ioCommands_eq short] at carried
  have even : b ≠ 0 := fun zero => by simp [zero] at carried
  rw [if_neg even] at carried
  obtain ⟨s₁, cmd, submit, waiting, entry, same⟩ := h.submit carried (lap_fits short) aligned
  obtain ⟨n, run⟩ := nvmeWaitLoop_answered (r := r) (Nat.le_add_left 500 _) soon waiting.poll
    (by rw [waiting.post even, waiting.poll_answered])
  obtain ⟨s', finish, inStep, returned⟩ := (waiting.quiet n).finish (r := r) (lap_fits short)
  have first : s'.returned = (s₁.quiet n).controller.answer (s₁.quiet n).sq r :: s.returned := by
    rw [returned, ← same]
    rfl
  refine ⟨s₁, s', cmd, _, submit, waiting.sqHead, entry, ?_, inStep, first, ?_⟩
  · rw [nvmeWait, run, (waiting.quiet n).post even, finish]
  · rw [NvmeController.answer, (waiting.quiet n).devicePhase]

/-- Every other command is submitted and times out. -/
theorem IoInStep.timeout (h : IoInStep b c k s) (short : 2 ^ b * (2 * c + 1) ≤ 256)
    (late : ¬ (k < ioCommands (2 ^ b * (2 * c + 1)) ∧ r.delay < 500))
    (aligned : r.data % 0x1000 = 0) :
    ∃ s₁, s.submit r = .ok s₁ ∧
      nvmeWait r s₁ = .error (.panic "[NVMe]\ttimed out waiting for command") := by
  rw [ioCommands_eq short] at late
  by_cases lap : k < 2 ^ b
  · obtain ⟨s₁, cmd, submit, waiting, _⟩ := h.submit lap (lap_fits short) aligned
    refine ⟨s₁, submit, nvmeWaitLoop_silent le_rfl waiting.poll ?_⟩
    rw [waiting.doorbell_eq_iff]
    by_contra neither
    rw [not_or] at neither
    exact late ⟨by rwa [if_neg neither.2], Nat.lt_of_not_le neither.1⟩
  · have low : r.data &&& 0xFFF = 0 := and_0xFFF aligned
    rw [NvmeSystem.submit, nvmeCommandCreate, if_neg (by simp [low])]
    refine ⟨_, rfl, nvmeWaitLoop_stuck (s := { s with sq := _ }) ?_ 500⟩
    show 1 < s.sq.cq.phase
    rw [h.phase, if_neg lap]
    decide

/-! ## A read -/

/-- Queues that carry `limit` commands carry the `k`-th one, and the controller answers it, before the
last poll and with status 0. -/
def NvmeDevice.Reads (d : NvmeDevice) (limit k lba : ℕ) : Prop :=
  k < limit ∧ (d.answer k lba).delay < 500 ∧ (d.answer k lba).status = 0

instance (d : NvmeDevice) (limit k lba : ℕ) : Decidable (d.Reads limit k lba) :=
  inferInstanceAs (Decidable (_ ∧ _))

/-- The words of the command name the blocks of the page. -/
theorem transfer_readOp {page : Memory} {lba cmd phys j : ℕ} (small : lba < 2 ^ 64)
    (inside : j < 0x1000) :
    ns.transfer page ⟨cmd, ns.id + 1, 0, phys, 0, lba &&& 0xFFFFFFFF, lba >>> 32 &&& 0xFFFFFFFF,
      (8 + (2 ^ 32 - 1)) % 2 ^ 32⟩ j = ns.rwRead lba j := by
  have low : lba &&& 0xFFFFFFFF = lba % 2 ^ 32 := Words.and_low lba 32
  have high : lba >>> 32 &&& 0xFFFFFFFF = lba / 2 ^ 32 := by
    rw [Nat.shiftRight_eq_div_pow, show 0xFFFFFFFF = 2 ^ 32 - 1 from rfl, Words.and_low,
      Nat.mod_eq_of_lt (by omega)]
  have whole : lba % 2 ^ 32 + lba / 2 ^ 32 * 2 ^ 32 = lba := by omega
  simp only [NvmeNs.transfer, NvmeNs.rwRead, low, high, whole]
  rw [if_pos (by omega)]

/-- A read that is carried and answered fills the page and leaves driver and controller in step. -/
theorem IoInStep.rwRead (ns : NvmeNs) {lba : ℕ} (h : IoInStep b c k s)
    (short : 2 ^ b * (2 * c + 1) ≤ 256) (small : lba < 2 ^ 64)
    (reads : d.Reads (ioCommands (2 ^ b * (2 * c + 1))) k lba) (page : Memory) :
    ∃ page' s', nvmeRwRead ns d lba 8 page s = .ok (page', s') ∧ IoInStep b c (k + 1) s' ∧
      ∀ j < 0x1000, page' j = ns.rwRead lba j := by
  obtain ⟨carried, soon, success⟩ := reads
  obtain ⟨s₁, s', cmd, cqe, submit, sqHead, entry, wait, inStep, returned, status⟩ := h.command (r :=
    nvmeReadRequest (nvmeReadOp ns.id lba 8 (d.page k * 0x1000)) (d.answer k lba)) short carried soon
    (Nat.mul_mod_left _ _)
  have zero : (s'.returned.head?.any fun cqe => cqe.status >>> 1 ≠ 0) = false := by
    rw [returned, List.head?_cons, Option.any_some, status]
    simp only [nvmeReadRequest, success]
    decide
  refine ⟨ns.transfer page (s₁.sq.entry k), s', ?_, inStep, fun j inside => ?_⟩
  · simp only [nvmeRwRead, h.count, submit, Fallible.ok_bind, sqHead, wait, zero]
    rfl
  · rw [entry]
    exact transfer_readOp small inside

/-- Every other read panics. -/
theorem IoInStep.rwRead_panics (ns : NvmeNs) {lba : ℕ} (h : IoInStep b c k s)
    (short : 2 ^ b * (2 * c + 1) ≤ 256)
    (fails : ¬ d.Reads (ioCommands (2 ^ b * (2 * c + 1))) k lba) (page : Memory) :
    ∃ message, nvmeRwRead ns d lba 8 page s = .error (.panic message) := by
  set r := nvmeReadRequest (nvmeReadOp ns.id lba 8 (d.page k * 0x1000)) (d.answer k lba) with request
  have aligned : r.data % 0x1000 = 0 := Nat.mul_mod_left _ _
  by_cases late : k < ioCommands (2 ^ b * (2 * c + 1)) ∧ r.delay < 500
  · obtain ⟨s₁, s', cmd, cqe, submit, _, _, wait, _, returned, status⟩ :=
      h.command short late.1 late.2 aligned
    have failed : r.status ≠ 0 := fun zero => fails ⟨late.1, late.2, zero⟩
    have nonzero : (s'.returned.head?.any fun cqe => cqe.status >>> 1 ≠ 0) = true := by
      rw [returned, List.head?_cons, Option.any_some, status, Nat.shiftRight_eq_div_pow]
      apply decide_eq_true
      omega
    refine ⟨"[NVMe]\tI/O read failed with status %#x", ?_⟩
    simp only [nvmeRwRead, h.count, ← request, submit, Fallible.ok_bind, wait, nonzero]
    rfl
  · obtain ⟨s₁, submit, wait⟩ := h.timeout short late aligned
    refine ⟨"[NVMe]\ttimed out waiting for command", ?_⟩
    simp only [nvmeRwRead, h.count, ← request, submit, Fallible.ok_bind, wait, Fallible.error_bind]

/-! ## `nvme_read` -/

/-- The reads from these blocks on succeed, one after the other, from command `k` on. -/
def NvmeDevice.ReadsAll (d : NvmeDevice) (limit : ℕ) : ℕ → List ℕ → Prop
  | _, [] => True
  | k, lba :: lbas => d.Reads limit k lba ∧ d.ReadsAll limit (k + 1) lbas

instance NvmeDevice.decidableReadsAll (d : NvmeDevice) (limit : ℕ) :
    (k : ℕ) → (lbas : List ℕ) → Decidable (d.ReadsAll limit k lbas)
  | _, [] => isTrue trivial
  | k, _ :: lbas =>
    have := d.decidableReadsAll limit (k + 1) lbas
    inferInstanceAs (Decidable (_ ∧ _))

theorem NvmeDevice.readsAll_append {limit : ℕ} {lbas more : List ℕ} :
    d.ReadsAll limit k (lbas ++ more) ↔
      d.ReadsAll limit k lbas ∧ d.ReadsAll limit (k + lbas.length) more := by
  induction lbas generalizing k with
  | nil => simp [NvmeDevice.ReadsAll]
  | cons lba lbas ih =>
    rw [List.cons_append, NvmeDevice.ReadsAll, NvmeDevice.ReadsAll, ih, and_assoc, List.length_cons,
      Nat.add_assoc, Nat.add_comm 1]

/-- The first blocks of the commands that read so many blocks. -/
def readLbas (lba blocks : ℕ) : List ℕ := (List.range ((blocks + 7) / 8)).map fun i => lba + 8 * i

theorem readLbas_succ {lba blocks : ℕ} (pos : 0 < blocks) :
    readLbas lba blocks = lba :: readLbas (lba + 8) (blocks - 8) := by
  have count : (blocks + 7) / 8 = (blocks - 8 + 7) / 8 + 1 := by omega
  rw [readLbas, count, List.range_succ_eq_map, List.map_cons, List.map_map, readLbas]
  refine congrArg _ (List.map_congr_left fun i _ => ?_)
  simp only [Function.comp_apply]
  omega

theorem readLbas_zero (first : ℕ) : readLbas first 0 = [] := rfl

/-- A copy depends only on the bytes that it copies. -/
theorem copy_congr {mem other other' : Memory} {dst n : ℕ} (same : ∀ j < n, other j = other' j) :
    copy mem dst other 0 n = copy mem dst other' 0 n := by
  funext a
  unfold copy
  split_ifs with inside
  · exact same _ (by omega)
  · rfl

section Reads

variable {lba blocks physical length : ℕ} (short : 2 ^ b * (2 * c + 1) ≤ 256)

include short

/-- The loop goes on as over a namespace that always answers, up to the first read that fails. -/
theorem IoInStep.readLoop (ns : NvmeNs) (d : NvmeDevice) (steps : ℕ) (small : lba + blocks < 2 ^ 64) :
    ∀ (k i left : ℕ) (page : Memory) (r : NvmeReading) (s : NvmeSystem), IoInStep b c k s →
      left = (blocks - i) * 512 → blocks ≤ i + steps →
      (d.ReadsAll (ioCommands (2 ^ b * (2 * c + 1))) k (readLbas (lba + i) (blocks - i)) ∧
        ∃ s', nvmeReadIoLoop ns d lba blocks steps i left page r s =
            .ok (nvmeReadLoop ns lba blocks steps i left r, s') ∧
          IoInStep b c (k + (readLbas (lba + i) (blocks - i)).length) s') ∨
      (¬ d.ReadsAll (ioCommands (2 ^ b * (2 * c + 1))) k (readLbas (lba + i) (blocks - i)) ∧
        ∃ message, nvmeReadIoLoop ns d lba blocks steps i left page r s =
          .error (.panic message)) := by
  induction steps with
  | zero =>
    intro k i left page r s h size enough
    rw [show blocks - i = 0 by omega]
    exact .inl ⟨trivial, s, rfl, h⟩
  | succ steps ih =>
    intro k i left page r s h size enough
    by_cases more : i < blocks
    · rw [nvmeReadIoLoop, nvmeReadLoop, if_pos more, if_pos more, readLbas_succ (by omega),
        NvmeDevice.ReadsAll]
      by_cases first : d.Reads (ioCommands (2 ^ b * (2 * c + 1))) k (lba + i)
      · obtain ⟨page', s₁, read, inStep, bytes⟩ := h.rwRead ns short (by omega) first page
        have same : copy r.buf (i <<< 9) page' 0 (min left 0x1000) =
            copy r.buf (i <<< 9) (ns.rwRead (lba + i)) 0 (min left 0x1000) :=
          copy_congr fun j less => bytes j (by omega)
        rw [and_iff_right first, read, Fallible.ok_bind]
        dsimp only
        rw [same, List.length_cons, ← Nat.add_assoc k, Nat.add_right_comm k]
        by_cases whole : 0x1000 ≤ left
        · rw [if_pos whole, if_pos whole, Nat.add_assoc lba, Nat.sub_sub]
          exact ih (k + 1) (i + 8) (left - 0x1000) page' _ s₁ inStep (by omega) (by omega)
        · rw [show blocks - i - 8 = 0 by omega, readLbas_zero, if_neg whole, if_neg whole]
          exact .inl ⟨trivial, s₁, rfl, inStep⟩
      · obtain ⟨message, read⟩ := h.rwRead_panics ns short first page
        exact .inr ⟨fun all => first all.1, message, by rw [read, Fallible.error_bind]⟩
    · rw [nvmeReadIoLoop, nvmeReadLoop, if_neg more, if_neg more, show blocks - i = 0 by omega]
      exact .inl ⟨trivial, s, rfl, h⟩

/-- A read of whole blocks returns what it does from a namespace that always answers, or panics at the
first command that fails. -/
theorem IoInStep.read (ns : NvmeNs) (d : NvmeDevice) (h : IoInStep b c k s)
    (block : ns.blockSize = 512) (size : length % 512 = 0)
    (small : physical / 512 + length / 512 < 2 ^ 64) (page buf : Memory) :
    (d.ReadsAll (ioCommands (2 ^ b * (2 * c + 1))) k (readLbas (physical / 512) (length / 512)) ∧
      ∃ r s', nvmeReadIo ns d physical length page buf s = .ok (r, s') ∧
        nvmeRead ns physical length buf = .ok r ∧
        IoInStep b c (k + (readLbas (physical / 512) (length / 512)).length) s') ∨
    (¬ d.ReadsAll (ioCommands (2 ^ b * (2 * c + 1))) k (readLbas (physical / 512) (length / 512)) ∧
      ∃ message, nvmeReadIo ns d physical length page buf s = .error (.panic message)) := by
  have low : length &&& 0x1FF = 0 := (Words.and_low length 9).trans size
  have notMore : ¬ Word64.add physical length >>> 9 >
      Word64.add ((physical >>> 9) <<< 9) length >>> 9 := by
    rw [block_number, block_number, block_offset, block_number]
    unfold Word64.add
    omega
  have unfolded : nvmeReadIo ns d physical length page buf s = nvmeReadIoLoop ns d (physical / 512)
      (length / 512) (length / 512) 0 length page ⟨buf, []⟩ s := by
    unfold nvmeReadIo
    rw [if_neg (fun h => h block), if_neg (fun h => h low)]
    dsimp only
    rw [if_neg notMore, block_number, block_number]
  have loop := IoInStep.readLoop short ns d (length / 512) small k 0 length page ⟨buf, []⟩ s h
    (by omega) (by omega)
  rw [Nat.add_zero, Nat.sub_zero, ← unfolded] at loop
  rcases loop with ⟨all, s', run, inStep⟩ | fails
  · exact .inl ⟨all, _, s', run, nvmeRead_eq block size, inStep⟩
  · exact .inr fails

end Reads

end Vineyard
