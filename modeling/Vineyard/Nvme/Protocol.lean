import Vineyard.Nvme.Queues

/-!
# The completion protocol of the admin queue pair

The driver of `wait.c` together with a controller that answers the commands in the order of their
submission: it takes each from its own submission head, writes a completion entry at its own
completion tail with its phase bit, and inverts that bit when the tail wraps.  A controller may post
its answer before any of the 500 polls of `nvme_wait`.  The state also keeps what was posted, what
`nvme_wait` returned, and for each poll whether a completion was waiting and what the poll reported.
-/

namespace Vineyard

open Function

/-- The controller: its side of the two queues, and what it posted, newest first. -/
structure NvmeController where
  sqSize : ℕ
  cqSize : ℕ
  sqHead : ℕ
  cqTail : ℕ
  phase : ℕ
  posted : List NvmeCqEntry

/-- The driver's queues, the controller and the history, newest first. -/
structure NvmeSystem where
  sq : NvmeSq
  controller : NvmeController
  returned : List NvmeCqEntry
  /-- For each poll: a completion was waiting; the poll reported it. -/
  polls : List (Bool × Bool)

/-- A command, when the controller answers it, and the answer. -/
structure NvmeRequest where
  opcode : ℕ
  metadata : ℕ
  data : ℕ
  nsId : ℕ
  dword10 : ℕ
  dword11 : ℕ
  dword12 : ℕ
  /-- The number of polls of `nvme_wait` before the answer is posted. -/
  delay : ℕ
  result : ℕ
  status : ℕ

/-- The answer of the controller to the command that it finds at its submission head. -/
def NvmeController.answer (c : NvmeController) (sq : NvmeSq) (r : NvmeRequest) : NvmeCqEntry :=
  { cmd := r.result
    reserved := 0
    sqHead := (c.sqHead + 1) % c.sqSize
    sqId := 0
    commandId := (sq.entry c.sqHead).cmd / 2 ^ 16 % 2 ^ 16
    status := 2 * r.status + c.phase }

/-- The controller takes the command at its submission head and posts the answer. -/
def NvmeSystem.answered (s : NvmeSystem) (r : NvmeRequest) : NvmeSystem :=
  let c := s.controller
  let e := c.answer s.sq r
  { s with
    sq.cq.entry := update s.sq.cq.entry c.cqTail e
    controller := { c with
      sqHead := (c.sqHead + 1) % c.sqSize
      cqTail := (c.cqTail + 1) % c.cqSize
      phase := if c.cqTail + 1 = c.cqSize then 1 - c.phase else c.phase
      posted := e :: c.posted } }

/-- The controller answers when the doorbell says that there is a command. -/
def NvmeSystem.post (s : NvmeSystem) (r : NvmeRequest) : NvmeSystem :=
  if s.sq.doorbell.value = s.controller.sqHead then s else s.answered r

/-- A call of `nvme_poll_cq`, with a note of it. -/
def NvmeSystem.notePoll (s : NvmeSystem) : NvmeSystem :=
  { s with polls :=
      (decide (s.returned.length < s.controller.posted.length), nvmePollCq s.sq.cq) :: s.polls }

/-- What the controller does before the next poll, of which there are `left`. -/
def NvmeSystem.tick (s : NvmeSystem) (r : NvmeRequest) (left : ℕ) : NvmeSystem :=
  if r.delay + left = 500 then s.post r else s

/-- `nvme_command_cqe`, which polls once more. -/
def NvmeSystem.consume (s : NvmeSystem) : Except Fault NvmeSystem := do
  let (cqe, sq) ← nvmeCommandCqe s.sq
  return { s.notePoll with sq := sq, returned := cqe :: s.returned }

/-- The loop of `nvme_wait`, with `left` of its 500 polls to go. -/
def nvmeWaitLoop (r : NvmeRequest) : ℕ → NvmeSystem → Except Fault NvmeSystem
  | 0, _ => .error (.panic "[NVMe]\ttimed out waiting for command")
  | left + 1, s =>
    let s := s.tick r (left + 1)
    if nvmePollCq s.sq.cq then s.notePoll.consume
    else nvmeWaitLoop r left s.notePoll

def nvmeWait (r : NvmeRequest) (s : NvmeSystem) : Except Fault NvmeSystem := nvmeWaitLoop r 500 s

/-- A command is created, filled in and submitted. -/
def NvmeSystem.submit (r : NvmeRequest) (s : NvmeSystem) : Except Fault NvmeSystem := do
  let (slot, sq) ← nvmeCommandCreate r.opcode r.metadata r.data s.sq
  let sqe := { sq.entry slot with
    nsId := r.nsId, dword10 := r.dword10, dword11 := r.dword11, dword12 := r.dword12 }
  return { s with sq := nvmeCommandSubmit { sq with entry := update sq.entry slot sqe } }

/-- A command is issued and waited for. -/
def nvmeCommand (r : NvmeRequest) (s : NvmeSystem) : Except Fault NvmeSystem :=
  s.submit r >>= nvmeWait r

def nvmeCommands : List NvmeRequest → NvmeSystem → Except Fault NvmeSystem
  | [], s => .ok s
  | r :: rs, s => nvmeCommand r s >>= nvmeCommands rs

/-- The admin queues of `nvme_init` and the controller after it is enabled; it reads the sizes of the
queues from `aqa`. -/
def nvmeAdmin (base stride : ℕ) : Except Fault NvmeSystem := do
  let cq ← nvmeCqInit base stride 1 (0x1000 / 16)
  let sq ← nvmeSqInit base stride 0 (0x1000 / 64) cq
  let aqa := cq.mask <<< 16 ||| sq.mask
  return {
    sq := sq
    controller := ⟨aqa % 2 ^ 16 + 1, aqa / 2 ^ 16 + 1, 0, 0, 1, []⟩
    returned := []
    polls := [] }

/-! ## The words of the protocol -/

/-- What the types and the assertion of `nvme_command_create` ask of a command, and a controller that
answers before the last poll. -/
structure NvmeRequest.Valid (r : NvmeRequest) : Prop where
  opcode : r.opcode < 2 ^ 8
  data : r.data % 0x1000 = 0
  delay : r.delay < 500

/-- The poll compares the lowest bit of the status. -/
theorem nvmePollCq_eq {cq : NvmeCq} (id : (cq.entry cq.head).commandId < 2 ^ 16) :
    nvmePollCq cq = decide ((cq.entry cq.head).status % 2 = cq.phase) := by
  have bit : (if (cq.entry cq.head).dword3 &&& 1 <<< 16 ≠ 0 then 1 else 0) =
      (cq.entry cq.head).status % 2 := by
    have low : (cq.entry cq.head).commandId.testBit 16 = false := Nat.testBit_lt_two_pow id
    rw [NvmeCqEntry.dword3, Nat.one_shiftLeft, Nat.and_two_pow, Nat.testBit_or, low,
      Nat.testBit_shiftLeft, Bool.false_or]
    rcases Nat.mod_two_eq_zero_or_one (cq.entry cq.head).status with e | e <;>
      simp [Nat.testBit_zero, e]
  rw [nvmePollCq]
  simp only [bit]

theorem nextSlot_eq {x n : ℕ} (small : x < 2 ^ n) (fits : n < 32) :
    nextSlot x (2 ^ n - 1) = (x + 1) % 2 ^ n := by
  have : 2 ^ n ≤ 2 ^ 31 := Nat.pow_le_pow_right (by decide) (by omega)
  rw [nextSlot, Nat.and_two_pow_sub_one_eq_mod, Nat.mod_eq_of_lt (a := x + 1) (by omega)]

/-- The command identifier is the slot of the command. -/
theorem command_id {opcode tail : ℕ} (small : opcode < 2 ^ 8) (slot : tail < 2 ^ 16) :
    (opcode ||| tail <<< 16 % 2 ^ 32) / 2 ^ 16 % 2 ^ 16 = tail := by
  rw [Nat.shiftLeft_eq, Nat.mod_eq_of_lt (a := tail * 2 ^ 16) (by omega), Nat.or_comm,
    Words.or_eq_add (n := 16) (by omega) (by omega)]
  omega

/-! ## Waiting -/

variable {r : NvmeRequest} {s : NvmeSystem}

@[simp] theorem NvmeSystem.notePoll_sq : s.notePoll.sq = s.sq := rfl

theorem NvmeSystem.notePoll_post_sq : (s.notePoll.post r).sq = (s.post r).sq := by
  by_cases idle : s.sq.doorbell.value = s.controller.sqHead
  · simp [NvmeSystem.post, NvmeSystem.notePoll, idle]
  · simp [NvmeSystem.post, NvmeSystem.notePoll, idle, NvmeSystem.answered]

/-- A queue whose expected phase is no bit never becomes ready. -/
theorem nvmeWaitLoop_stuck (stuck : 1 < s.sq.cq.phase) (left : ℕ) :
    nvmeWaitLoop r left s = .error (.panic "[NVMe]\ttimed out waiting for command") := by
  induction left generalizing s with
  | zero => rfl
  | succ left ih =>
    have kept : (s.tick r (left + 1)).sq.cq.phase = s.sq.cq.phase := by
      rw [NvmeSystem.tick, NvmeSystem.post]
      split_ifs <;> rfl
    rw [← kept] at stuck
    have poll : nvmePollCq (s.tick r (left + 1)).sq.cq = false := by
      rw [nvmePollCq, decide_eq_false_iff_not]
      split_ifs <;> omega
    rw [nvmeWaitLoop, poll]
    exact ih stuck

/-- The state after `n` polls that report nothing. -/
def NvmeSystem.quiet (s : NvmeSystem) (n : ℕ) : NvmeSystem :=
  let note := (decide (s.returned.length < s.controller.posted.length), false)
  { s with polls := List.replicate n note ++ s.polls }

/-- The polls before the answer report nothing; then the completion is consumed. -/
theorem nvmeWaitLoop_answered {left : ℕ} (soon : 500 ≤ r.delay + left) (late : r.delay < 500)
    (before : nvmePollCq s.sq.cq = false) (after : nvmePollCq (s.post r).sq.cq = true) :
    ∃ n, nvmeWaitLoop r left s = ((s.quiet n).post r).notePoll.consume := by
  induction left generalizing s with
  | zero => omega
  | succ left ih =>
    rw [nvmeWaitLoop]
    by_cases now : r.delay + (left + 1) = 500
    · refine ⟨0, ?_⟩
      simp only [NvmeSystem.tick, now, if_true, after]
      rfl
    · simp only [NvmeSystem.tick, now, if_false, before, Bool.false_eq_true]
      obtain ⟨n, run⟩ := ih (s := s.notePoll) (by omega) before
        (by rw [NvmeSystem.notePoll_post_sq, after])
      refine ⟨n + 1, ?_⟩
      rw [run, NvmeSystem.quiet, NvmeSystem.quiet, List.replicate_succ', List.append_assoc]
      simp only [NvmeSystem.notePoll, before, List.singleton_append]

/-- The queues after the completion at the head is consumed. -/
def NvmeSq.advance (sq : NvmeSq) : NvmeSq :=
  { sq with
    head := (sq.cq.entry sq.cq.head).sqHead
    cq := { sq.cq with
      phase := if nextSlot sq.cq.head sq.cq.mask ≠ (sq.cq.head + 1) % 2 ^ 32 then
        invertPhase sq.cq.phase else sq.cq.phase
      head := nextSlot sq.cq.head sq.cq.mask
      doorbell.value := nextSlot sq.cq.head sq.cq.mask } }

theorem NvmeSystem.consume_eq (ready : nvmePollCq s.sq.cq = true) :
    s.consume = .ok { s.notePoll with
      sq := s.sq.advance, returned := s.sq.cq.entry s.sq.cq.head :: s.returned } := by
  rw [NvmeSystem.consume, nvmeCommandCqe, if_neg (by simp [ready])]
  rfl

/-! ## The first lap of the completion queue -/

/-- The completion of the `i`-th command. -/
def completion (i : ℕ) (r : NvmeRequest) : NvmeCqEntry :=
  ⟨r.result, 0, (i + 1) % 64, 0, i % 64, 2 * r.status + if i / 256 % 2 = 0 then 1 else 0⟩

theorem completion_phase {i : ℕ} (lap : i < 256) : (completion i r).status % 2 = 1 := by
  simp only [completion, Nat.div_eq_of_lt lap, Nat.zero_mod, if_true]
  omega

/-- Driver and controller after `k` commands, up to the end of the first lap. -/
structure InStep (k : ℕ) (s : NvmeSystem) : Prop where
  sqMask : s.sq.mask = 63
  cqMask : s.sq.cq.mask = 255
  sqSize : s.controller.sqSize = 64
  cqSize : s.controller.cqSize = 256
  tail : s.sq.tail = k % 64
  sqHead : s.controller.sqHead = k % 64
  head : s.sq.cq.head = k % 256
  cqTail : s.controller.cqTail = k % 256
  phase : s.sq.cq.phase = if k < 256 then 1 else 0xFE
  devicePhase : k < 256 → s.controller.phase = 1
  clear : ∀ i, k ≤ i → s.sq.cq.entry i = ⟨0, 0, 0, 0, 0, 0⟩
  consumed : s.returned = s.controller.posted
  honest : ∀ p ∈ s.polls, p.1 = p.2

theorem nvmeAdmin_inStep (base stride : ℕ) :
    ∃ s, nvmeAdmin base stride = .ok s ∧ InStep 0 s ∧ s.returned = [] := by
  refine ⟨_, rfl, ?_, rfl⟩
  constructor <;> first | rfl | simp [queueMask]

/-- The `k`-th command of the first lap is submitted and not answered yet. -/
structure Waiting (k : ℕ) (s : NvmeSystem) : Prop where
  lap : k < 256
  sqMask : s.sq.mask = 63
  cqMask : s.sq.cq.mask = 255
  sqSize : s.controller.sqSize = 64
  cqSize : s.controller.cqSize = 256
  tail : s.sq.tail = (k + 1) % 64
  doorbell : s.sq.doorbell.value = (k + 1) % 64
  sqHead : s.controller.sqHead = k % 64
  head : s.sq.cq.head = k
  cqTail : s.controller.cqTail = k
  phase : s.sq.cq.phase = 1
  devicePhase : s.controller.phase = 1
  commandId : (s.sq.entry (k % 64)).cmd / 2 ^ 16 % 2 ^ 16 = k % 64
  clear : ∀ i, k ≤ i → s.sq.cq.entry i = ⟨0, 0, 0, 0, 0, 0⟩
  consumed : s.returned = s.controller.posted
  honest : ∀ p ∈ s.polls, p.1 = p.2

theorem InStep.submit {k : ℕ} (h : InStep k s) (lap : k < 256) (valid : r.Valid) :
    ∃ s', s.submit r = .ok s' ∧ Waiting k s' ∧ s'.returned = s.returned := by
  have slot : k % 64 < 2 ^ 6 := Nat.mod_lt _ (by decide)
  have aligned : r.data &&& 0xFFF = 0 := and_0xFFF valid.data
  have next : nextSlot s.sq.tail s.sq.mask = (k + 1) % 64 := by
    rw [h.tail, h.sqMask, show 63 = 2 ^ 6 - 1 from rfl, nextSlot_eq slot (by decide)]
    omega
  have id := command_id valid.opcode (show k % 64 < 2 ^ 16 by omega)
  rw [NvmeSystem.submit, nvmeCommandCreate, if_neg (by simp [aligned])]
  refine ⟨_, rfl, ⟨lap, h.sqMask, h.cqMask, h.sqSize, h.cqSize, next, next, h.sqHead, ?_, ?_, ?_,
    h.devicePhase lap, ?_, h.clear, h.consumed, h.honest⟩, rfl⟩
  · exact h.head.trans (Nat.mod_eq_of_lt lap)
  · exact h.cqTail.trans (Nat.mod_eq_of_lt lap)
  · exact h.phase.trans (if_pos lap)
  · simpa [nvmeCommandSubmit, h.tail] using id

namespace Waiting

variable {k : ℕ}

theorem quiet (h : Waiting k s) (n : ℕ) : Waiting k (s.quiet n) := by
  refine { h with honest := fun p hp => ?_ }
  rcases List.mem_append.1 hp with noted | old
  · rw [List.eq_of_mem_replicate noted, h.consumed]
    simp
  · exact h.honest p old

theorem poll (h : Waiting k s) : nvmePollCq s.sq.cq = false := by
  have clear := h.clear k le_rfl
  rw [nvmePollCq_eq] <;> simp [h.head, clear, h.phase]

theorem post (h : Waiting k s) : s.post r = s.answered r := by
  rw [NvmeSystem.post, if_neg]
  rw [h.doorbell, h.sqHead]
  omega

theorem answer (h : Waiting k s) : s.controller.answer s.sq r = completion k r := by
  have lap := h.lap
  simp only [NvmeController.answer, completion, h.sqHead, h.sqSize, h.devicePhase, h.commandId,
    NvmeCqEntry.mk.injEq, true_and]
  constructor
  · omega
  · rw [if_pos (by omega)]

theorem entry_answered (h : Waiting k s) : (s.answered r).sq.cq.entry k = completion k r := by
  simp [NvmeSystem.answered, h.cqTail, h.answer]

theorem poll_answered (h : Waiting k s) : nvmePollCq (s.answered r).sq.cq = true := by
  have head : (s.answered r).sq.cq.head = k := h.head
  have phase : (s.answered r).sq.cq.phase = 1 := h.phase
  rw [nvmePollCq_eq] <;> rw [head, h.entry_answered]
  · rw [completion_phase h.lap, phase]
    rfl
  · simp only [completion]
    omega

/-- The answer is consumed, and driver and controller are in step again. -/
theorem finish (h : Waiting k s) : ∃ s', (s.answered r).notePoll.consume = .ok s' ∧
    InStep (k + 1) s' ∧ s'.returned = completion k r :: s.returned := by
  have lap := h.lap
  have head : (s.answered r).sq.cq.head = k := h.head
  have next : nextSlot k 255 = (k + 1) % 256 := nextSlot_eq (n := 8) lap (by decide)
  have waits : s.returned.length < (s.controller.answer s.sq r :: s.controller.posted).length := by
    rw [h.consumed]
    simp
  have poll := h.poll_answered (r := r)
  have entry := h.entry_answered (r := r)
  rw [NvmeSystem.consume_eq (s := (s.answered r).notePoll) poll]
  simp only [NvmeSystem.notePoll_sq, head, entry]
  refine ⟨_, rfl, ⟨h.sqMask, h.cqMask, h.sqSize, h.cqSize, h.tail, ?_, ?_, ?_, ?_, ?_, ?_, ?_, ?_⟩,
    rfl⟩
  · simp only [NvmeSystem.answered, NvmeSystem.notePoll, h.sqHead, h.sqSize]
    omega
  · simp [NvmeSystem.answered, NvmeSq.advance, h.head, h.cqMask, next]
  · simp [NvmeSystem.answered, NvmeSystem.notePoll, h.cqTail, h.cqSize]
  · simp only [NvmeSystem.answered, NvmeSq.advance, h.head, h.cqMask, next, h.phase]
    by_cases more : k + 1 < 256
    · rw [if_neg (by omega), if_pos more]
    · rw [if_pos (by omega), if_neg more]
      rfl
  · intro more
    simp only [NvmeSystem.answered, NvmeSystem.notePoll, h.cqTail, h.cqSize, h.devicePhase]
    rw [if_neg (by omega)]
  · intro i above
    simp only [NvmeSystem.answered, NvmeSq.advance, h.cqTail]
    rw [update_of_ne (by omega), h.clear i (by omega)]
  · simp only [NvmeSystem.answered, NvmeSystem.notePoll, h.answer, h.consumed]
  · intro p hp
    simp only [NvmeSystem.notePoll, poll, List.mem_cons] at hp
    rcases hp with rfl | rfl | old
    · exact decide_eq_true waits
    · exact decide_eq_true waits
    · exact h.honest p old

end Waiting

/-- One command of the first lap is answered. -/
theorem InStep.command {k : ℕ} (h : InStep k s) (lap : k < 256) (valid : r.Valid) :
    ∃ s', nvmeCommand r s = .ok s' ∧ InStep (k + 1) s' ∧ s'.returned = completion k r ::
      s.returned := by
  obtain ⟨s₁, submit, waiting, same⟩ := h.submit lap valid
  obtain ⟨n, run⟩ := nvmeWaitLoop_answered
    (show 500 ≤ r.delay + 500 by omega) valid.delay waiting.poll
    (by rw [waiting.post, waiting.poll_answered])
  obtain ⟨s', finish, inStep, returned⟩ := (waiting.quiet n).finish (r := r)
  refine ⟨s', ?_, inStep, ?_⟩
  · rw [nvmeCommand, submit, Fallible.ok_bind, nvmeWait, run, (waiting.quiet n).post, finish]
  · rw [returned, ← same]
    rfl

theorem InStep.commands {rs : List NvmeRequest} {k : ℕ} (h : InStep k s)
    (lap : k + rs.length ≤ 256) (valid : ∀ r ∈ rs, r.Valid) :
    ∃ s', nvmeCommands rs s = .ok s' ∧ InStep (k + rs.length) s' ∧
      s'.returned.reverse = s.returned.reverse ++ rs.mapIdx fun i => completion (k + i) := by
  induction rs generalizing k s with
  | nil => exact ⟨s, rfl, h, by simp⟩
  | cons r rs ih =>
    rw [List.length_cons] at lap ⊢
    obtain ⟨s₁, call, inStep, returned⟩ := h.command (by omega) (valid r (by simp))
    obtain ⟨s', calls, inStep', returned'⟩ := ih inStep (by omega)
      fun x hx => valid x (List.mem_cons_of_mem _ hx)
    refine ⟨s', ?_, ?_, ?_⟩
    · rw [nvmeCommands, call, Fallible.ok_bind, calls]
    · rw [show k + (rs.length + 1) = k + 1 + rs.length by omega]
      exact inStep'
    · rw [returned', returned, List.mapIdx_cons]
      simp [Nat.add_assoc, Nat.add_comm 1]

theorem nvmeCommands_append (as bs : List NvmeRequest) (s : NvmeSystem) :
    nvmeCommands (as ++ bs) s = nvmeCommands as s >>= nvmeCommands bs := by
  induction as generalizing s with
  | nil => rfl
  | cons r as ih =>
    rw [List.cons_append, nvmeCommands, nvmeCommands]
    cases nvmeCommand r s with
    | error e => rfl
    | ok s' => exact ih s'

/-! ## How many commands are served -/

/-- The `i`-th wait returns the completion of the `i`-th command, and no poll is wrong. -/
def Served (base stride : ℕ) (rs : List NvmeRequest) : Prop :=
  ∃ s₀ s, nvmeAdmin base stride = .ok s₀ ∧ nvmeCommands rs s₀ = .ok s ∧
    s.returned.reverse = rs.mapIdx completion ∧ s.controller.posted.reverse = rs.mapIdx completion ∧
    ∀ p ∈ s.polls, p.1 = p.2

variable {base stride : ℕ} {rs : List NvmeRequest}

theorem served_of_firstLap (valid : ∀ r ∈ rs, r.Valid) (lap : rs.length ≤ 256) :
    Served base stride rs := by
  obtain ⟨s₀, init, inStep, none⟩ := nvmeAdmin_inStep base stride
  obtain ⟨s, calls, inStep', returned⟩ := inStep.commands (by omega) valid
  have all : s.returned.reverse = rs.mapIdx completion := by
    rw [returned, none]
    simp
  exact ⟨s₀, s, init, calls, all, inStep'.consumed ▸ all, inStep'.honest⟩

/-- After the first lap the expected phase is `0xFE`, and the next command times out. -/
theorem InStep.timeout (h : InStep 256 s) (valid : r.Valid) :
    nvmeCommand r s = .error (.panic "[NVMe]\ttimed out waiting for command") := by
  have aligned : r.data &&& 0xFFF = 0 := and_0xFFF valid.data
  rw [nvmeCommand, NvmeSystem.submit, nvmeCommandCreate, if_neg (by simp [aligned])]
  refine nvmeWaitLoop_stuck (s := { s with sq := _ }) ?_ 500
  show 1 < s.sq.cq.phase
  rw [h.phase]
  decide

theorem nvmeCommands_timeout (base stride : ℕ) (valid : ∀ r ∈ rs, r.Valid) (long : 256 < rs.length) :
    ∃ s₀, nvmeAdmin base stride = .ok s₀ ∧
      nvmeCommands rs s₀ = .error (.panic "[NVMe]\ttimed out waiting for command") := by
  obtain ⟨s₀, init, inStep, _⟩ := nvmeAdmin_inStep base stride
  obtain ⟨first, r, rest, rfl, length⟩ : ∃ first r rest, rs = first ++ r :: rest ∧
    first.length = 256 :=
    ⟨rs.take 256, rs[256], rs.drop 257, by simp, by simp; omega⟩
  obtain ⟨s, calls, inStep', _⟩ := inStep.commands (show 0 + first.length ≤ 256 by omega)
    fun x hx => valid x (List.mem_append_left _ hx)
  rw [length] at inStep'
  refine ⟨s₀, init, ?_⟩
  rw [nvmeCommands_append, calls, Fallible.ok_bind, nvmeCommands,
    inStep'.timeout (valid r (by simp)), Fallible.error_bind]

theorem not_served_of_long (valid : ∀ r ∈ rs, r.Valid) (long : 256 < rs.length) :
    ¬ Served base stride rs := by
  rintro ⟨s₀, s, init, calls, _⟩
  obtain ⟨s₀', init', timeout⟩ := nvmeCommands_timeout base stride valid long
  rw [init] at init'
  injection init' with same
  rw [same, timeout] at calls
  cases calls

/-- The protocol works for the first lap of the completion queue and for no longer: inverting the
phase as a byte turns 1 into `0xFE`, which no phase bit equals. -/
theorem served_iff (valid : ∀ r ∈ rs, r.Valid) : Served base stride rs ↔ rs.length ≤ 256 :=
  ⟨fun served => Nat.not_lt.1 fun long => not_served_of_long valid long served,
    served_of_firstLap valid⟩

/-- `nvme_identify_controller`, answered before the first poll. -/
def identify : NvmeRequest := ⟨6, 0, 0x100000, 0, 1, 0, 0, 0, 0, 0⟩

theorem identify_valid : identify.Valid := ⟨by decide, by decide, by decide⟩

/-- `nvme_rw_read` of eight blocks, answered before the last poll. -/
def readBlocks : NvmeRequest := ⟨2, 0, 0x100000, 1, 0, 0, 7, 499, 0, 0⟩

theorem readBlocks_valid : readBlocks.Valid := ⟨by decide, by decide, by decide⟩

/-- A lap of the completion queue: `nvme_identify_controller` and 255 reads. -/
theorem served_lap : Served 0xFFFFFE0000021000 4 (identify :: List.replicate 255 readBlocks) := by
  refine (served_iff fun r mem => ?_).2 (by rw [List.length_cons, List.length_replicate])
  rcases List.mem_cons.1 mem with rfl | read
  · exact identify_valid
  · exact List.eq_of_mem_replicate read ▸ readBlocks_valid

/-- The 257th command times out. -/
theorem not_served_identify : ¬ Served 0xFFFFFE0000021000 4 (List.replicate 257 identify) :=
  not_served_of_long (fun _ mem => List.eq_of_mem_replicate mem ▸ identify_valid)
    (by rw [List.length_replicate]; decide)

end Vineyard
