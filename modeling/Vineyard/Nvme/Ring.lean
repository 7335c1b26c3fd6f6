import Mathlib.Data.Nat.Factorization.Basic
import Vineyard.Nvme.Bounds
import Vineyard.Nvme.Protocol

/-!
# The I/O queues as rings

The queue pair that `nvme_io_cq_init` and `nvme_io_sq_init` leave, and the runs of submissions and
consumed completions on it.  The indices wrap by `mask`, which is the announced length less one, so
that they go around a ring whose length is the largest power of two that divides the announced one.
The expected phase is a bit on the first lap only.
-/

namespace Vineyard

open Function Programs Programs.Prog

/-- The I/O queues of `nvme_init`, for a controller with that value of `cap`. -/
def nvmeIoQueues (base stride cap : ℕ) : Except Fault NvmeSq := do
  let cq ← nvmeCqInit base stride 3 (nvmeIoLength cap cqEntrySize)
  nvmeSqInit base stride 2 (nvmeIoLength cap cqEntrySize) cq

/-- From `sq₀`, after that many submissions and consumed completions.  In between, commands are created
and the controller posts completions, so that the memory of the queues is any. -/
inductive NvmeSq.Run (sq₀ : NvmeSq) : ℕ → ℕ → NvmeSq → Prop
  | created : sq₀.Run 0 0 sq₀
  | submit {n k : ℕ} {sq : NvmeSq} (run : sq₀.Run n k sq) (entry : ℕ → NvmeSqEntry) :
      sq₀.Run (n + 1) k (nvmeCommandSubmit { sq with entry := entry })
  | complete {n k : ℕ} {sq sq' : NvmeSq} {cqe : NvmeCqEntry} (run : sq₀.Run n k sq)
      (entry : ℕ → NvmeCqEntry)
      (consumed : nvmeCommandCqe { sq with cq.entry := entry } = .ok (cqe, sq')) :
      sq₀.Run n (k + 1) sq'

/-- Where a ring of that length is after `n` submissions and `k` consumed completions; the phase is a
bit, inverted at each return of the head to 0. -/
structure NvmeSq.OnRing (sq₀ : NvmeSq) (length n k : ℕ) (sq : NvmeSq) : Prop where
  tail : sq.tail = n % length
  head : sq.cq.head = k % length
  phase : sq.cq.phase = (sq₀.cq.phase + k / length) % 2

/-- In each run of that many submissions and completions, or fewer, the queues are where such a ring
is. -/
def NvmeSq.IsRing (sq₀ : NvmeSq) (length n k : ℕ) : Prop :=
  ∀ n' ≤ n, ∀ k' ≤ k, ∀ sq, sq₀.Run n' k' sq → sq₀.OnRing length n' k' sq

variable {base stride cap length b c n k : ℕ} {sq₀ sq : NvmeSq}

/-! ## The queues after the initialization -/

section Initialization

variable {env : NvmeEnv} {io : NvmeSq}

/-- The controller structure has these registers and this I/O queue pair. -/
structure Nvme.Io (base stride : ℕ) (io : NvmeSq) (s : Nvme) : Prop where
  pages : s.base = base
  stride : s.doorbellStride = stride
  queues : s.sq .io = io

theorem Nvme.Io.setAdmin {s : Nvme} (h : s.Io base stride io) (sq : NvmeSq) :
    (s.setSq .admin sq).Io base stride io := by
  refine ⟨h.pages, h.stride, ?_⟩
  have other : NvmeQueue.io ≠ .admin := by decide
  exact (update_of_ne other sq s.sq).trans h.queues

theorem Nvme.Io.setIo {s : Nvme} (h : s.Io base stride io) (sq : NvmeSq) :
    (s.setSq .io sq).Io base stride sq := ⟨h.pages, h.stride, by simp [Nvme.setSq]⟩

theorem Nvme.Io.note {s : Nvme} (h : s.Io base stride io) (a : NvmeAccess) :
    (s.note a).Io base stride io := ⟨h.pages, h.stride, h.queues⟩

theorem Nvme.Io.look {s : Nvme} (h : s.Io base stride io) :
    (s.look env .admin).Io base stride io := by
  have set := h.setAdmin { s.sq .admin with cq.entry := env.completions s.time .admin }
  exact ⟨set.pages, set.stride, set.queues⟩

theorem nvmePoll_io : Triple (Nvme.Io base stride io) (nvmePoll env .admin)
    (fun _ => Nvme.Io base stride io) fun _ => True := by
  unfold nvmePoll
  apply Triple.modify_bind (M := Nvme.Io base stride io)
  · intro s h
    exact h.look.note _
  · apply Triple.get_bind
    intro t h
    exact Triple.pure fun s same => same ▸ h

theorem nvmeCqe_io : Triple (Nvme.Io base stride io) (nvmeCqe env .admin)
    (fun _ => Nvme.Io base stride io) fun _ => True := by
  unfold nvmeCqe
  apply Triple.bind nvmePoll_io
  intro _
  apply Triple.get_bind
  intro t h
  split
  · exact Triple.fail fun _ _ => trivial
  · apply Triple.modify_bind (M := Nvme.Io base stride io)
    · rintro s rfl
      exact ((h.note _).setAdmin _).note _
    · exact Triple.pure fun _ after => after

theorem nvmeAwaitLoop_io (left : ℕ) : Triple (Nvme.Io base stride io)
    (nvmeAwaitLoop env .admin left) (fun _ => Nvme.Io base stride io) fun _ => True := by
  induction left with
  | zero => exact Triple.fail fun _ _ => trivial
  | succ left ih =>
    unfold nvmeAwaitLoop
    apply Triple.bind nvmePoll_io
    intro ready
    exact Triple.ite (fun _ => nvmeCqe_io) fun _ => ih

/-- A command on the admin queues leaves the I/O queues alone. -/
theorem nvmeExecute_io (message : String) (op : NvmeOp) : Triple (Nvme.Io base stride io)
    (nvmeExecute env .admin message op) (fun _ => Nvme.Io base stride io) fun _ => True := by
  unfold nvmeExecute nvmeIssue
  apply Triple.bind (Q := fun _ => Nvme.Io base stride io)
  · apply Triple.get_bind
    intro t h
    split
    · exact Triple.fail fun _ _ => trivial
    · apply Triple.modify
      rintro s rfl
      exact ((h.note _).setAdmin _).note _
  · intro _
    apply Triple.bind (nvmeAwaitLoop_io 500)
    intro cqe
    exact Triple.ite (fun _ => Triple.fail fun _ _ => trivial) fun _ =>
      Triple.pure fun _ after => after

theorem nvmeBuffer_io : Triple (Nvme.Io base stride io) (nvmeBuffer env)
    (fun _ => Nvme.Io base stride io) fun _ => True := by
  unfold nvmeBuffer
  apply Triple.get_bind
  intro t h
  apply Triple.modify_bind (M := Nvme.Io base stride io)
  · rintro s rfl
    exact ⟨h.pages, h.stride, h.queues⟩
  · exact Triple.pure fun _ after => after

theorem nvmeWaitCstsRdy_io (rdy : ℕ) : Triple (Nvme.Io base stride io) (nvmeWaitCstsRdy env rdy)
    (fun _ => Nvme.Io base stride io) fun _ => True := by
  unfold nvmeWaitCstsRdy
  induction nvmeCapTo env.cap with
  | zero => exact Triple.fail fun _ _ => trivial
  | succ left ih =>
    unfold nvmeWaitCstsRdyLoop
    apply Triple.get_bind
    intro t h
    apply Triple.modify_bind (M := Nvme.Io base stride io)
    · rintro s rfl
      exact ⟨h.pages, h.stride, h.queues⟩
    · exact Triple.ite (fun _ => Triple.pure fun _ after => after) fun _ => ih

theorem nvmeAdminInit_io : Triple (Nvme.Io base stride io) nvmeAdminInit
    (fun _ => Nvme.Io base stride io) fun _ => True := by
  unfold nvmeAdminInit
  apply Triple.get_bind
  intro t h
  split
  · exact Triple.fail fun _ _ => trivial
  · split
    · exact Triple.fail fun _ _ => trivial
    · apply Triple.modify
      rintro s rfl
      exact ((h.setAdmin _).note _).note _

theorem nvmeNsProbe_io (id : ℕ) : Triple (Nvme.Io base stride io) (nvmeNsProbe env id)
    (fun _ => Nvme.Io base stride io) fun _ => True := by
  unfold nvmeNsProbe nvmeIdentifyNs
  apply Triple.ite
  · exact fun _ => Triple.fail fun _ _ => trivial
  · intro _
    apply Triple.bind (Triple.bind nvmeBuffer_io fun _ => nvmeExecute_io _ _)
    intro _
    exact Triple.ite (fun _ => Triple.fail fun _ _ => trivial) fun _ =>
      Triple.pure fun _ after => after

/-- After `nvme_io_cq_init` the completion queue is the one of `nvme_cq_init`. -/
theorem nvmeIoCqInit_io : Triple (Nvme.Io base stride io) (nvmeIoCqInit env 3)
    (fun _ s => ∃ cq, nvmeCqInit base stride 3 (nvmeIoLength env.cap cqEntrySize) = .ok cq ∧
      s.Io base stride { io with cq := cq }) fun _ => True := by
  unfold nvmeIoCqInit
  apply Triple.get_bind
  intro t h
  split
  · exact Triple.fail fun _ _ => trivial
  · rename_i cq made
    rw [h.pages, h.stride] at made
    apply Triple.modify_bind (M := Nvme.Io base stride { io with cq := cq })
    · rintro s rfl
      rw [← h.queues]
      exact (h.setIo _).note _
    · apply Triple.bind nvmeBuffer_io
      intro data
      apply Triple.mono (nvmeExecute_io _ _) (fun _ pre => pre)
      exact fun _ _ after => ⟨cq, made, after⟩

theorem nvmeIoSqInit_io : Triple (Nvme.Io base stride io) (nvmeIoSqInit env 2)
    (fun _ s => nvmeSqInit base stride 2 (nvmeIoLength env.cap cqEntrySize) io.cq = .ok (s.sq .io))
    fun _ => True := by
  unfold nvmeIoSqInit
  apply Triple.get_bind
  intro t h
  split
  · exact Triple.fail fun _ _ => trivial
  · rename_i sq made
    rw [h.pages, h.stride, h.queues] at made
    apply Triple.modify_bind (M := Nvme.Io base stride sq)
    · rintro s rfl
      exact (h.setIo sq).note _
    · apply Triple.bind nvmeBuffer_io
      intro data
      apply Triple.mono (nvmeExecute_io _ _) (fun _ pre => pre)
      exact fun _ _ after => after.queues ▸ made

/-- `nvme_init` leaves the I/O queues as they were made. -/
theorem nvmeInit_ioQueues : Triple (fun s => s.base = base) (nvmeInit env)
    (fun _ s => nvmeIoQueues base (4 <<< nvmeCapDstrd env.cap % 2 ^ 32) env.cap = .ok (s.sq .io))
    fun _ => True := by
  apply Triple.of_state
  rintro s rfl
  unfold nvmeInit
  apply Triple.modify_bind (M := Nvme.Io s.base (4 <<< nvmeCapDstrd env.cap % 2 ^ 32) (s.sq .io))
  · rintro _ rfl
    exact ⟨rfl, rfl, rfl⟩
  apply Triple.bind (nvmeWaitCstsRdy_io 0)
  intro _
  apply Triple.bind nvmeAdminInit_io
  intro _
  apply Triple.bind (nvmeWaitCstsRdy_io 1)
  intro _
  unfold nvmeIdentifyController
  apply Triple.bind (Triple.bind nvmeBuffer_io fun _ => nvmeExecute_io _ _)
  intro _
  apply Triple.bind (nvmeNsProbe_io 0)
  intro _
  apply Triple.bind nvmeIoCqInit_io
  intro _
  apply Triple.of_state
  rintro t ⟨cq, made, io⟩
  apply Triple.mono nvmeIoSqInit_io
  · rintro _ rfl
    exact io
  · intro _ u after
    rw [nvmeIoQueues, made]
    exact after

end Initialization

/-! ## The steps -/

/-- What a run starts with. -/
structure NvmeSq.Fresh (length : ℕ) (sq₀ : NvmeSq) : Prop where
  mask : sq₀.mask + 1 = length
  cqMask : sq₀.cq.mask = sq₀.mask
  tail : sq₀.tail = 0
  head : sq₀.cq.head = 0
  phase : sq₀.cq.phase = 1

theorem nvmeIoQueues_fresh (base stride cap : ℕ) :
    ∃ sq, nvmeIoQueues base stride cap = .ok sq ∧ sq.Fresh (min (cap % 2 ^ 16 + 1) 256) := by
  rw [nvmeIoQueues, nvmeIoLength_eq]
  exact ⟨_, rfl, queueMask_eq (by omega) (by omega), rfl, rfl, rfl, rfl⟩

/-- The phase changes with a head that returns to 0. -/
theorem nvmeCommandCqe_phase {sq sq' : NvmeSq} {cqe : NvmeCqEntry}
    (ok : nvmeCommandCqe sq = .ok (cqe, sq')) :
    sq'.cq.phase = if nextSlot sq.cq.head sq.cq.mask ≠ (sq.cq.head + 1) % 2 ^ 32 then
      invertPhase sq.cq.phase else sq.cq.phase := by
  unfold nvmeCommandCqe at ok
  dsimp only at ok
  split at ok
  · cases ok
  · cases ok
    rfl

/-- What a run never changes. -/
theorem NvmeSq.Run.masks (run : sq₀.Run n k sq) : sq.mask = sq₀.mask ∧ sq.cq.mask = sq₀.cq.mask := by
  induction run with
  | created => exact ⟨rfl, rfl⟩
  | submit run entry ih => exact ih
  | complete run entry consumed ih =>
    have left := nvmeCommandCqe_cases consumed
    exact ⟨left.1.trans ih.1, left.2.2.2.1.trans ih.2⟩

/-! ## The ring of the mask -/

/-- The lowest bit of the length that is set is clear in the mask, and all bits below it are set. -/
theorem nextSlot_mod {mask x : ℕ} (size : mask + 1 = 2 ^ b * (2 * c + 1)) (fits : b < 32)
    (below : x < 2 ^ b) : nextSlot x mask = (x + 1) % 2 ^ b := by
  have small : 2 ^ b ≤ 2 ^ 31 := Nat.pow_le_pow_right (by decide) (by omega)
  have double : 2 ^ (b + 1) = 2 * 2 ^ b := by rw [Nat.pow_succ, Nat.mul_comm]
  have low : mask % 2 ^ (b + 1) = 2 ^ b - 1 := by
    have split : mask = (2 ^ b - 1) + 2 ^ (b + 1) * c := by
      have pos := Nat.two_pow_pos b
      rw [Nat.mul_add, Nat.mul_one, Nat.mul_left_comm, ← Nat.mul_assoc, ← double] at size
      omega
    rw [split, Nat.add_mul_mod_self_left, Nat.mod_eq_of_lt (by omega)]
  have all : (x + 1) &&& (2 ^ (b + 1) - 1) = x + 1 := by
    rw [Nat.and_two_pow_sub_one_eq_mod, Nat.mod_eq_of_lt (by omega)]
  rw [nextSlot, Nat.mod_eq_of_lt (a := x + 1) (by omega), ← all, Nat.and_assoc,
    Nat.and_comm _ mask, Nat.and_two_pow_sub_one_eq_mod, low, Nat.and_two_pow_sub_one_eq_mod, all]

/-- The queues after `n` submissions and `k` completions, none of them beyond the first lap. -/
structure NvmeSq.Lap (b n k : ℕ) (sq : NvmeSq) : Prop where
  tail : sq.tail = n % 2 ^ b
  head : sq.cq.head = k % 2 ^ b
  phase : sq.cq.phase = if k < 2 ^ b then 1 else 0xFE
  le : k ≤ 2 ^ b

/-- After the first lap the expected phase is no bit, and no entry has it. -/
theorem NvmeSq.Lap.idle (lap : sq.Lap b n (2 ^ b)) (entry : ℕ → NvmeCqEntry) :
    nvmePollCq { sq.cq with entry := entry } = false := by
  have phase := lap.phase
  rw [if_neg (Nat.lt_irrefl _)] at phase
  rw [nvmePollCq, phase, decide_eq_false_iff_not]
  split <;> decide

/-- **The invariant of a run**: the tail and the head go around the ring of `2 ^ b` slots. -/
theorem NvmeSq.Fresh.lap (fresh : sq₀.Fresh (2 ^ b * (2 * c + 1))) (fits : b < 32)
    (run : sq₀.Run n k sq) : sq.Lap b n k := by
  have pos := Nat.two_pow_pos b
  induction run with
  | created =>
    refine ⟨?_, ?_, ?_, Nat.zero_le _⟩
    · rw [fresh.tail, Nat.zero_mod]
    · rw [fresh.head, Nat.zero_mod]
    · rw [fresh.phase, if_pos pos]
  | @submit n k sq run entry ih =>
    refine ⟨?_, ih.head, ih.phase, ih.le⟩
    show nextSlot _ _ = _
    rw [run.masks.1, ih.tail, nextSlot_mod fresh.mask fits (Nat.mod_lt _ pos), Nat.mod_add_mod]
  | @complete n k sq sq' cqe run entry consumed ih =>
    have mask : sq.cq.mask + 1 = 2 ^ b * (2 * c + 1) := by rw [run.masks.2, fresh.cqMask, fresh.mask]
    have left := nvmeCommandCqe_cases consumed
    have less : k < 2 ^ b := by
      apply Nat.lt_of_le_of_ne ih.le
      rintro rfl
      rw [nvmeCommandCqe, if_pos (ih.idle entry)] at consumed
      cases consumed
    have next : nextSlot sq.cq.head sq.cq.mask = (k + 1) % 2 ^ b := by
      rw [ih.head, nextSlot_mod mask fits (Nat.mod_lt _ pos), Nat.mod_add_mod]
    have word : sq.cq.head + 1 = k + 1 := by rw [ih.head, Nat.mod_eq_of_lt less]
    have small : 2 ^ b ≤ 2 ^ 31 := Nat.pow_le_pow_right (by decide) (by omega)
    refine ⟨left.2.1.trans ih.tail, left.2.2.2.2.1.trans next, ?_, less⟩
    have whole : (k + 1) % 2 ^ 32 = k + 1 := by
      clear left next word
      omega
    rw [nvmeCommandCqe_phase consumed]
    dsimp only
    rw [next, word, whole, ih.phase, if_pos less]
    by_cases last : k + 1 < 2 ^ b
    · rw [Nat.mod_eq_of_lt last, if_neg (not_not.2 rfl), if_pos last]
    · have full : k + 1 = 2 ^ b := Nat.le_antisymm less (Nat.le_of_not_lt last)
      rw [full, Nat.mod_self, if_pos pos.ne, if_neg (Nat.lt_irrefl _)]
      rfl

/-! ## The runs there are -/

theorem NvmeSq.run_submissions (sq₀ : NvmeSq) (n : ℕ) : ∃ sq, sq₀.Run n 0 sq := by
  induction n with
  | zero => exact ⟨sq₀, .created⟩
  | succ n ih =>
    rcases ih with ⟨sq, run⟩
    exact ⟨_, .submit run sq.entry⟩

/-- A completion with the bit that a controller writes on its first lap. -/
def postedEntry : NvmeCqEntry := ⟨0, 0, 0, 0, 0, 1⟩

/-- Each number of completions can be consumed on the first lap. -/
theorem NvmeSq.Fresh.run_completions (fresh : sq₀.Fresh (2 ^ b * (2 * c + 1))) (fits : b < 32)
    (run : sq₀.Run n 0 sq) (le : k ≤ 2 ^ b) : ∃ sq', sq₀.Run n k sq' := by
  induction k with
  | zero => exact ⟨sq, run⟩
  | succ k ih =>
    rcases ih (by omega) with ⟨sq', run'⟩
    have phase : sq'.cq.phase = 1 := (fresh.lap fits run').phase.trans (if_pos le)
    have ready : nvmePollCq { sq'.cq with entry := fun _ => postedEntry } = true := by
      rw [nvmePollCq_eq (show postedEntry.commandId < 2 ^ 16 by decide)]
      exact decide_eq_true phase.symm
    have consumed : ∃ cqe sq'', nvmeCommandCqe { sq' with cq.entry := fun _ => postedEntry } =
        .ok (cqe, sq'') := by
      rw [nvmeCommandCqe, if_neg (by simp [ready])]
      exact ⟨_, _, rfl⟩
    rcases consumed with ⟨cqe, sq'', consumed⟩
    exact ⟨sq'', .complete run' _ consumed⟩

/-- A queue pair is where a ring of its length is up to the end of the first lap of the head, and of
the tail if the length is no power of two. -/
theorem NvmeSq.Fresh.isRing_iff (fresh : sq₀.Fresh (2 ^ b * (2 * c + 1))) (fits : b < 32) :
    sq₀.IsRing (2 ^ b * (2 * c + 1)) n k ↔ k < 2 ^ b ∧ (c = 0 ∨ n < 2 ^ b) := by
  have pos := Nat.two_pow_pos b
  have le : 2 ^ b ≤ 2 ^ b * (2 * c + 1) := Nat.le_mul_of_pos_right _ (by omega)
  constructor
  · intro ring
    constructor
    · -- at the end of the lap the phase is no bit
      by_contra more
      rcases fresh.run_completions fits .created le_rfl with ⟨sq, run⟩
      have phase := (ring 0 (Nat.zero_le _) (2 ^ b) (by omega) sq run).phase
      rw [(fresh.lap fits run).phase, if_neg (Nat.lt_irrefl _)] at phase
      omega
    · -- and the tail is 0
      by_contra neither
      push Not at neither
      rcases sq₀.run_submissions (2 ^ b) with ⟨sq, run⟩
      have tail := (ring (2 ^ b) neither.2 0 (Nat.zero_le _) sq run).tail
      have longer : 2 ^ b < 2 ^ b * (2 * c + 1) := by
        rw [Nat.mul_add, Nat.mul_one]
        have : 0 < 2 ^ b * (2 * c) := Nat.mul_pos pos (by omega)
        omega
      rw [(fresh.lap fits run).tail, Nat.mod_self, Nat.mod_eq_of_lt longer] at tail
      omega
  · rintro ⟨few, power⟩ n' leN k' leK sq run
    have lap := fresh.lap fits run
    have k_lt : k' < 2 ^ b := by omega
    refine ⟨?_, ?_, ?_⟩
    · rw [lap.tail]
      rcases power with rfl | small
      · rw [Nat.mul_zero, Nat.zero_add, Nat.mul_one]
      · rw [Nat.mod_eq_of_lt (by omega), Nat.mod_eq_of_lt (by omega)]
    · rw [lap.head, Nat.mod_eq_of_lt k_lt, Nat.mod_eq_of_lt (by omega)]
    · rw [lap.phase, if_pos k_lt, fresh.phase, Nat.div_eq_of_lt (by omega)]

/-- **The I/O queues** are where rings of the announced length are, in each run whose completions are
fewer than the largest power of two that divides this length, and so are its submissions unless the
length is that power. -/
theorem nvmeIoQueues_isRing_iff (base stride cap : ℕ) :
    ∃ sq b c, nvmeIoQueues base stride cap = .ok sq ∧
      queueWord sq.cq.mask 3 / 2 ^ 16 + 1 = min (cap % 2 ^ 16 + 1) 256 ∧
      queueWord sq.mask 2 / 2 ^ 16 + 1 = min (cap % 2 ^ 16 + 1) 256 ∧
      min (cap % 2 ^ 16 + 1) 256 = 2 ^ b * (2 * c + 1) ∧
      ∀ n k, sq.IsRing (min (cap % 2 ^ 16 + 1) 256) n k ↔ k < 2 ^ b ∧ (c = 0 ∨ n < 2 ^ b) := by
  rcases nvmeIoQueues_fresh base stride cap with ⟨sq, made, fresh⟩
  have size := fresh.mask
  obtain ⟨b, m, ⟨c, rfl⟩, length⟩ :=
    Nat.exists_eq_two_pow_mul_odd (n := min (cap % 2 ^ 16 + 1) 256) (by omega)
  have fits : b < 32 := by
    have le : 2 ^ b ≤ 2 ^ b * (2 * c + 1) := Nat.le_mul_of_pos_right _ (by omega)
    exact (Nat.pow_lt_pow_iff_right (by decide)).1 (show 2 ^ b < 2 ^ 32 by omega)
  refine ⟨sq, b, c, made, ?_, ?_, length, fun n k => ?_⟩
  · rw [queueWord_entries (by have := fresh.cqMask; omega) (by decide), fresh.cqMask, size]
  · rw [queueWord_entries (by omega) (by decide), size]
  · rw [length] at fresh ⊢
    exact fresh.isRing_iff fits

/-- A controller that allows three entries: after one submission the tail is 0 again.  One that allows
two: after two commands the expected phase is no bit. -/
theorem nvmeIoQueues_three :
    (∃ sq, nvmeIoQueues 0 4 2 = .ok sq ∧ sq.Run 1 0 (nvmeCommandSubmit sq) ∧
      (nvmeCommandSubmit sq).tail = 0 ∧ ¬ sq.IsRing 3 1 0) ∧
    ∃ sq sq', nvmeIoQueues 0 4 1 = .ok sq ∧ sq.Run 2 2 sq' ∧ sq'.cq.phase = 0xFE ∧
      ¬ sq.IsRing 2 2 2 := by
  constructor
  · rcases nvmeIoQueues_fresh 0 4 2 with ⟨sq, made, fresh⟩
    have run : sq.Run 1 0 (nvmeCommandSubmit sq) := .submit .created sq.entry
    have zero : (nvmeCommandSubmit sq).tail = 0 := by
      have size : sq.mask = 2 := Nat.succ_inj.1 fresh.mask
      show nextSlot sq.tail sq.mask = 0
      rw [fresh.tail, size]
      rfl
    refine ⟨sq, made, run, zero, fun ring => ?_⟩
    have tail := (ring 1 le_rfl 0 le_rfl _ run).tail
    rw [zero] at tail
    exact absurd tail (by decide)
  · rcases nvmeIoQueues_fresh 0 4 1 with ⟨sq, made, fresh⟩
    have two : sq.Fresh (2 ^ 1 * (2 * 0 + 1)) := fresh
    rcases two.run_completions (by decide) (.submit (.submit .created sq.entry) sq.entry) le_rfl with
      ⟨sq', run⟩
    have phase : sq'.cq.phase = 0xFE := (two.lap (by decide) run).phase
    refine ⟨sq, sq', made, run, phase, fun ring => ?_⟩
    have bit := (ring 2 le_rfl 2 le_rfl sq' run).phase
    rw [phase, fresh.phase] at bit
    exact absurd bit (by decide)

end Vineyard
