import Vineyard.Nvme.Controller

/-!
# Queue memory and doorbells

Each queue lives in one page, and the doorbells in the second of the two pages mapped for the
registers.  A queue pair is `Inside` when its slots and doorbells are; commands keep that, and the
creation of the queues establishes it for controllers whose capabilities are small enough.  For every
other controller that comes up at all there is a run of the driver that leaves the bounds.
-/

namespace Vineyard

open Function Programs Programs.Prog

/-- Four bytes at the address lie in the two pages at `base`. -/
def InPages (base address : ℕ) : Prop := Word64.sub address base + 4 ≤ 0x2000

/-- The access stays in what was allocated for it. -/
def NvmeAccess.Inside (base : ℕ) : NvmeAccess → Prop
  | .sqWrite _ slot => sqEntrySize * slot + sqEntrySize ≤ 0x1000
  | .cqRead _ slot => cqEntrySize * slot + cqEntrySize ≤ 0x1000
  | .doorbell address => InPages base address
  | .announce entries entrySize => entries * entrySize ≤ 0x1000

/-- All accesses so far stayed inside. -/
def Nvme.Inside (base : ℕ) (s : Nvme) : Prop := ∀ a ∈ s.accesses, a.Inside base

/-- In every run on a controller with these capabilities, whatever it answers and whatever commands
are executed, all accesses stay inside. -/
def NvmeContained (base cap : ℕ) : Prop :=
  ∀ env : NvmeEnv, env.cap = cap → ∀ ops, ((nvmeRun env ops).run (Nvme.calloc base)).2.Inside base

/-- The completion queue fits its page, and so does what the driver does with it. -/
structure NvmeCq.Inside (base : ℕ) (cq : NvmeCq) : Prop where
  head : cq.head ≤ cq.mask
  mask : cqEntrySize * (cq.mask + 1) ≤ 0x1000
  doorbell : InPages base cq.doorbell.address

/-- The submission queue fits its page, and so does what the driver does with it. -/
structure NvmeSq.Inside (base : ℕ) (sq : NvmeSq) : Prop where
  tail : sq.tail ≤ sq.mask
  mask : sqEntrySize * (sq.mask + 1) ≤ 0x1000
  doorbell : InPages base sq.doorbell.address

/-- The state of the driver when the submission queues in `sqs` and the completion queues in `cqs`
have been created. -/
structure Nvme.Bounded (base stride : ℕ) (sqs cqs : NvmeQueue → Prop) (s : Nvme) : Prop where
  pages : s.base = base
  stride : s.doorbellStride = stride
  accesses : s.Inside base
  sq : ∀ q, sqs q → (s.sq q).Inside base
  cq : ∀ q, cqs q → (s.sq q).cq.Inside base

/-! ## Words -/

theorem nextSlot_le (x mask : ℕ) : nextSlot x mask ≤ mask := Nat.and_le_right

theorem doorbell_inPages {base stride index : ℕ} (near : index * stride + 4 ≤ 0x1000) :
    InPages base (doorbellAddress base stride index) := by
  unfold InPages doorbellAddress Word64.sub Word64.add
  omega

theorem doorbell_inPages_iff {base stride index : ℕ} (fits : index * stride < 2 ^ 32) :
    InPages base (doorbellAddress base stride index) ↔ index * stride + 4 ≤ 0x1000 := by
  unfold InPages doorbellAddress Word64.sub Word64.add
  omega

theorem queueMask_eq {length : ℕ} (pos : 0 < length) (small : length ≤ 2 ^ 16) :
    queueMask length + 1 = length := by
  unfold queueMask
  omega

theorem nvmeIoLength_eq (cap : ℕ) :
    nvmeIoLength cap cqEntrySize = min (cap % 2 ^ 16 + 1) 256 := by
  have low : cap &&& 0xFFFF = cap % 2 ^ 16 := Words.and_low cap 16
  unfold nvmeIoLength cqEntrySize
  rw [low]
  dsimp only
  split <;> omega

/-- The controller reads the number of entries back from the word that announces a queue. -/
theorem queueWord_entries {mask index : ℕ} (small : mask < 2 ^ 16) (few : index < 2 ^ 16) :
    queueWord mask index / 2 ^ 16 + 1 = mask + 1 := by
  have high : mask <<< 16 % 2 ^ 32 = mask * 2 ^ 16 := by
    rw [Nat.shiftLeft_eq]
    exact Nat.mod_eq_of_lt (by omega)
  have half : index >>> 1 < 2 ^ 16 := by
    rw [Nat.shiftRight_eq_div_pow]
    omega
  unfold queueWord
  rw [high, Words.or_eq_add (Nat.mul_mod_left mask (2 ^ 16)) half]
  omega

/-! ## Commands keep the bounds -/

section Commands

variable {base stride : ℕ} {sqs cqs : NvmeQueue → Prop} {q : NvmeQueue} {env : NvmeEnv}

theorem Nvme.Inside.note {s : Nvme} {a : NvmeAccess} (h : s.Inside base) (inside : a.Inside base) :
    (s.note a).Inside base := by
  intro b mem
  rcases List.mem_cons.1 mem with rfl | old
  · exact inside
  · exact h b old

theorem Nvme.Bounded.note {s : Nvme} {a : NvmeAccess} (h : s.Bounded base stride sqs cqs)
    (inside : a.Inside base) : (s.note a).Bounded base stride sqs cqs :=
  ⟨h.pages, h.stride, h.accesses.note inside, h.sq, h.cq⟩

/-- Time passes. -/
theorem Nvme.Bounded.at {s : Nvme} (h : s.Bounded base stride sqs cqs) (time : ℕ) :
    ({ s with time := time } : Nvme).Bounded base stride sqs cqs :=
  ⟨h.pages, h.stride, h.accesses, h.sq, h.cq⟩

/-- A queue pair is replaced by one that is inside as far as the replaced one was. -/
theorem Nvme.Bounded.setSq {s : Nvme} (h : s.Bounded base stride sqs cqs) {sq : NvmeSq}
    (sqInside : sqs q → sq.Inside base) (cqInside : cqs q → sq.cq.Inside base) :
    (s.setSq q sq).Bounded base stride sqs cqs := by
  refine ⟨h.pages, h.stride, h.accesses, fun p created => ?_, fun p created => ?_⟩
  · by_cases same : p = q
    · subst same
      simpa [Nvme.setSq] using sqInside created
    · simpa [Nvme.setSq, same] using h.sq p created
  · by_cases same : p = q
    · subst same
      simpa [Nvme.setSq] using cqInside created
    · simpa [Nvme.setSq, same] using h.cq p created

theorem NvmeCq.Inside.read {cq : NvmeCq} (h : cq.Inside base) :
    (NvmeAccess.cqRead q cq.head).Inside base := by
  have := h.head
  have := h.mask
  unfold NvmeAccess.Inside cqEntrySize at *
  omega

theorem NvmeSq.Inside.write {sq : NvmeSq} (h : sq.Inside base) :
    (NvmeAccess.sqWrite q sq.tail).Inside base := by
  have := h.tail
  have := h.mask
  unfold NvmeAccess.Inside sqEntrySize at *
  omega

theorem Nvme.Bounded.look {s : Nvme} (h : s.Bounded base stride sqs cqs) :
    (s.look env q).Bounded base stride sqs cqs := by
  apply Nvme.Bounded.at
  apply h.setSq
  · intro created
    exact ⟨(h.sq q created).tail, (h.sq q created).mask, (h.sq q created).doorbell⟩
  · intro created
    exact ⟨(h.cq q created).head, (h.cq q created).mask, (h.cq q created).doorbell⟩

theorem nvmePoll_keeps (created : cqs q) :
    Triple (Nvme.Bounded base stride sqs cqs) (nvmePoll env q)
      (fun _ => Nvme.Bounded base stride sqs cqs) (Nvme.Inside base) := by
  unfold nvmePoll
  apply Triple.modify_bind
  · intro s h
    exact h.look.note (h.cq q created).read
  · apply Triple.get_bind
    intro t h
    exact Triple.pure fun s same => same ▸ h

/-- What `nvme_command_cqe` leaves of the queues. -/
theorem nvmeCommandCqe_cases {sq sq' : NvmeSq} {cqe : NvmeCqEntry}
    (ok : nvmeCommandCqe sq = .ok (cqe, sq')) :
    sq'.mask = sq.mask ∧ sq'.tail = sq.tail ∧ sq'.doorbell = sq.doorbell ∧
      sq'.cq.mask = sq.cq.mask ∧ sq'.cq.head = nextSlot sq.cq.head sq.cq.mask ∧
      sq'.cq.doorbell.address = sq.cq.doorbell.address := by
  unfold nvmeCommandCqe at ok
  dsimp only at ok
  split at ok
  · cases ok
  · cases ok
    exact ⟨rfl, rfl, rfl, rfl, rfl, rfl⟩

theorem nvmeCqe_keeps (sqCreated : sqs q) (created : cqs q) :
    Triple (Nvme.Bounded base stride sqs cqs) (nvmeCqe env q)
      (fun _ => Nvme.Bounded base stride sqs cqs) (Nvme.Inside base) := by
  unfold nvmeCqe
  apply Triple.bind (nvmePoll_keeps created)
  intro _
  apply Triple.get_bind
  intro t h
  cases outcome : nvmeCommandCqe (t.sq q) with
  | error fault => exact Triple.fail fun s same => same ▸ h.accesses
  | ok result =>
    obtain ⟨cqe, sq⟩ := result
    have left := nvmeCommandCqe_cases outcome
    have sqInside := h.sq q sqCreated
    have cqInside := h.cq q created
    have sqAfter : sq.Inside base := by
      refine ⟨?_, ?_, ?_⟩
      · rw [left.2.1, left.1]
        exact sqInside.tail
      · rw [left.1]
        exact sqInside.mask
      · rw [left.2.2.1]
        exact sqInside.doorbell
    have cqAfter : sq.cq.Inside base := by
      refine ⟨?_, ?_, ?_⟩
      · rw [left.2.2.2.2.1, left.2.2.2.1]
        exact nextSlot_le _ _
      · rw [left.2.2.2.1]
        exact cqInside.mask
      · rw [left.2.2.2.2.2]
        exact cqInside.doorbell
    apply Triple.modify_bind
    · rintro s rfl
      exact ((h.note cqInside.read).setSq (fun _ => sqAfter) fun _ => cqAfter).note
        cqAfter.doorbell
    · exact Triple.pure fun _ after => after

theorem nvmeAwaitLoop_keeps (sqCreated : sqs q) (created : cqs q) (left : ℕ) :
    Triple (Nvme.Bounded base stride sqs cqs) (nvmeAwaitLoop env q left)
      (fun _ => Nvme.Bounded base stride sqs cqs) (Nvme.Inside base) := by
  induction left with
  | zero => exact Triple.fail fun _ h => h.accesses
  | succ left ih =>
    unfold nvmeAwaitLoop
    apply Triple.bind (nvmePoll_keeps created)
    intro ready
    apply Triple.ite
    · intro _
      exact nvmeCqe_keeps sqCreated created
    · intro _
      exact ih

theorem nvmeIssue_keeps (sqCreated : sqs q) (created : cqs q) (op : NvmeOp) :
    Triple (Nvme.Bounded base stride sqs cqs) (nvmeIssue q op)
      (fun _ => Nvme.Bounded base stride sqs cqs) (Nvme.Inside base) := by
  unfold nvmeIssue
  apply Triple.get_bind
  intro t h
  unfold nvmeCommandCreate
  split
  · exact Triple.fail fun s same => same ▸ h.accesses
  · rename_i slot sq outcome
    split at outcome
    · cases outcome
    · cases outcome
      apply Triple.modify
      rintro s rfl
      have sqInside := h.sq q sqCreated
      have cqInside := h.cq q created
      refine Nvme.Bounded.note (a := .doorbell _) ?_ sqInside.doorbell
      apply (h.note sqInside.write).setSq
      · intro _
        exact ⟨nextSlot_le _ _, sqInside.mask, sqInside.doorbell⟩
      · intro _
        exact cqInside

/-- A command on queues that are inside stays inside. -/
theorem nvmeExecute_keeps (sqCreated : sqs q) (created : cqs q) (message : String) (op : NvmeOp) :
    Triple (Nvme.Bounded base stride sqs cqs) (nvmeExecute env q message op)
      (fun _ => Nvme.Bounded base stride sqs cqs) (Nvme.Inside base) := by
  unfold nvmeExecute
  apply Triple.bind (nvmeIssue_keeps sqCreated created op)
  intro _
  apply Triple.bind (nvmeAwaitLoop_keeps sqCreated created 500)
  intro cqe
  apply Triple.ite
  · intro _
    exact Triple.fail fun _ h => h.accesses
  · intro _
    exact Triple.pure fun _ h => h

end Commands

/-! ## The creation of the queues -/

section Creation

variable {base stride : ℕ} {sqs cqs : NvmeQueue → Prop} {env : NvmeEnv}

theorem nvmeCqInit_inside {index length : ℕ} {cq : NvmeCq}
    (ok : nvmeCqInit base stride index length = .ok cq) (near : index * stride + 4 ≤ 0x1000)
    (pos : 0 < length) (short : cqEntrySize * length ≤ 0x1000) :
    cq.Inside base ∧ cq.mask + 1 = length := by
  unfold nvmeCqInit at ok
  split at ok
  · cases ok
  · cases ok
    have size := queueMask_eq pos (by unfold cqEntrySize at short; omega)
    refine ⟨⟨Nat.zero_le _, ?_, doorbell_inPages near⟩, size⟩
    rw [size]
    exact short

theorem nvmeSqInit_inside {index length : ℕ} {cq : NvmeCq} {sq : NvmeSq}
    (ok : nvmeSqInit base stride index length cq = .ok sq) (near : index * stride + 4 ≤ 0x1000)
    (pos : 0 < length) (short : sqEntrySize * length ≤ 0x1000) :
    sq.Inside base ∧ sq.mask + 1 = length ∧ sq.cq = cq := by
  unfold nvmeSqInit at ok
  split at ok
  · cases ok
  · cases ok
    have size := queueMask_eq pos (by unfold sqEntrySize at short; omega)
    refine ⟨⟨Nat.zero_le _, ?_, doorbell_inPages near⟩, size, rfl⟩
    rw [size]
    exact short

theorem nvmeBuffer_keeps : Triple (Nvme.Bounded base stride sqs cqs) (nvmeBuffer env)
    (fun _ => Nvme.Bounded base stride sqs cqs) (Nvme.Inside base) := by
  unfold nvmeBuffer
  apply Triple.get_bind
  intro t h
  apply Triple.modify_bind
  · rintro s rfl
    exact h.at _
  · exact Triple.pure fun _ after => after

theorem nvmeWaitCstsRdy_keeps (rdy : ℕ) :
    Triple (Nvme.Bounded base stride sqs cqs) (nvmeWaitCstsRdy env rdy)
      (fun _ => Nvme.Bounded base stride sqs cqs) (Nvme.Inside base) := by
  unfold nvmeWaitCstsRdy
  induction nvmeCapTo env.cap with
  | zero => exact Triple.fail fun _ h => h.accesses
  | succ left ih =>
    unfold nvmeWaitCstsRdyLoop
    apply Triple.get_bind
    intro t h
    apply Triple.modify_bind
    · rintro s rfl
      exact h.at _
    · apply Triple.ite
      · intro _
        exact Triple.pure fun _ after => after
      · intro _
        exact ih

theorem nvmeIdentifyController_keeps (sqCreated : sqs .admin) (created : cqs .admin) :
    Triple (Nvme.Bounded base stride sqs cqs) (nvmeIdentifyController env)
      (fun _ => Nvme.Bounded base stride sqs cqs) (Nvme.Inside base) := by
  unfold nvmeIdentifyController
  apply Triple.bind nvmeBuffer_keeps
  intro _
  exact nvmeExecute_keeps sqCreated created _ _

theorem nvmeNsProbe_keeps (sqCreated : sqs .admin) (created : cqs .admin) (id : ℕ) :
    Triple (Nvme.Bounded base stride sqs cqs) (nvmeNsProbe env id)
      (fun _ => Nvme.Bounded base stride sqs cqs) (Nvme.Inside base) := by
  unfold nvmeNsProbe nvmeIdentifyNs
  apply Triple.ite
  · intro _
    exact Triple.fail fun _ h => h.accesses
  · intro _
    apply Triple.bind
    · apply Triple.bind nvmeBuffer_keeps
      intro _
      exact nvmeExecute_keeps sqCreated created _ _
    · intro _
      apply Triple.ite
      · intro _
        exact Triple.fail fun _ h => h.accesses
      · intro _
        exact Triple.pure fun _ h => h

/-- After `nvme_init` has created the admin queues. -/
def adminOnly (q : NvmeQueue) : Prop := q = .admin

/-- The admin queues have a fixed size, and their doorbells are the first two. -/
theorem nvmeAdminInit_bounded (near : stride + 4 ≤ 0x1000) :
    Triple (Nvme.Bounded base stride (fun _ => False) fun _ => False) nvmeAdminInit
      (fun _ => Nvme.Bounded base stride adminOnly adminOnly) (Nvme.Inside base) := by
  unfold nvmeAdminInit
  apply Triple.get_bind
  intro t h
  rw [h.pages, h.stride]
  split
  · exact Triple.fail fun s same => same ▸ h.accesses
  rename_i cq cqOk
  split
  · exact Triple.fail fun s same => same ▸ h.accesses
  rename_i sq sqOk
  have cqMade := nvmeCqInit_inside cqOk (by omega) (by decide) (by decide)
  have sqMade := nvmeSqInit_inside sqOk (by omega) (by decide) (by decide)
  have cqMask : cq.mask = 255 := Nat.succ_inj.1 cqMade.2
  have sqMask : sq.mask = 63 := Nat.succ_inj.1 sqMade.2.1
  apply Triple.modify
  rintro s rfl
  apply Nvme.Bounded.note
  · apply Nvme.Bounded.note
    · refine ⟨h.pages, h.stride, h.accesses, ?_, ?_⟩
      · rintro q rfl
        simpa [Nvme.setSq] using sqMade.1
      · rintro q rfl
        simpa [Nvme.setSq, sqMade.2.2] using cqMade.1
    · rw [cqMask, sqMask]
      show ((255 <<< 16 % 2 ^ 32 ||| 63) / 2 ^ 16 + 1) * cqEntrySize ≤ 0x1000
      decide
  · rw [cqMask, sqMask]
    show ((255 <<< 16 % 2 ^ 32 ||| 63) % 2 ^ 16 + 1) * sqEntrySize ≤ 0x1000
    decide

theorem nvmeIoCqInit_bounded (near : 3 * stride + 4 ≤ 0x1000) :
    Triple (Nvme.Bounded base stride adminOnly adminOnly) (nvmeIoCqInit env 3)
      (fun _ => Nvme.Bounded base stride adminOnly fun _ => True) (Nvme.Inside base) := by
  unfold nvmeIoCqInit
  apply Triple.get_bind
  intro t h
  rw [h.pages, h.stride, nvmeIoLength_eq]
  split
  · exact Triple.fail fun s same => same ▸ h.accesses
  rename_i cq ok
  have made := nvmeCqInit_inside ok near (by omega) (by unfold cqEntrySize; omega)
  have fits : (queueWord cq.mask 3 / 2 ^ 16 + 1) * cqEntrySize ≤ 0x1000 := by
    rw [queueWord_entries (by omega) (by omega), made.2]
    unfold cqEntrySize
    omega
  apply Triple.modify_bind (M := Nvme.Bounded base stride adminOnly fun _ => True)
  · rintro s rfl
    refine Nvme.Bounded.note ⟨h.pages, h.stride, h.accesses, ?_, ?_⟩ fits
    · rintro q rfl
      simpa [Nvme.setSq] using h.sq .admin rfl
    · intro q _
      cases q with
      | admin => simpa [Nvme.setSq] using h.cq .admin rfl
      | io => simpa [Nvme.setSq] using made.1
  · apply Triple.bind nvmeBuffer_keeps
    intro data
    apply nvmeExecute_keeps
    · rfl
    · trivial

/-- The submission queue is small enough when the controller asks for at most 64 entries. -/
theorem nvmeIoSqInit_bounded (near : 2 * stride + 4 ≤ 0x1000) (few : env.cap % 2 ^ 16 ≤ 63) :
    Triple (Nvme.Bounded base stride adminOnly fun _ => True) (nvmeIoSqInit env 2)
      (fun _ => Nvme.Bounded base stride (fun _ => True) fun _ => True) (Nvme.Inside base) := by
  unfold nvmeIoSqInit
  apply Triple.get_bind
  intro t h
  rw [h.pages, h.stride, nvmeIoLength_eq]
  split
  · exact Triple.fail fun s same => same ▸ h.accesses
  rename_i sq ok
  have made := nvmeSqInit_inside ok near (by omega) (by unfold sqEntrySize; omega)
  have fits : (queueWord sq.mask 2 / 2 ^ 16 + 1) * sqEntrySize ≤ 0x1000 := by
    rw [queueWord_entries (by omega) (by omega), made.2.1]
    unfold sqEntrySize
    omega
  apply Triple.modify_bind (M := Nvme.Bounded base stride (fun _ => True) fun _ => True)
  · rintro s rfl
    refine Nvme.Bounded.note ⟨h.pages, h.stride, h.accesses, ?_, ?_⟩ fits
    · intro q _
      cases q with
      | admin => simpa [Nvme.setSq] using h.sq .admin rfl
      | io => simpa [Nvme.setSq] using made.1
    · intro q _
      cases q with
      | admin => simpa [Nvme.setSq] using h.cq .admin trivial
      | io => simpa [Nvme.setSq, made.2.2] using h.cq .io trivial
  · apply Triple.bind nvmeBuffer_keeps
    intro data
    apply nvmeExecute_keeps
    · trivial
    · trivial

end Creation

/-! ## Which controllers are contained -/

theorem nvmeCapDstrd_eq (cap : ℕ) : nvmeCapDstrd cap = cap / 2 ^ 32 % 2 ^ 4 := by
  have low : cap >>> 32 &&& 0x0F = cap >>> 32 % 2 ^ 4 := Words.and_low (cap >>> 32) 4
  unfold nvmeCapDstrd
  rw [low, Nat.shiftRight_eq_div_pow]

theorem stride_eq (cap : ℕ) : 4 <<< nvmeCapDstrd cap % 2 ^ 32 = 4 * 2 ^ nvmeCapDstrd cap := by
  have small : nvmeCapDstrd cap ≤ 15 := by
    rw [nvmeCapDstrd_eq]
    omega
  have power : 2 ^ nvmeCapDstrd cap ≤ 2 ^ 15 := Nat.pow_le_pow_right (by decide) small
  rw [Nat.shiftLeft_eq]
  exact Nat.mod_eq_of_lt (by omega)

/-- The capabilities of controllers whose queues and doorbells fit. -/
def NvmeSmall (cap : ℕ) : Prop := cap % 2 ^ 16 ≤ 63 ∧ nvmeCapDstrd cap ≤ 8

theorem nvmeInit_bounded {base : ℕ} {env : NvmeEnv} (small : NvmeSmall env.cap) :
    Triple (fun s => s = Nvme.calloc base) (nvmeInit env)
      (fun _ => Nvme.Bounded base (4 * 2 ^ nvmeCapDstrd env.cap) (fun _ => True) fun _ => True)
      (Nvme.Inside base) := by
  have power : 2 ^ nvmeCapDstrd env.cap ≤ 2 ^ 8 := Nat.pow_le_pow_right (by decide) small.2
  have admin : adminOnly .admin := rfl
  unfold nvmeInit
  rw [stride_eq]
  apply Triple.modify_bind
    (M := Nvme.Bounded base (4 * 2 ^ nvmeCapDstrd env.cap) (fun _ => False) fun _ => False)
  · rintro s rfl
    exact ⟨rfl, rfl, by simp [Nvme.Inside, Nvme.calloc], by simp, by simp⟩
  apply Triple.bind (nvmeWaitCstsRdy_keeps 0)
  intro _
  apply Triple.bind (nvmeAdminInit_bounded (by omega))
  intro _
  apply Triple.bind (nvmeWaitCstsRdy_keeps 1)
  intro _
  apply Triple.bind (nvmeIdentifyController_keeps admin admin)
  intro _
  apply Triple.bind (nvmeNsProbe_keeps admin admin 0)
  intro _
  apply Triple.bind (nvmeIoCqInit_bounded (by omega))
  intro _
  exact nvmeIoSqInit_bounded (by omega) small.1

theorem contained_of_small {base cap : ℕ} (small : NvmeSmall cap) : NvmeContained base cap := by
  rintro env rfl ops
  apply Triple.after (P := fun s => s = Nvme.calloc base) _ rfl
  unfold nvmeRun
  apply Triple.bind (nvmeInit_bounded small)
  intro _
  induction ops with
  | nil => exact Triple.pure fun _ h => h.accesses
  | cons op ops ih =>
    rw [forEach_cons]
    refine Triple.bind ?_ fun _ => ih
    apply nvmeExecute_keeps
    · trivial
    · trivial

/-- A controller with a zero timeout is given up before any queue exists. -/
theorem contained_of_timeout {base cap : ℕ} (zero : nvmeCapTo cap = 0) : NvmeContained base cap := by
  rintro env rfl ops
  have ends : (nvmeRun env ops).run (Nvme.calloc base) =
      (.error (.panic "[NVMe]\tCSTS.RDY != %u after timeout"),
        { Nvme.calloc base with doorbellStride := 4 <<< nvmeCapDstrd env.cap % 2 ^ 32 }) := by
    unfold nvmeRun nvmeInit nvmeWaitCstsRdy
    rw [zero]
    rfl
  rw [ends]
  simp [Nvme.Inside, Nvme.calloc]

/-- A controller that comes up at once and answers every command at once. -/
def obliging (cap : ℕ) : NvmeEnv :=
  { cap := cap
    csts := fun t => if t = 0 then 0 else 1
    completions := fun _ _ _ => ⟨0, 0, 0, 0, 0, 1⟩
    phys := fun _ => 0
    namespaces := 1
    lbaDataSize := 9 }

/-- What a command leaves when the controller is obliging: the other queue pair and the sizes are as
before, and the completion head has moved. -/
structure Obliged (q : NvmeQueue) (s t : Nvme) : Prop where
  base : t.base = s.base
  stride : t.doorbellStride = s.doorbellStride
  others : ∀ p, p ≠ q → t.sq p = s.sq p
  mask : (t.sq q).cq.mask = (s.sq q).cq.mask
  head : (t.sq q).cq.head = nextSlot (s.sq q).cq.head (s.sq q).cq.mask
  phase : nextSlot (s.sq q).cq.head (s.sq q).cq.mask = ((s.sq q).cq.head + 1) % 2 ^ 32 →
    (t.sq q).cq.phase = (s.sq q).cq.phase
  later : s.time ≤ t.time
  kept : ∀ a ∈ s.accesses, a ∈ t.accesses

theorem nvmePollCq_obliging {cq : NvmeCq} (entries : cq.entry = fun _ => ⟨0, 0, 0, 0, 0, 1⟩)
    (phase : cq.phase = 1) : nvmePollCq cq = true := by
  have bit : NvmeCqEntry.dword3 ⟨0, 0, 0, 0, 0, 1⟩ &&& 1 <<< 16 ≠ 0 := by decide
  unfold nvmePollCq
  rw [entries, phase]
  dsimp only
  rw [if_pos bit]
  rfl

/-- The queue pair after a look at its completion queue. -/
theorem Nvme.look_sq (s : Nvme) (env : NvmeEnv) (q : NvmeQueue) :
    (s.look env q).sq q = { s.sq q with cq.entry := env.completions s.time q } := by
  simp [Nvme.look, Nvme.setSq]

theorem nvmePoll_obliging {cap : ℕ} {q : NvmeQueue} {s : Nvme} (phase : (s.sq q).cq.phase = 1) :
    (nvmePoll (obliging cap) q).run s =
      (.ok true, (s.look (obliging cap) q).note (.cqRead q (s.sq q).cq.head)) := by
  have ready : nvmePollCq ((s.look (obliging cap) q).sq q).cq = true := by
    rw [Nvme.look_sq]
    exact nvmePollCq_obliging rfl phase
  unfold nvmePoll
  rw [run_bind_of_ok (run_modify _ s), run_bind_of_ok (run_get _), run_pure]
  exact congrArg (fun b => (Except.ok b, _)) ready

theorem nvmeCqe_obliging {cap : ℕ} {q : NvmeQueue} {s : Nvme} (phase : (s.sq q).cq.phase = 1) :
    ∃ cqe t, (nvmeCqe (obliging cap) q).run s = (.ok cqe, t) ∧ cqe.status >>> 1 = 0 ∧
      Obliged q s t := by
  have ready : nvmePollCq ((s.look (obliging cap) q).sq q).cq = true := by
    rw [Nvme.look_sq]
    exact nvmePollCq_obliging rfl phase
  unfold nvmeCqe
  rw [run_bind_of_ok (nvmePoll_obliging phase), run_bind_of_ok (run_get _)]
  unfold nvmeCommandCqe
  dsimp only [Nvme.note]
  rw [if_neg (by rw [ready]; decide)]
  refine ⟨_, _, run_bind_of_ok (run_modify _ _), ?_, ?_⟩
  · rw [Nvme.look_sq]
    show 1 >>> 1 = 0
    decide
  · refine ⟨rfl, rfl, ?_, ?_, ?_, ?_, ?_, ?_⟩
    · intro p other
      simp [Nvme.setSq, Nvme.look, other]
    · simp [Nvme.setSq, Nvme.look_sq]
    · simp [Nvme.setSq, Nvme.look_sq]
    · intro straight
      simp [Nvme.setSq, Nvme.look_sq, straight]
    · exact Nat.le_succ _
    · intro a mem
      simp [Nvme.setSq, Nvme.look, mem]

/-- An obliging controller executes a command on a queue pair in its first phase, and the doorbell of
the queue is rung. -/
theorem nvmeExecute_obliging {cap : ℕ} {q : NvmeQueue} {s : Nvme} {message : String} {op : NvmeOp}
    (phase : (s.sq q).cq.phase = 1) (data : op.data = 0) :
    ∃ t, (nvmeExecute (obliging cap) q message op).run s = (.ok (), t) ∧ Obliged q s t ∧
      .doorbell (s.sq q).doorbell.address ∈ t.accesses := by
  have issued : ∃ u, (nvmeIssue q op).run s = (.ok (), u) ∧ u.base = s.base ∧
      u.doorbellStride = s.doorbellStride ∧ (∀ p, p ≠ q → u.sq p = s.sq p) ∧
      (u.sq q).cq = (s.sq q).cq ∧ u.time = s.time ∧ (∀ a ∈ s.accesses, a ∈ u.accesses) ∧
      .doorbell (s.sq q).doorbell.address ∈ u.accesses := by
    unfold nvmeIssue nvmeCommandCreate
    rw [run_bind_of_ok (run_get s), data, if_neg (by decide)]
    refine ⟨_, run_modify _ s, rfl, rfl, ?_, ?_, rfl, ?_, ?_⟩
    · intro p other
      simp [Nvme.note, Nvme.setSq, other]
    · simp [Nvme.note, Nvme.setSq, nvmeCommandSubmit]
    · intro a mem
      simp [Nvme.note, Nvme.setSq, mem]
    · simp [Nvme.note, Nvme.setSq, nvmeCommandSubmit]
  obtain ⟨u, issue, base, stride, others, cq, time, kept, rung⟩ := issued
  have phaseU : (u.sq q).cq.phase = 1 := by rw [cq, phase]
  set v := (u.look (obliging cap) q).note (.cqRead q (u.sq q).cq.head) with polled
  have queueV : v.sq q = { u.sq q with cq.entry := fun _ => ⟨0, 0, 0, 0, 0, 1⟩ } :=
    Nvme.look_sq u (obliging cap) q
  have phaseV : (v.sq q).cq.phase = 1 := by
    rw [queueV]
    exact phaseU
  have keptV : ∀ a ∈ u.accesses, a ∈ v.accesses := fun a mem => List.mem_cons_of_mem _ mem
  obtain ⟨cqe, t, consumed, status, after⟩ := @nvmeCqe_obliging cap q v phaseV
  refine ⟨t, ?_, ?_, ?_⟩
  · unfold nvmeExecute nvmeAwait
    rw [run_bind_of_ok issue]
    have awaited : (nvmeAwaitLoop (obliging cap) q 500).run u = (.ok cqe, t) := by
      unfold nvmeAwaitLoop
      rw [run_bind_of_ok (nvmePoll_obliging phaseU), if_pos rfl]
      exact consumed
    rw [run_bind_of_ok awaited, if_neg (by rw [status]; decide), run_pure]
  · have later := after.later
    refine ⟨after.base.trans base, after.stride.trans stride, ?_, ?_, ?_, ?_, ?_, ?_⟩
    · intro p other
      rw [after.others p other, ← others p other]
      simp [polled, Nvme.note, Nvme.look, Nvme.setSq, other]
    · rw [after.mask, queueV, ← cq]
    · rw [after.head, queueV, ← cq]
    · rw [← cq]
      intro straight
      rw [after.phase (by rw [queueV]; exact straight), queueV]
    · rw [← time]
      exact Nat.le_of_succ_le later
    · intro a mem
      exact after.kept a (keptV a (kept a mem))
  · exact after.kept _ (keptV _ rung)

/-- The admin queues while an obliging controller has answered `h` commands. -/
structure Ready (base stride h : ℕ) (s : Nvme) : Prop where
  base : s.base = base
  stride : s.doorbellStride = stride
  mask : (s.sq .admin).cq.mask = 255
  head : (s.sq .admin).cq.head = h
  phase : (s.sq .admin).cq.phase = 1
  time : 0 < s.time

section Obliging

variable {base stride h cap : ℕ} {s : Nvme}

theorem Ready.note (ready : Ready base stride h s) (a : NvmeAccess) :
    Ready base stride h (s.note a) :=
  ⟨ready.base, ready.stride, ready.mask, ready.head, ready.phase, ready.time⟩

theorem Ready.setIo (ready : Ready base stride h s) (sq : NvmeSq) :
    Ready base stride h (s.setSq .io sq) := by
  have same : (s.setSq .io sq).sq .admin = s.sq .admin := by simp [Nvme.setSq]
  refine ⟨ready.base, ready.stride, ?_, ?_, ?_, ready.time⟩ <;> rw [same]
  · exact ready.mask
  · exact ready.head
  · exact ready.phase

/-- A command on the admin queues with the buffer that it needs. -/
theorem Ready.command (cap : ℕ) (ready : Ready base stride h s) (first : h < 255)
    (message : String) (op : ℕ → NvmeOp) (data : ∀ id, (op id).data = id) :
    ∃ t, (nvmeBuffer (obliging cap) >>= fun id =>
        nvmeExecute (obliging cap) .admin message (op id)).run s = (.ok (), t) ∧
      Ready base stride (h + 1) t ∧ t.sq .io = s.sq .io ∧ ∀ a ∈ s.accesses, a ∈ t.accesses := by
  have buffer : (nvmeBuffer (obliging cap)).run s = (.ok 0, { s with time := s.time + 1 }) := rfl
  have next : nextSlot h 255 = h + 1 := by
    have low : (h + 1) % 2 ^ 32 &&& 255 = (h + 1) % 2 ^ 32 % 2 ^ 8 := Words.and_low _ 8
    unfold nextSlot
    rw [low]
    omega
  obtain ⟨t, run, after, -⟩ := @nvmeExecute_obliging cap .admin
    { s with time := s.time + 1 } message (op 0) ready.phase (data 0)
  refine ⟨t, ?_, ⟨after.base.trans ready.base, after.stride.trans ready.stride,
    after.mask.trans ready.mask, ?_, ?_, ?_⟩, after.others .io (by decide), after.kept⟩
  · rw [run_bind_of_ok buffer]
    exact run
  · rw [after.head, ready.mask, ready.head, next]
  · rw [after.phase, ready.phase]
    rw [ready.mask, ready.head, next]
    omega
  · have := after.later
    have := ready.time
    dsimp only at *
    omega

theorem nvmeWaitCstsRdy_obliging {rdy : ℕ} (patient : nvmeCapTo cap ≠ 0)
    (answer : (obliging cap).csts s.time &&& 1 = rdy) :
    (nvmeWaitCstsRdy (obliging cap) rdy).run s = (.ok (), { s with time := s.time + 1 }) := by
  obtain ⟨left, some⟩ := Nat.exists_eq_succ_of_ne_zero patient
  unfold nvmeWaitCstsRdy
  rw [show nvmeCapTo (obliging cap).cap = left + 1 from some]
  unfold nvmeWaitCstsRdyLoop
  rw [run_bind_of_ok (run_get s), run_bind_of_ok (run_modify _ s), if_pos answer, run_pure]

theorem nvmeAdminInit_ready (b : s.base = base) (d : s.doorbellStride = stride)
    (started : 0 < s.time) :
    ∃ t, nvmeAdminInit.run s = (.ok (), t) ∧ Ready base stride 0 t := by
  refine ⟨_, rfl, ⟨b, d, ?_, ?_, ?_, started⟩⟩
  · simp [Nvme.note, Nvme.setSq]
    decide
  · simp [Nvme.note, Nvme.setSq]
  · simp [Nvme.note, Nvme.setSq]

theorem nvmeIoCqInit_ready (cap : ℕ) (ready : Ready base stride h s) (first : h < 255) :
    ∃ t, (nvmeIoCqInit (obliging cap) 3).run s = (.ok (), t) ∧ Ready base stride (h + 1) t ∧
      (t.sq .io).cq.phase = 1 := by
  have command := fun sq a => Ready.command cap ((ready.setIo sq).note a) first
    "[NVMe]\tcreating I/O cq returned %u"
    (fun id => ⟨5, 0, id, 0, queueWord (queueMask (nvmeIoLength cap cqEntrySize)) 3, 1, 0⟩)
    fun _ => rfl
  unfold nvmeIoCqInit nvmeCqInit
  rw [run_bind_of_ok (run_get s), if_neg (by decide)]
  dsimp only
  rw [run_bind_of_ok (run_modify _ s)]
  obtain ⟨t, run, after, io, -⟩ := command _ _
  refine ⟨t, run, after, ?_⟩
  rw [io]
  simp [Nvme.note, Nvme.setSq]

/-- The submission queue is announced with the length that was cut for completion entries. -/
theorem nvmeIoSqInit_ready (cap : ℕ) (ready : Ready base stride h s) (first : h < 255)
    (phase : (s.sq .io).cq.phase = 1) :
    ∃ t, (nvmeIoSqInit (obliging cap) 2).run s = (.ok (), t) ∧ (t.sq .io).cq.phase = 1 ∧
      (t.sq .io).doorbell.address = doorbellAddress base stride 2 ∧
      .announce (nvmeIoLength cap cqEntrySize) sqEntrySize ∈ t.accesses := by
  have command := fun sq a => Ready.command cap ((ready.setIo sq).note a) first
    "[NVMe]\tcreating I/O cq returned %u"
    (fun id => ⟨1, 0, id, 0, queueWord (queueMask (nvmeIoLength cap cqEntrySize)) 2,
      (2 >>> 1) <<< 16 ||| 1, 0⟩)
    fun _ => rfl
  have length := nvmeIoLength_eq cap
  have size : queueMask (nvmeIoLength cap cqEntrySize) + 1 = nvmeIoLength cap cqEntrySize :=
    queueMask_eq (by omega) (by omega)
  have word : queueWord (queueMask (nvmeIoLength cap cqEntrySize)) 2 / 2 ^ 16 + 1 =
      nvmeIoLength cap cqEntrySize := by
    rw [queueWord_entries (by omega) (by omega), size]
  unfold nvmeIoSqInit nvmeSqInit
  rw [run_bind_of_ok (run_get s), if_neg (by decide), ready.base, ready.stride]
  dsimp only
  rw [run_bind_of_ok (run_modify _ s)]
  obtain ⟨t, run, -, io, kept⟩ := command _ _
  refine ⟨t, run, ?_, ?_, ?_⟩
  · rw [io]
    simpa [Nvme.note, Nvme.setSq] using phase
  · rw [io]
    simp [Nvme.note, Nvme.setSq]
  · apply kept
    rw [← word]
    exact List.mem_cons_self

/-- An obliging controller with a timeout comes up. -/
theorem nvmeInit_obliging (base : ℕ) (patient : nvmeCapTo cap ≠ 0) :
    ∃ t, (nvmeInit (obliging cap)).run (Nvme.calloc base) = (.ok (), t) ∧ (t.sq .io).cq.phase = 1 ∧
      (t.sq .io).doorbell.address = doorbellAddress base (4 * 2 ^ nvmeCapDstrd cap) 2 ∧
      .announce (nvmeIoLength cap cqEntrySize) sqEntrySize ∈ t.accesses := by
  have stride : (modify fun s : Nvme => { s with doorbellStride := 4 * 2 ^ nvmeCapDstrd cap } :
      NvmeM Unit).run (Nvme.calloc base) =
        (.ok (), ⟨base, 4 * 2 ^ nvmeCapDstrd cap, (Nvme.calloc base).sq, 0, []⟩) := rfl
  have down : (nvmeWaitCstsRdy (obliging cap) 0).run
      ⟨base, 4 * 2 ^ nvmeCapDstrd cap, (Nvme.calloc base).sq, 0, []⟩ =
        (.ok (), ⟨base, 4 * 2 ^ nvmeCapDstrd cap, (Nvme.calloc base).sq, 1, []⟩) := by
    apply nvmeWaitCstsRdy_obliging patient
    show 0 &&& 1 = 0
    decide
  obtain ⟨s₁, admin, ready₁⟩ := @nvmeAdminInit_ready base (4 * 2 ^ nvmeCapDstrd cap)
    ⟨base, 4 * 2 ^ nvmeCapDstrd cap, (Nvme.calloc base).sq, 1, []⟩ rfl rfl Nat.one_pos
  have up : (obliging cap).csts s₁.time &&& 1 = 1 := by
    have started := ready₁.time
    unfold obliging
    dsimp only
    rw [if_neg (by omega)]
    decide
  have ready₂ : Ready base (4 * 2 ^ nvmeCapDstrd cap) 0 { s₁ with time := s₁.time + 1 } :=
    ⟨ready₁.base, ready₁.stride, ready₁.mask, ready₁.head, ready₁.phase, Nat.succ_pos _⟩
  obtain ⟨s₃, controller, ready₃, -⟩ := Ready.command cap ready₂ (by decide)
    "[NVMe]\tcontroller id failed with status %x\n" (fun id => ⟨6, 0, id, 0, 1, 0, 0⟩) fun _ => rfl
  obtain ⟨s₄, ns, ready₄, -⟩ := Ready.command cap ready₃ (by decide)
    "[NVMe]\tns id failed with status %x\n" (fun id => ⟨6, 0, id, 0 + 1, 0, 0, 0⟩) fun _ => rfl
  obtain ⟨s₅, cq, ready₅, phase₅⟩ := nvmeIoCqInit_ready cap ready₄ (by decide)
  obtain ⟨s₆, sq, facts⟩ := nvmeIoSqInit_ready cap ready₅ (by decide) phase₅
  refine ⟨s₆, ?_, facts⟩
  have probe : (nvmeNsProbe (obliging cap) 0).run s₃ = (.ok (), s₄) := by
    unfold nvmeNsProbe nvmeIdentifyNs
    have one : ¬ (obliging cap).namespaces ≤ 0 := Nat.not_succ_le_zero 0
    have block : ¬ (obliging cap).lbaDataSize < 9 := Nat.lt_irrefl 9
    rw [if_neg one, run_bind_of_ok ns, if_neg block, run_pure]
  unfold nvmeInit nvmeIdentifyController
  rw [show (obliging cap).cap = cap from rfl, stride_eq, run_bind_of_ok stride,
    run_bind_of_ok down, run_bind_of_ok admin,
    run_bind_of_ok (nvmeWaitCstsRdy_obliging patient up), run_bind_of_ok controller,
    run_bind_of_ok probe, run_bind_of_ok cq]
  exact sq

end Obliging

/-- The first read of a block rings a doorbell that lies outside, or the queue is too long. -/
theorem small_of_contained {base cap : ℕ} (contained : NvmeContained base cap)
    (patient : nvmeCapTo cap ≠ 0) : NvmeSmall cap := by
  obtain ⟨s, init, phase, address, announced⟩ := nvmeInit_obliging base patient
  obtain ⟨t, read, after, rung⟩ := @nvmeExecute_obliging cap .io s
    "[NVMe]\tI/O read failed with status %#x" (nvmeReadOp 0 1 8 0) phase rfl
  have run : 
      (nvmeRun (obliging cap) [(.io, nvmeReadOp 0 1 8 0)]).run (Nvme.calloc base) = (.ok (), t) := by
    unfold nvmeRun
    rw [run_bind_of_ok init, forEach_cons, run_bind_of_ok read]
    rfl
  have inside := contained (obliging cap) rfl [(.io, nvmeReadOp 0 1 8 0)]
  rw [run] at inside
  have fits : nvmeIoLength cap cqEntrySize * sqEntrySize ≤ 0x1000 :=
    inside _ (after.kept _ announced)
  have near : InPages base (s.sq .io).doorbell.address := inside _ rung
  have dstrd := nvmeCapDstrd_eq cap
  have power : 2 ^ nvmeCapDstrd cap ≤ 2 ^ 15 := Nat.pow_le_pow_right (by decide) (by omega)
  rw [address, doorbell_inPages_iff (by omega)] at near
  rw [nvmeIoLength_eq] at fits
  unfold sqEntrySize at fits
  refine ⟨by omega, ?_⟩
  by_contra far
  have : 2 ^ 9 ≤ 2 ^ nvmeCapDstrd cap := Nat.pow_le_pow_right (by decide) (by omega)
  omega

/-- **Containment.**  Queue memory and doorbells stay inside for exactly the controllers that ask for
at most 64 entries and for a doorbell stride of at most 1024 bytes, or that never come up. -/
theorem nvmeContained_iff (base cap : ℕ) :
    NvmeContained base cap ↔ nvmeCapTo cap = 0 ∨ cap % 2 ^ 16 ≤ 63 ∧ nvmeCapDstrd cap ≤ 8 := by
  constructor
  · intro contained
    by_cases zero : nvmeCapTo cap = 0
    · exact .inl zero
    · exact .inr (small_of_contained contained zero)
  · rintro (zero | small)
    · exact contained_of_timeout zero
    · exact contained_of_small small

/-- A controller with queues of up to 256 entries, the usual stride and a timeout of ten seconds: its
I/O submission queue is announced with 256 entries of 64 bytes. -/
theorem not_nvmeContained : ¬ NvmeContained 0xFFFFFE0000021000 0x140100FF := by
  intro contained
  have := (small_of_contained contained (by decide)).1
  omega

end Vineyard
