import Vineyard.Lib.Bytes
import Vineyard.Machine

/-!
# Reads of a namespace

`nvme_read` of `rw.c` over a namespace that answers: each `nvme_rw_read` fills the bounce buffer, a
page from the heap that is freed in the end, with the blocks that it names.  The destination is a byte
memory with addresses from `buf` on, and the block ranges of the commands are kept, newest first.
-/

namespace Vineyard

open Bytes

/-- `nvme_ns_t`, with the number of its controller and its contents by byte offset. -/
structure NvmeNs where
  num : ℕ
  id : ℕ
  blockSize : ℕ
  disk : Memory

/-- The destination of a read and the block ranges of the commands. -/
structure NvmeReading where
  buf : Memory
  commands : List (ℕ × ℕ)

/-- `nvme_rw_read`, as long as it returns: the page holds the blocks from `lba` on. -/
def NvmeNs.rwRead (ns : NvmeNs) (lba : ℕ) : Memory := fun j => ns.disk (lba * 512 + j)

/-- The loop of `nvme_read`, with at most `steps` iterations to go. -/
def nvmeReadLoop (ns : NvmeNs) (lba blocks : ℕ) : ℕ → ℕ → ℕ → NvmeReading → NvmeReading
  | 0, _, _, r => r
  | steps + 1, i, left, r =>
    if i < blocks then
      let page := ns.rwRead (lba + i)
      let r : NvmeReading :=
        ⟨copy r.buf (i <<< 9) page 0 (min left 0x1000), (lba + i, 8) :: r.commands⟩
      if 0x1000 ≤ left then nvmeReadLoop ns lba blocks steps (i + 8) (left - 0x1000) r else r
    else r

def nvmeRead (ns : NvmeNs) (physical length : ℕ) (buf : Memory) : Except Fault NvmeReading :=
  if ns.blockSize ≠ 512 then .error (.assertion "ns->block_size == 512")
  else if length &&& 0x1FF ≠ 0 then .error (.assertion "!(length & 0x1FF)")
  else
    let lba := physical >>> 9
    let blocks := length >>> 9
    let blocks :=
      if Word64.add physical length >>> 9 > Word64.add (lba <<< 9) length >>> 9 then blocks + 1
      else blocks
    .ok (nvmeReadLoop ns lba blocks blocks 0 length ⟨buf, []⟩)

theorem block_offset (i : ℕ) : i <<< 9 = i * 512 := Nat.shiftLeft_eq i 9

theorem block_number (a : ℕ) : a >>> 9 = a / 512 := Nat.shiftRight_eq_div_pow a 9

/-- The loop copies what is left of the bytes, from block `i` on. -/
theorem nvmeReadLoop_buf {ns : NvmeNs} {lba blocks : ℕ} (steps : ℕ) :
    ∀ (i left : ℕ) (r : NvmeReading), left = (blocks - i) * 512 → blocks ≤ i + steps →
      ∀ j, (nvmeReadLoop ns lba blocks steps i left r).buf j =
        if i * 512 ≤ j ∧ j < i * 512 + left then ns.disk (lba * 512 + j) else r.buf j := by
  induction steps with
  | zero =>
    intro i left r size enough j
    unfold nvmeReadLoop
    rw [if_neg (by omega)]
  | succ steps ih =>
    intro i left r size enough j
    have page (k : ℕ) : ns.rwRead (lba + i) k = ns.disk (lba * 512 + (i * 512 + k)) :=
      congrArg ns.disk (by omega)
    unfold nvmeReadLoop
    by_cases more : i < blocks
    · rw [if_pos more]
      dsimp only
      rw [block_offset]
      by_cases whole : 0x1000 ≤ left
      · obtain ⟨m, rfl⟩ : ∃ m, left = m + 0x1000 := ⟨left - 0x1000, (Nat.sub_add_cancel whole).symm⟩
        have next : m = (blocks - (i + 8)) * 512 := by omega
        have fewer : blocks ≤ i + 8 + steps := by omega
        rw [if_pos whole, Nat.add_sub_cancel, ih (i + 8) m _ next fewer, Nat.min_eq_right whole]
        dsimp only
        clear next size
        by_cases late : (i + 8) * 512 ≤ j ∧ j < (i + 8) * 512 + m
        · rw [if_pos late, if_pos ⟨by omega, by omega⟩]
        · rw [if_neg late]
          by_cases here : i * 512 ≤ j ∧ j < i * 512 + 0x1000
          · rw [copy_inside here.1 here.2, page, if_pos ⟨here.1, by omega⟩]
            exact congrArg ns.disk (by omega)
          · rw [copy_outside (by omega), if_neg]
            rintro ⟨low, high⟩
            omega
      · rw [if_neg whole, Nat.min_eq_left (by omega)]
        dsimp only
        by_cases here : i * 512 ≤ j ∧ j < i * 512 + left
        · rw [copy_inside here.1 here.2, page, if_pos here]
          exact congrArg ns.disk (by omega)
        · rw [copy_outside (by omega), if_neg here]
    · rw [if_neg more, if_neg (by omega)]

/-- More iterations than there are blocks change nothing. -/
theorem nvmeReadLoop_more {ns : NvmeNs} {lba blocks : ℕ} (steps more : ℕ) :
    ∀ (i left : ℕ) (r : NvmeReading), blocks ≤ i + steps →
      nvmeReadLoop ns lba blocks (steps + more) i left r =
        nvmeReadLoop ns lba blocks steps i left r := by
  induction steps with
  | zero =>
    intro i left r enough
    cases more with
    | zero => rfl
    | succ more =>
      rw [Nat.zero_add, nvmeReadLoop, nvmeReadLoop, if_neg (by omega)]
  | succ steps ih =>
    intro i left r enough
    rw [Nat.succ_add, nvmeReadLoop, nvmeReadLoop]
    dsimp only
    rw [ih (i + 8) _ _ (by omega)]

/-- The first command, and those from eight blocks behind it on. -/
theorem commands_succ {lba blocks : ℕ} (i : ℕ) (c : ℕ × ℕ) :
    (∃ k, i + 8 * k < blocks ∧ c = (lba + (i + 8 * k), 8)) ↔
      (i < blocks ∧ c = (lba + i, 8)) ∨
        ∃ k, i + 8 + 8 * k < blocks ∧ c = (lba + (i + 8 + 8 * k), 8) := by
  have next (k : ℕ) : i + 8 * (k + 1) = i + 8 + 8 * k := by omega
  rw [← Nat.or_exists_add_one]
  simp only [next, Nat.mul_zero, Nat.add_zero]

/-- Behind the last block there are no commands. -/
theorem commands_end {lba blocks i : ℕ} (beyond : blocks ≤ i) (c : ℕ × ℕ) :
    ¬ ∃ k, i + 8 * k < blocks ∧ c = (lba + (i + 8 * k), 8) := by
  rintro ⟨k, more, _⟩
  omega

/-- The commands read eight blocks each, from every eighth block on. -/
theorem nvmeReadLoop_commands {ns : NvmeNs} {lba blocks : ℕ} (steps : ℕ) :
    ∀ (i left : ℕ) (r : NvmeReading), left = (blocks - i) * 512 → blocks ≤ i + steps → ∀ c,
      c ∈ (nvmeReadLoop ns lba blocks steps i left r).commands ↔
        (∃ k, i + 8 * k < blocks ∧ c = (lba + (i + 8 * k), 8)) ∨ c ∈ r.commands := by
  induction steps with
  | zero =>
    intro i left r size enough c
    exact (or_iff_right (commands_end enough c)).symm
  | succ steps ih =>
    intro i left r size enough c
    unfold nvmeReadLoop
    by_cases more : i < blocks
    · rw [if_pos more, commands_succ, and_iff_right more]
      dsimp only
      by_cases whole : 0x1000 ≤ left
      · rw [if_pos whole, ih (i + 8) _ _ (by omega) (by omega), List.mem_cons, or_left_comm, or_assoc]
      · rw [if_neg whole, List.mem_cons, or_iff_left (commands_end (by omega) c)]
    · rw [if_neg more, or_iff_right (commands_end (by omega) c)]

section Aligned

variable {ns : NvmeNs} {physical length : ℕ} {buf : Memory}

/-- A read of whole blocks runs the loop once for each eight blocks, from the block on in which it
starts.  The adjustment for a start inside a block is never made: the end is as far into its block. -/
theorem nvmeRead_eq (block : ns.blockSize = 512) (size : length % 512 = 0) :
    nvmeRead ns physical length buf =
      .ok (nvmeReadLoop ns (physical / 512) (length / 512) (length / 512) 0 length ⟨buf, []⟩) := by
  have low : length &&& 0x1FF = 0 := (Words.and_low length 9).trans size
  have notMore : ¬ Word64.add physical length >>> 9 >
      Word64.add ((physical >>> 9) <<< 9) length >>> 9 := by
    rw [block_number, block_number, block_offset, block_number]
    unfold Word64.add
    omega
  unfold nvmeRead
  rw [if_neg (fun h => h block), if_neg (fun h => h low)]
  dsimp only
  rw [if_neg notMore, block_number, block_number]

/-- The bytes come from the start of the block on. -/
theorem nvmeRead_bytes (block : ns.blockSize = 512) (size : length % 512 = 0) :
    ∃ r, nvmeRead ns physical length buf = .ok r ∧
      ∀ j, r.buf j = if j < length then ns.disk (physical / 512 * 512 + j) else buf j := by
  refine ⟨_, nvmeRead_eq block size, fun j => ?_⟩
  rw [nvmeReadLoop_buf _ 0 length _ (by omega) (by omega)]
  by_cases inside : j < length
  · rw [if_pos (by omega), if_pos inside]
  · rw [if_neg (by omega), if_neg inside]

/-- **A read of whole blocks** returns the requested bytes and writes no others. -/
theorem nvmeRead_aligned (block : ns.blockSize = 512) (start : physical % 512 = 0)
    (size : length % 512 = 0) :
    ∃ r, nvmeRead ns physical length buf = .ok r ∧
      ∀ j, r.buf j = if j < length then ns.disk (physical + j) else buf j := by
  have whole : physical / 512 * 512 = physical := by omega
  have bytes := @nvmeRead_bytes ns physical length buf block size
  rwa [whole] at bytes

/-- The read ends, within an iteration for each block, with the requested bytes in the buffer and all
else there as before. -/
theorem nvmeRead_returns (block : ns.blockSize = 512) (start : physical % 512 = 0)
    (size : length % 512 = 0) (buf : Memory) :
    ∃ r, nvmeRead ns physical length buf = .ok r ∧
      (∀ j < length, r.buf j = ns.disk (physical + j)) ∧ (∀ j, length ≤ j → r.buf j = buf j) ∧
      ∀ steps, length / 512 ≤ steps →
        nvmeReadLoop ns (physical / 512) (length / 512) steps 0 length ⟨buf, []⟩ = r := by
  rcases @nvmeRead_aligned ns physical length buf block start size with ⟨r, run, bytes⟩
  refine ⟨r, run, fun j inside => ?_, fun j outside => ?_, fun steps enough => ?_⟩
  · rw [bytes, if_pos inside]
  · rw [bytes, if_neg (by omega)]
  · rcases Nat.exists_eq_add_of_le enough with ⟨more, rfl⟩
    rw [nvmeReadLoop_more _ _ 0 length _ (by omega)]
    exact Except.ok.inj ((nvmeRead_eq block size).symm.trans run)

/-- A disk whose bytes are the numbers of their blocks. -/
def numberedDisk : Memory := fun a => UInt8.ofNat (a / 512)

/-- Blocks 2 and 3. -/
theorem nvmeRead_returns_two :
    ∃ r, nvmeRead ⟨0, 0, 512, numberedDisk⟩ 1024 1024 (fun _ => 7) = .ok r ∧
    r.buf 0 = 2 ∧ r.buf 1023 = 3 ∧ r.buf 1024 = 7 := by
  rcases @nvmeRead_returns ⟨0, 0, 512, numberedDisk⟩ 1024 1024 rfl (by decide) (by decide)
    (fun _ => 7) with ⟨r, run, inside, outside, _⟩
  exact ⟨r, run, inside 0 (by decide), inside 1023 (by decide), outside 1024 (by decide)⟩

/-- Each command reads blocks below block `n` only. -/
def NvmeReading.Inside (n : ℕ) (r : NvmeReading) : Prop := ∀ c ∈ r.commands, c.1 + c.2 ≤ n

/-- **The commands of a read** stay within a namespace of `n` blocks exactly when the eight blocks of
the last command do. -/
theorem nvmeRead_inside_iff {n : ℕ} (block : ns.blockSize = 512) (size : length % 512 = 0)
    (buf : Memory) :
    ∃ r, nvmeRead ns physical length buf = .ok r ∧
      (r.Inside n ↔ length = 0 ∨ physical / 512 + 8 * ((length + 4095) / 4096) ≤ n) := by
  refine ⟨_, nvmeRead_eq block size, ?_⟩
  have commands := @nvmeReadLoop_commands ns (physical / 512) (length / 512) (length / 512) 0 length
    ⟨buf, []⟩ (by omega) (by omega)
  unfold NvmeReading.Inside
  constructor
  · intro each
    by_cases none : length = 0
    · exact .inl none
    · right
      have last := each (physical / 512 + (0 + 8 * ((length + 4095) / 4096 - 1)), 8)
        ((commands _).2 (.inl ⟨(length + 4095) / 4096 - 1, by omega, rfl⟩))
      dsimp only at last
      omega
  · rintro fits c listed
    rcases (commands c).1 listed with ⟨k, more, rfl⟩ | old
    · dsimp only
      omega
    · cases old

/-- The last eight blocks of a namespace of 16 blocks. -/
theorem nvmeRead_inside_last : ∃ r,
    nvmeRead ⟨0, 0, 512, numberedDisk⟩ (512 * 8) 4096 (fun _ => 0) = .ok r ∧ r.Inside 16 := by
  rcases @nvmeRead_inside_iff ⟨0, 0, 512, numberedDisk⟩ (512 * 8) 4096 16 rfl (by decide)
    (fun _ => 0) with ⟨r, run, inside⟩
  exact ⟨r, run, inside.2 (by decide)⟩

/-- The last block of that namespace: the command asks for seven blocks behind it. -/
theorem nvmeRead_beyond : ∃ r,
    nvmeRead ⟨0, 0, 512, numberedDisk⟩ (512 * 15) 512 (fun _ => 0) = .ok r ∧ r.commands = [(15, 8)] ∧
      ¬ r.Inside 16 :=
  ⟨_, rfl, rfl, fun each => absurd (each (15, 8) (List.mem_singleton.2 rfl)) (by decide)⟩

end Aligned

/-! ## A start inside a block -/

/-- The read fills the buffer with the bytes from `physical` on. -/
def NvmeReadsFrom (ns : NvmeNs) (physical length : ℕ) (buf : Memory) : Prop :=
  ∃ r, nvmeRead ns physical length buf = .ok r ∧ ∀ j < length, r.buf j = ns.disk (physical + j)

/-- **A read from anywhere in a block** returns the bytes from the start of the block on, so it is
right exactly when the disk repeats them. -/
theorem nvmeReadsFrom_iff {ns : NvmeNs} {physical length : ℕ} (block : ns.blockSize = 512)
    (size : length % 512 = 0) (buf : Memory) :
    NvmeReadsFrom ns physical length buf ↔
      ∀ j < length, ns.disk (physical - physical % 512 + j) = ns.disk (physical + j) := by
  have floor : physical / 512 * 512 = physical - physical % 512 := by omega
  rcases @nvmeRead_bytes ns physical length buf block size with ⟨r, run, bytes⟩
  rw [floor] at bytes
  constructor
  · rintro ⟨r', run', right⟩ j inside
    have same : r = r' := Except.ok.inj (run.symm.trans run')
    rw [← right j inside, ← same, bytes, if_pos inside]
  · intro repeats
    refine ⟨r, run, fun j inside => ?_⟩
    rw [bytes, if_pos inside, repeats j inside]

/-- A disk of one and the same byte. -/
theorem nvmeReadsFrom_constant : NvmeReadsFrom ⟨0, 0, 512, fun _ => 9⟩ 100 512 (fun _ => 0) :=
  (nvmeReadsFrom_iff rfl (by decide) _).2 fun _ _ => rfl

/-- The last byte that is asked for lies in block 1, and the read returns block 0. -/
theorem not_nvmeReadsFrom : ¬ NvmeReadsFrom ⟨0, 0, 512, numberedDisk⟩ 1 512 (fun _ => 0) := by
  rintro ⟨r, run, right⟩
  rcases @nvmeRead_bytes ⟨0, 0, 512, numberedDisk⟩ 1 512 (fun _ => 0) rfl (by decide) with
    ⟨r', run', bytes⟩
  have same : r' = r := Except.ok.inj (run'.symm.trans run)
  have last := (bytes 511).symm.trans (same ▸ right 511 (by decide))
  exact absurd last (by decide)

end Vineyard
