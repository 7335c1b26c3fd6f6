import Vineyard.Fs.Gpt

/-!
# Which partitions are registered

`gpt_init` adds a block device for each entry before the first one whose start is zero as a byte
offset.  It registers the entries in use when these come first, nothing else looks like one of them,
and all of its reads succeed: five for the table, and one or two for each entry.
-/

namespace Vineyard

open Bytes Programs Programs.Prog

/-- A disk with 512-byte blocks whose block 1 holds a partition table header for up to 128 entries of
128 bytes in the blocks from 2 on. -/
structure GptDisk (ns : NvmeNs) : Prop where
  blockSize : ns.blockSize = 512
  signature : gptSignature (ns.rwRead 1) = chars "EFI PART"
  entrySize : partitionEntrySize (ns.rwRead 1) = 128
  entriesLba : partitionEntriesLba (ns.rwRead 1) = 2
  count : partitionEntriesCount (ns.rwRead 1) ≤ 128

/-- The entry has a type and a start. -/
def InUse (header : Memory) (i : ℕ) : Prop :=
  entryGuid header i ≠ List.replicate 16 0 ∧ startLba header i ≠ 0

instance (header : Memory) (i : ℕ) : Decidable (InUse header i) :=
  inferInstanceAs (Decidable (_ ∧ _))

/-- The entries in use, in order. -/
def entriesInUse (header : Memory) : List ℕ :=
  (List.range (partitionEntriesCount header)).filter fun i => InUse header i

/-- With these I/O queues `gpt_init` returns, and it adds exactly the block devices of the
entries in use, in order. -/
def GptRegisters (ns : NvmeNs) (d : NvmeDevice) (io : NvmeSystem) : Prop :=
  ∀ heap s, s.io = io → ∃ t, (gptInit ns d heap).run s = (.ok (), t) ∧
    t.blockList = s.blockList ++ (entriesInUse (ns.rwRead 1)).map fun i => ⟨blockName ns i⟩

/-- The entries in use are the first `k`, each with a start below which the offset does not overflow to
zero, and the entry behind them starts nowhere. -/
def GptPacked (header : Memory) : Prop :=
  ∃ k ≤ partitionEntriesCount header,
    (∀ i < k, InUse header i ∧ startLba header i % 2 ^ 55 ≠ 0) ∧
    (∀ i, k ≤ i → i < partitionEntriesCount header → ¬ InUse header i) ∧
    (k < partitionEntriesCount header → startLba header k % 2 ^ 55 = 0)

/-- The partition from that offset on has the magic number of btrfs. -/
def IsBtrfs (ns : NvmeNs) (start : ℕ) : Prop :=
  strncmp (bytesAt ns.disk (Word64.add start (64 * 1024) + 0x40) 8) (chars "_BHRfS_M") 8 = 0

instance (ns : NvmeNs) (start : ℕ) : Decidable (IsBtrfs ns start) :=
  inferInstanceAs (Decidable (_ = _))

/-- The first blocks of the reads for an entry: one for btrfs, and one for FAT32 if it is not btrfs. -/
def entryReads (ns : NvmeNs) (header : Memory) (i : ℕ) : List ℕ :=
  Word64.add (entryStart header i) (64 * 1024) / 512 ::
    if IsBtrfs ns (entryStart header i) then [] else [Word64.add (entryStart header i) 512 / 512]

/-- The first blocks of the reads for the table and then for these entries. -/
def gptReads (ns : NvmeNs) (header : Memory) (entries : List ℕ) : List ℕ :=
  readLbas 1 33 ++ entries.flatMap (entryReads ns header)

/-! ## The header -/

theorem bytesAt_congr {mem mem' : Memory} {a n : ℕ} (same : ∀ i < n, mem (a + i) = mem' (a + i)) :
    bytesAt mem a n = bytesAt mem' a n := by
  unfold bytesAt
  apply List.map_congr_left
  intro i inside
  exact same i (List.mem_range.1 inside)

/-- Two buffers with the same first `gptHeaderSize` bytes are the same header. -/
structure SameHeader (header header' : Memory) : Prop where
  bytes : ∀ j < gptHeaderSize, header j = header' j

namespace SameHeader

variable {header header' : Memory}

theorem signature (same : SameHeader header header') :
    gptSignature header = gptSignature header' := by
  apply bytesAt_congr
  intro i less
  exact same.bytes _ (by unfold gptHeaderSize; omega)

theorem count (same : SameHeader header header') :
    partitionEntriesCount header = partitionEntriesCount header' := by
  apply load_congr
  intro i less
  exact same.bytes _ (by unfold gptHeaderSize; omega)

theorem startLba (same : SameHeader header header') {i : ℕ} (inside : i < 128) :
    Vineyard.startLba header i = Vineyard.startLba header' i := by
  apply load_congr
  intro k less
  exact same.bytes _ (by unfold gptHeaderSize entryOffset; omega)

theorem entryStart (same : SameHeader header header') {i : ℕ} (inside : i < 128) :
    Vineyard.entryStart header i = Vineyard.entryStart header' i := by
  unfold Vineyard.entryStart
  rw [same.startLba inside]

theorem entryReads (same : SameHeader header header') (ns : NvmeNs) {i : ℕ} (inside : i < 128) :
    Vineyard.entryReads ns header i = Vineyard.entryReads ns header' i := by
  unfold Vineyard.entryReads
  rw [same.entryStart inside]

end SameHeader

theorem entryStart_eq_zero (header : Memory) (i : ℕ) :
    entryStart header i = 0 ↔ startLba header i % 2 ^ 55 = 0 := by
  unfold entryStart
  rw [block_offset]
  omega

/-! ## The scan -/

/-- The number of entries from `i` on before the first that starts nowhere, out of `left`. -/
def leading (header : Memory) : ℕ → ℕ → ℕ
  | 0, _ => 0
  | left + 1, i => if entryStart header i = 0 then 0 else leading header left (i + 1) + 1

theorem leading_le (header : Memory) (left : ℕ) : ∀ i, leading header left i ≤ left := by
  induction left with
  | zero => exact fun _ => Nat.le_refl 0
  | succ left ih =>
    intro i
    unfold leading
    split_ifs
    · exact Nat.zero_le _
    · exact Nat.succ_le_succ (ih (i + 1))

theorem leading_before (header : Memory) (left : ℕ) :
    ∀ i, ∀ j < leading header left i, entryStart header (i + j) ≠ 0 := by
  induction left with
  | zero => exact fun i j less => absurd less (Nat.not_lt_zero j)
  | succ left ih =>
    intro i j less
    unfold leading at less
    split_ifs at less with zero
    · exact absurd less (Nat.not_lt_zero j)
    · cases j with
      | zero => exact zero
      | succ j =>
        rw [show i + (j + 1) = i + 1 + j by omega]
        exact ih (i + 1) j (by omega)

theorem leading_at (header : Memory) (left : ℕ) :
    ∀ i, leading header left i < left → entryStart header (i + leading header left i) = 0 := by
  induction left with
  | zero => exact fun i less => absurd less (Nat.not_lt_zero _)
  | succ left ih =>
    intro i less
    unfold leading at less ⊢
    split_ifs at less ⊢ with zero
    · exact zero
    · rw [show i + (leading header left (i + 1) + 1) = i + 1 + leading header left (i + 1) by omega]
      exact ih (i + 1) (by omega)

theorem entryStart_aligned (header : Memory) (i : ℕ) : entryStart header i % 512 = 0 := by
  unfold entryStart
  rw [block_offset]
  omega

theorem leading_congr {header header' : Memory} (same : SameHeader header header') (left : ℕ) :
    ∀ i, i + left ≤ 128 → leading header left i = leading header' left i := by
  induction left with
  | zero => exact fun _ _ => rfl
  | succ left ih =>
    intro i inside
    unfold leading
    rw [same.entryStart (by omega), ih (i + 1) (by omega)]

theorem strncmp_self (text : List Byte) (n : ℕ) : strncmp text text n = 0 := by
  induction n generalizing text with
  | zero => rfl
  | succ n ih =>
    unfold strncmp
    dsimp only
    rw [if_neg (fun h => h rfl)]
    split_ifs
    · rfl
    · exact ih _

/-! ## The reads of the scan -/

section Scan

variable {ns : NvmeNs} {d : NvmeDevice} {b c k : ℕ} (short : 2 ^ b * (2 * c + 1) ≤ 256)
  (block : ns.blockSize = 512)

include short block

/-- A read fills the buffer or panics. -/
theorem onIo_read {physical length : ℕ} (start : physical % 512 = 0) (word : physical < 2 ^ 64)
    (size : length % 512 = 0) (few : length < 2 ^ 32) (heap : Memory) {s : Fs}
    (h : IoInStep b c k s.io) :
    (d.ReadsAll (ioCommands (2 ^ b * (2 * c + 1))) k (readLbas (physical / 512) (length / 512)) ∧
      ∃ r io, (onIo (nvmeReadIo ns d physical length heap heap)).run s =
        (.ok r, { s with io := io }) ∧
        (∀ j < length, r.buf j = ns.disk (physical + j)) ∧
        IoInStep b c (k + (readLbas (physical / 512) (length / 512)).length) io) ∨
    (¬ d.ReadsAll (ioCommands (2 ^ b * (2 * c + 1))) k (readLbas (physical / 512) (length / 512)) ∧
      ∃ message, (onIo (nvmeReadIo ns d physical length heap heap)).run s =
        (.error (.panic message), s)) := by
  have small : physical / 512 + length / 512 < 2 ^ 64 := by
    clear short
    omega
  rcases h.read short ns d block size small heap heap with
    ⟨all, r, io, run, same, inStep⟩ | ⟨fails, message, run⟩
  · obtain ⟨r', run', bytes⟩ := @nvmeRead_aligned ns physical length heap block start size
    obtain rfl : r = r' := Except.ok.inj (same.symm.trans run')
    exact .inl ⟨all, r, io, run_onIo_ok run, fun j inside => by rw [bytes, if_pos inside], inStep⟩
  · exact .inr ⟨fails, message, run_onIo_error run⟩

/-- The check for btrfs takes one read, of the eight blocks of the superblock. -/
theorem btrfsCheck_run {start : ℕ} (aligned : start % 512 = 0) (heap : Memory) {s : Fs}
    (h : IoInStep b c k s.io) :
    (d.Reads (ioCommands (2 ^ b * (2 * c + 1))) k (Word64.add start (64 * 1024) / 512) ∧
      ∃ io, (btrfsCheckPartition ns d heap start).run s =
          (.ok (decide (IsBtrfs ns start)), { s with io := io }) ∧ IoInStep b c (k + 1) io) ∨
    (¬ d.Reads (ioCommands (2 ^ b * (2 * c + 1))) k (Word64.add start (64 * 1024) / 512) ∧
      ∃ message, (btrfsCheckPartition ns d heap start).run s = (.error (.panic message), s)) := by
  have one : readLbas (Word64.add start (64 * 1024) / 512) (0x1000 / 512) =
      [Word64.add start (64 * 1024) / 512] := rfl
  have word : Word64.add start (64 * 1024) < 2 ^ 64 := Nat.mod_lt _ (by decide)
  unfold btrfsCheckPartition
  rcases onIo_read (d := d) short block (by unfold Word64.add; omega) word
    (show 0x1000 % 512 = 0 by decide) (by decide) heap h with
    ⟨all, r, io, run, bytes, inStep⟩ | ⟨fails, message, run⟩
  · rw [one] at all inStep
    refine .inl ⟨all.1, io, ?_, inStep⟩
    have same : bytesAt r.buf 0x40 8 = bytesAt ns.disk (Word64.add start (64 * 1024) + 0x40) 8 := by
      unfold bytesAt
      refine List.map_congr_left fun i less => ?_
      have := List.mem_range.1 less
      rw [bytes _ (by omega), Nat.add_assoc]
    rw [run_bind_of_ok run, same]
    rfl
  · rw [one] at fails
    exact .inr ⟨fun reads => fails ⟨reads, trivial⟩, message, run_bind_of_error run⟩

/-- The check for FAT32 takes one read too. -/
theorem fat32Check_run {start : ℕ} (aligned : start % 512 = 0) (heap : Memory) {s : Fs}
    (h : IoInStep b c k s.io) :
    (d.Reads (ioCommands (2 ^ b * (2 * c + 1))) k (Word64.add start 512 / 512) ∧
      ∃ fat32 io, (fat32CheckPartition ns d heap start).run s = (.ok fat32, { s with io := io }) ∧
        IoInStep b c (k + 1) io) ∨
    (¬ d.Reads (ioCommands (2 ^ b * (2 * c + 1))) k (Word64.add start 512 / 512) ∧
      ∃ message, (fat32CheckPartition ns d heap start).run s = (.error (.panic message), s)) := by
  have one : readLbas (Word64.add start 512 / 512) (512 / 512) = [Word64.add start 512 / 512] := rfl
  have word : Word64.add start 512 < 2 ^ 64 := Nat.mod_lt _ (by decide)
  unfold fat32CheckPartition
  rcases onIo_read (d := d) short block (by unfold Word64.add; omega) word
    (show 512 % 512 = 0 by decide) (by decide) heap h with
    ⟨all, r, io, run, _, inStep⟩ | ⟨fails, message, run⟩
  · rw [one] at all inStep
    exact .inl ⟨all.1, _, io, run_bind_of_ok run, inStep⟩
  · rw [one] at fails
    exact .inr ⟨fun reads => fails ⟨reads, trivial⟩, message, run_bind_of_error run⟩

/-- An entry that starts somewhere gets its block device, unless a read for it fails. -/
theorem gptPartition_run (heap header : Memory) (i : ℕ) {s : Fs} (h : IoInStep b c k s.io) :
    (d.ReadsAll (ioCommands (2 ^ b * (2 * c + 1))) k (entryReads ns header i) ∧
      ∃ t, (gptPartition ns d heap header i).run s = (.ok (), t) ∧
        t.blockList = s.blockList ++ [⟨blockName ns i⟩] ∧
        IoInStep b c (k + (entryReads ns header i).length) t.io) ∨
    (¬ d.ReadsAll (ioCommands (2 ^ b * (2 * c + 1))) k (entryReads ns header i) ∧
      ∃ message t, (gptPartition ns d heap header i).run s = (.error (.panic message), t)) := by
  have aligned := entryStart_aligned header i
  unfold gptPartition entryReads
  dsimp only
  obtain ⟨s₁, print, io₁, list₁⟩ :=
    run_printf "partition %lu, %lu MiB, start %lu, end %lu" [.long (.ofNat 64 (i + 1)),
    .long (.ofNat 64 (Word64.sub (entryEnd header i) (entryStart header i) >>> 20)),
    .long (.ofNat 64 (startLba header i)), .long (.ofNat 64 (endLba header i))] s
  rw [run_bind_of_ok print, NvmeDevice.ReadsAll, ← list₁]
  rw [← io₁] at h
  rcases btrfsCheck_run (d := d) short block aligned heap h with
    ⟨first, io, run, inStep⟩ | ⟨fails, message, run⟩
  · rw [run_bind_of_ok run, and_iff_right first]
    by_cases btrfs : IsBtrfs ns (entryStart header i)
    · rw [if_pos btrfs, if_pos (decide_eq_true btrfs)]
      exact .inl ⟨trivial, _, rfl, rfl, inStep⟩
    · rw [if_neg btrfs, if_neg (by rw [decide_eq_true_eq]; exact btrfs), NvmeDevice.ReadsAll]
      rcases fat32Check_run (d := d) short block aligned heap (s := { s₁ with io := io }) inStep with
        ⟨second, fat32, io', run', inStep'⟩ | ⟨fails, message, run'⟩
      · refine .inl ⟨⟨second, trivial⟩, ?_⟩
        rw [run_bind_of_ok run']
        cases fat32 with
        | true => exact ⟨_, rfl, rfl, inStep'⟩
        | false => exact ⟨_, rfl, rfl, inStep'⟩
      · exact .inr ⟨fun all => fails all.1, message, _, run_bind_of_error run'⟩
  · exact .inr ⟨fun all => fails all.1, message, _, run_bind_of_error run⟩

/-- What the loop over the entries from `i` on does, with `left` of them to go: it adds
the leading entries of those in the table, and if these end the table before the count
does, it reads behind it. -/
theorem gptLoop_run (heap header : Memory) (left : ℕ) : ∀ i ≤ 128, ∀ k (s : Fs), IoInStep b c k s.io →
    let leads := List.range' i (leading header (min left (128 - i)) i)
    (d.ReadsAll (ioCommands (2 ^ b * (2 * c + 1))) k (leads.flatMap (entryReads ns header)) ∧
      ∃ t, (gptLoop ns d heap header left i).run s =
          (if i + leads.length = 128 ∧ leads.length < left then .error (.outOfBounds 128)
            else .ok (), t) ∧
        t.blockList = s.blockList ++ leads.map fun i => ⟨blockName ns i⟩) ∨
    (¬ d.ReadsAll (ioCommands (2 ^ b * (2 * c + 1))) k (leads.flatMap (entryReads ns header)) ∧
      ∃ message t, (gptLoop ns d heap header left i).run s = (.error (.panic message), t)) := by
  induction left with
  | zero =>
    intro i inside k s h
    rw [Nat.zero_min]
    refine .inl ⟨trivial, s, ?_, (List.append_nil _).symm⟩
    rw [if_neg (fun behind => absurd behind.2 (Nat.not_lt_zero _))]
    rfl
  | succ left ih =>
    intro i inside k s h
    unfold gptLoop
    by_cases last : 128 ≤ i
    · obtain rfl : i = 128 := Nat.le_antisymm inside last
      exact .inl ⟨trivial, s, rfl, (List.append_nil _).symm⟩
    rw [if_neg last, show min (left + 1) (128 - i) = min left (128 - (i + 1)) + 1 by omega]
    unfold leading
    by_cases zero : entryStart header i = 0
    · rw [if_pos zero, if_pos zero]
      refine .inl ⟨trivial, s, ?_, (List.append_nil _).symm⟩
      rw [if_neg (by simp only [List.range'_zero, List.length_nil]; omega)]
      rfl
    rw [if_neg zero, if_neg zero, List.range'_succ]
    simp only [List.flatMap_cons, NvmeDevice.readsAll_append, List.length_cons, List.map_cons]
    rcases gptPartition_run (d := d) short block heap header i h with
      ⟨first, t, run, added, inStep⟩ | ⟨fails, message, t, run⟩
    · rw [run_bind_of_ok run, and_iff_right first]
      rcases ih (i + 1) (by omega) _ t inStep with ⟨rest, u, run', added'⟩ | ⟨fails, message, u, run'⟩
      · refine .inl ⟨rest, u, ?_, ?_⟩
        · rw [run']
          congr 1
          exact if_congr (by omega) rfl rfl
        · rw [added', added, List.append_assoc, List.singleton_append]
      · exact .inr ⟨fails, message, u, run'⟩
    · exact .inr ⟨fun all => fails all.1, message, t, run_bind_of_error run⟩

/-- `gpt_init` reads block 1 and the blocks behind it, and goes on with what it found there. -/
theorem gptInit_header (heap : Memory) {s : Fs} (h : IoInStep b c k s.io) :
    (d.ReadsAll (ioCommands (2 ^ b * (2 * c + 1))) k (readLbas 1 33) ∧
      ∃ header t, SameHeader header (ns.rwRead 1) ∧ t.blockList = s.blockList ∧
        IoInStep b c (k + 5) t.io ∧
        (gptInit ns d heap).run s =
          if strncmp (chars "EFI PART") (gptSignature (ns.rwRead 1)) 8 ≠ 0 then
            (.error (.panic "[GPT]\tno header found"), t)
          else (gptLoop ns d heap header (partitionEntriesCount (ns.rwRead 1)) 0).run t) ∨
    (¬ d.ReadsAll (ioCommands (2 ^ b * (2 * c + 1))) k (readLbas 1 33) ∧
      ∃ message t, (gptInit ns d heap).run s = (.error (.panic message), t)) := by
  have lbas : readLbas (512 / 512) (gptHeaderSize / 512) = readLbas 1 33 := rfl
  unfold gptInit
  rcases onIo_read (d := d) short block (show 512 % 512 = 0 by decide) (by decide)
    (show gptHeaderSize % 512 = 0 by decide) (by decide) heap h with
    ⟨all, r, io, run, bytes, inStep⟩ | ⟨fails, message, run⟩
  · rw [lbas] at all inStep
    have same : SameHeader r.buf (ns.rwRead 1) := ⟨fun j inside => bytes j inside⟩
    refine .inl ⟨all, r.buf, { s with io := io }, same, rfl, inStep, ?_⟩
    rw [run_bind_of_ok run, same.signature, same.count]
    split_ifs <;> rfl
  · rw [lbas] at fails
    exact .inr ⟨fails, message, _, run_bind_of_error run⟩

/-- **What `gpt_init` does** with a disk that has a header: it adds the leading entries of those in the
table, unless one of its reads fails. -/
theorem gptInit_run (found : strncmp (chars "EFI PART") (gptSignature (ns.rwRead 1)) 8 = 0)
    (heap : Memory) {s : Fs} (h : IoInStep b c k s.io) :
    let leads := List.range (leading (ns.rwRead 1) (min (partitionEntriesCount (ns.rwRead 1)) 128) 0)
    (d.ReadsAll (ioCommands (2 ^ b * (2 * c + 1))) k (gptReads ns (ns.rwRead 1) leads) ∧
      ∃ t, (gptInit ns d heap).run s =
          (if leads.length = 128 ∧ 128 < partitionEntriesCount (ns.rwRead 1) then
            .error (.outOfBounds 128) else .ok (), t) ∧
        t.blockList = s.blockList ++ leads.map fun i => ⟨blockName ns i⟩) ∨
    (¬ d.ReadsAll (ioCommands (2 ^ b * (2 * c + 1))) k (gptReads ns (ns.rwRead 1) leads) ∧
      ∃ message t, (gptInit ns d heap).run s = (.error (.panic message), t)) := by
  intro leads
  have five : (readLbas 1 33).length = 5 := rfl
  simp only [gptReads, NvmeDevice.readsAll_append, five]
  rcases gptInit_header (d := d) short block heap h with
    ⟨table, header, t, same, list, inStep, run⟩ | ⟨fails, message, t, run⟩
  rotate_left
  · exact .inr ⟨fun all => fails all.1, message, t, run⟩
  rw [if_neg (fun missing => missing found)] at run
  have loop := gptLoop_run (d := d) short block heap header (partitionEntriesCount (ns.rwRead 1)) 0
    (Nat.zero_le _) _ t inStep
  have first : leading header (min (partitionEntriesCount (ns.rwRead 1)) 128) 0 =
      leading (ns.rwRead 1) (min (partitionEntriesCount (ns.rwRead 1)) 128) 0 :=
    leading_congr same _ 0 (by omega)
  simp only [Nat.sub_zero, Nat.zero_add, first, ← List.range_eq_range', ← run, list] at loop
  have reads : leads.flatMap (Vineyard.entryReads ns header) =
      leads.flatMap (Vineyard.entryReads ns (ns.rwRead 1)) := by
    refine List.flatMap_congr fun i mem => same.entryReads ns ?_
    have few := leading_le (ns.rwRead 1) (min (partitionEntriesCount (ns.rwRead 1)) 128) 0
    have := List.mem_range.1 mem
    omega
  rw [reads] at loop
  rcases loop with ⟨rest, u, run', added⟩ | ⟨fails, message, u, run'⟩
  · have behind : leads.length = 128 ∧ leads.length < partitionEntriesCount (ns.rwRead 1) ↔
        leads.length = 128 ∧ 128 < partitionEntriesCount (ns.rwRead 1) :=
      and_congr_right fun full => by rw [full]
    refine .inl ⟨⟨table, rest⟩, u, ?_, added⟩
    rw [run', if_congr behind rfl rfl]
  · exact .inr ⟨fun all => fails all.2, message, u, run'⟩

end Scan

/-- The number of entries that `gpt_init` registers. -/
def registered (header : Memory) : ℕ := leading header (partitionEntriesCount header) 0

/-! ## Names -/

/-- `%zu` -/
def sizeItem : FormatItem := .conversion ⟨[], .none, none, .z, .u⟩

/-- The items of a block device name before the number of the entry, with their arguments. -/
def nameFront (ns : NvmeNs) : List (FormatItem × List VaArg) :=
  [(.literal ⟨chars "nvme", by decide, by decide +kernel⟩, []),
    (sizeItem, [.long (.ofNat 64 ns.num)]),
    (.literal ⟨chars "n", by decide, by decide +kernel⟩, []),
    (.conversion ⟨[], .none, none, .none, .u⟩, [.int (.ofNat 32 ns.id)]),
    (.literal ⟨chars "p", by decide, by decide +kernel⟩, [])]

/-- The number at the end of a name. -/
def numberText (i : ℕ) : List Byte := delivered sizeItem.text [.long (.ofNat 64 i)]

/-- The items of a block device name, with their arguments. -/
def namePairs (ns : NvmeNs) (i : ℕ) : List (FormatItem × List VaArg) :=
  nameFront ns ++ [(sizeItem, [.long (.ofNat 64 i)])]

/-- A name is a text that does not depend on the entry, and the number of the entry. -/
theorem blockName_eq (ns : NvmeNs) (i : ℕ) :
    blockName ns i = (nameFront ns).flatMap (fun p => delivered p.1.text p.2) ++ numberText i := by
  have matching : ∀ p ∈ namePairs ns i, p.1.Matches p.2 := by
    intro p mem
    simp only [namePairs, nameFront, List.cons_append, List.nil_append, List.mem_cons,
      List.not_mem_nil, or_false] at mem
    rcases mem with rfl | rfl | rfl | rfl | rfl | rfl <;> rfl
  have room : ∀ p ∈ namePairs ns i, p.1.HasRoom p.2 := by
    intro p mem
    simp only [namePairs, nameFront, List.cons_append, List.nil_append, List.mem_cons,
      List.not_mem_nil, or_false] at mem
    rcases mem with rfl | rfl | rfl | rfl | rfl | rfl <;>
      simp [FormatItem.HasRoom, sizeItem, Conversion.HasRoom]
  have text : (namePairs ns i).flatMap (fun p => p.1.text) = chars "nvme%zun%up%zu" := by
    simp only [namePairs, nameFront, List.cons_append, List.nil_append, List.flatMap_cons,
      List.flatMap_nil]
    decide
  have whole := (items_adds _ matching room).delivers []
  rw [text, List.append_nil] at whole
  have name : blockName ns i = (namePairs ns i).flatMap fun p => delivered p.1.text p.2 := by
    unfold blockName asprintf
    exact delivered_eq whole
  rw [name, namePairs, List.flatMap_append]
  exact congrArg _ (List.append_nil _)

/-- The decimal number that a text spells. -/
def spelled (text : List Byte) : ℕ := text.foldl (fun n c => n * 10 + (c.toNat - 48)) 0

theorem spelled_numberText : ∀ i < 128, spelled (numberText i) = i := by
  decide +kernel

/-- Reads the number of the entry off a name. -/
theorem spelled_blockName (ns : NvmeNs) {i : ℕ} (inside : i < 128) :
    spelled ((blockName ns i).drop
      ((nameFront ns).flatMap fun p => delivered p.1.text p.2).length) = i := by
  rw [blockName_eq, List.drop_left]
  exact spelled_numberText i inside

/-- Lists of entries with the same names are the same. -/
theorem entries_eq_of_names (ns : NvmeNs) {l l' : List ℕ} (inside : ∀ i ∈ l, i < 128)
    (inside' : ∀ i ∈ l', i < 128)
    (names : (l.map fun i => (⟨blockName ns i⟩ : Block)) = l'.map fun i => ⟨blockName ns i⟩) :
    l = l' := by
  have read (k : List ℕ) (small : ∀ i ∈ k, i < 128) :
      (k.map fun i => (⟨blockName ns i⟩ : Block)).map (fun b => spelled (b.name.drop
        ((nameFront ns).flatMap fun p => delivered p.1.text p.2).length)) = k := by
    rw [List.map_map]
    conv_rhs => rw [← List.map_id k]
    apply List.map_congr_left
    intro i mem
    exact spelled_blockName ns (small i mem)
  rw [← read l inside, ← read l' inside', names]

/-! ## What is registered -/

section Registered

variable {ns : NvmeNs} {header : Memory}

theorem registered_le (header : Memory) : registered header ≤ partitionEntriesCount header :=
  leading_le header _ 0

theorem registered_before {i : ℕ} (less : i < registered header) :
    startLba header i % 2 ^ 55 ≠ 0 := by
  have start := leading_before header (partitionEntriesCount header) 0 i less
  rw [Nat.zero_add] at start
  exact fun zero => start ((entryStart_eq_zero header i).2 zero)

theorem registered_at (less : registered header < partitionEntriesCount header) :
    startLba header (registered header) % 2 ^ 55 = 0 := by
  have start := leading_at header (partitionEntriesCount header) 0 less
  rw [Nat.zero_add] at start
  exact (entryStart_eq_zero header _).1 start

/-- The leading entries are those in use exactly on a packed table. -/
theorem range_registered_iff (header : Memory) :
    List.range (registered header) = entriesInUse header ↔ GptPacked header := by
  constructor
  · intro same
    have mem (i : ℕ) : i < registered header ↔ i < partitionEntriesCount header ∧ InUse header i := by
      rw [← List.mem_range, same]
      simp [entriesInUse]
    refine ⟨registered header, registered_le header, ?_, ?_, registered_at⟩
    · intro i less
      exact ⟨((mem i).1 less).2, registered_before less⟩
    · intro i beyond inside used
      exact absurd ((mem i).2 ⟨inside, used⟩) (Nat.not_lt.2 beyond)
  · rintro ⟨k, le, used, unused, stop⟩
    have leads : registered header = k := by
      rcases Nat.lt_trichotomy (registered header) k with less | same | more
      · have zero := registered_at (Nat.lt_of_lt_of_le less le)
        exact absurd zero (used _ less).2
      · exact same
      · have nonzero := registered_before more
        exact absurd (stop (Nat.lt_of_lt_of_le more (registered_le header))) nonzero
    obtain ⟨rest, split⟩ := Nat.exists_eq_add_of_le le
    unfold entriesInUse
    rw [leads, split, List.range_add, List.filter_append, List.filter_eq_self.2,
      List.filter_eq_nil_iff.2, List.append_nil]
    · intro i mem
      obtain ⟨j, inside, rfl⟩ := List.mem_map.1 mem
      have less := List.mem_range.1 inside
      have none := unused (k + j) (Nat.le_add_right k j) (by omega)
      simpa using none
    · intro i mem
      exact decide_eq_true (used i (List.mem_range.1 mem)).1

variable {d : NvmeDevice} {base stride cap : ℕ} {io : NvmeSystem}

/-- The I/O queues that `nvme_init` leaves start in step with the controller. -/
theorem nvmeIo_fresh (made : nvmeIo base stride cap = .ok io) :
    ∃ b c, min (cap % 2 ^ 16 + 1) 256 = 2 ^ b * (2 * c + 1) ∧ IoInStep b c 0 io := by
  obtain ⟨b, m, ⟨c, rfl⟩, length⟩ :=
    Nat.exists_eq_two_pow_mul_odd (n := min (cap % 2 ^ 16 + 1) 256) (by omega)
  obtain ⟨io', made', inStep⟩ := nvmeIo_inStep base stride cap length
  obtain rfl : io = io' := Except.ok.inj (made.symm.trans made')
  exact ⟨b, c, length, inStep⟩

/-- The reads of a scan with fresh I/O queues succeed. -/
def GptAnswers (ns : NvmeNs) (d : NvmeDevice) (cap : ℕ) (entries : List ℕ) : Prop :=
  d.ReadsAll (ioCommands (min (cap % 2 ^ 16 + 1) 256)) 0 (gptReads ns (ns.rwRead 1) entries)

instance (ns : NvmeNs) (d : NvmeDevice) (cap : ℕ) (entries : List ℕ) :
    Decidable (GptAnswers ns d cap entries) :=
  inferInstanceAs (Decidable (NvmeDevice.ReadsAll ..))

theorem registers_iff_range (disk : GptDisk ns) (made : nvmeIo base stride cap = .ok io) :
    GptRegisters ns d io ↔ List.range (registered (ns.rwRead 1)) = entriesInUse (ns.rwRead 1) ∧
      GptAnswers ns d cap (List.range (registered (ns.rwRead 1))) := by
  obtain ⟨b, c, length, inStep⟩ := nvmeIo_fresh made
  have short : 2 ^ b * (2 * c + 1) ≤ 256 := by
    rw [← length]
    exact Nat.min_le_right _ _
  have count := disk.count
  have found : strncmp (chars "EFI PART") (gptSignature (ns.rwRead 1)) 8 = 0 := by
    rw [disk.signature, strncmp_self]
  have spec : ∀ heap (s : Fs), s.io = io →
      (GptAnswers ns d cap (List.range (registered (ns.rwRead 1))) ∧
        ∃ t, (gptInit ns d heap).run s = (.ok (), t) ∧ t.blockList = s.blockList ++
          (List.range (registered (ns.rwRead 1))).map fun i => ⟨blockName ns i⟩) ∨
      (¬ GptAnswers ns d cap (List.range (registered (ns.rwRead 1))) ∧
        ∃ message t, (gptInit ns d heap).run s = (.error (.panic message), t)) := by
    intro heap s same
    have run := gptInit_run (d := d) short disk.blockSize found heap (s := s) (same ▸ inStep)
    rw [Nat.min_eq_left count, ← length] at run
    simp only [show ¬ 128 < partitionEntriesCount (ns.rwRead 1) by omega, and_false, if_false] at run
    exact run
  constructor
  · intro registers
    obtain ⟨t, run, added⟩ := registers (fun _ => 0) ⟨[], [], io⟩ rfl
    rcases spec (fun _ => 0) ⟨[], [], io⟩ rfl with ⟨answers, u, run', added'⟩ | ⟨_, message, u, run'⟩
    · obtain rfl : t = u := (Prod.mk.inj (run.symm.trans run')).2
      rw [added] at added'
      refine ⟨entries_eq_of_names ns ?_ ?_ (List.append_cancel_left added').symm, answers⟩
      · intro i mem
        have := registered_le (ns.rwRead 1)
        have := List.mem_range.1 mem
        omega
      · intro i mem
        have := List.mem_range.1 (List.mem_filter.1 mem).1
        omega
    · cases (Prod.mk.inj (run.symm.trans run')).1
  · rintro ⟨same, answers⟩ heap s here
    rcases spec heap s here with ⟨_, run⟩ | ⟨fails, _⟩
    · rwa [same] at run
    · exact absurd answers fails

end Registered

/-- A disk with a table of four entries, of which the given ones are in use. -/
def tableNs (used : List ℕ) : NvmeNs :=
  let cells : List (ℕ × Byte) :=
    (chars "EFI PART").zipIdx.map (fun c => (512 + c.2, c.1)) ++
      [(512 + 72, 2), (512 + 80, 4), (512 + 84, 128)] ++
      used.flatMap fun i => [(1024 + 128 * i, 1), (1024 + 128 * i + 32, 40)]
  ⟨0, 0, 512, fun a => ((cells.find? fun c => c.1 = a).map Prod.snd).getD 0⟩

/-- A controller that answers every command at once. -/
def promptDevice : NvmeDevice := ⟨fun _ _ => ⟨0, 0, 0⟩, fun n => n + 1⟩

theorem nvmeIo_returns (base stride cap : ℕ) : ∃ io, nvmeIo base stride cap = .ok io := ⟨_, rfl⟩

theorem tableNs_gptDisk : GptDisk (tableNs [0, 1]) :=
  ⟨rfl, by decide +kernel, by decide +kernel, by decide +kernel, by decide +kernel⟩

end Vineyard
