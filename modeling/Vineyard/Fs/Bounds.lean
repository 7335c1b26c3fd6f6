import Vineyard.Fs.Partitions

/-!
# The entries that are read

The table that `gpt_init` loads has 128 entries, and the scan goes on while there are entries left by
the count of the header, each of them starts somewhere, and the reads for it succeed.
-/

namespace Vineyard

open Bytes Programs Programs.Prog

/-- The scan never reads an entry behind the table. -/
def GptInside (ns : NvmeNs) (d : NvmeDevice) (heap : Memory) (s : Fs) : Prop :=
  ∀ i, ((gptInit ns d heap).run s).1 ≠ .error (.outOfBounds i)

variable {ns : NvmeNs} {d : NvmeDevice} {header : Memory} {base stride cap : ℕ} {s : Fs}

/-- The leading entries are all of the table when each of these starts somewhere. -/
theorem leading_full_iff (header : Memory) (count : ℕ) :
    leading header (min count 128) 0 = 128 ↔ 128 ≤ count ∧ ∀ i < 128,
      startLba header i % 2 ^ 55 ≠ 0 := by
  have le := leading_le header (min count 128) 0
  constructor
  · intro full
    refine ⟨by omega, fun i less zero => ?_⟩
    have start := leading_before header (min count 128) 0 i (by omega)
    rw [Nat.zero_add] at start
    exact start ((entryStart_eq_zero header i).2 zero)
  · rintro ⟨many, used⟩
    by_contra fewer
    have less : leading header (min count 128) 0 < min count 128 := by omega
    have stop := leading_at header (min count 128) 0 less
    rw [Nat.zero_add] at stop
    exact used _ (by omega) ((entryStart_eq_zero header _).1 stop)

/-- With a header the scan reads behind the table exactly when the count goes beyond it, all entries
of the table start somewhere and the reads for them succeed. -/
theorem gptInit_beyond_iff (made : nvmeIo base stride cap = .ok s.io) (block : ns.blockSize = 512)
    (found : strncmp (chars "EFI PART") (gptSignature (ns.rwRead 1)) 8 = 0) (heap : Memory) (i : ℕ) :
    ((gptInit ns d heap).run s).1 = .error (.outOfBounds i) ↔
      i = 128 ∧ 128 < partitionEntriesCount (ns.rwRead 1) ∧
        (∀ j < 128, startLba (ns.rwRead 1) j % 2 ^ 55 ≠ 0) ∧
          GptAnswers ns d cap (List.range 128) := by
  obtain ⟨b, c, length, inStep⟩ := nvmeIo_fresh made
  have short : 2 ^ b * (2 * c + 1) ≤ 256 := by
    rw [← length]
    exact Nat.min_le_right _ _
  have full := leading_full_iff (ns.rwRead 1) (partitionEntriesCount (ns.rwRead 1))
  have run := gptInit_run (d := d) short block found heap inStep
  simp only [List.length_range] at run
  rw [← length] at run
  rcases run with ⟨answers, t, run, _⟩ | ⟨fails, message, t, run⟩
  · rw [run]
    dsimp only
    split_ifs with beyond
    · rw [beyond.1] at answers
      constructor
      · intro same
        cases same
        exact ⟨rfl, beyond.2, (full.1 beyond.1).2, answers⟩
      · rintro ⟨rfl, _⟩
        rfl
    · refine iff_of_false (by rintro ⟨⟩) ?_
      rintro ⟨_, more, used, _⟩
      exact beyond ⟨full.2 ⟨more.le, used⟩, more⟩
  · rw [run]
    refine iff_of_false (by rintro ⟨⟩) ?_
    rintro ⟨_, more, used, answers⟩
    rw [full.2 ⟨more.le, used⟩] at fails
    exact fails answers

/-- Without a header the scan does not start. -/
theorem gptInit_missing (made : nvmeIo base stride cap = .ok s.io) (block : ns.blockSize = 512)
    (missing : strncmp (chars "EFI PART") (gptSignature (ns.rwRead 1)) 8 ≠ 0) (heap : Memory) :
    ∃ message t, (gptInit ns d heap).run s = (.error (.panic message), t) := by
  obtain ⟨b, c, length, inStep⟩ := nvmeIo_fresh made
  have short : 2 ^ b * (2 * c + 1) ≤ 256 := by
    rw [← length]
    exact Nat.min_le_right _ _
  rcases gptInit_header (d := d) short block heap inStep with ⟨_, _, t, _, _, _, run⟩ | ⟨_, fails⟩
  · rw [if_pos missing] at run
    exact ⟨_, t, run⟩
  · exact fails

/-- A disk full of ones but for a header that counts 129 entries and the magic number of btrfs
where each of them has it. -/
def fullNs : NvmeNs :=
  let cells : List (ℕ × Byte) :=
    (chars "EFI PART").zipIdx.map (fun c => (512 + c.2, c.1)) ++
      [(512 + 80, 129), (512 + 81, 0), (512 + 82, 0), (512 + 83, 0)] ++
      (chars "_BHRfS_M").zipIdx.map fun c => (0x0202020202020200 + 0x10040 + c.2, c.1)
  ⟨0, 0, 512, fun a => ((cells.find? fun c => c.1 = a).map Prod.snd).getD 1⟩

end Vineyard
