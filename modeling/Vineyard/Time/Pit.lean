import Mathlib.Data.List.Basic
import Vineyard.Machine
import Vineyard.Lib.Settling
import Vineyard.Lib.Words

/-!
# Waiting with the interval timer

`pit_wait` of `time/pit.c` cuts a delay into counts of 16 bits, loads one after the other into
channel 0 of the timer and polls until each has run out.  The loop ends when bits 16 to 31 of what is
left are zero, so a delay of more than one count loses its last part.
-/

namespace Vineyard.Pit

open Programs Programs.Prog

/-! ## The ports -/

/-- `PORT_CMD` and `PORT_CH0` -/
inductive Port where
  | cmd
  | ch0
  deriving DecidableEq

structure PortWrite where
  port : Port
  value : UInt8
  deriving DecidableEq

/-- The status byte that the timer answers with, after the writes so far. -/
abbrev Timer := List PortWrite → UInt8

/-- The state is what was written to the ports. -/
abbrev PitM := Prog Fault (List PortWrite)

def outb (port : Port) (value : UInt8) : PitM Unit := modify fun writes => writes ++ [⟨port, value⟩]

def inb (timer : Timer) : PitM UInt8 := do
  let writes ← get
  return timer writes

/-- `CMD_ACC_LOHI`, for channel 0 -/
def cmdAccLohi : UInt8 := 0x30

/-- `CMD_READBACK | CMD_RB_CH0 | CMD_RB_NO_COUNT_LATCH` -/
def cmdReadback : UInt8 := 0xC0 ||| 0x02 ||| 0x20

/-- `STATUS_OUTPUT` -/
def statusOutput : UInt8 := 0x80

/-- How far channel 0 is with the two bytes of a count. -/
inductive Loading where
  | idle
  | low
  | high (lo : UInt8)

/-- What a write does to channel 0, with the counts loaded so far. -/
def load : Loading × List ℕ → PortWrite → Loading × List ℕ
  | (loading, counts), ⟨.cmd, value⟩ =>
    if value &&& 0xF0 = cmdAccLohi then (.low, counts) else (loading, counts)
  | (.idle, counts), ⟨.ch0, _⟩ => (.idle, counts)
  | (.low, counts), ⟨.ch0, lo⟩ => (.high lo, counts)
  | (.high lo, counts), ⟨.ch0, hi⟩ => (.idle, counts ++ [lo.toNat + 256 * hi.toNat])

/-- The counts that the writes load. -/
def loads (writes : List PortWrite) : List ℕ := (writes.foldl load (.idle, [])).2

/-! ## `pit_wait` -/

/-- The inner loop, for at most `n` rounds -/
def pollOutput (timer : Timer) : ℕ → PitM Unit
  | 0 => fail .endless
  | n + 1 => do
    outb .cmd cmdReadback
    let status ← inb timer
    if status &&& statusOutput = 0 then pollOutput timer n else pure ()

def nextCount (total : ℕ) : ℕ := if total > 0xFFFF then 0xFFFF else total % 2 ^ 16

/-- The outer loop, for at most `n` rounds -/
def waitLoop (timer : Timer) (total : ℕ) : ℕ → PitM Unit
  | 0 => fail .endless
  | n + 1 => do
    let count := nextCount total
    outb .cmd cmdAccLohi
    outb .ch0 (UInt8.ofNat (count &&& 0xFF))
    outb .ch0 (UInt8.ofNat (count >>> 8))
    pollOutput timer n
    let total := Word64.sub total count
    if total &&& 0xFFFF0000 ≠ 0 then waitLoop timer total n else pure ()

def pitWait (timer : Timer) (ms n : ℕ) : PitM Unit := waitLoop timer (0x4A9 * ms % 2 ^ 64) n

/-! ## What is loaded -/

/-- A delay cut into counts, and what is left of it when the loop ends. -/
inductive Cut : ℕ → List ℕ → ℕ → Prop where
  | last {total : ℕ} (stop : (total - nextCount total) &&& 0xFFFF0000 = 0) :
    Cut total [nextCount total] (total - nextCount total)
  | more {total left : ℕ} {counts : List ℕ} (go : (total - nextCount total) &&& 0xFFFF0000 ≠ 0)
    (rest : Cut (total - nextCount total) counts left) : Cut total (nextCount total :: counts) left

theorem nextCount_of_le {total : ℕ} (le : total ≤ 0xFFFF) : nextCount total = total := by
  rw [nextCount, if_neg (by omega), Nat.mod_eq_of_lt (by omega)]

theorem nextCount_of_gt {total : ℕ} (gt : 0xFFFF < total) : nextCount total = 0xFFFF := by
  rw [nextCount, if_pos gt]

theorem nextCount_le (total : ℕ) : nextCount total ≤ total := by
  rcases Nat.lt_or_ge 0xFFFF total with gt | le
  · rw [nextCount_of_gt gt]
    exact gt.le
  · exact (nextCount_of_le le).le

theorem nextCount_range {total : ℕ} (pos : 0 < total) :
    1 ≤ nextCount total ∧ nextCount total ≤ 0xFFFF := by
  rcases Nat.lt_or_ge 0xFFFF total with gt | le
  · simp [nextCount_of_gt gt]
  · rw [nextCount_of_le le]
    exact ⟨pos, le⟩

/-- The mask of the loop sees nothing of a delay that fits one count. -/
theorem mask_eq_zero_of_le {total : ℕ} (le : total ≤ 0xFFFF) : total &&& 0xFFFF0000 = 0 := by
  have field := Words.and_field total 16 32 (by decide)
  rw [Nat.mod_eq_of_lt (by omega), Nat.div_eq_of_lt (by omega), Nat.zero_mul] at field
  exact field

namespace Cut

variable {total left : ℕ} {counts : List ℕ}

theorem sum (cut : Cut total counts left) : counts.sum + left = total := by
  induction cut with
  | @last total _ =>
    have := nextCount_le total
    simp
    omega
  | @more total _ _ _ _ ih =>
    have := nextCount_le total
    simp
    omega

theorem range (cut : Cut total counts left) (pos : 0 < total) : ∀ c ∈ counts, 1 ≤ c ∧ c ≤ 0xFFFF := by
  induction cut with
  | last _ => simpa using nextCount_range pos
  | more go _ ih =>
    have later := ih (Nat.pos_of_ne_zero fun zero => go (by simp [zero]))
    simpa using ⟨nextCount_range pos, later⟩

/-- A delay of more than one count is never waited for in full. -/
theorem left_ne_zero (cut : Cut total counts left) (gt : 0xFFFF < total) : left ≠ 0 := by
  induction cut with
  | last _ =>
    rw [nextCount_of_gt gt]
    omega
  | more go _ ih => exact ih (Nat.lt_of_not_le fun le => go (mask_eq_zero_of_le le))

theorem left_eq_zero (cut : Cut total counts left) (le : total ≤ 0xFFFF) : left = 0 := by
  cases cut with
  | last _ => rw [nextCount_of_le le, Nat.sub_self]
  | more go _ => exact absurd (by rw [nextCount_of_le le, Nat.sub_self, Nat.zero_and]) go

end Cut

/-- Every delay is cut into counts. -/
theorem exists_cut {total : ℕ} (pos : 0 < total) : ∃ counts left, Cut total counts left := by
  induction total using Nat.strong_induction_on with
  | _ total ih =>
    by_cases go : (total - nextCount total) &&& 0xFFFF0000 = 0
    · exact ⟨_, _, .last go⟩
    · have some : 0 < total - nextCount total := Nat.pos_of_ne_zero fun zero => go (by simp [zero])
      have less := nextCount_range pos
      obtain ⟨counts, left, rest⟩ := ih _ (by omega) some
      exact ⟨_, _, .more go rest⟩

/-! ## Runs -/

/-- The writes that program a count. -/
def program (count : ℕ) : List PortWrite :=
  [⟨.cmd, cmdAccLohi⟩, ⟨.ch0, UInt8.ofNat (count &&& 0xFF)⟩, ⟨.ch0, UInt8.ofNat (count >>> 8)⟩]

def readback : PortWrite := ⟨.cmd, cmdReadback⟩

/-- Each programmed countdown ends, and the status that is read back says so. -/
def Ending (timer : Timer) : Prop := ∀ writes count, ∃ polls,
  timer (writes ++ program count ++ List.replicate (polls + 1) readback) &&& statusOutput ≠ 0

theorem load_readbacks (polls : ℕ) (counts : List ℕ) :
    (List.replicate polls readback).foldl load (.idle, counts) = (.idle, counts) := by
  induction polls with
  | zero => rfl
  | succ polls ih => exact ih

theorem load_program {count : ℕ} (le : count ≤ 0xFFFF) (counts : List ℕ) :
    (program count).foldl load (.idle, counts) = (.idle, counts ++ [count]) := by
  have low : count &&& 0xFF = count % 2 ^ 8 := Words.and_low count 8
  have high : count >>> 8 = count / 2 ^ 8 := Nat.shiftRight_eq_div_pow count 8
  have selected : cmdAccLohi &&& 0xF0 = cmdAccLohi := by decide
  rw [program, low, high]
  simp [load, selected]
  omega

section Runs

variable {timer : Timer} {s : List PortWrite} {total left : ℕ} {counts : List ℕ}

theorem pollRound_run (n : ℕ) : (pollOutput timer (n + 1)).run s =
    if timer (s ++ [readback]) &&& statusOutput = 0 then (pollOutput timer n).run (s ++ [readback])
    else (.ok (), s ++ [readback]) := by
  have read : (inb timer).run (s ++ [readback]) =
    (.ok (timer (s ++ [readback])), s ++ [readback]) := rfl
  rw [pollOutput, outb, run_bind_of_ok (run_modify _ _)]
  refine (run_bind_of_ok read).trans ?_
  split <;> rfl

/-- The poll ends with the first status that has the output bit. -/
theorem pollOutput_settles {polls : ℕ}
    (output : timer (s ++ List.replicate (polls + 1) readback) &&& statusOutput ≠ 0) :
    ∃ polls, Settles (pollOutput timer) s () (s ++ List.replicate polls readback) := by
  induction polls generalizing s with
  | zero =>
    refine ⟨1, .stop fun n => ?_⟩
    rw [pollRound_run, if_neg (by simpa using output)]
    rfl
  | succ polls ih =>
    by_cases here : timer (s ++ [readback]) &&& statusOutput = 0
    · have shift : s ++ [readback] ++ List.replicate (polls + 1) readback =
          s ++ List.replicate (polls + 1 + 1) readback := by simp [List.replicate_succ]
      obtain ⟨later, settles⟩ := ih (shift ▸ output)
      refine ⟨later + 1, Settles.round (fun n => ?_) (by simpa [List.replicate_succ] using settles)⟩
      rw [pollRound_run, if_pos here]
    · exact ⟨1, .stop fun n => by rw [pollRound_run, if_neg here]; rfl⟩

theorem waitRound_run (lt : total < 2 ^ 64) (n : ℕ) : (waitLoop timer total (n + 1)).run s =
    (pollOutput timer n >>= fun _ =>
      if (total - nextCount total) &&& 0xFFFF0000 ≠ 0 then waitLoop timer (total - nextCount total) n
      else pure ()).run (s ++ program (nextCount total)) := by
  have less : Word64.sub total (nextCount total) = total - nextCount total :=
    Word64.sub_eq (nextCount_le total) (by omega)
  simp only [waitLoop, outb, less]
  rw [run_bind_of_ok (run_modify _ _), run_bind_of_ok (run_modify _ _),
    run_bind_of_ok (run_modify _ _)]
  simp [program]

/-- The loop programs the counts of the cut, one a round. -/
theorem waitLoop_settles (ending : Ending timer) (cut : Cut total counts left) (pos : 0 < total)
    (lt : total < 2 ^ 64) : ∃ writes, Settles (waitLoop timer total) s () (s ++ writes) ∧
      ∀ before, writes.foldl load (.idle, before) = (.idle, before ++ counts) := by
  have round : ∀ (total : ℕ) (s : List PortWrite), ∃ polls, Settles (pollOutput timer)
      (s ++ program (nextCount total)) () (s ++ (program (nextCount total) ++
        List.replicate polls readback)) := by
    intro total s
    obtain ⟨polls, output⟩ := ending s (nextCount total)
    obtain ⟨polls, settles⟩ := pollOutput_settles output
    exact ⟨polls, List.append_assoc _ _ _ ▸ settles⟩
  have loaded : ∀ (total polls : ℕ) (before : List ℕ), 0 < total →
      (program (nextCount total) ++ List.replicate polls readback).foldl load (.idle, before) =
        (.idle, before ++ [nextCount total]) := by
    intro total polls before pos
    rw [List.foldl_append, load_program (nextCount_range pos).2, load_readbacks]
  induction cut generalizing s with
  | @last total stop =>
    obtain ⟨polls, settles⟩ := round total s
    refine ⟨_, ?_, fun before => loaded total polls before pos⟩
    refine Settles.round (fun n => waitRound_run lt n) (settles.bind ?_)
    simpa [stop] using Settles.of_run (run_pure () _)
  | @more total left counts go rest ih =>
    have some : 0 < total - nextCount total := Nat.pos_of_ne_zero fun zero => go (by simp [zero])
    obtain ⟨polls, settles⟩ := round total s
    rcases @ih (s ++ (program (nextCount total) ++ List.replicate polls readback)) some
      (Nat.lt_of_le_of_lt (Nat.sub_le _ _) lt) with ⟨writes, later, loads⟩
    refine ⟨program (nextCount total) ++ List.replicate polls readback ++ writes, ?_,
      fun before => ?_⟩
    · refine Settles.round (fun n => waitRound_run lt n) (settles.bind ?_)
      simpa [go] using later
    · rw [List.foldl_append, loaded total polls before pos, loads, List.append_assoc]
      rfl

end Runs

/-- The wait ends, and the counts that it loads, each of 1 to 0xFFFF, are the whole delay. -/
def WaitsInFull (timer : Timer) (s : List PortWrite) (ms : ℕ) : Prop :=
  ∃ writes, Settles (pitWait timer ms) s () (s ++ writes) ∧
    (∀ count ∈ loads writes, 1 ≤ count ∧ count ≤ 0xFFFF) ∧ (loads writes).sum = 0x4A9 * ms

/-- The wait always ends, and loads the counts of the cut. -/
theorem pitWait_settles {timer : Timer} (ending : Ending timer) (s : List PortWrite) {ms : ℕ}
    (pos : 0 < 0x4A9 * ms) (lt : 0x4A9 * ms < 2 ^ 64) :
    ∃ writes left, Settles (pitWait timer ms) s () (s ++ writes) ∧
      Cut (0x4A9 * ms) (loads writes) left := by
  obtain ⟨counts, left, cut⟩ := exists_cut pos
  obtain ⟨writes, settles, loaded⟩ := waitLoop_settles ending cut pos lt
  have same : loads writes = counts := by simp [loads, loaded]
  refine ⟨writes, left, ?_, same ▸ cut⟩
  unfold pitWait
  rwa [Nat.mod_eq_of_lt lt]

theorem waitsInFull_of_le {timer : Timer} (ending : Ending timer) (s : List PortWrite) {ms : ℕ}
    (pos : 0 < 0x4A9 * ms) (le : 0x4A9 * ms ≤ 0xFFFF) : WaitsInFull timer s ms := by
  obtain ⟨writes, left, settles, cut⟩ := pitWait_settles ending s pos (le.trans_lt (by decide))
  have none := cut.left_eq_zero le
  have sum := cut.sum
  exact ⟨writes, settles, cut.range pos, by omega⟩

theorem not_waitsInFull_of_gt {timer : Timer} (ending : Ending timer) (s : List PortWrite) {ms : ℕ}
    (gt : 0xFFFF < 0x4A9 * ms) (lt : 0x4A9 * ms < 2 ^ 64) : ¬ WaitsInFull timer s ms := by
  obtain ⟨writes, left, settles, cut⟩ := pitWait_settles ending s (Nat.zero_lt_of_lt gt) lt
  rintro ⟨writes', settles', _, full⟩
  have same : writes' = writes := List.append_cancel_left (settles'.unique settles).2
  have sum := cut.sum
  subst same
  exact cut.left_ne_zero gt (by omega)

/-- A delay is waited for in full exactly when one count holds it. -/
theorem pitWait_in_full_iff (timer : Timer) (ending : Ending timer) (s : List PortWrite) (ms : ℕ)
    (pos : 0 < 0x4A9 * ms) (lt : 0x4A9 * ms < 2 ^ 64) :
    WaitsInFull timer s ms ↔ 0x4A9 * ms ≤ 0xFFFF :=
  ⟨fun full => Nat.le_of_not_lt fun gt => not_waitsInFull_of_gt ending s gt lt full,
    waitsInFull_of_le ending s pos⟩

/-- A timer whose countdowns have run out by the first poll. -/
def readyTimer : Timer := fun _ => statusOutput

theorem readyTimer_ending : Ending readyTimer :=
  fun _ _ => ⟨0, show statusOutput &&& statusOutput ≠ 0 by decide⟩

theorem pitWait_in_full_10 : WaitsInFull readyTimer [] 10 ↔ 0x4A9 * 10 ≤ 0xFFFF :=
  pitWait_in_full_iff readyTimer readyTimer_ending [] 10 (by decide) (by decide)

/-- The half second between two looks at an NVMe controller is cut short. -/
theorem pitWait_500_short : Ending readyTimer ∧ 0 < 0x4A9 * 500 ∧ 0x4A9 * 500 < 2 ^ 64 ∧
    ¬ WaitsInFull readyTimer [] 500 :=
  ⟨readyTimer_ending, by decide, by
    decide, not_waitsInFull_of_gt readyTimer_ending [] (by decide) (by decide)⟩

end Vineyard.Pit
