import Vineyard.Acpi.Madt
import Vineyard.Int.Dispatch
import Vineyard.Lib.Countdown
import Vineyard.Time.Pit

/-!
# The local APIC and its timer

`apic_enable` and `apic_timer_monotonic` of `int/apic.c`.  The timer counts down at every `d`th
cycle of the bus clock.  `apic_enable` counts the cycles that `pit_wait(10)` lasts,
`apic_timer_monotonic` sets the timer to a number of milliseconds by this count.  Any number of
cycles may pass between two accesses.
-/

namespace Vineyard.Apic

open Programs Programs.Prog Function Countdown

/-! ## The device -/

/-- The registers, by the numbers of the source. -/
def apicTpr : ℕ := 0x08
def apicEoi : ℕ := 0x0B
def apicSvr : ℕ := 0x0F
def apicEsr : ℕ := 0x28
def apicLvtTimer : ℕ := 0x32
def apicLvtLint0 : ℕ := 0x35
def apicLvtLint1 : ℕ := 0x36
def apicLvtError : ℕ := 0x37
def apicTimerIcr : ℕ := 0x38
def apicTimerCcr : ℕ := 0x39
def apicTimerDcr : ℕ := 0x3E

def lvtMasked : ℕ := 0x00010000
def lvtTypeFixed : ℕ := 0x00000000
def lvtTypeNmi : ℕ := 0x00000400
def lvtTimerPeriodic : ℕ := 0x00020000
def svrEnabled : ℕ := 0x100
def dcr16 : ℕ := 0x3
def dcr128 : ℕ := 0xA
def lvtTimerInt : ℕ := 0xFD
def lvtErrorInt : ℕ := 0xFE

structure Lapic where
  /-- What was written to the registers. -/
  regs : ℕ → ℕ
  /-- The cycles of the bus clock. -/
  clock : ℕ
  /-- The timer's current count. -/
  count : ℕ
  /-- The timer's interrupts, with the cycle and the vector, newest first. -/
  interrupts : List (ℕ × ℕ)

namespace Lapic

/-- Bits 0, 1 and 3 of the divide configuration. -/
def divider (dcr : ℕ) : ℕ :=
  if dcr &&& 0xB = 0xB then 1 else 2 ^ ((dcr &&& 0x3) + (dcr &&& 0x8) / 2 + 1)

def divisor (a : Lapic) : ℕ := divider (a.regs apicTimerDcr)

/-- The timer with its reload. -/
def counter (a : Lapic) : Counter where
  count := a.count
  reload := if a.regs apicLvtTimer &&& lvtTimerPeriodic = 0 then 0 else a.regs apicTimerIcr

/-- The timer runs out in the next cycle and is not masked. -/
def Raises (a : Lapic) : Prop :=
  a.divisor ∣ a.clock + 1 ∧ a.count = 1 ∧ a.regs apicLvtTimer &&& lvtMasked = 0

instance (a : Lapic) : Decidable a.Raises := inferInstanceAs (Decidable (_ ∧ _ ∧ _))

/-- A cycle of the bus clock. -/
def cycle (a : Lapic) : Lapic where
  regs := a.regs
  clock := a.clock + 1
  count := if a.divisor ∣ a.clock + 1 then a.counter.tick.count else a.count
  interrupts := if a.Raises then (a.clock + 1, a.regs apicLvtTimer &&& 0xFF) ::
    a.interrupts else a.interrupts

def run (n : ℕ) (a : Lapic) : Lapic := cycle^[n] a

/-- `apic_write`; the initial count is the current count at once. -/
def write (reg value : ℕ) (a : Lapic) : Lapic :=
  { a with
    regs := update a.regs reg (value % 2 ^ 32)
    count := if reg = apicTimerIcr then value % 2 ^ 32 else a.count }

/-- `apic_read` -/
def read (reg : ℕ) (a : Lapic) : ℕ := if reg = apicTimerCcr then a.count else a.regs reg

end Lapic

/-! ## The driver -/

section Driver

variable (H A X : Type)

structure State where
  lapic : Lapic
  pit : List Pit.PortWrite
  /-- `MSR_APIC_BASE` -/
  apicBase : ℕ
  apicTimerTicksPerMs : ℕ
  isr : Isr.World H A X
  /-- The accesses so far. -/
  accesses : ℕ

abbrev ApicM := Prog Fault (State H A X)

/-- What the driver does not decide. -/
structure Env where
  /-- The cycles before each access. -/
  delay : ℕ → ℕ
  /-- The cycles that `pit_wait(10)` lasts. -/
  wait : ℕ
  timer : Pit.Timer

def State.onPit : Component (State H A X) (List Pit.PortWrite) where
  view s := s.pit
  put pit s := { s with pit }
  view_put _ _ := rfl
  put_view _ := rfl
  put_put _ _ _ := rfl

variable {H A X} (env : Env)

def pass (n : ℕ) : ApicM H A X Unit := modify fun s => { s with lapic := s.lapic.run n }

/-- Time passes, and a register is written. -/
def apicWrite (reg value : ℕ) : ApicM H A X Unit := modify fun s =>
  { s with lapic := (s.lapic.run (env.delay s.accesses)).write reg value, accesses := s.accesses + 1 }

def apicRead (reg : ℕ) : ApicM H A X ℕ := do
  modify fun s => { s with lapic := s.lapic.run (env.delay s.accesses), accesses := s.accesses + 1 }
  let s ← get
  return s.lapic.read reg

def apicAck : ApicM H A X Unit := apicWrite env apicEoi 0

def apicSetup (cpu : MadtCpu) : ApicM H A X Unit := do
  modify fun s => { s with
    apicBase := (s.apicBase &&& 0x100) ||| (cpu.lapicAddr &&& 0xFFFFF000) ||| 0x800 }
  apicWrite env apicSvr 0
  apicWrite env apicSvr (svrEnabled ||| 0xFF)
  apicWrite env apicEsr 0
  apicWrite env apicEsr 0
  apicWrite env apicLvtLint0 (if cpu.apicLintNmi0 then lvtTypeNmi else lvtMasked)
  apicWrite env apicLvtLint1 (if cpu.apicLintNmi1 then lvtTypeNmi else lvtMasked)
  apicWrite env apicLvtTimer lvtMasked
  apicWrite env apicLvtError lvtErrorInt
  apicWrite env apicTpr 0
  apicAck env

def apicCalibrate (n : ℕ) : ApicM H A X Unit := do
  apicWrite env apicLvtTimer lvtMasked
  apicWrite env apicTimerIcr 0xFFFFFFFF
  apicWrite env apicTimerDcr dcr128
  (Pit.pitWait env.timer 10 n).on (State.onPit H A X)
  pass env.wait
  let count ← apicRead env apicTimerCcr
  modify fun s => { s with apicTimerTicksPerMs := Word32.mul (Word32.sub 0xFFFFFFFF count) 128 / 10 }

/-- `apic_enable` behind the mapping of the registers, with at most `n` rounds of `pit_wait`. -/
def apicEnable (cpu : MadtCpu) (n : ℕ) : ApicM H A X Unit := do
  apicSetup env cpu
  apicCalibrate env n

def apicTimerMonotonic (ms : ℕ) (handler : Option (Isr.IsrHandler H)) : ApicM H A X Unit := do
  modify fun s => { s with isr := s.isr.isrRegister lvtTimerInt handler }
  apicWrite env apicLvtTimer (lvtTimerPeriodic ||| lvtTypeFixed ||| lvtTimerInt)
  let s ← get
  apicWrite env apicTimerIcr (Word32.mul ms s.apicTimerTicksPerMs / 16)
  apicWrite env apicTimerDcr dcr16

end Driver

/-! ## Cycles -/

namespace Lapic

variable (a : Lapic) (n : ℕ)

@[simp] theorem run_zero : a.run 0 = a := rfl

theorem run_succ : a.run (n + 1) = (a.run n).cycle := iterate_succ_apply' cycle n a

@[simp] theorem run_regs : (a.run n).regs = a.regs := by
  induction n with
  | zero => rfl
  | succ n ih => rw [run_succ, cycle, ih]

@[simp] theorem run_clock : (a.run n).clock = a.clock + n := by
  induction n with
  | zero => rfl
  | succ n ih =>
    rw [run_succ, cycle, ih]
    rfl

@[simp] theorem run_divisor : (a.run n).divisor = a.divisor := by rw [divisor, run_regs, divisor]

theorem run_reload : (a.run n).counter.reload = a.counter.reload := by rw [counter, run_regs, counter]

/-- The timer sees the ticks only. -/
theorem run_counter : (a.run n).counter = Counter.tick^[ticks a.divisor a.clock n] a.counter := by
  induction n with
  | zero => rw [ticks_zero, run_zero, iterate_zero_apply]
  | succ n ih =>
    have reload := (a.run_reload (n + 1)).trans (a.run_reload n).symm
    rw [ticks_succ, run_succ] at *
    have next : (a.run n).cycle.count =
        if a.divisor ∣ a.clock + n + 1 then (a.run n).counter.tick.count else
          (a.run n).counter.count := by
      rw [cycle, run_divisor, run_clock]
      rfl
    have same : (a.run n).cycle.counter = ⟨(a.run n).cycle.count, (a.run n).counter.reload⟩ := by
      rw [← reload]
      rfl
    rw [same, next]
    split
    · rw [iterate_succ_apply', ← ih]
      exact congrArg (Counter.mk _) (Counter.tick_reload _).symm
    · rw [Nat.add_zero, ← ih]

theorem run_add (m : ℕ) : (a.run m).run n = a.run (m + n) := by
      rw [Nat.add_comm, run, run, run, iterate_add_apply]

theorem run_count : (a.run n).count = (Counter.tick^[ticks a.divisor a.clock n] a.counter).count := by
  rw [← run_counter]
  rfl

@[simp] theorem write_regs (reg value : ℕ) :
    (a.write reg value).regs = update a.regs reg (value % 2 ^ 32) := rfl

@[simp] theorem write_clock (reg value : ℕ) : (a.write reg value).clock = a.clock := rfl

/-- A timer that runs once. -/
theorem run_once (once : a.regs apicLvtTimer &&& lvtTimerPeriodic = 0) :
    (a.run n).count = a.count - ticks a.divisor a.clock n := by
  rw [run_count, Counter.count_iterate_once (if_pos once)]
  rfl

/-- A timer that runs once, with its divider changed on the way. -/
theorem run_dcr (once : a.regs apicLvtTimer &&& lvtTimerPeriodic = 0) (dcr m : ℕ) :
    (((a.run m).write apicTimerDcr dcr).run n).count =
      a.count - (ticks a.divisor a.clock m + ticks (divider (dcr % 2 ^ 32)) (a.clock + m) n) := by
  have same : ((a.run m).write apicTimerDcr dcr).regs apicLvtTimer = a.regs apicLvtTimer := by
    rw [write_regs, run_regs, update_of_ne (by decide)]
  have divisor : ((a.run m).write apicTimerDcr dcr).divisor = divider (dcr % 2 ^ 32) := by
    rw [Lapic.divisor, write_regs, update_self]
  have count : ((a.run m).write apicTimerDcr dcr).count = a.count - ticks a.divisor a.clock m :=
    a.run_once m once
  rw [run_once _ _ (by rwa [same]), divisor, count, write_clock, run_clock, Nat.sub_sub]

end Lapic

/-! ## `apic_enable` -/

section Enable

variable {H A X : Type} (env : Env) (cpu : MadtCpu) (s : State H A X)

/-- The registers that `apic_enable` sets, but for the timer's. -/
structure Enabled (regs : ℕ → ℕ) : Prop where
  svr : regs apicSvr = 0x1FF
  esr : regs apicEsr = 0
  lint0 : regs apicLvtLint0 = if cpu.apicLintNmi0 then lvtTypeNmi else lvtMasked
  lint1 : regs apicLvtLint1 = if cpu.apicLintNmi1 then lvtTypeNmi else lvtMasked
  error : regs apicLvtError = lvtErrorInt
  tpr : regs apicTpr = 0

/-- The registers that belong to the timer. -/
def timerRegs : List ℕ := [apicLvtTimer, apicTimerIcr, apicTimerDcr]

theorem Enabled.congr {cpu : MadtCpu} {regs regs' : ℕ → ℕ} (enabled : Enabled cpu regs)
    (kept : ∀ reg ∉ timerRegs, regs' reg = regs reg) : Enabled cpu regs' where
  svr := (kept _ (by decide)).trans enabled.svr
  esr := (kept _ (by decide)).trans enabled.esr
  lint0 := (kept _ (by decide)).trans enabled.lint0
  lint1 := (kept _ (by decide)).trans enabled.lint1
  error := (kept _ (by decide)).trans enabled.error
  tpr := (kept _ (by decide)).trans enabled.tpr

theorem apicSetup_run : ∃ s', (apicSetup env cpu).run s = (.ok (), s') ∧ Enabled cpu s'.lapic.regs ∧
    s'.lapic.divisor = s.lapic.divisor ∧ s'.pit = s.pit ∧ s'.isr = s.isr ∧
      s'.accesses = s.accesses + 10 := by
  refine ⟨_, rfl, ⟨?_, ?_, ?_, ?_, ?_, ?_⟩, ?_, rfl, rfl, rfl⟩
  all_goals
    simp only [Lapic.divisor, Lapic.write_regs, Lapic.run_regs, apicSvr, apicEoi, apicTpr,
      apicLvtError, apicLvtTimer,
      apicLvtLint0, apicLvtLint1, apicEsr, apicTimerDcr, svrEnabled, update_self, update_of_ne,
      ne_eq, Nat.reduceEqDiff, not_false_eq_true]
  · rfl
  · rfl
  · split <;> rfl
  · split <;> rfl
  · rfl
  · rfl

/-- The timer is stopped or runs out while it is counted, at most once. -/
theorem apicCalibrate_settles (ending : Pit.Ending env.timer) : ∃ s' t k writes,
    Settles (apicCalibrate env) s () s' ∧
    (∀ reg ∉ timerRegs, s'.lapic.regs reg = s.lapic.regs reg) ∧
    s'.lapic.regs apicLvtTimer = lvtMasked ∧ s'.isr = s.isr ∧
    s'.pit = s.pit ++ writes ∧ (Pit.loads writes).sum = 0x4A9 * 10 ∧
    k = ticks s.lapic.divisor t (env.delay (s.accesses + 2)) +
      ticks 128 (t + env.delay (s.accesses + 2)) (env.wait + env.delay (s.accesses + 3)) ∧
    s'.apicTimerTicksPerMs = Word32.mul (min k (2 ^ 32 - 1)) 128 / 10 := by
  let a := (s.lapic.run (env.delay s.accesses)).write apicLvtTimer lvtMasked
  let b := (a.run (env.delay (s.accesses + 1))).write apicTimerIcr 0xFFFFFFFF
  let c := (b.run (env.delay (s.accesses + 2))).write apicTimerDcr dcr128
  let e := (c.run env.wait).run (env.delay (s.accesses + 3))
  have waits : Pit.WaitsInFull env.timer s.pit 10 :=
    Pit.waitsInFull_of_le ending s.pit (by decide) (by decide)
  obtain ⟨writes, settles, -, full⟩ := waits
  have pit := settles.on (c := State.onPit H A X)
    (s := { s with lapic := c, accesses := s.accesses + 3 })
  refine ⟨_, b.clock, _, writes,
    (Settles.of_run rfl).bind ((Settles.of_run rfl).bind ((Settles.of_run rfl).bind
    (pit.bind (Settles.of_run rfl)))), fun reg other => ?_, ?_, rfl, rfl, full, rfl, ?_⟩
  · show e.regs reg = s.lapic.regs reg
    simp only [timerRegs, List.mem_cons, List.not_mem_nil, or_false, not_or] at other
    simp only [e, c, b, a, Lapic.run_regs, Lapic.write_regs, update_of_ne, ne_eq, other,
      not_false_eq_true]
  · show e.regs apicLvtTimer = lvtMasked
    simp [e, c, b, a, apicLvtTimer, apicTimerDcr, apicTimerIcr, lvtMasked]
  · show Word32.mul (Word32.sub 0xFFFFFFFF e.count) 128 / 10 = _
    have masked : b.regs apicLvtTimer = lvtMasked := by
      simp [b, a, apicLvtTimer, apicTimerIcr, lvtMasked]
    have divisor : b.divisor = s.lapic.divisor := by
      simp [b, a, Lapic.divisor, apicLvtTimer, apicTimerIcr, apicTimerDcr]
    have count := b.run_dcr (env.wait + env.delay (s.accesses + 3)) (by rw [masked]; decide) dcr128
      (env.delay (s.accesses + 2))
    have full : b.count = 2 ^ 32 - 1 := rfl
    have divider : Lapic.divider (dcr128 % 2 ^ 32) = 128 := by decide
    rw [← Lapic.run_add, divider, divisor, full] at count
    rw [show e.count = _ from count, Word32.sub]
    congr 2
    omega

/-- The cycles behind the write of the divider until the count is read. -/
def Env.counted (s : State H A X) : ℕ := env.wait + env.delay (s.accesses + 13)

/-- The cycles that are counted with the divider from before. -/
def Env.early (s : State H A X) : ℕ := env.delay (s.accesses + 12)

/-- The local APIC is enabled with the pins of the table, and the timer's ticks are counted while
`pit_wait` lasts: those of the early cycles with another divider. -/
theorem apicEnable_settles (ending : Pit.Ending env.timer) : ∃ s' t k writes,
    Settles (apicEnable env cpu) s () s' ∧ Enabled cpu s'.lapic.regs ∧
      s'.lapic.regs apicLvtTimer = lvtMasked ∧
    s'.isr = s.isr ∧ s'.pit = s.pit ++ writes ∧ (Pit.loads writes).sum = 0x4A9 * 10 ∧
    k = ticks s.lapic.divisor t (env.early s) + ticks 128 (t + env.early s) (env.counted s) ∧
    s'.apicTimerTicksPerMs = Word32.mul (min k (2 ^ 32 - 1)) 128 / 10 := by
  obtain ⟨s₁, setup, enabled, divisor, pit, isr, accesses⟩ := apicSetup_run env cpu s
  obtain ⟨s', t, k, writes, settles, kept, masked, isr', pit', loads, count, ticks⟩ :=
    apicCalibrate_settles env s₁ ending
  rw [divisor, accesses] at count
  exact ⟨s', t, k, writes, (Settles.of_run setup).bind settles, enabled.congr kept, masked,
    isr'.trans isr, pit ▸ pit', loads, count, ticks⟩

end Enable

/-! ## Periodic interrupts -/

section Periodic

variable {H A X : Type} (env : Env)

/-- The interrupts with a vector come in the cycles `first`, `first + period` and so on. -/
def Periodic (a : Lapic) (vector first period : ℕ) : Prop :=
  a.clock < first ∧ first ≤ a.clock + period ∧ ∀ n, (a.run (n + 1)).interrupts =
    if first ≤ a.clock + n + 1 ∧ period ∣ a.clock + n + 1 - first then (a.clock + n + 1, vector) ::
      (a.run n).interrupts
    else (a.run n).interrupts

theorem periodic_of_counter {a : Lapic} {period : ℕ} (divisor : a.divisor = 16)
    (lvt : a.regs apicLvtTimer = lvtTimerPeriodic ||| lvtTypeFixed ||| lvtTimerInt)
    (count : 1 ≤ a.count ∧ a.count ≤ period) (icr : a.regs apicTimerIcr = period) :
    ∃ first, Periodic a lvtTimerInt first (16 * period) := by
  have reload : a.counter.reload = period := by
    rw [Lapic.counter, lvt, ← icr]
    rfl
  refine ⟨16 * (a.clock / 16 + a.count), by omega, by omega, fun n => ?_⟩
  have raises : (a.run n).Raises ↔ 16 * (a.clock / 16 + a.count) ≤ a.clock + n + 1 ∧
      16 * period ∣ a.clock + n + 1 - 16 * (a.clock / 16 + a.count) := by
    have unmasked : (a.run n).regs apicLvtTimer &&& lvtMasked = 0 := by
      rw [a.run_regs, lvt]
      decide
    have out := Counter.count_iterate_eq_one (c := a.counter) count.1 (ticks a.divisor a.clock n)
    rw [← Lapic.run_count, reload, divisor] at out
    rw [Lapic.Raises, a.run_divisor, a.run_clock, divisor, ← period_iff (by decide)]
    refine and_congr_right fun _ => ?_
    rw [and_iff_left unmasked]
    exact out
  rw [Lapic.run_succ, Lapic.cycle]
  simp only [raises, a.run_clock, a.run_regs, lvt]
  rfl

/-- A timer that is set to zero does not run. -/
theorem silent_of_stopped {a : Lapic} (stopped : a.count = 0) (n : ℕ) :
    (a.run n).interrupts = a.interrupts := by
  induction n with
  | zero => rfl
  | succ n ih =>
    have quiet : ¬(a.run n).Raises := fun raises => by
      have count := raises.2.1
      rw [a.run_count, Counter.tick_iterate_stopped stopped] at count
      exact absurd (stopped.symm.trans count) (by decide)
    rw [Lapic.run_succ, Lapic.cycle, if_neg quiet, ih]

/-- The timer is set with an old divider first, and with its own behind the next access. -/
theorem apicTimerMonotonic_run (s : State H A X) (ms : ℕ) (handler : Option (Isr.IsrHandler H)) :
    ∃ s', (apicTimerMonotonic env ms handler).run s = (.ok (), s') ∧
      (∀ reg ∉ timerRegs, s'.lapic.regs reg = s.lapic.regs reg) ∧
      s'.isr = s.isr.isrRegister lvtTimerInt handler ∧
      (Word32.mul ms s.apicTimerTicksPerMs / 16 = 0 → ∀ n,
        (s'.lapic.run n).interrupts = s'.lapic.interrupts) ∧
      (Word32.mul ms s.apicTimerTicksPerMs / 16 ≠ 0 →
        ∃ first, Periodic s'.lapic lvtTimerInt first
          (16 * (Word32.mul ms s.apicTimerTicksPerMs / 16))) := by
  let period := Word32.mul ms s.apicTimerTicksPerMs / 16
  let a := (s.lapic.run (env.delay s.accesses)).write apicLvtTimer
    (lvtTimerPeriodic ||| lvtTypeFixed ||| lvtTimerInt)
  let b := (a.run (env.delay (s.accesses + 1))).write apicTimerIcr period
  let c := (b.run (env.delay (s.accesses + 2))).write apicTimerDcr dcr16
  have small : period % 2 ^ 32 = period := by
    have := Nat.mod_lt (ms * s.apicTimerTicksPerMs) (show 0 < 2 ^ 32 by decide)
    simp only [period, Word32.mul]
    omega
  have lvt : b.regs apicLvtTimer = lvtTimerPeriodic ||| lvtTypeFixed ||| lvtTimerInt := by
    simp only [b, a, Lapic.write_regs, Lapic.run_regs]
    rw [update_of_ne (by decide), update_self]
    rfl
  have icr : b.regs apicTimerIcr = period := by
    rw [show b.regs = update _ _ _ from rfl, update_self, small]
  have count : b.count = period := by
    simp only [b, Lapic.write, if_pos]
    exact small
  have reload : b.counter.reload = period := by
    rw [Lapic.counter, lvt, ← icr]
    rfl
  have count' : c.count =
    (Counter.tick^[ticks b.divisor b.clock (env.delay (s.accesses + 2))] b.counter).count :=
    b.run_count _
  refine ⟨_, rfl, fun reg other => ?_, rfl, fun zero n => ?_, fun some => ?_⟩
  · show c.regs reg = s.lapic.regs reg
    simp only [timerRegs, List.mem_cons, List.not_mem_nil, or_false, not_or] at other
    simp only [c, b, a, Lapic.run_regs, Lapic.write_regs, update_of_ne, ne_eq, other,
      not_false_eq_true]
  · refine silent_of_stopped (a := c) ?_ n
    rw [count', Counter.tick_iterate_stopped (count.trans zero)]
    exact count.trans zero
  · refine periodic_of_counter (a := c) ?_ ?_ ?_ ?_
    · rw [Lapic.divisor, show c.regs = update _ _ _ from rfl, update_self]
      decide
    · rw [show c.regs = update _ _ _ from rfl, update_of_ne (by decide), Lapic.run_regs, lvt]
    · have range := Counter.count_iterate_range (c := b.counter)
        ⟨Nat.pos_of_ne_zero fun zero => some (count.symm.trans zero), (count.trans reload.symm).le⟩
        (ticks b.divisor b.clock (env.delay (s.accesses + 2)))
      rwa [← count', reload] at range
    · rw [show c.regs = update _ _ _ from rfl, update_of_ne (by decide), Lapic.run_regs, icr]

/-- What is set for `ms` from the ticks counted in `n` cycles, `early` of them early. -/
theorem accuracy {ms n early k d t : ℕ} (count : k = ticks d t early + ticks 128 (t + early) n)
    (fits : n + 128 * (early + 1) < 2 ^ 32) (fits' : ms * (n + 128 * (early + 1)) < 10 * 2 ^ 32) :
    let period := 16 * (Word32.mul ms (Word32.mul (min k (2 ^ 32 - 1)) 128 / 10) / 16)
    10 * period ≤ ms * (n + 128 * (early + 1)) ∧ ms * n ≤ 10 * period + 136 * ms + 150 := by
  have first := ticks_le d t early
  obtain ⟨low, high⟩ := ticks_bounds (d := 128) (by decide) (t + early) n
  have below : 128 * k ≤ n + 128 * (early + 1) := by omega
  have above : n ≤ 128 * k + 127 := by omega
  have product : Word32.mul (min k (2 ^ 32 - 1)) 128 = 128 * k := by
    rw [min_eq_left (by omega), Word32.mul_eq (by omega), Nat.mul_comm]
  obtain ⟨perMs, eq⟩ : ∃ perMs, perMs = 128 * k / 10 := ⟨_, rfl⟩
  have upper : ms * (10 * perMs) ≤ ms * (n + 128 * (early + 1)) := Nat.mul_le_mul_left ms (by omega)
  have lower : ms * n ≤ ms * (10 * perMs + 136) := Nat.mul_le_mul_left ms (by omega)
  rw [Nat.mul_left_comm] at upper
  rw [Nat.mul_add, Nat.mul_left_comm] at lower
  dsimp only
  rw [product, ← eq, Word32.mul_eq (by omega)]
  omega

/-- The timer is enabled and set: it interrupts every `ms` milliseconds of the PIT, up to the rounding
and the cycles that are counted early, as long as the products fit 32 bits. -/
theorem timer_spec (cpu : MadtCpu) (s : State H A X) (ending : Pit.Ending env.timer) (ms gap : ℕ)
    (handler : Option (Isr.IsrHandler H)) : ∃ s₁ s₂ period,
    Settles (apicEnable env cpu) s () s₁ ∧
    (pass gap >>= fun _ => apicTimerMonotonic env ms handler).run s₁ = (.ok (), s₂) ∧
      Enabled cpu s₂.lapic.regs ∧
    s₂.isr = s.isr.isrRegister lvtTimerInt handler ∧
    (period = 0 → ∀ n, (s₂.lapic.run n).interrupts = s₂.lapic.interrupts) ∧
    (period ≠ 0 → ∃ first, Periodic s₂.lapic lvtTimerInt first period) ∧
    (env.counted s + 128 * (env.early s + 1) < 2 ^ 32 →
      ms * (env.counted s + 128 * (env.early s + 1)) < 10 * 2 ^ 32 →
      10 * period ≤ ms * (env.counted s + 128 * (env.early s + 1)) ∧
        ms * env.counted s ≤ 10 * period + 136 * ms + 150) := by
  obtain ⟨s₁, t, k, writes, settles, enabled, -, isr, -, -, count, perMs⟩ :=
    apicEnable_settles env cpu s ending
  obtain ⟨s₂, run, kept, isr', silent, periodic⟩ :=
    apicTimerMonotonic_run env { s₁ with lapic := s₁.lapic.run gap } ms handler
  dsimp only at isr' silent periodic
  rw [Lapic.run_regs] at kept
  rw [perMs] at silent periodic
  refine ⟨s₁, s₂, _, settles, (run_bind_of_ok (run_modify _ _)).trans run, enabled.congr kept,
    isr'.trans (isr ▸ rfl), fun zero => ?_, fun some => ?_, accuracy count⟩
  · exact silent (by omega)
  · exact periodic (by omega)

/-- A bus clock of 1 GHz. -/
def gigahertz : Env where
  delay _ := 0
  wait := 10000000
  timer := Pit.readyTimer

theorem timer_spec_gigahertz : ∃ (a : Lapic) (first period : ℕ), Periodic a lvtTimerInt first period ∧
    9999000 ≤ period ∧ period ≤ 10001000 := by
  let lapic : Lapic := ⟨fun _ => 0, 0, 0, []⟩
  let isr : Isr.World Unit Unit Unit := ⟨fun _ => none, none, (), []⟩
  obtain ⟨_, s, period, _, _, _, _, _, periodic, near⟩ :=
    timer_spec gigahertz ⟨true, false, 0, 0, 0xFEE00000⟩
    ⟨lapic, [], 0xFEE00100, 0, isr, 0⟩ Pit.readyTimer_ending 10 0 (some (.driver ()))
  obtain ⟨low, high⟩ := near (by decide) (by decide)
  simp only [Env.counted, Env.early, gigahertz] at low high
  obtain ⟨first, every⟩ := periodic (by omega)
  exact ⟨_, first, period, every, by omega, by omega⟩

end Periodic

end Vineyard.Apic
