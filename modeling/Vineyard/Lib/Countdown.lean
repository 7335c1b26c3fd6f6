import Mathlib.Data.Nat.ModEq
import Mathlib.Logic.Function.Iterate

/-!
# Counters that count down

A counter goes down by one at each tick.  The tick at which it runs out reloads it, with zero if it
runs once.  Ticks come from a clock of which only every `d`th edge counts.
-/

namespace Countdown

structure Counter where
  count : ℕ
  /-- What follows when the counter has run out. -/
  reload : ℕ
deriving DecidableEq

namespace Counter

def tick (c : Counter) : Counter :=
  match c.count with
  | 0 => c
  | 1 => { c with count := c.reload }
  | n + 2 => { c with count := n + 1 }

@[simp] theorem tick_reload (c : Counter) : c.tick.reload = c.reload := by
  unfold tick
  split <;> rfl

@[simp] theorem tick_iterate_reload (c : Counter) (n : ℕ) : (tick^[n] c).reload = c.reload := by
  induction n generalizing c with
  | zero => rfl
  | succ n ih => rw [Function.iterate_succ_apply, ih, tick_reload]

theorem tick_stopped {c : Counter} (stopped : c.count = 0) : c.tick = c := by
  rw [tick, stopped]

theorem tick_iterate_stopped {c : Counter} (stopped : c.count = 0) (n : ℕ) : tick^[n] c = c :=
  Function.iterate_fixed (tick_stopped stopped) n

/-- Until it runs out a counter has counted the ticks. -/
theorem count_iterate_le {c : Counter} {n : ℕ} (less : n < c.count) :
    (tick^[n] c).count = c.count - n := by
  induction n generalizing c with
  | zero => rfl
  | succ n ih =>
    obtain ⟨k, count⟩ : ∃ k, c.count = k + 2 := ⟨c.count - 2, by omega⟩
    have next : c.tick.count = k + 1 := by rw [tick, count]
    rw [Function.iterate_succ_apply, ih (by omega), next, count]
    omega

/-- A counter that runs once stays at zero. -/
theorem count_iterate_once {c : Counter} (once : c.reload = 0) (n : ℕ) :
    (tick^[n] c).count = c.count - n := by
  obtain less | le : n < c.count ∨ c.count ≤ n := Nat.lt_or_ge n c.count
  · exact count_iterate_le less
  · rw [Nat.sub_eq_zero_of_le le]
    induction n generalizing c with
    | zero => exact Nat.le_zero.1 le
    | succ n ih =>
      rw [Function.iterate_succ_apply]
      refine ih (c.tick_reload.trans once) ?_
      unfold tick
      split
      · omega
      · exact once.le.trans n.zero_le
      · dsimp only
        omega

/-- A counter that is reloaded never stops. -/
theorem count_iterate_range {c : Counter} (range : 1 ≤ c.count ∧ c.count ≤ c.reload) (n : ℕ) :
    1 ≤ (tick^[n] c).count ∧ (tick^[n] c).count ≤ c.reload := by
  induction n generalizing c with
  | zero => exact range
  | succ n ih =>
    have next : 1 ≤ c.tick.count ∧ c.tick.count ≤ c.tick.reload := by
      rw [tick_reload]
      unfold tick
      split
      · exact range
      · dsimp only
        omega
      · dsimp only
        omega
    rw [Function.iterate_succ_apply, ← c.tick_reload]
    exact ih next

/-- The counter runs out at the ticks that are multiples of the reload after the first. -/
theorem count_iterate_eq_one {c : Counter} (going : 1 ≤ c.count) (n : ℕ) :
    (tick^[n] c).count = 1 ↔ c.count ≤ n + 1 ∧ c.reload ∣ n + 1 - c.count := by
  induction n generalizing c with
  | zero =>
    refine ⟨fun one => ⟨one.le, ?_⟩, fun ⟨le, _⟩ => le_antisymm le going⟩
    rw [show 0 + 1 - c.count = 0 by omega]
    exact dvd_zero _
  | succ n ih =>
    rw [Function.iterate_succ_apply]
    obtain one | ⟨k, more⟩ : c.count = 1 ∨ ∃ k, c.count = k + 2 := by
      obtain one | more := Nat.eq_or_lt_of_le going
      · exact .inl one.symm
      · exact .inr ⟨c.count - 2, by omega⟩
    · have next : c.tick.count = c.reload := by rw [tick, one]
      rw [one]
      obtain zero | pos := Nat.eq_zero_or_pos c.reload
      · rw [tick_iterate_stopped (next.trans zero), next, zero]
        simp
      · rw [ih (next ▸ pos), tick_reload, next]
        refine ⟨fun ⟨le, divides⟩ => ⟨by omega, ?_⟩, fun ⟨_, divides⟩ => ⟨?_, ?_⟩⟩
        · rw [show n + 1 + 1 - 1 = n + 1 - c.reload + c.reload by omega]
          exact Nat.dvd_add_self_right.2 divides
        · exact Nat.le_of_dvd (by omega) divides
        · exact Nat.dvd_sub divides dvd_rfl
    · have next : c.tick.count = k + 1 := by rw [tick, more]
      rw [ih (by omega), tick_reload, next, more]
      refine and_congr (by omega) ?_
      rw [show n + 1 + 1 - (k + 2) = n + 1 - (k + 1) by omega]

end Counter

/-! ## Edges of a clock -/

/-- The ticks on the edges `a + 1` to `a + n`. -/
def ticks (d a n : ℕ) : ℕ := (a + n) / d - a / d

theorem ticks_zero (d a : ℕ) : ticks d a 0 = 0 := Nat.sub_self _

theorem ticks_succ (d a n : ℕ) :
    ticks d a (n + 1) = ticks d a n + if d ∣ a + n + 1 then 1 else 0 := by
  have le : a / d ≤ (a + n) / d := Nat.div_le_div_right (Nat.le_add_right a n)
  rw [ticks, ← Nat.add_assoc, Nat.succ_div, ticks]
  split <;> omega

theorem ticks_le (d a n : ℕ) : ticks d a n ≤ n := by
  induction n with
  | zero => exact (ticks_zero d a).le
  | succ n ih =>
    rw [ticks_succ]
    split <;> omega

/-- A period of `p` ticks is one of `d * p` edges. -/
theorem period_iff {d a n p c : ℕ} (pos : 0 < d) :
    d ∣ a + n + 1 ∧ c ≤ ticks d a n + 1 ∧ p ∣ ticks d a n + 1 - c ↔
      d * (a / d + c) ≤ a + n + 1 ∧ d * p ∣ a + n + 1 - d * (a / d + c) := by
  have le : a / d ≤ (a + n) / d := Nat.div_le_div_right (Nat.le_add_right a n)
  constructor
  · rintro ⟨⟨q, edge⟩, late, divides⟩
    have quotient : (a + n) / d + 1 = q := by
      have next := Nat.succ_div_of_dvd ⟨q, edge⟩
      rw [edge, Nat.mul_div_cancel_left q pos] at next
      exact next.symm
    have count : ticks d a n + 1 = q - a / d := by rw [ticks]; omega
    rw [count] at late divides
    rw [edge, ← Nat.mul_sub]
    refine ⟨Nat.mul_le_mul_left d (by omega), Nat.mul_dvd_mul_left d ?_⟩
    rwa [Nat.sub_add_eq]
  · rintro ⟨late, divides⟩
    obtain ⟨q, edge⟩ : d ∣ a + n + 1 := by
      have back := Nat.dvd_add ((Nat.dvd_mul_right d p).trans divides)
        (Nat.dvd_mul_right d (a / d + c))
      rwa [Nat.sub_add_cancel late] at back
    have quotient : (a + n) / d + 1 = q := by
      have next := Nat.succ_div_of_dvd ⟨q, edge⟩
      rw [edge, Nat.mul_div_cancel_left q pos] at next
      exact next.symm
    have count : ticks d a n + 1 = q - a / d := by rw [ticks]; omega
    rw [edge] at late divides
    rw [← Nat.mul_sub] at divides
    have later := Nat.le_of_mul_le_mul_left late pos
    refine ⟨⟨q, edge⟩, by omega, ?_⟩
    rw [count, ← Nat.sub_add_eq]
    exact Nat.dvd_of_mul_dvd_mul_left pos divides

/-- The edges between the ticks are at most `d`. -/
theorem ticks_bounds {d : ℕ} (pos : 0 < d) (a n : ℕ) : n < d * (ticks d a n + 1) ∧
      d * ticks d a n < n + d := by
  have before := Nat.div_add_mod a d
  have after := Nat.div_add_mod (a + n) d
  have first := Nat.mod_lt a pos
  have last := Nat.mod_lt (a + n) pos
  have le : a / d ≤ (a + n) / d := Nat.div_le_div_right (Nat.le_add_right a n)
  have count : d * ((a + n) / d) = d * (a / d) + d * ticks d a n := by
    rw [← Nat.mul_add, ticks, Nat.add_sub_cancel' le]
  rw [Nat.mul_add]
  omega

end Countdown
