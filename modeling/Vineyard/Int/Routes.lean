import Vineyard.Int.Ioapic
import Vineyard.Lib.Words

/-!
# The pin that a route programs

The assertion of `ioapic_route` speaks of the interrupts that the first I/O APIC serves, counted from
its base, while the register it writes is that of the pin with the number of the interrupt itself.
Both are the same pin only for a base of zero.
-/

namespace Vineyard

open Programs Function

/-- The registers behind a window after the writes, newest first. -/
def registersAfter (window : ℕ) (registers : ℕ → ℕ) : List IoapicWrite → ℕ → ℕ
  | [] => registers
  | w :: before =>
    if w.reg = window then update (registersAfter window registers before) w.register w.value
    else registersAfter window registers before

/-- The redirection entry of a pin -/
def redirection (registers : ℕ → ℕ) (pin : ℕ) : ℕ :=
  registers (0x10 + 2 * pin) + 2 ^ 32 * registers (0x10 + 2 * pin + 1)

/-- The route writes the two registers of the pin that the interrupt comes in at; they are among
those of the I/O APIC, and no other pin gets another entry. -/
structure RoutesOwnPin (a : Ioapic) (source flags target : ℕ) (s t : IoapicState) : Prop where
  writes : t.writes = ⟨a.reg, 0x10 + 2 * (source - a.irqBase), redtblLow flags target⟩ ::
    ⟨a.reg, 0x10 + 2 * (source - a.irqBase) + 1, redtblHigh flags target⟩ :: s.writes
  inside : 0x10 + 2 * (source - a.irqBase) + 1 < 0x10 + 2 * a.irqs
  entry : ∀ registers, redirection (registersAfter a.reg registers t.writes) (source - a.irqBase) =
    target &&& 0xFF ||| flags
  others : ∀ registers pin, pin ≠ source - a.irqBase →
    redirection (registersAfter a.reg registers t.writes) pin =
      redirection (registersAfter a.reg registers s.writes) pin

section Routes

variable {s : IoapicState} {a : Ioapic} {rest : List Ioapic} {source flags target : ℕ}

/-- The sum of the assertion does not wrap around for an interrupt that passes it. -/
theorem Ioapic.Asserts.serves (asserts : a.Asserts source) (irqs : a.irqs ≤ 256)
    (base : a.irqBase < 2 ^ 64) : a.Serves source ∧ source < 2 ^ 64 := by
  rcases asserts with ⟨le, lt⟩
  rw [Word64.add] at lt
  exact ⟨⟨le, by omega⟩, by omega⟩

/-- The two halves make up the entry. -/
theorem redtbl_halves (target : ℕ) (small : flags < 2 ^ 64) :
    redtblLow flags target + 2 ^ 32 * redtblHigh flags target = target &&& 0xFF ||| flags := by
  have entry : target &&& 0xFF ||| flags < 2 ^ 64 :=
    Nat.or_lt_two_pow (Nat.and_lt_two_pow _ (by decide)) small
  have low : redtblLow flags target = (target &&& 0xFF ||| flags) % 2 ^ 32 := Words.and_low _ 32
  have high : redtblHigh flags target = (target &&& 0xFF ||| flags) / 2 ^ 32 % 2 ^ 32 := by
    rw [← Nat.shiftRight_eq_div_pow]
    exact Words.and_low _ 32
  rw [low, high]
  omega

/-- The register of the interrupt is that of its pin exactly for a base that the 32 bits of a
register number make zero. -/
theorem redtbl_register_iff (serves : a.Serves source) (irqs : a.irqs ≤ 256) :
    (0x10 + source <<< 1) % 2 ^ 32 = 0x10 + 2 * (source - a.irqBase) ↔ a.irqBase % 2 ^ 31 = 0 := by
  rcases serves with ⟨le, lt⟩
  rw [Nat.shiftLeft_eq]
  omega

/-- Two writes to the pair of registers of a pin. -/
theorem redirection_writes (window pin low high : ℕ) (before : List IoapicWrite) (registers : ℕ → ℕ)
    (other : ℕ) : redirection (registersAfter window registers
        (⟨window, 0x10 + 2 * pin, low⟩ :: ⟨window, 0x10 + 2 * pin + 1, high⟩ :: before)) other =
      if other = pin then low + 2 ^ 32 * high
      else redirection (registersAfter window registers before) other := by
  by_cases same : other = pin
  · simp [redirection, registersAfter, same]
  · have odd : 0x10 + 2 * other ≠ 0x10 + 2 * pin + 1 := by omega
    have odd' : 0x10 + 2 * other + 1 ≠ 0x10 + 2 * pin := by omega
    simp [redirection, registersAfter, same, odd, odd', update_of_ne]

theorem routesOwnPin_of_base (asserts : a.Asserts source) (serves : a.Serves source)
    (irqs : a.irqs ≤ 256) (small : flags < 2 ^ 64) (base : a.irqBase % 2 ^ 31 = 0)
    (first : s.list = a :: rest) :
    ∃ t, (ioapicRoute source flags target).run s = (.ok (), t) ∧
      RoutesOwnPin a source flags target s t := by
  have low := (redtbl_register_iff serves irqs).2 base
  have high : (0x10 + source <<< 1 + 1) % 2 ^ 32 = 0x10 + 2 * (source - a.irqBase) + 1 := by
    rcases serves with ⟨le, lt⟩
    rw [Nat.shiftLeft_eq] at low ⊢
    omega
  refine ⟨_, ioapicRoute_run first asserts, by simp only [low, high], ?_, fun registers => ?_,
    fun registers pin other => ?_⟩
  · rcases serves with ⟨le, lt⟩
    omega
  · simp only [low, high, redirection_writes, if_pos, redtbl_halves target small]
  · simp only [low, high, redirection_writes, if_neg other]

theorem base_of_routesOwnPin (asserts : a.Asserts source) (serves : a.Serves source)
    (irqs : a.irqs ≤ 256) (first : s.list = a :: rest) {t : IoapicState}
    (run : (ioapicRoute source flags target).run s = (.ok (), t))
    (own : RoutesOwnPin a source flags target s t) : a.irqBase % 2 ^ 31 = 0 := by
  rw [ioapicRoute_run first asserts] at run
  have writes := own.writes
  rw [← (Prod.mk.inj run).2] at writes
  simp only [List.cons.injEq, IoapicWrite.mk.injEq] at writes
  exact (redtbl_register_iff serves irqs).1 writes.1.2.1

end Routes

/-- A route programs the pin of its interrupt, and no other, exactly when the base of the first
I/O APIC is a multiple of 2^31. -/
theorem ioapicRoute_own_pin_iff (s : IoapicState) (a : Ioapic) (rest : List Ioapic)
    (first : s.list = a :: rest) (irqs : 1 ≤ a.irqs ∧ a.irqs ≤ 256) (base : a.irqBase < 2 ^ 64)
    (source flags target : ℕ) (asserts : a.Asserts source) (small : flags < 2 ^ 64) :
    (∃ t, (ioapicRoute source flags target).run s = (.ok (), t) ∧
      RoutesOwnPin a source flags target s t) ↔ a.irqBase % 2 ^ 31 = 0 := by
  have serves := (asserts.serves irqs.2 base).1
  constructor
  · rintro ⟨t, run, own⟩
    exact base_of_routesOwnPin asserts serves irqs.2 first run own
  · intro zero
    exact routesOwnPin_of_base asserts serves irqs.2 small zero first

/-- An I/O APIC with 24 pins, for the interrupts from `irqBase` on. -/
def ioapicFrom (irqBase : ℕ) : Ioapic := ⟨0, 0x1000, irqBase, 24⟩

theorem ioapicRoute_own_pin_first :
    (∃ t, (ioapicRoute 3 0 0x30).run ⟨[ioapicFrom 0], 0, []⟩ = (.ok (), t) ∧
      RoutesOwnPin (ioapicFrom 0) 3 0 0x30 ⟨[ioapicFrom 0], 0, []⟩ t) ↔
        (ioapicFrom 0).irqBase % 2 ^ 31 = 0 :=
  ioapicRoute_own_pin_iff _ (ioapicFrom 0) [] rfl (by decide) (by decide) 3 0 0x30
    ⟨by decide, by decide⟩ (by decide)

/-- The first interrupt of an I/O APIC for the interrupts from 24 on goes to a register that it does
not have. -/
theorem ioapicRoute_foreign_pin : (ioapicFrom 24).Asserts 24 ∧
    ¬ ∃ t, (ioapicRoute 24 0 0x30).run ⟨[ioapicFrom 24], 0, []⟩ = (.ok (), t) ∧
      RoutesOwnPin (ioapicFrom 24) 24 0 0x30 ⟨[ioapicFrom 24], 0, []⟩ t := by
  have asserts : (ioapicFrom 24).Asserts 24 := by decide
  refine ⟨asserts, ?_⟩
  rintro ⟨t, run, own⟩
  exact absurd (base_of_routesOwnPin asserts (by decide) (by decide) rfl run own) (by decide)

end Vineyard
