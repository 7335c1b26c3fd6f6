import Vineyard.Acpi.Entries
import Vineyard.Int.Ioapic

/-!
# The interrupt source overrides

An override tells which global system interrupt an interrupt of the bus is and how it is
signalled.  Where the first I/O APIC serves that interrupt, the redirection entry of its pin has
to carry the trigger mode and the polarity; what `acpi_parse_madt` and `ioapic_route` write
there is compared with that.
-/

namespace Vineyard

open Bytes Programs Programs.Prog

/-- The constants as ACPICA documents them: the polarity is in bits 0 and 1, the trigger mode in bits 2
and 3 of the flags. -/
structure Acpica.Documented (acpica : Acpica) : Prop where
  polarityMask : acpica.polarityMask = 0x03
  polarityConforms : acpica.polarityConforms = 0x00
  polarityActiveHigh : acpica.polarityActiveHigh = 0x01
  triggerMask : acpica.triggerMask = 0x0C
  triggerLevel : acpica.triggerLevel = 0x0C

/-- The interrupt is level triggered: the flags say so, or it is the SCI. -/
def LevelTriggered (acpica : Acpica) (gsi flags : ℕ) : Prop :=
  flags / 4 % 4 = 3 ∨ gsi = acpica.sciInterrupt

/-- The interrupt is active low: the flags say so, or it is the SCI. -/
def ActiveLow (acpica : Acpica) (gsi flags : ℕ) : Prop := flags % 4 = 3 ∨ gsi = acpica.sciInterrupt

/-- After these calls the call for the override returns, and it writes the redirection entry of the pin
of `a` that receives the interrupt, with the trigger mode in bit 15 and the polarity in bit 13. -/
def Programmed (env : IoapicEnv) (acpica : Acpica) (before : List MadtCall) (a : Ioapic)
    (irq gsi flags : ℕ) : Prop :=
  ∃ s t low high, (replay env before).run .start = (.ok (), s) ∧
    (madtCall env (.ioapicRoute irq (madtIrqFlags acpica gsi flags) (Word32.add gsi 32))).run s =
      (.ok (), t) ∧
    t.writes = ⟨a.reg, 0x10 + 2 * (gsi - a.irqBase), low⟩ ::
      ⟨a.reg, 0x10 + 2 * (gsi - a.irqBase) + 1, high⟩ :: s.writes ∧
    (low.testBit 15 = true ↔ LevelTriggered acpica gsi flags) ∧
    (low.testBit 13 = true ↔ ActiveLow acpica gsi flags)

variable {env : IoapicEnv} {acpica : Acpica} {table : Memory} {a : Ioapic} {irq gsi flags : ℕ}

/-! ## The bits of the entry -/

/-- The bits above the vector are those of the flags. -/
theorem redtblLow_testBit {i : ℕ} (low : 8 ≤ i) (high : i < 32) (flags target : ℕ) :
    (redtblLow flags target).testBit i = flags.testBit i := by
  have vector : (0xFF : ℕ).testBit i = false := Nat.testBit_lt_two_pow (Nat.lt_of_lt_of_le
    (by decide : 0xFF < 2 ^ 8) (Nat.pow_le_pow_right (by decide) low))
  have mask : (0xFFFFFFFF : ℕ).testBit i = true := by
    rw [show (0xFFFFFFFF : ℕ) = 2 ^ 32 - 1 from rfl, Nat.testBit_two_pow_sub_one]
    exact decide_eq_true high
  rw [redtblLow, Nat.testBit_and, Nat.testBit_or, Nat.testBit_and, vector, mask, Bool.and_false,
    Bool.false_or, Bool.and_true]

theorem madtIrqFlags_level (acpica : Acpica) (gsi flags : ℕ) :
    (madtIrqFlags acpica gsi flags).testBit 15 = true ↔
      flags &&& acpica.triggerMask = acpica.triggerLevel ∨ gsi = acpica.sciInterrupt := by
  unfold madtIrqFlags
  dsimp only
  constructor
  · intro bit
    by_contra edge
    rw [if_neg edge] at bit
    revert bit
    split_ifs <;> decide
  · intro level
    rw [if_pos level]
    split_ifs <;> decide

theorem madtIrqFlags_high (acpica : Acpica) (gsi flags : ℕ) :
    (madtIrqFlags acpica gsi flags).testBit 13 = true ↔
      (flags &&& acpica.polarityMask = acpica.polarityActiveHigh ∨
        flags &&& acpica.polarityMask = acpica.polarityConforms) ∧ gsi ≠ acpica.sciInterrupt := by
  unfold madtIrqFlags
  dsimp only
  constructor
  · intro bit
    by_cases high : flags &&& acpica.polarityMask = acpica.polarityActiveHigh ∨
        flags &&& acpica.polarityMask = acpica.polarityConforms
    · refine ⟨high, fun sci => ?_⟩
      rw [if_pos high, if_neg (fun other => other sci)] at bit
      revert bit
      split_ifs <;> decide
    · exfalso
      rw [if_neg high] at bit
      revert bit
      split_ifs <;> decide
  · rintro ⟨high, other⟩
    rw [if_pos high, if_pos other]
    split_ifs <;> decide

/-- The trigger mode is always right; the polarity is right only where it is reserved, as bit 13 is set
for active high and means active low. -/
theorem redtblLow_iff (documented : acpica.Documented) (gsi flags target : ℕ) :
    ((redtblLow (madtIrqFlags acpica gsi flags) target).testBit 15 = true ↔
        LevelTriggered acpica gsi flags) ∧
      (((redtblLow (madtIrqFlags acpica gsi flags) target).testBit 13 = true ↔
        ActiveLow acpica gsi flags) ↔ flags % 4 = 2 ∧ gsi ≠ acpica.sciInterrupt) := by
  have polarity : flags &&& 0x03 = flags % 4 := Words.and_low flags 2
  have trigger : flags &&& 0x0C = flags % 16 / 4 * 4 := Words.and_field flags 2 4 (by decide)
  rw [redtblLow_testBit (by decide) (by decide), redtblLow_testBit (by decide) (by decide),
    madtIrqFlags_level, madtIrqFlags_high, documented.polarityMask, documented.polarityConforms,
    documented.polarityActiveHigh, documented.triggerMask, documented.triggerLevel, polarity, trigger]
  unfold LevelTriggered ActiveLow
  constructor
  · omega
  · omega

/-! ## The calls before an override -/

/-- The I/O APIC serves the interrupts of the bus that these entries override. -/
def ServesAll (a : Ioapic) (entries : List MadtEntry) : Prop :=
  ∀ bus irq gsi flags, .intr bus irq gsi flags ∈ entries → a.Serves irq

theorem servesAll_cons {e : MadtEntry} {entries : List MadtEntry} : ServesAll a (e :: entries) ↔
    (∀ bus irq gsi flags, e = .intr bus irq gsi flags → a.Serves irq) ∧ ServesAll a entries := by
  constructor
  · intro all
    refine ⟨fun bus irq gsi flags same => all bus irq gsi flags (same ▸ List.mem_cons_self), ?_⟩
    exact fun bus irq gsi flags mem => all bus irq gsi flags (List.mem_cons_of_mem e mem)
  · rintro ⟨first, others⟩ bus irq gsi flags mem
    rcases List.mem_cons.1 mem with same | mem
    · exact first bus irq gsi flags same.symm
    · exact others bus irq gsi flags mem

/-- The sum in the assertion of `ioapic_route` does not wrap around for an I/O APIC of the table. -/
theorem replay_inits_small {entries : List MadtEntry} {s : IoapicState}
    (word : ∀ id addr gsiBase, .ioapic id addr gsiBase ∈ entries → gsiBase < 2 ^ 32)
    (inits : (replay env (entries.filterMap MadtEntry.init)).run .start = (.ok (), s)) :
    ∀ a ∈ s.list, a.irqBase + a.irqs < 2 ^ 64 := by
  have keeps : Keeps (fun s : IoapicState => ∀ a ∈ s.list, a.irqBase + a.irqs < 2 ^ 64)
      (replay env (entries.filterMap MadtEntry.init)) := by
    refine Keeps.forEach fun call mem => ?_
    obtain ⟨e, listed, init⟩ := List.mem_filterMap.1 mem
    cases e with
    | ioapic id addr gsiBase =>
      obtain rfl := Option.some.inj init
      have base := word id addr gsiBase listed
      have malloc : Keeps (fun s : IoapicState => ∀ a ∈ s.list, a.irqBase + a.irqs < 2 ^ 64)
          (IoapicM.malloc env) := by
        refine Triple.get_bind fun t small =>
          Triple.modify_bind (M := fun s : IoapicState => ∀ a ∈ s.list,
          a.irqBase + a.irqs < 2 ^ 64) ?_ (Triple.pure fun _ h => h)
        rintro _ rfl
        exact small
      refine Keeps.bind malloc fun memory => Triple.ite (fun _ => ?_) fun _ =>
        Triple.pure fun _ h => h
      refine Triple.get_bind fun t small => Triple.bind (Q := fun _ (s : IoapicState) => ∀ a ∈ s.list,
        a.irqBase + a.irqs < 2 ^ 64) ?_ fun node => ?_
      · exact Triple.mono malloc (by rintro _ rfl; exact small) fun _ _ h => h
      · refine Triple.ite (fun _ => Triple.modify fun u before => ?_) fun _ =>
          Triple.fail fun _ h => h
        intro a mem
        rcases List.mem_append.1 mem with old | new
        · exact before a old
        · obtain rfl := List.mem_singleton.1 new
          have few : env.version addr >>> 16 &&& 0xFF ≤ 0xFF := Nat.and_le_right
          dsimp only
          omega
    | _ => cases init
  have kept := keeps.ends .start fun a mem => absurd mem List.not_mem_nil
  rwa [inits] at kept

/-- The routes return when the first I/O APIC serves all of their interrupts. -/
theorem replay_routes (acpica : Acpica) {rest : List Ioapic} (fits : a.irqBase + a.irqs < 2 ^ 64)
    (entries : List MadtEntry) :
    ∀ s : IoapicState, s.list = a :: rest →
      (ServesAll a entries → ∃ t, (replay env (entries.filterMap (MadtEntry.route acpica))).run s =
          (.ok (), t) ∧ t.list = s.list) ∧
        (¬ ServesAll a entries → ∃ fault t,
          (replay env (entries.filterMap (MadtEntry.route acpica))).run s = (.error fault, t)) := by
  induction entries with
  | nil =>
    refine fun s _ => ⟨fun _ => ⟨s, rfl, rfl⟩, fun unserved => absurd ?_ unserved⟩
    intro _ _ _ _ mem
    cases mem
  | cons e entries ih =>
    intro s first
    rw [servesAll_cons, List.filterMap_cons]
    cases e with
    | intr bus irq gsi flags =>
      dsimp only [MadtEntry.route]
      unfold replay
      rw [forEach_cons]
      dsimp only [madtCall]
      by_cases serves : a.Serves irq
      · rw [run_bind_of_ok (ioapicRoute_run first ((a.asserts_iff fits).2 serves))]
        refine ⟨fun all => (ih _ (by exact first)).1 all.2,
          fun none => (ih _ (by exact first)).2 fun all => none ⟨?_, all⟩⟩
        rintro _ _ _ _ ⟨rfl, rfl, rfl, rfl⟩
        exact serves
      · rw [run_bind_of_error (ioapicRoute_error first fun asserts =>
          serves ((a.asserts_iff fits).1 asserts))]
        refine ⟨fun all => absurd (all.1 _ _ _ _ rfl) serves, fun _ => ⟨_, _, rfl⟩⟩
    | _ =>
      dsimp only [MadtEntry.route]
      have others := ih s first
      refine ⟨fun all => others.1 all.2, fun none => others.2 fun all => none ⟨?_, all⟩⟩
      rintro _ _ _ _ ⟨⟩

/-- The calls before that of an override with these entries in front of it and behind it. -/
def callsBefore (acpica : Acpica) (table : Memory) (before after : List MadtEntry) : List MadtCall :=
  (if load table 40 4 &&& acpica.pcatCompat ≠ 0 then [.picInit] else []) ++
    ((before ++ after).filterMap MadtEntry.init ++ before.filterMap (MadtEntry.route acpica))

variable {s : IoapicState} {rest : List Ioapic} {before after : List MadtEntry}

/-- They return when the first I/O APIC serves the overrides before. -/
theorem replay_callsBefore (fits : a.irqBase + a.irqs < 2 ^ 64)
    (inits : (replay env ((before ++ after).filterMap MadtEntry.init)).run .start = (.ok (), s))
    (first : s.list = a :: rest) :
    (ServesAll a before → ∃ t, (replay env (callsBefore acpica table before after)).run .start =
        (.ok (), t) ∧ t.list = a :: rest) ∧
      (¬ ServesAll a before → ∃ fault t,
        (replay env (callsBefore acpica table before after)).run .start = (.error fault, t)) := by
  have started : (replay env (callsBefore acpica table before after)).run .start =
      (replay env (before.filterMap (MadtEntry.route acpica))).run s := by
    have pic : (replay env (if load table 40 4 &&& acpica.pcatCompat ≠ 0 then [.picInit] else [])).run
        .start = (.ok (), .start) := by
      split_ifs <;> rfl
    rw [callsBefore, replay_append, run_bind_of_ok pic, replay_append, run_bind_of_ok inits]
  rw [started]
  have routes := @replay_routes env a acpica rest fits before s first
  rw [first] at routes
  exact routes

theorem MadtEncodes.gsiBase_lt {start fin : ℕ} {entries : List MadtEntry}
    (encoded : MadtEncodes table start entries fin) :
    ∀ id addr gsiBase, .ioapic id addr gsiBase ∈ entries → gsiBase < 2 ^ 32 := by
  induction encoded with
  | nil => intro _ _ _ mem; cases mem
  | cons here behind ih =>
    intro id addr gsiBase mem
    rcases List.mem_cons.1 mem with rfl | mem
    · rcases here with ⟨_, _, _, rfl⟩
      exact load_lt ..
    · exact ih id addr gsiBase mem

theorem MadtEncodes.irq_lt {start fin : ℕ} {entries : List MadtEntry}
    (encoded : MadtEncodes table start entries fin) {bus : ℕ}
    (mem : .intr bus irq gsi flags ∈ entries) :
    irq < 256 := by
  induction encoded with
  | nil => cases mem
  | cons here behind ih =>
    rcases List.mem_cons.1 mem with rfl | mem
    · rcases here with ⟨_, _, rfl, _⟩
      exact UInt8.toNat_lt _
    · exact ih mem

/-- The call for an override programs the entry when the numbers of the interrupt agree and
the polarity is reserved. -/
theorem programmed_iff (documented : acpica.Documented) (small : irq < 256)
    (fits : a.irqBase + a.irqs < 2 ^ 64)
    (inits : (replay env ((before ++ after).filterMap MadtEntry.init)).run .start = (.ok (), s))
    (first : s.list = a :: rest) (serves : a.Serves gsi) :
    Programmed env acpica (callsBefore acpica table before after) a irq gsi flags ↔
      ServesAll a before ∧ a.Serves irq ∧ irq + a.irqBase = gsi ∧ flags % 4 = 2 ∧
        gsi ≠ acpica.sciInterrupt := by
  have calls := @replay_callsBefore env acpica table a s rest before after fits inits first
  have bits := @redtblLow_iff acpica documented gsi flags (Word32.add gsi 32)
  have registers := redtbl_register small
  unfold Programmed
  constructor
  · rintro ⟨u, v, low, high, run, route, writes, level, polarity⟩
    by_cases all : ServesAll a before
    · rcases calls.1 all with ⟨t, returned, list⟩
      rw [returned] at run
      cases run
      by_cases own : a.Serves irq
      · have written := (ioapicRoute_run list ((a.asserts_iff fits).2 own)).symm.trans route
        cases (Prod.mk.inj written).2
        rcases List.cons.inj writes with ⟨same, writes⟩
        rcases IoapicWrite.mk.inj same with ⟨_, register, rfl⟩
        rw [registers.1] at register
        have pin : irq + a.irqBase = gsi := by
          have := serves.1
          omega
        exact ⟨all, own, pin, bits.2.1 polarity⟩
      · have stopped := (ioapicRoute_error list fun asserts =>
          own ((a.asserts_iff fits).1 asserts)).symm.trans route
        cases (Prod.mk.inj stopped).1
    · rcases calls.2 all with ⟨fault, t, stopped⟩
      rw [stopped] at run
      cases (Prod.mk.inj run).1
  · rintro ⟨all, own, same, reserved, other⟩
    rcases calls.1 all with ⟨t, returned, list⟩
    refine ⟨t, _, redtblLow (madtIrqFlags acpica gsi flags) (Word32.add gsi 32),
      redtblHigh (madtIrqFlags acpica gsi flags) (Word32.add gsi 32), returned,
      ioapicRoute_run list ((a.asserts_iff fits).2 own), ?_, bits.1, bits.2.2 ⟨reserved, other⟩⟩
    have pin : gsi - a.irqBase = irq := by omega
    rw [pin, registers.1, registers.2]

/-- **An override that the first I/O APIC serves** is programmed right exactly when the kernel gets to
it, its number on the bus is that of its pin, its polarity is reserved and it is not the SCI. -/
theorem override_programmed_iff (documented : acpica.Documented) {bus : ℕ}
    (encoded : MadtEncodes table 44 (before ++ .intr bus irq gsi flags :: after) (madtLength table))
    (inits : (replay env ((before ++ .intr bus irq gsi flags :: after).filterMap MadtEntry.init)).run
      .start = (.ok (), s))
    (first : s.list = a :: rest) (serves : a.Serves gsi) :
    ∃ t, Settles (acpiParseMadt acpica table) .start () t ∧
      t.calls.reverse = callsBefore acpica table before (.intr bus irq gsi flags :: after) ++
        .ioapicRoute irq (madtIrqFlags acpica gsi flags) (Word32.add gsi 32) ::
          after.filterMap (MadtEntry.route acpica) ∧
      (Programmed env acpica
        (callsBefore acpica table before (.intr bus irq gsi flags :: after)) a irq gsi
          flags ↔
        ServesAll a before ∧ a.Serves irq ∧ irq + a.irqBase = gsi ∧ flags % 4 = 2 ∧
          gsi ≠ acpica.sciInterrupt) := by
  rcases encoded.parse acpica with ⟨t, settles, _, calls⟩
  have small := encoded.irq_lt (List.mem_append_right before List.mem_cons_self)
  have fits := replay_inits_small encoded.gsiBase_lt inits a (first ▸ List.mem_cons_self)
  refine ⟨t, settles, ?_, programmed_iff documented small fits inits first serves⟩
  rw [calls, madtCalls, callsBefore, List.filterMap_append, List.filterMap_append,
    List.filterMap_cons, List.filterMap_cons]
  simp only [MadtEntry.route, List.append_assoc]

/-! ## One override behind one I/O APIC -/

theorem acpicaSample_documented : acpicaSample.Documented := ⟨rfl, rfl, rfl, rfl, rfl⟩

/-- There is memory, and the I/O APIC has 24 interrupts. -/
def ioapicSample : IoapicEnv := ⟨fun _ => true, fun _ => 0xFFFFFE0000021000, fun _ => 0x00170011⟩

/-- An I/O APIC and an override. -/
def overrideTable (irq gsi flags : UInt8) : Memory := madtTable
  ([1, 12, 0, 0, 0, 0, 0xC0, 0xFE, 0, 0, 0, 0] ++ [2, 10, 0, irq, gsi, 0, 0, 0, flags, 0])

/-- The I/O APIC of that table. -/
def ioapicOf : Ioapic := ⟨0, 0xFFFFFE0000021000, 0, 24⟩

theorem ioapicOf_inits : (replay ioapicSample [.ioapicInit 0 0xFEC00000 0]).run .start =
    (.ok (), ⟨[ioapicOf], 2, []⟩) := by decide

/-- Interrupt 5 as itself, with the reserved polarity. -/
theorem override_programmed_reserved : ∃ t,
    Settles (acpiParseMadt acpicaSample (overrideTable 5 5 2)) .start () t ∧
      t.calls.reverse = [.picInit, .ioapicInit 0 0xFEC00000 0, .ioapicRoute 5 0 37] ∧
      Programmed ioapicSample acpicaSample [.picInit, .ioapicInit 0 0xFEC00000 0] ioapicOf 5 5 2 := by
  have encoded : MadtEncodes (overrideTable 5 5 2) 44
    ([.ioapic 0 0xFEC00000 0] ++ .intr 0 5 5 2 :: [])
      (madtLength (overrideTable 5 5 2)) :=
    .cons ⟨⟨rfl, rfl⟩, rfl, rfl, rfl⟩ (.cons ⟨⟨rfl, rfl⟩, rfl, rfl, rfl, rfl⟩ (.nil _))
  rcases override_programmed_iff acpicaSample_documented encoded ioapicOf_inits rfl (by decide) with
    ⟨t, settles, calls, programmed⟩
  refine ⟨t, settles, calls, programmed.2 ⟨?_, by decide, rfl, rfl, by decide⟩⟩
  rintro _ _ _ _ mem
  rcases List.mem_singleton.1 mem with ⟨⟩

/-- The timer, which is interrupt 0 on the bus and 2 of the system: the entry of pin 0 is written
and that of pin 2 is not. -/
theorem override_unprogrammed : ∃ t,
    Settles (acpiParseMadt acpicaSample (overrideTable 0 2 0)) .start () t ∧
      t.calls.reverse = [.picInit, .ioapicInit 0 0xFEC00000 0, .ioapicRoute 0 0x2000 34] ∧
      (replay ioapicSample t.calls.reverse).run .start = (.ok (), ⟨[ioapicOf], 2,
        [⟨ioapicOf.reg, 0x10, 0x2022⟩, ⟨ioapicOf.reg, 0x11, 0⟩]⟩) ∧
      ioapicOf.Serves 2 ∧
      ¬ Programmed ioapicSample acpicaSample
        [.picInit, .ioapicInit 0 0xFEC00000 0] ioapicOf 0 2 0 := by
  have encoded : MadtEncodes (overrideTable 0 2 0) 44 [.ioapic 0 0xFEC00000 0, .intr 0 0 2 0]
      (madtLength (overrideTable 0 2 0)) :=
    .cons ⟨⟨rfl, rfl⟩, rfl, rfl, rfl⟩ (.cons ⟨⟨rfl, rfl⟩, rfl, rfl, rfl, rfl⟩ (.nil _))
  rcases encoded.parse acpicaSample with ⟨t, settles, _, calls⟩
  refine ⟨t, settles, calls, ?_, by decide, ?_⟩
  · rw [calls]
    decide
  · rintro ⟨s, t, low, high, run, route, writes, _⟩
    rw [show (replay ioapicSample [.picInit, .ioapicInit 0 0xFEC00000 0]).run .start =
      (.ok (), ⟨[ioapicOf], 2, []⟩) from ioapicOf_inits] at run
    cases run
    have written := (ioapicRoute_run rfl (by decide)).symm.trans route
    cases (Prod.mk.inj written).2
    have register := (IoapicWrite.mk.inj (List.cons.inj writes).1).2.1
    exact absurd register (by decide)

end Vineyard
