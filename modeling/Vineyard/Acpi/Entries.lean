import Vineyard.Acpi.MadtBounds

/-!
# The entries of the interrupt table

A table that holds a list of entries back to back, each with the full size of its type.  The two passes
compute functions of that list.
-/

namespace Vineyard

open Bytes Programs Programs.Prog

/-- An entry, with the fields of `madt_entry_t`. -/
inductive MadtEntry where
  | lapic (id apicId flags : ℕ)
  | ioapic (id addr gsiBase : ℕ)
  | intr (bus irq gsi flags : ℕ)
  | nmi (flags gsi : ℕ)
  | lnmi (id flags lint : ℕ)
  | lapicAddr (addr : ℕ)
  /-- An entry of another type. -/
  | other (type len : ℕ)
  deriving DecidableEq

namespace MadtEntry

/-- The size of the entry. -/
def len : MadtEntry → ℕ
  | lapic .. => 8
  | ioapic .. => 12
  | intr .. => 10
  | nmi .. => 8
  | lnmi .. => 6
  | lapicAddr _ => 12
  | other _ len => len

/-- The type and the length at `a`. -/
def Starts (table : Memory) (a type len : ℕ) : Prop := madtType table a = type ∧ madtLen table a = len

/-- The entry is in the table at `a`. -/
def At (table : Memory) (a : ℕ) : MadtEntry → Prop
  | lapic id apicId flags => Starts table a 0 8 ∧ load table (a + 2) 1 = id ∧
      load table (a + 3) 1 = apicId ∧ load table (a + 4) 4 = flags
  | ioapic id addr gsiBase => Starts table a 1 12 ∧ load table (a + 2) 1 = id ∧
      load table (a + 4) 4 = addr ∧ load table (a + 8) 4 = gsiBase
  | intr bus irq gsi flags => Starts table a 2 10 ∧ load table (a + 2) 1 = bus ∧
      load table (a + 3) 1 = irq ∧ load table (a + 4) 4 = gsi ∧ load table (a + 8) 2 = flags
  | nmi flags gsi => Starts table a 3 8 ∧ load table (a + 2) 2 = flags ∧ load table (a + 4) 4 = gsi
  | lnmi id flags lint => Starts table a 4 6 ∧ load table (a + 2) 1 = id ∧
      load table (a + 3) 2 = flags ∧ load table (a + 5) 1 = lint
  | lapicAddr addr => Starts table a 5 12 ∧ load table (a + 4) 8 = addr
  | other type len => Starts table a type len ∧ 5 < type ∧ 2 ≤ len

/-- The entry is enabled and is a local APIC. -/
def enabled : MadtEntry → Bool
  | lapic _ _ flags => flags &&& 1 ≠ 0
  | _ => false

/-- What the first pass makes of `cpu_t`. -/
def cpu (bspApic : Bool) (c : MadtCpu) : MadtEntry → MadtCpu
  | lapic id apicId flags =>
    if flags &&& 1 ≠ 0 ∧ bspApic = false then { c with apicId := apicId, acpiId := id } else c
  | lnmi id _ lint =>
    if id = 0 ∨ id = 0xFF then
      if lint = 0 then { c with apicLintNmi0 := true } else { c with apicLintNmi1 := true }
    else c
  | lapicAddr addr => { c with lapicAddr := addr }
  | _ => c

/-- Where the boot processor's identifiers are taken from: `apic_id` and `acpi_id`. -/
def bootApic : MadtEntry → Option (ℕ × ℕ)
  | lapic id apicId flags => if flags &&& 1 ≠ 0 then some (apicId, id) else none
  | _ => none

/-- The address of an override. -/
def address : MadtEntry → Option ℕ
  | lapicAddr addr => some addr
  | _ => none

/-- A local NMI for this processor, or for all of them, whose pin is 0 or another one. -/
def isNmi (zero : Bool) : MadtEntry → Bool
  | lnmi id _ lint => decide ((id = 0 ∨ id = 0xFF) ∧ (lint = 0 ↔ zero = true))
  | _ => false

/-- The call in the first pass. -/
def init : MadtEntry → Option MadtCall
  | ioapic id addr gsiBase => some (.ioapicInit id addr gsiBase)
  | _ => none

/-- The call in the second pass. -/
def route (acpica : Acpica) : MadtEntry → Option MadtCall
  | intr _ irq gsi flags =>
    some (.ioapicRoute irq (madtIrqFlags acpica gsi flags) (Word32.add gsi 32))
  | _ => none

end MadtEntry

/-- `apic_lint_nmi0`, or `apic_lint_nmi1` for a pin other than 0. -/
def MadtCpu.nmi (zero : Bool) (c : MadtCpu) : Bool := if zero then c.apicLintNmi0 else c.apicLintNmi1

/-- The entries are in the table back to back, from `a` to `fin`. -/
inductive MadtEncodes (table : Memory) : ℕ → List MadtEntry → ℕ → Prop
  | nil (a : ℕ) : MadtEncodes table a [] a
  | cons {a fin : ℕ} {e : MadtEntry} {rest : List MadtEntry} (here : e.At table a)
      (behind : MadtEncodes table (a + e.len) rest fin) : MadtEncodes table a (e :: rest) fin

variable {table : Memory} {a fin : ℕ} {e : MadtEntry} {entries : List MadtEntry} {s : MadtParse}

/-! ## One entry -/

theorem MadtEntry.At.starts (here : e.At table a) : madtLen table a = e.len ∧ 2 ≤ e.len := by
  cases e with
  | other type len => exact ⟨here.1.2, here.2.2⟩
  | _ =>
    refine ⟨here.1.2, ?_⟩
    dsimp only [MadtEntry.len]
    omega

theorem madtLapic_run (table : Memory) (a : ℕ) (bspApic : Bool) (s : MadtParse) :
    ∃ t, (madtLapic table a bspApic).run s =
        (.ok (bspApic || decide (load table (a + 4) 4 &&& 1 ≠ 0)), t) ∧
      t.cpu = (MadtEntry.lapic (load table (a + 2) 1) (load table (a + 3) 1)
        (load table (a + 4) 4)).cpu
        bspApic s.cpu ∧ t.calls = s.calls := by
  unfold madtLapic MadtEntry.cpu
  rw [run_bind_of_ok (run_madtRead _ _ _ _)]
  by_cases enabled : load table (a + 4) 4 &&& 1 ≠ 0
  · rw [if_pos enabled, run_bind_of_ok (run_madtRead _ _ _ _), run_bind_of_ok (run_madtRead _ _ _ _),
      decide_eq_true enabled]
    cases bspApic with
    | false => exact ⟨_, rfl, (if_pos ⟨enabled, rfl⟩).symm, rfl⟩
    | true => exact ⟨_, rfl, (if_neg fun both => Bool.noConfusion both.2).symm, rfl⟩
  · rw [if_neg enabled, decide_eq_false enabled, Bool.or_false]
    exact ⟨_, rfl, (if_neg fun both => enabled both.1).symm, rfl⟩

theorem madtLnmi_run (table : Memory) (a : ℕ) (bspApic : Bool) (flags : ℕ) (s : MadtParse) :
    ∃ t, (madtLnmi table a).run s = (.ok (), t) ∧
      t.cpu = (MadtEntry.lnmi (load table (a + 2) 1) flags (load table (a + 5) 1)).cpu bspApic s.cpu ∧
      t.calls = s.calls := by
  unfold madtLnmi MadtEntry.cpu
  rw [run_bind_of_ok (run_madtRead _ _ _ _), run_bind_of_ok (run_madtRead _ _ _ _)]
  by_cases ours : load table (a + 2) 1 = 0 ∨ load table (a + 2) 1 = 0xFF
  · simp only [if_pos ours]
    by_cases zero : load table (a + 5) 1 = 0
    · simp only [if_pos zero]
      exact ⟨_, rfl, rfl, rfl⟩
    · simp only [if_neg zero]
      exact ⟨_, rfl, rfl, rfl⟩
  · simp only [if_neg ours]
    exact ⟨_, rfl, rfl, rfl⟩

/-- The first pass at an entry. -/
theorem MadtEntry.At.first (here : e.At table a) (bspApic : Bool) (s : MadtParse) :
    ∃ t, (madtEntry table a bspApic).run s = (.ok (bspApic || e.enabled), t) ∧
      t.cpu = e.cpu bspApic s.cpu ∧ t.calls = e.init.toList ++ s.calls := by
  have type : load table a 1 = madtType table a := rfl
  unfold madtEntry
  rw [run_bind_of_ok (run_madtRead _ _ _ _), type]
  cases e with
  | lapic id apicId flags =>
    rcases here with ⟨⟨type, _⟩, rfl, rfl, rfl⟩
    rw [type]
    exact madtLapic_run table a bspApic (s.note a 1)
  | ioapic id addr gsiBase =>
    rcases here with ⟨⟨type, _⟩, rfl, rfl, rfl⟩
    dsimp only [MadtEntry.enabled]
    rw [type, Bool.or_false]
    exact ⟨_, rfl, rfl, rfl⟩
  | lnmi id flags lint =>
    rcases here with ⟨⟨type, _⟩, rfl, _, rfl⟩
    dsimp only [MadtEntry.enabled]
    rw [type, Bool.or_false]
    rcases madtLnmi_run table a bspApic flags (s.note a 1) with ⟨t, run, cpu, calls⟩
    exact ⟨t, run_bind_of_ok run, cpu, calls⟩
  | lapicAddr addr =>
    rcases here with ⟨⟨type, _⟩, rfl⟩
    dsimp only [MadtEntry.enabled]
    rw [type, Bool.or_false]
    exact ⟨_, rfl, rfl, rfl⟩
  | other type len =>
    rcases here with ⟨⟨kind, _⟩, above, _⟩
    rcases Nat.exists_eq_add_of_le' (show 6 ≤ type from above) with ⟨k, rfl⟩
    dsimp only [MadtEntry.enabled]
    rw [kind, Bool.or_false]
    exact ⟨_, rfl, rfl, rfl⟩
  | _ =>
    dsimp only [MadtEntry.enabled]
    rw [here.1.1, Bool.or_false]
    exact ⟨_, rfl, rfl, rfl⟩

/-- The second pass at an entry. -/
theorem MadtEntry.At.second (acpica : Acpica) (here : e.At table a) (s : MadtParse) :
    ∃ t, (madtOverride acpica table a).run s = (.ok (), t) ∧
      t.cpu = s.cpu ∧ t.calls = (e.route acpica).toList ++ s.calls := by
  have type : load table a 1 = madtType table a := rfl
  unfold madtOverride
  rw [run_bind_of_ok (run_madtRead _ _ _ _), type]
  cases e with
  | intr bus irq gsi flags =>
    rcases here with ⟨⟨type, _⟩, _, rfl, rfl, rfl⟩
    rw [type]
    exact ⟨_, rfl, rfl, rfl⟩
  | other type len =>
    rcases here with ⟨⟨kind, _⟩, above, _⟩
    rcases Nat.exists_eq_add_of_le' (show 6 ≤ type from above) with ⟨k, rfl⟩
    rw [kind]
    exact ⟨_, rfl, rfl, rfl⟩
  | _ =>
    rw [here.1.1]
    exact ⟨_, rfl, rfl, rfl⟩

/-! ## The passes -/

/-- What the first pass makes of `cpu_t`, entry by entry. -/
def madtCpuAfter (bspApic : Bool) (c : MadtCpu) : List MadtEntry → MadtCpu
  | [] => c
  | e :: rest => madtCpuAfter (bspApic || e.enabled) (e.cpu bspApic c) rest

theorem MadtEncodes.le (encoded : MadtEncodes table a entries fin) : a ≤ fin := by
  induction encoded with
  | nil a => exact Nat.le_refl a
  | cons here behind ih => omega

theorem filterMap_cons_reverse {α β : Type} (f : α → Option β) (x : α) (l : List α) (m : List β) :
    ((x :: l).filterMap f).reverse ++ m = (l.filterMap f).reverse ++ ((f x).toList ++ m) := by
  rw [List.filterMap_cons]
  cases f x with
  | none => rfl
  | some y => rw [List.reverse_cons, List.append_assoc, Option.toList_some]

/-- The first pass over the entries. -/
theorem MadtEncodes.first (encoded : MadtEncodes table a entries fin) (bspApic : Bool)
    (s : MadtParse) :
    ∃ t, Settles (fun rounds => madtFirst table fin rounds a bspApic) s () t ∧
      t.cpu = madtCpuAfter bspApic s.cpu entries ∧
      t.calls = (entries.filterMap MadtEntry.init).reverse ++ s.calls := by
  induction encoded generalizing bspApic s with
  | nil a =>
    refine ⟨s, .stop fun rounds => ?_, rfl, rfl⟩
    rw [madtFirst, if_neg (Nat.lt_irrefl a)]
    rfl
  | @cons a fin e rest here behind ih =>
    have starts := here.starts
    have inside : a < fin := by
      have := behind.le
      omega
    rcases here.first bspApic s with ⟨u, run, cpu, calls⟩
    rcases ih (bspApic || e.enabled) (u.note (a + 1) 1) with ⟨t, settles, cpu', calls'⟩
    refine ⟨t, .round (fun rounds => ?_) settles, ?_, ?_⟩
    · rw [madtFirst, if_pos inside, run_bind_of_ok run, run_bind_of_ok (run_madtRead _ _ _ _),
        ← starts.1]
      rfl
    · rw [cpu', madtCpuAfter, ← cpu]
      rfl
    · rw [calls', filterMap_cons_reverse, ← calls]
      rfl

/-- The second pass over the entries. -/
theorem MadtEncodes.second (encoded : MadtEncodes table a entries fin) (acpica : Acpica)
    (s : MadtParse) :
    ∃ t, Settles (fun rounds => madtSecond acpica table fin rounds a) s () t ∧ t.cpu = s.cpu ∧
      t.calls = (entries.filterMap (MadtEntry.route acpica)).reverse ++ s.calls := by
  induction encoded generalizing s with
  | nil a =>
    refine ⟨s, .stop fun rounds => ?_, rfl, rfl⟩
    rw [madtSecond, if_neg (Nat.lt_irrefl a)]
    rfl
  | @cons a fin e rest here behind ih =>
    have starts := here.starts
    have inside : a < fin := by
      have := behind.le
      omega
    have some : ¬ load table (a + 1) 1 = 0 := by
      have length : load table (a + 1) 1 = e.len := starts.1
      omega
    rcases here.second acpica (s.note (a + 1) 1) with ⟨u, run, cpu, calls⟩
    rcases ih (u.note (a + 1) 1) with ⟨t, settles, cpu', calls'⟩
    refine ⟨t, .round (fun rounds => ?_) settles, cpu'.trans cpu, ?_⟩
    · rw [madtSecond, if_pos inside, run_bind_of_ok (run_madtRead _ _ _ _), if_neg some,
        run_bind_of_ok run, run_bind_of_ok (run_madtRead _ _ _ _), ← starts.1]
      rfl
    · rw [calls', filterMap_cons_reverse]
      exact congrArg _ calls

/-! ## What the passes compute -/

section Fold

variable (e : MadtEntry) (entries : List MadtEntry) (bspApic : Bool) (c : MadtCpu)

theorem MadtEntry.enabled_eq : e.enabled = e.bootApic.isSome := by
  cases e with
  | lapic id apicId flags =>
    dsimp only [MadtEntry.enabled, MadtEntry.bootApic]
    split_ifs with enabled
    · exact decide_eq_true enabled
    · exact decide_eq_false enabled
  | _ => rfl

/-- A processor entry changes the identifiers of `cpu_t`, unless there was one before. -/
theorem MadtEntry.cpu_apic : ((e.cpu bspApic c).apicId, (e.cpu bspApic c).acpiId) =
    if bspApic then (c.apicId, c.acpiId) else e.bootApic.getD (c.apicId, c.acpiId) := by
  cases e with
  | lapic id apicId flags =>
    dsimp only [MadtEntry.cpu, MadtEntry.bootApic]
    by_cases enabled : flags &&& 1 ≠ 0
    · cases bspApic with
      | false =>
        rw [if_pos ⟨enabled, rfl⟩, if_pos enabled]
        rfl
      | true =>
        rw [if_neg fun both => Bool.noConfusion both.2]
        rfl
    · rw [if_neg fun both => enabled both.1, if_neg enabled]
      cases bspApic <;> rfl
  | lnmi id flags lint =>
    dsimp only [MadtEntry.cpu, MadtEntry.bootApic]
    cases bspApic <;> split_ifs <;> rfl
  | _ => cases bspApic <;> rfl

theorem MadtEntry.cpu_lapicAddr : (e.cpu bspApic c).lapicAddr = e.address.getD c.lapicAddr := by
  cases e with
  | lapic id apicId flags =>
    dsimp only [MadtEntry.cpu, MadtEntry.address]
    split_ifs <;> rfl
  | lnmi id flags lint =>
    dsimp only [MadtEntry.cpu, MadtEntry.address]
    split_ifs <;> rfl
  | _ => rfl

theorem MadtEntry.cpu_nmi (zero : Bool) :
    (e.cpu bspApic c).nmi zero = (c.nmi zero || e.isNmi zero) := by
  cases e with
  | lapic id apicId flags =>
    dsimp only [MadtEntry.cpu, MadtEntry.isNmi]
    rw [Bool.or_false]
    split_ifs <;> rfl
  | lnmi id flags lint =>
    dsimp only [MadtEntry.cpu, MadtEntry.isNmi]
    cases zero <;> split_ifs <;> simp_all [MadtCpu.nmi]
  | _ => exact (Bool.or_false _).symm

/-- The first enabled local APIC counts. -/
theorem madtCpuAfter_apic :
    ((madtCpuAfter bspApic c entries).apicId, (madtCpuAfter bspApic c entries).acpiId) =
      if bspApic then (c.apicId, c.acpiId)
      else (entries.findSome? MadtEntry.bootApic).getD (c.apicId, c.acpiId) := by
  induction entries generalizing bspApic c with
  | nil => cases bspApic <;> rfl
  | cons e rest ih =>
    rw [madtCpuAfter, ih, MadtEntry.cpu_apic, List.findSome?_cons, MadtEntry.enabled_eq]
    cases bspApic with
    | true => rfl
    | false => cases e.bootApic <;> rfl

/-- The last override of the address counts. -/
theorem madtCpuAfter_lapicAddr : (madtCpuAfter bspApic c entries).lapicAddr =
    (entries.filterMap MadtEntry.address).getLast?.getD c.lapicAddr := by
  induction entries generalizing bspApic c with
  | nil => rfl
  | cons e rest ih =>
    rw [madtCpuAfter, ih, MadtEntry.cpu_lapicAddr, List.filterMap_cons]
    cases e.address with
    | none => rfl
    | some addr => rw [List.getLast?_cons, Option.getD_some, Option.getD_some]

/-- Each local NMI counts. -/
theorem madtCpuAfter_nmi (zero : Bool) : (madtCpuAfter bspApic c entries).nmi zero =
    (c.nmi zero || entries.any (MadtEntry.isNmi zero)) := by
  induction entries generalizing bspApic c with
  | nil => exact (Bool.or_false _).symm
  | cons e rest ih => rw [madtCpuAfter, ih, MadtEntry.cpu_nmi, List.any_cons, Bool.or_assoc]

end Fold

/-- The calls of the two passes, in their order. -/
def madtCalls (acpica : Acpica) (table : Memory) (entries : List MadtEntry) : List MadtCall :=
  (if load table 40 4 &&& acpica.pcatCompat ≠ 0 then [.picInit] else []) ++
    entries.filterMap MadtEntry.init ++ entries.filterMap (MadtEntry.route acpica)

/-- Parsing a table of entries. -/
theorem MadtEncodes.parse (encoded : MadtEncodes table 44 entries (madtLength table))
    (acpica : Acpica) :
    ∃ t, Settles (acpiParseMadt acpica table) .start () t ∧
      t.cpu = madtCpuAfter false ⟨false, false, 0, 0, load table 36 4⟩ entries ∧
      t.calls.reverse = madtCalls acpica table entries := by
  rcases madtHeader_run acpica table .start with ⟨t, header, _, cpu, calls⟩
  rcases encoded.first false t with ⟨u, first, cpu', calls'⟩
  rcases encoded.second acpica u with ⟨v, second, cpu'', calls''⟩
  refine ⟨v, .bind (.of_run header) (.bind first second), ?_, ?_⟩
  · rw [cpu'', cpu', cpu]
    rfl
  · rw [calls'', calls', calls, List.reverse_append, List.reverse_append, List.reverse_reverse,
      List.reverse_reverse, madtCalls]
    congr 2
    split_ifs <;> rfl

theorem any_isNmi {zero : Bool} : entries.any (MadtEntry.isNmi zero) = true ↔
    ∃ id flags lint, .lnmi id flags lint ∈ entries ∧ (id = 0 ∨ id = 0xFF) ∧
      (lint = 0 ↔ zero = true) := by
  rw [List.any_eq_true]
  constructor
  · rintro ⟨e, mem, nmi⟩
    cases e with
    | lnmi id flags lint => exact ⟨id, flags, lint, mem, of_decide_eq_true nmi⟩
    | _ => cases nmi
  · rintro ⟨id, flags, lint, mem, ours⟩
    exact ⟨_, mem, decide_eq_true ours⟩

/-- **The state of the processor and the calls** after the parsing of a table of entries. -/
theorem acpiParseMadt_entries (acpica : Acpica)
    (encoded : MadtEncodes table 44 entries (madtLength table)) :
    ∃ t, Settles (acpiParseMadt acpica table) .start () t ∧
      (t.cpu.apicId, t.cpu.acpiId) = (entries.findSome? MadtEntry.bootApic).getD (0, 0) ∧
      t.cpu.lapicAddr = (entries.filterMap MadtEntry.address).getLast?.getD (load table 36 4) ∧
      (t.cpu.apicLintNmi0 = true ↔
        ∃ id flags, .lnmi id flags 0 ∈ entries ∧ (id = 0 ∨ id = 0xFF)) ∧
      (t.cpu.apicLintNmi1 = true ↔
        ∃ id flags lint, .lnmi id flags lint ∈ entries ∧ (id = 0 ∨ id = 0xFF) ∧ lint ≠ 0) ∧
      t.calls.reverse = (if load table 40 4 &&& acpica.pcatCompat ≠ 0 then [.picInit] else []) ++
        entries.filterMap MadtEntry.init ++ entries.filterMap (MadtEntry.route acpica) := by
  rcases encoded.parse acpica with ⟨t, settles, cpu, calls⟩
  refine ⟨t, settles, ?_, ?_, ?_, ?_, calls⟩
  · rw [cpu, madtCpuAfter_apic]
    rfl
  · rw [cpu, madtCpuAfter_lapicAddr]
  · have nmi := madtCpuAfter_nmi entries false ⟨false, false, 0, 0, load table 36 4⟩ true
    rw [← cpu] at nmi
    rw [show t.cpu.apicLintNmi0 = t.cpu.nmi true from rfl, nmi,
      show MadtCpu.nmi true _ = false from rfl, Bool.false_or, any_isNmi]
    constructor
    · rintro ⟨id, flags, lint, mem, ours, zero⟩
      exact ⟨id, flags, zero.2 rfl ▸ mem, ours⟩
    · rintro ⟨id, flags, mem, ours⟩
      exact ⟨id, flags, 0, mem, ours, by decide⟩
  · have nmi := madtCpuAfter_nmi entries false ⟨false, false, 0, 0, load table 36 4⟩ false
    rw [← cpu] at nmi
    rw [show t.cpu.apicLintNmi1 = t.cpu.nmi false from rfl, nmi,
      show MadtCpu.nmi false _ = false from rfl, Bool.false_or, any_isNmi]
    constructor
    · rintro ⟨id, flags, lint, mem, ours, other⟩
      exact ⟨id, flags, lint, mem, ours, fun zero => Bool.noConfusion (other.1 zero)⟩
    · rintro ⟨id, flags, lint, mem, ours, other⟩
      exact ⟨id, flags, lint, mem, ours, fun zero => absurd zero other, fun h => Bool.noConfusion h⟩

/-- Two processors, an I/O APIC, an override, a local NMI and a local APIC address. -/
def madtSample : Memory := madtTable
  ([0, 8, 7, 5, 0, 0, 0, 0] ++ [0, 8, 1, 2, 1, 0, 0, 0] ++
    [1, 12, 3, 0, 0, 0, 0xC0, 0xFE, 0, 0, 0, 0] ++
    [2, 10, 0, 0, 2, 0, 0, 0, 0, 0] ++ [4, 6, 0xFF, 5, 0, 1] ++
    [5, 12, 0, 0, 0, 0, 0xE1, 0xFE, 0, 0, 0, 0] ++ [0x80, 3, 9])

theorem madtSample_encodes : MadtEncodes madtSample 44
    [.lapic 7 5 0, .lapic 1 2 1, .ioapic 3 0xFEC00000 0, .intr 0 0 2 0, .lnmi 0xFF 5 1,
      .lapicAddr 0xFEE10000, .other 0x80 3] (madtLength madtSample) := by
  refine .cons ⟨⟨rfl, rfl⟩, rfl, rfl, rfl⟩ (.cons ⟨⟨rfl, rfl⟩, rfl, rfl, rfl⟩
    (.cons ⟨⟨rfl, rfl⟩, rfl, rfl, rfl⟩ (.cons ⟨⟨rfl, rfl⟩, rfl, rfl, rfl, rfl⟩
    (.cons ⟨⟨rfl, rfl⟩, rfl, rfl, rfl⟩ (.cons ⟨⟨rfl, rfl⟩, rfl⟩
    (.cons ⟨⟨rfl, rfl⟩, by decide, by decide⟩ (.nil _)))))))

theorem acpiParseMadt_entries_sample :
    ∃ t, Settles (acpiParseMadt acpicaSample madtSample) .start () t ∧
      (t.cpu.apicId, t.cpu.acpiId) = (2, 1) ∧ t.cpu.lapicAddr = 0xFEE10000 ∧
      t.calls.reverse = [.picInit, .ioapicInit 3 0xFEC00000 0, .ioapicRoute 0 0x2000 34] := by
  rcases acpiParseMadt_entries acpicaSample madtSample_encodes with
    ⟨t, settles, apic, address, _, _, calls⟩
  exact ⟨t, settles, apic, address, calls⟩

end Vineyard
