import Vineyard.Acpi.Madt

/-!
# Where the passes over the interrupt table end, and what they read

Each entry has a number of bytes that the two passes read of it, whatever its length.  Both passes
visit the same entries, and the first of them goes on for ever at an entry of length 0.
-/

namespace Vineyard

open Bytes Programs Programs.Prog

/-- The end of the bytes read. -/
def MadtParse.extent (s : MadtParse) : ℕ := s.reads.foldr (fun r n => max (r.1 + r.2) n) 0

/-- The bytes of an entry that the first pass reads. -/
def madtFirstSize : ℕ → ℕ
  | 0 => 8
  | 1 => 12
  | 4 => 6
  | 5 => 12
  | _ => 2

/-- The bytes of an entry that the second pass reads. -/
def madtSecondSize : ℕ → ℕ
  | 2 => 10
  | _ => 2

/-- The type of the entry. -/
def madtType (table : Memory) (entry : ℕ) : ℕ := (table entry).toNat

variable {table : Memory} {fin entry n : ℕ} {s : MadtParse}

section Reads

variable (acpica : Acpica) (table entry) (bspApic : Bool) (s)

@[simp] theorem MadtParse.extent_start : MadtParse.start.extent = 0 := rfl

@[simp] theorem MadtParse.extent_note (a k : ℕ) : (s.note a k).extent = max (a + k) s.extent := rfl

@[simp] theorem MadtParse.extent_call (c : MadtCall) : (s.call c).extent = s.extent := rfl

@[simp] theorem MadtParse.extent_cpu (cpu : MadtCpu) :
    ({ s with cpu := cpu } : MadtParse).extent = s.extent := rfl

/-- All bytes read are below `n` when the end of the reads is not behind it. -/
theorem MadtParse.extent_le (n : ℕ) : s.extent ≤ n ↔ ∀ r ∈ s.reads, r.1 + r.2 ≤ n := by
  unfold MadtParse.extent
  induction s.reads with
  | nil => exact ⟨fun _ _ mem => (List.not_mem_nil mem).elim, fun _ => Nat.zero_le n⟩
  | cons r rest ih => rw [List.foldr_cons, Nat.max_le, ih, List.forall_mem_cons]

@[simp] theorem run_madtRead (a k : ℕ) :
    (madtRead table a k).run s = (.ok (load table a k), s.note a k) :=
  rfl

/-- The program returns, and the bytes that it reads are those before `a`. -/
def ReadsTo {α : Type} (m : MadtM α) (s : MadtParse) (a : ℕ) : Prop :=
  ∃ x t, m.run s = (.ok x, t) ∧ t.extent = max a s.extent

theorem madtLapic_reads : ReadsTo (madtLapic table entry bspApic) s (entry + 8) := by
  unfold ReadsTo madtLapic
  rw [run_bind_of_ok (run_madtRead _ _ _ _)]
  by_cases enabled : load table (entry + 4) 4 &&& 1 ≠ 0
  · rw [if_pos enabled, run_bind_of_ok (run_madtRead _ _ _ _), run_bind_of_ok (run_madtRead _ _ _ _)]
    cases bspApic with
    | false =>
      refine ⟨_, _, rfl, ?_⟩
      simp only [MadtParse.extent_note, MadtParse.extent_cpu]
      omega
    | true =>
      refine ⟨_, _, rfl, ?_⟩
      simp only [MadtParse.extent_note]
      omega
  · rw [if_neg enabled]
    refine ⟨_, _, rfl, ?_⟩
    rw [MadtParse.extent_note]

theorem madtIoapic_reads : ReadsTo (madtIoapic table entry) s (entry + 12) := by
  refine ⟨_, _, rfl, ?_⟩
  simp only [MadtParse.extent_note, MadtParse.extent_call]
  omega

theorem madtLnmi_reads : ReadsTo (madtLnmi table entry) s (entry + 6) := by
  unfold ReadsTo madtLnmi
  rw [run_bind_of_ok (run_madtRead _ _ _ _), run_bind_of_ok (run_madtRead _ _ _ _)]
  by_cases ours : load table (entry + 2) 1 = 0 ∨ load table (entry + 2) 1 = 0xFF
  · rw [if_pos ours]
    by_cases zero : load table (entry + 5) 1 = 0
    · rw [if_pos zero]
      refine ⟨_, _, rfl, ?_⟩
      simp only [MadtParse.extent_note, MadtParse.extent_cpu]
      omega
    · rw [if_neg zero]
      refine ⟨_, _, rfl, ?_⟩
      simp only [MadtParse.extent_note, MadtParse.extent_cpu]
      omega
  · rw [if_neg ours]
    refine ⟨_, _, rfl, ?_⟩
    simp only [MadtParse.extent_note]
    omega

theorem madtLapicAddr_reads : ReadsTo (madtLapicAddr table entry) s (entry + 12) := by
  refine ⟨_, _, rfl, ?_⟩
  simp only [MadtParse.extent_note, MadtParse.extent_cpu]

theorem madtIntr_reads : ReadsTo (madtIntr acpica table entry) s (entry + 10) := by
  refine ⟨_, _, rfl, ?_⟩
  simp only [MadtParse.extent_note, MadtParse.extent_call]
  omega

/-- An entry of the first pass and its length, which is read behind it. -/
theorem madtEntry_reads : ∃ b t, (madtEntry table entry bspApic).run s = (.ok b, t) ∧
    (t.note (entry + 1) 1).extent = max (entry + madtFirstSize (madtType table entry)) s.extent := by
  have type : load table entry 1 = madtType table entry := rfl
  unfold madtEntry
  rw [run_bind_of_ok (run_madtRead _ _ _ _), type]
  generalize madtType table entry = kind
  split
  · rcases madtLapic_reads table entry (s.note entry 1) bspApic with ⟨b, t, run, extent⟩
    refine ⟨b, t, run, ?_⟩
    rw [MadtParse.extent_note, extent, MadtParse.extent_note, madtFirstSize]
    omega
  · rcases madtIoapic_reads table entry (s.note entry 1) with ⟨_, t, run, extent⟩
    refine ⟨bspApic, t, run_bind_of_ok run, ?_⟩
    rw [MadtParse.extent_note, extent, MadtParse.extent_note, madtFirstSize]
    omega
  · refine ⟨bspApic, _, rfl, ?_⟩
    rw [MadtParse.extent_note, MadtParse.extent_note, madtFirstSize]
    · omega
    all_goals intro h; cases h
  · rcases madtLnmi_reads table entry (s.note entry 1) with ⟨_, t, run, extent⟩
    refine ⟨bspApic, t, run_bind_of_ok run, ?_⟩
    rw [MadtParse.extent_note, extent, MadtParse.extent_note, madtFirstSize]
    omega
  · rcases madtLapicAddr_reads table entry (s.note entry 1) with ⟨_, t, run, extent⟩
    refine ⟨bspApic, t, run_bind_of_ok run, ?_⟩
    rw [MadtParse.extent_note, extent, MadtParse.extent_note, madtFirstSize]
    omega
  · refine ⟨bspApic, _, rfl, ?_⟩
    rw [MadtParse.extent_note, MadtParse.extent_note, madtFirstSize]
    · omega
    all_goals intro h; cases h
  · refine ⟨bspApic, _, rfl, ?_⟩
    rw [MadtParse.extent_note, MadtParse.extent_note, madtFirstSize]
    · omega
    all_goals assumption

/-- An entry of the second pass and its length. -/
theorem madtOverride_reads : ∃ t, (madtOverride acpica table entry).run s = (.ok (), t) ∧
    (t.note (entry + 1) 1).extent = max (entry + madtSecondSize (madtType table entry)) s.extent := by
  have type : load table entry 1 = madtType table entry := rfl
  unfold madtOverride
  rw [run_bind_of_ok (run_madtRead _ _ _ _), type]
  generalize madtType table entry = kind
  split
  · rcases madtIntr_reads table entry (s.note entry 1) acpica with ⟨_, t, run, extent⟩
    refine ⟨t, run, ?_⟩
    rw [MadtParse.extent_note, extent, MadtParse.extent_note, madtSecondSize]
    omega
  · refine ⟨_, rfl, ?_⟩
    rw [MadtParse.extent_note, MadtParse.extent_note, madtSecondSize]
    · omega
    · assumption

end Reads

/-! ## The passes -/

/-- What holds of all entries visited holds of the first and of those behind it. -/
theorem madtWalk_forall {P : ℕ → Prop} {ptr : ℕ} (inside : ptr < fin) :
    (∀ entry, MadtWalk table fin ptr entry → entry < fin → P entry) ↔
      P ptr ∧ ∀ entry, MadtWalk table fin (ptr + madtLen table ptr) entry → entry < fin →
        P entry := by
  constructor
  · intro all
    exact ⟨all ptr .refl inside, fun entry walk => all entry (.head ⟨inside, rfl⟩ walk)⟩
  · rintro ⟨first, rest⟩ entry walk less
    rcases Relation.ReflTransGen.cases_head walk with rfl | ⟨next, ⟨_, rfl⟩, walk⟩
    · exact first
    · exact rest entry walk less

/-- Behind the end nothing is visited. -/
theorem madtWalk_end {ptr : ℕ} (beyond : fin ≤ ptr) (walk : MadtWalk table fin ptr entry) :
    fin ≤ entry := by
  rcases Relation.ReflTransGen.cases_head walk with rfl | ⟨next, ⟨inside, _⟩, _⟩
  · exact beyond
  · omega

/-- A last entry is followed by none. -/
theorem madtWalk_last {P : ℕ → Prop} {ptr : ℕ} (inside : ptr < fin)
    (last : fin ≤ ptr + madtLen table ptr) (first : P ptr) (entry : ℕ)
    (walk : MadtWalk table fin ptr entry) (less : entry < fin) : P entry := by
  refine (madtWalk_forall inside).2 ⟨first, fun entry walk less => ?_⟩ entry walk less
  exact absurd less (Nat.not_lt.2 (madtWalk_end last walk))

/-- No entry that is visited has length 0. -/
def MadtMoves (table : Memory) (fin ptr : ℕ) : Prop :=
  ∀ entry, MadtWalk table fin ptr entry → entry < fin → madtLen table entry ≠ 0

/-- The first pass over entries that all have a length. -/
theorem madtFirst_reads (bspApic : Bool) (s : MadtParse) {ptr : ℕ} (moves : MadtMoves table fin ptr) :
    ∃ t, Settles (fun rounds => madtFirst table fin rounds ptr bspApic) s () t ∧
      ∀ n, t.extent ≤ n ↔ s.extent ≤ n ∧ ∀ entry, MadtWalk table fin ptr entry → entry < fin →
        entry + madtFirstSize (madtType table entry) ≤ n := by
  induction left : fin - ptr using Nat.strong_induction_on generalizing ptr bspApic s with
  | _ left ih =>
    by_cases inside : ptr < fin
    · rcases madtEntry_reads table ptr s bspApic with ⟨b, u, run, extent⟩
      rcases (madtWalk_forall inside).1 moves with ⟨len, rest⟩
      rcases ih (fin - (ptr + madtLen table ptr)) (by omega) b (u.note (ptr + 1) 1) rest rfl with
        ⟨t, settles, reads⟩
      refine ⟨t, .round (fun rounds => ?_) settles, fun n => ?_⟩
      · rw [madtFirst, if_pos inside, run_bind_of_ok run, run_bind_of_ok (run_madtRead _ _ _ _)]
        rfl
      · rw [reads, extent, madtWalk_forall inside, Nat.max_le]
        exact ⟨fun h => ⟨h.1.2, h.1.1, h.2⟩, fun h => ⟨⟨h.2.1, h.1⟩, h.2.2⟩⟩
    · refine ⟨s, .stop fun rounds => ?_, fun n => ⟨fun h => ⟨h, ?_⟩, And.left⟩⟩
      · rw [madtFirst, if_neg inside]
        rfl
      · intro entry walk less
        have := madtWalk_end (by omega) walk
        omega

/-- The second pass. -/
theorem madtSecond_reads (acpica : Acpica) (s : MadtParse) {ptr : ℕ}
    (moves : MadtMoves table fin ptr) :
    ∃ t, Settles (fun rounds => madtSecond acpica table fin rounds ptr) s () t ∧
      ∀ n, t.extent ≤ n ↔ s.extent ≤ n ∧ ∀ entry, MadtWalk table fin ptr entry → entry < fin →
        entry + madtSecondSize (madtType table entry) ≤ n := by
  induction left : fin - ptr using Nat.strong_induction_on generalizing ptr s with
  | _ left ih =>
    by_cases inside : ptr < fin
    · rcases madtOverride_reads table ptr (s.note (ptr + 1) 1) acpica with ⟨u, run, extent⟩
      rcases (madtWalk_forall inside).1 moves with ⟨len, rest⟩
      rcases ih (fin - (ptr + madtLen table ptr)) (by omega) (u.note (ptr + 1) 1) rest rfl with
        ⟨t, settles, reads⟩
      refine ⟨t, .round (fun rounds => ?_) settles, fun n => ?_⟩
      · have some : ¬ load table (ptr + 1) 1 = 0 := len
        rw [madtSecond, if_pos inside, run_bind_of_ok (run_madtRead _ _ _ _), if_neg some,
          run_bind_of_ok run, run_bind_of_ok (run_madtRead _ _ _ _)]
        rfl
      · have length : ptr + 2 ≤ ptr + madtSecondSize (madtType table ptr) := by
          unfold madtSecondSize
          split <;> omega
        rw [reads, extent, madtWalk_forall inside, MadtParse.extent_note, Nat.max_le, Nat.max_le]
        exact ⟨fun h => ⟨h.1.2.2, h.1.1, h.2⟩,
          fun h => ⟨⟨h.2.1, Nat.le_trans length h.2.1, h.1⟩, h.2.2⟩⟩
    · refine ⟨s, .stop fun rounds => ?_, fun n => ⟨fun h => ⟨h, ?_⟩, And.left⟩⟩
      · rw [madtSecond, if_neg inside]
        rfl
      · intro entry walk less
        have := madtWalk_end (by omega) walk
        omega

/-- The header is 44 bytes long. -/
theorem madtHeader_run (acpica : Acpica) (table : Memory) (s : MadtParse) :
    ∃ t, (madtHeader acpica table).run s = (.ok (madtLength table), t) ∧ t.extent = max 44 s.extent ∧
      t.cpu = { s.cpu with lapicAddr := load table 36 4 } ∧
      t.calls = (if load table 40 4 &&& acpica.pcatCompat ≠ 0 then [.picInit] else []) ++
        s.calls := by
  unfold madtHeader
  rw [run_bind_of_ok (run_madtRead _ _ _ _), run_bind_of_ok (run_madtRead _ _ _ _),
    run_bind_of_ok (run_modify _ _), run_bind_of_ok (run_madtRead _ _ _ _)]
  by_cases compat : load table 40 4 &&& acpica.pcatCompat ≠ 0
  · rw [if_pos compat, if_pos compat]
    refine ⟨_, rfl, ?_, rfl, rfl⟩
    simp only [MadtParse.extent_call, MadtParse.extent_note, MadtParse.extent_cpu]
    omega
  · rw [if_neg compat, if_neg compat]
    refine ⟨_, rfl, ?_, rfl, rfl⟩
    simp only [MadtParse.extent_note, MadtParse.extent_cpu]
    omega

/-- Both passes over a table whose entries all have a length. -/
theorem acpiParseMadt_reads (acpica : Acpica) (s : MadtParse)
    (moves : MadtMoves table (madtLength table) 44) :
    ∃ t, Settles (acpiParseMadt acpica table) s () t ∧ ∀ n, t.extent ≤ n ↔ s.extent ≤ n ∧ 44 ≤ n ∧
      ∀ entry, MadtWalk table (madtLength table) 44 entry → entry < madtLength table →
        entry + madtFirstSize (madtType table entry) ≤ n ∧
          entry + madtSecondSize (madtType table entry) ≤ n := by
  rcases madtHeader_run acpica table s with ⟨t, header, extent, _⟩
  rcases madtFirst_reads false t moves with ⟨u, first, firstReads⟩
  rcases madtSecond_reads acpica u moves with ⟨v, second, secondReads⟩
  refine ⟨v, .bind (.of_run header) (.bind first second), fun n => ?_⟩
  rw [secondReads, firstReads, extent, Nat.max_le]
  constructor
  · rintro ⟨⟨⟨low, before⟩, one⟩, two⟩
    exact ⟨before, low, fun entry walk less => ⟨one entry walk less, two entry walk less⟩⟩
  · rintro ⟨before, low, both⟩
    exact ⟨⟨⟨low, before⟩, fun entry walk less => (both entry walk less).1⟩,
      fun entry walk less => (both entry walk less).2⟩

/-! ## Entries of length 0 -/

/-- The first pass never gets past an entry of length 0. -/
theorem madtFirst_endless {ptr : ℕ} (walk : MadtWalk table fin ptr entry) (inside : entry < fin)
    (zero : madtLen table entry = 0) (rounds : ℕ) (bspApic : Bool) (s : MadtParse) :
    ((madtFirst table fin rounds ptr bspApic).run s).1 = .error .endless := by
  have round {here : ℕ} (less : here < fin) (rounds : ℕ) (bspApic : Bool) (s : MadtParse) :
      ∃ b t, (madtFirst table fin (rounds + 1) here bspApic).run s =
        (madtFirst table fin rounds (here + madtLen table here) b).run t := by
    rcases madtEntry_reads table here s bspApic with ⟨b, t, run, _⟩
    refine ⟨b, t.note (here + 1) 1, ?_⟩
    rw [madtFirst, if_pos less, run_bind_of_ok run, run_bind_of_ok (run_madtRead _ _ _ _)]
    rfl
  induction walk using Relation.ReflTransGen.head_induction_on generalizing rounds bspApic s with
  | refl =>
    induction rounds generalizing bspApic s with
    | zero => rfl
    | succ rounds ih =>
      rcases round inside rounds bspApic s with ⟨b, t, run⟩
      rw [run, zero, Nat.add_zero]
      exact ih b t
  | @head ptr next step _ ih =>
    cases rounds with
    | zero => rfl
    | succ rounds =>
      rcases round step.1 rounds bspApic s with ⟨b, t, run⟩
      rw [run, ← step.2]
      exact ih rounds b t

theorem acpiParseMadt_endless (acpica : Acpica) (walk : MadtWalk table (madtLength table) 44 entry)
    (inside : entry < madtLength table) (zero : madtLen table entry = 0) (rounds : ℕ)
    (s : MadtParse) :
    ((acpiParseMadt acpica table rounds).run s).1 = .error .endless := by
  rcases madtHeader_run acpica table s with ⟨u, header, _⟩
  have endless := madtFirst_endless walk inside zero rounds false u
  rw [acpiParseMadt, run_bind_of_ok header]
  cases outcome : (madtFirst table (madtLength table) rounds 44 false).run u with
  | mk result v =>
    rw [outcome] at endless
    cases endless
    rw [run_bind_of_error outcome]

/-- **Parsing ends** exactly on the tables without an entry of length 0. -/
theorem acpiParseMadt_ends_iff (acpica : Acpica) (table : Memory) (s : MadtParse) :
    (∃ t, Settles (acpiParseMadt acpica table) s () t) ↔
      ∀ entry, MadtWalk table (madtLength table) 44 entry → entry < madtLength table →
        madtLen table entry ≠ 0 := by
  constructor
  · rintro ⟨t, enough, settled⟩ entry walk inside zero
    have endless := acpiParseMadt_endless acpica walk inside zero enough s
    rw [settled enough (Nat.le_refl enough)] at endless
    cases endless
  · intro moves
    rcases acpiParseMadt_reads acpica s moves with ⟨t, settles, _⟩
    exact ⟨t, settles⟩

/-- A table that `acpi_tables_init` finds and whose checksum is right is parsed. -/
theorem acpiTablesInit_run (acpica : Acpica) (rounds : ℕ) (s : MadtParse)
    (signature : strncmp ((List.range 4).map table) madtSignature 4 = 0)
    (checksum : madtChecksum table (madtLength table) = 0) :
    (acpiTablesInit acpica [table] rounds).run s = (acpiParseMadt acpica table rounds).run s := by
  have parsed : acpiTable acpica table rounds = acpiParseMadt acpica table rounds := by
    rw [acpiTable, if_pos signature, if_neg fun bad => bad checksum]
  rw [acpiTablesInit, forEach_cons, forEach_nil, parsed, run_bind]
  cases outcome : (acpiParseMadt acpica table rounds).run s with
  | mk result t => cases result <;> rfl

/-- A table with one entry, of length 0, whose checksum is right. -/
theorem acpiTablesInit_endless : madtChecksum (madtTable [3, 0]) (madtLength (madtTable [3, 0])) = 0 ∧
    ¬ ∃ t, Settles (acpiTablesInit acpicaSample [madtTable [3, 0]]) .start () t := by
  have checksum : madtChecksum (madtTable [3, 0]) (madtLength (madtTable [3, 0])) = 0 := by
    decide +kernel
  refine ⟨checksum, ?_⟩
  rintro ⟨t, enough, settled⟩
  have endless := acpiParseMadt_endless acpicaSample (.refl : MadtWalk (madtTable [3, 0]) 46 44 44)
    (by decide) rfl enough .start
  rw [← acpiTablesInit_run acpicaSample enough .start (by decide) checksum,
    settled enough (Nat.le_refl enough)] at endless
  cases endless

/-! ## Entries that end behind the table -/

/-- The bytes of an entry that are read. -/
def madtSize (type : ℕ) : ℕ := max (madtFirstSize type) (madtSecondSize type)

/-- **Only the table is read** exactly when each entry has its fields in it. -/
theorem acpiParseMadt_within_iff (acpica : Acpica) (header : 44 ≤ madtLength table)
    (lengths : ∀ entry, MadtWalk table (madtLength table) 44 entry → entry < madtLength table →
      2 ≤ madtLen table entry) :
    ∃ t, Settles (acpiParseMadt acpica table) .start () t ∧
      ((∀ r ∈ t.reads, r.1 + r.2 ≤ madtLength table) ↔
        ∀ entry, MadtWalk table (madtLength table) 44 entry → entry < madtLength table →
          entry + madtSize (madtType table entry) ≤ madtLength table) := by
  have moves : MadtMoves table (madtLength table) 44 := fun entry walk less => by
    have := lengths entry walk less
    omega
  rcases acpiParseMadt_reads acpica .start moves with ⟨t, settles, reads⟩
  refine ⟨t, settles, ?_⟩
  rw [← MadtParse.extent_le, reads, MadtParse.extent_start]
  unfold madtSize
  constructor
  · rintro ⟨_, _, both⟩ entry walk less
    have := both entry walk less
    omega
  · intro all
    refine ⟨Nat.zero_le _, header, fun entry walk less => ?_⟩
    have := all entry walk less
    omega

/-- A table with one enabled local APIC. -/
theorem acpiParseMadt_within_lapic :
    ∃ t, Settles (acpiParseMadt acpicaSample (madtTable [0, 8, 0, 0, 1, 0, 0, 0])) .start () t ∧
      ∀ r ∈ t.reads, r.1 + r.2 ≤ 52 := by
  rcases @acpiParseMadt_within_iff (madtTable [0, 8, 0, 0, 1, 0, 0, 0]) acpicaSample (by decide)
    (madtWalk_last (by decide) (by decide) (by decide)) with ⟨t, settles, within⟩
  exact ⟨t, settles, within.2 (madtWalk_last (by decide) (by decide) (by decide))⟩

/-- A table whose checksum is right and whose last entry is cut off behind its length: the flags of the
local APIC are read behind the table. -/
theorem acpiTablesInit_beyond :
    madtChecksum (madtTable [0, 8]) (madtLength (madtTable [0, 8])) = 0 ∧
      madtLength (madtTable [0, 8]) = 46 ∧
      (∀ entry, MadtWalk (madtTable [0, 8]) 46 44 entry → entry < 46 →
        2 ≤ madtLen (madtTable [0, 8]) entry) ∧
      ∃ t, Settles (acpiTablesInit acpicaSample [madtTable [0, 8]]) .start () t ∧
        ¬ ∀ r ∈ t.reads, r.1 + r.2 ≤ 46 := by
  have checksum : madtChecksum (madtTable [0, 8]) (madtLength (madtTable [0, 8])) = 0 := by
    decide +kernel
  have lengths : ∀ entry, MadtWalk (madtTable [0, 8]) 46 44 entry → entry < 46 →
      2 ≤ madtLen (madtTable [0, 8]) entry :=
    madtWalk_last (by decide) (by decide) (by decide)
  refine ⟨checksum, rfl, lengths, ?_⟩
  have moves : MadtMoves (madtTable [0, 8]) 46 44 := fun entry walk less =>
    Nat.ne_of_gt (Nat.lt_of_lt_of_le Nat.two_pos (lengths entry walk less))
  rcases acpiParseMadt_reads acpicaSample .start moves with ⟨t, ⟨enough, settled⟩, reads⟩
  refine ⟨t, ⟨enough, fun rounds le => ?_⟩, ?_⟩
  · rw [acpiTablesInit_run acpicaSample rounds .start (by decide) checksum, settled rounds le]
  · rw [← MadtParse.extent_le, reads]
    rintro ⟨_, _, inside⟩
    exact absurd (inside 44 .refl (by decide)).1 (by decide)

end Vineyard
