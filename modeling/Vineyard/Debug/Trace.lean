import Vineyard.Machine
import Vineyard.Libc.Compare

/-!
# Stack traces

`debug/trace.c` looks for the symbol table of the kernel in the copy of its image, and names the
functions that the saved return addresses lie in.  A section or a function is recognised by how its
name begins, and a symbol by being the first that covers an address.
-/

namespace Vineyard.Debug

open Bytes CStrings

/-- `symtab`, `strtab` and their sizes. -/
structure Tables where
  symtab : ℕ
  symtabSize : ℕ
  strtab : ℕ
  strtabSize : ℕ
deriving DecidableEq

/-- Where the string constants of the file lie. -/
structure Constants where
  symtab : ℕ
  strtab : ℕ
  main : ℕ
  isrDispatch : ℕ
  unknown : ℕ

/-- The loop over the sections of 64 bytes, with `n` to go; `sh_name`, `sh_type`, `sh_offset` and
`sh_size` lie at 0, 4, 24 and 32. -/
def debugInitLoop (c : Constants) (mem : Memory) (header sectionStrTab : ℕ) : ℕ → ℕ → Tables → Tables
  | 0, _, t => t
  | n + 1, shdr, t =>
    let t :=
      if load mem (shdr + 4) 4 = 0 then t
      else
        let name := Word64.add sectionStrTab (load mem shdr 4)
        if Libc.strncmp mem c.symtab name 7 = 0 then
          { t with
            symtab := Word64.add header (load mem (shdr + 24) 8)
            symtabSize := load mem (shdr + 32) 8 }
        else if Libc.strncmp mem c.strtab name 7 = 0 then
          { t with
            strtab := Word64.add header (load mem (shdr + 24) 8)
            strtabSize := load mem (shdr + 32) 8 }
        else t
    debugInitLoop c mem header sectionStrTab n (shdr + 64) t

/-- `debug_init` behind the mapping; `e_shoff`, `e_shnum` and `e_shstrndx` lie at 40, 60 and 62. -/
def debugInit (c : Constants) (mem : Memory) (header : ℕ) (t : Tables) : Tables :=
  let shdr := Word64.add header (load mem (header + 40) 8)
  let sectionStrTab := Word64.add header (load mem (shdr + 64 * load mem (header + 62) 2 + 24) 8)
  debugInitLoop c mem header sectionStrTab (load mem (header + 60) 2) shdr t

/-- The loop over the symbols of 24 bytes, with `n` to go; `st_name`, `st_info`, `st_value` and
`st_size` lie at 0, 4, 8 and 16. -/
def symbolLoop (mem : Memory) (strtab addr : ℕ) : ℕ → ℕ → Option ℕ
  | 0, _ => none
  | n + 1, sym =>
    let offset := load mem (sym + 8) 8
    if load mem (sym + 4) 1 &&& 0xF ≠ 2 then symbolLoop mem strtab addr n (sym + 24)
    else if offset ≤ addr ∧ addr < Word64.add offset (load mem (sym + 16) 8) then
      some (Word64.add strtab (load mem sym 4))
    else symbolLoop mem strtab addr n (sym + 24)

def debugTraceGetSymbol (c : Constants) (mem : Memory) (t : Tables) (addr : ℕ) : ℕ :=
  if t.strtab ≠ 0 ∧ t.symtab ≠ 0 then
    (symbolLoop mem t.strtab addr (t.symtabSize / 24) t.symtab).getD c.unknown
  else c.unknown

def kernelStart : ℕ := 0xFFFFFFFF80000000

/-- `debug_trace` of a build without optimisation, from a value of `rbp`: the return address and
the name on each line. -/
def debugTrace (c : Constants) (mem : Memory) (t : Tables) : ℕ → ℕ → Option (List (ℕ × ℕ))
  | 0, _ => none
  | fuel + 1, rbp =>
    if rbp = 0 then some []
    else
      let rip := load mem (rbp + 8) 8
      let name := debugTraceGetSymbol c mem t rip
      if rip &&& kernelStart ≠ kernelStart ∨ Libc.strncmp mem c.main name 4 = 0 ∨
          Libc.strncmp mem c.isrDispatch name 12 = 0 then some [(rip, name)]
      else (debugTrace c mem t fuel (load mem rbp 8)).map ((rip, name) :: ·)

/-! ## Images -/

/-- A section header with the name that it points to. -/
structure ElfSection where
  name : List UInt8
  type : ℕ
  offset : ℕ
  size : ℕ

structure ElfSymbol where
  name : List UInt8
  info : ℕ
  value : ℕ
  size : ℕ

/-- `.symtab` -/
def symtabName : List UInt8 := [0x2E, 0x73, 0x79, 0x6D, 0x74, 0x61, 0x62]

/-- `.strtab` -/
def strtabName : List UInt8 := [0x2E, 0x73, 0x74, 0x72, 0x74, 0x61, 0x62]

/-- `main` -/
def mainName : List UInt8 := [0x6D, 0x61, 0x69, 0x6E]

/-- `isr_dispatch` -/
def isrDispatchName : List UInt8 :=
  [0x69, 0x73, 0x72, 0x5F, 0x64, 0x69, 0x73, 0x70, 0x61, 0x74, 0x63, 0x68]

/-- `<unknown>` -/
def unknownName : List UInt8 := [0x3C, 0x75, 0x6E, 0x6B, 0x6E, 0x6F, 0x77, 0x6E, 0x3E]

structure Constants.At (c : Constants) (mem : Memory) : Prop where
  symtab : StringAt mem c.symtab symtabName
  strtab : StringAt mem c.strtab strtabName
  main : StringAt mem c.main mainName
  isrDispatch : StringAt mem c.isrDispatch isrDispatchName
  unknown : StringAt mem c.unknown unknownName

/-- The section headers lie at `a` and above; only those in use need a name. -/
def SectionsAt (mem : Memory) (sectionStrTab : ℕ) : ℕ → List ElfSection → Prop
  | _, [] => True
  | a, s :: ss =>
    (s.type ≠ 0 → StringAt mem (Word64.add sectionStrTab (load mem a 4)) s.name) ∧
      load mem (a + 4) 4 = s.type ∧
      load mem (a + 24) 8 = s.offset ∧ load mem (a + 32) 8 = s.size ∧
        SectionsAt mem sectionStrTab (a + 64) ss

/-- The image at `header` has these sections. -/
def ImageAt (mem : Memory) (header : ℕ) (sections : List ElfSection) : Prop :=
  let shdr := Word64.add header (load mem (header + 40) 8)
  load mem (header + 60) 2 = sections.length ∧
    SectionsAt mem (Word64.add header (load mem (shdr + 64 * load mem (header + 62) 2 + 24) 8))
      shdr sections

/-- The symbols lie at `a` and above. -/
def SymbolsAt (mem : Memory) (strtab : ℕ) : ℕ → List ElfSymbol → Prop
  | _, [] => True
  | a, s :: ss =>
    StringAt mem (Word64.add strtab (load mem a 4)) s.name ∧ load mem (a + 4) 1 = s.info ∧
      load mem (a + 8) 8 = s.value ∧ load mem (a + 16) 8 = s.size ∧ SymbolsAt mem strtab (a + 24) ss

/-- The last section in use whose name begins like this. -/
def lastNamed (start : List UInt8) (sections : List ElfSection) : Option ElfSection :=
  sections.reverse.find? fun s => s.type ≠ 0 ∧ s.name.take start.length = start

/-- The tables that the sections describe. -/
def found (header : ℕ) (sections : List ElfSection) (t : Tables) : Tables where
  symtab := (lastNamed symtabName sections).elim t.symtab fun s => Word64.add header s.offset
  symtabSize := (lastNamed symtabName sections).elim t.symtabSize ElfSection.size
  strtab := (lastNamed strtabName sections).elim t.strtab fun s => Word64.add header s.offset
  strtabSize := (lastNamed strtabName sections).elim t.strtabSize ElfSection.size

/-- A function that an address lies in. -/
def ElfSymbol.Covers (s : ElfSymbol) (addr : ℕ) : Prop :=
  s.info &&& 0xF = 2 ∧ s.value ≤ addr ∧ addr < Word64.add s.value s.size

instance (s : ElfSymbol) (addr : ℕ) : Decidable (s.Covers addr) :=
  inferInstanceAs (Decidable (_ ∧ _ ∧ _))

/-- The name that a trace shows for an address. -/
def symbolName (symbols : List ElfSymbol) (addr : ℕ) : List UInt8 :=
  (symbols.find? (·.Covers addr)).elim unknownName ElfSymbol.name

/-! ## Sections -/

variable {c : Constants} {mem : Memory} {t : Tables} {header fuel : ℕ} {sections : List ElfSection}

theorem lastNamed_cons (start : List UInt8) (s : ElfSection) : lastNamed start (s :: sections) =
    (lastNamed start sections).or
      (if s.type ≠ 0 ∧ s.name.take start.length = start then some s else none) := by
  rw [lastNamed, List.reverse_cons, List.find?_append, lastNamed]
  congr 1
  by_cases named : s.type ≠ 0 ∧ s.name.take start.length = start
  · rw [if_pos named, List.find?_cons_of_pos (by simpa using named)]
  · rw [if_neg named, List.find?_cons_of_neg (by simpa using named)]
    rfl

/-- A comparison over the length of a constant looks at the beginning of a name. -/
theorem strncmp_eq_zero {a b : ℕ} {start name : List UInt8} (left : StringAt mem a start)
    (right : StringAt mem b name) :
    Libc.strncmp mem a b start.length = 0 ↔ name.take start.length = start := by
  have sign := Libc.strncmp_sign (n := start.length) left right
  rw [List.take_length] at sign
  rw [← Int.sign_eq_zero_iff_zero, sign, Libc.order]
  split
  · next less =>
    refine iff_of_false (by decide) fun same => List.lt_irrefl start ?_
    rwa [same] at less
  · split
    · next same => exact iff_of_true rfl same.symm
    · next differ => exact iff_of_false (by decide) fun same => differ same.symm

theorem debugInitLoop_eq {strs a : ℕ} (at_ : c.At mem) (there : SectionsAt mem strs a sections) :
    debugInitLoop c mem header strs sections.length a t = found header sections t := by
  induction sections generalizing a t with
  | nil => rfl
  | cons s ss ih =>
    obtain ⟨named, type, offset, size, rest⟩ := there
    rw [List.length_cons, debugInitLoop, ih rest, type, offset, size]
    simp only [found, lastNamed_cons]
    by_cases unused : s.type = 0
    · rw [if_pos unused, if_neg fun h => h.1 unused, if_neg fun h => h.1 unused, Option.or_none,
        Option.or_none]
    · have symtab : Libc.strncmp mem c.symtab (Word64.add strs (load mem a 4)) 7 = 0 ↔
          s.name.take symtabName.length = symtabName := strncmp_eq_zero at_.symtab (named unused)
      have strtab : Libc.strncmp mem c.strtab (Word64.add strs (load mem a 4)) 7 = 0 ↔
          s.name.take strtabName.length = strtabName := strncmp_eq_zero at_.strtab (named unused)
      rw [if_neg unused]
      by_cases sym : s.name.take symtabName.length = symtabName
      · have other : s.name.take strtabName.length ≠ strtabName := fun same =>
          absurd (sym.symm.trans same) (by decide)
        rw [if_pos (symtab.2 sym), if_pos ⟨unused, sym⟩, if_neg fun h => other h.2, Option.or_none]
        cases lastNamed symtabName ss <;> rfl
      · have notSym : ¬(s.type ≠ 0 ∧ s.name.take symtabName.length = symtabName) := fun h => sym h.2
        rw [if_neg (mt symtab.1 sym), if_neg notSym, Option.or_none]
        by_cases str : s.name.take strtabName.length = strtabName
        · rw [if_pos (strtab.2 str), if_pos ⟨unused, str⟩]
          cases lastNamed strtabName ss <;> rfl
        · have notStr : ¬(s.type ≠ 0 ∧ s.name.take strtabName.length = strtabName) := fun h => str h.2
          rw [if_neg (mt strtab.1 str), if_neg notStr, Option.or_none]

/-- The tables are those of the last section in use with the name, and of names that go on behind
it. -/
theorem debugInit_eq (at_ : c.At mem) (image : ImageAt mem header sections) :
    debugInit c mem header t = found header sections t := by
  obtain ⟨count, there⟩ := image
  rw [debugInit, count]
  exact debugInitLoop_eq at_ there

/-! ## Symbols -/

variable {symbols : List ElfSymbol}

/-- The name of the first function that covers the address. -/
theorem symbolLoop_spec (addr : ℕ) {strtab a : ℕ} (there : SymbolsAt mem strtab a symbols) :
    (symbolLoop mem strtab addr symbols.length a = none ∧ symbols.find? (·.Covers addr) = none) ∨
      ∃ p s, symbolLoop mem strtab addr symbols.length a = some p ∧
        symbols.find? (·.Covers addr) = some s ∧
        StringAt mem p s.name := by
  induction symbols generalizing a with
  | nil => exact .inl ⟨rfl, rfl⟩
  | cons s ss ih =>
    obtain ⟨name, info, value, size, rest⟩ := there
    rw [List.length_cons, symbolLoop, info, value, size]
    by_cases covers : s.Covers addr
    · rw [List.find?_cons_of_pos (by simpa using covers), if_neg (not_not.2 covers.1),
        if_pos covers.2]
      exact .inr ⟨_, s, rfl, rfl, name⟩
    · rw [List.find?_cons_of_neg (by simpa using covers)]
      by_cases function : s.info &&& 0xF = 2
      · rw [if_neg (not_not.2 function), if_neg fun inside => covers ⟨function, inside⟩]
        exact ih rest
      · rw [if_pos function]
        exact ih rest

/-- The tables of an image hold the symbols. -/
structure Tables.Hold (t : Tables) (mem : Memory) (symbols : List ElfSymbol) : Prop where
  strtab : t.strtab ≠ 0
  symtab : t.symtab ≠ 0
  count : t.symtabSize / 24 = symbols.length
  symbols : SymbolsAt mem t.strtab t.symtab symbols

theorem debugTraceGetSymbol_spec (at_ : c.At mem) (hold : t.Hold mem symbols) (addr : ℕ) :
    StringAt mem (debugTraceGetSymbol c mem t addr) (symbolName symbols addr) := by
  rw [debugTraceGetSymbol, if_pos ⟨hold.strtab, hold.symtab⟩, hold.count, symbolName]
  obtain ⟨none, found⟩ | ⟨p, s, run, found, name⟩ := symbolLoop_spec addr hold.symbols
  · rw [none, found]
    exact at_.unknown
  · rw [run, found]
    exact name

/-! ## Frames -/

/-- Saved frame pointers lead from `rbp` to `last`, beside these return addresses. -/
def Frames (mem : Memory) : ℕ → List ℕ → ℕ → Prop
  | rbp, [], last => rbp = last
  | rbp, rip :: rips, last => rbp ≠ 0 ∧ load mem (rbp + 8) 8 = rip ∧
    Frames mem (load mem rbp 8) rips last

/-- A line that ends a trace. -/
def Stops (symbols : List ElfSymbol) (rip : ℕ) : Prop :=
  rip &&& kernelStart ≠ kernelStart ∨ (symbolName symbols rip).take 4 = mainName ∨
    (symbolName symbols rip).take 12 = isrDispatchName

instance (symbols : List ElfSymbol) (rip : ℕ) : Decidable (Stops symbols rip) :=
  inferInstanceAs (Decidable (_ ∨ _ ∨ _))

/-- The lines up to the first that ends the trace. -/
def shown (symbols : List ElfSymbol) : List ℕ → List ℕ
  | [] => []
  | rip :: rips => if Stops symbols rip then [rip] else rip :: shown symbols rips

/-- A line with a return address and its name. -/
def Line (mem : Memory) (symbols : List ElfSymbol) (rip : ℕ) (line : ℕ × ℕ) : Prop :=
  line.1 = rip ∧ StringAt mem line.2 (symbolName symbols rip)

theorem stops_iff (at_ : c.At mem) (hold : t.Hold mem symbols) (rip : ℕ) :
    (rip &&& kernelStart ≠ kernelStart ∨
      Libc.strncmp mem c.main (debugTraceGetSymbol c mem t rip) 4 = 0 ∨
      Libc.strncmp mem c.isrDispatch (debugTraceGetSymbol c mem t rip) 12 = 0) ↔
        Stops symbols rip := by
  have name := debugTraceGetSymbol_spec at_ hold rip
  exact or_congr_right
    (or_congr (strncmp_eq_zero at_.main name) (strncmp_eq_zero at_.isrDispatch name))

theorem debugTrace_succ (at_ : c.At mem) (hold : t.Hold mem symbols) {rbp : ℕ} (frame : rbp ≠ 0) :
    debugTrace c mem t (fuel + 1) rbp =
      if Stops symbols (load mem (rbp + 8) 8) then
        some [(load mem (rbp + 8) 8, debugTraceGetSymbol c mem t (load mem (rbp + 8) 8))]
      else (debugTrace c mem t fuel (load mem rbp 8)).map
        ((load mem (rbp + 8) 8, debugTraceGetSymbol c mem t (load mem (rbp + 8) 8)) :: ·) := by
  rw [debugTrace, if_neg frame]
  simp only [stops_iff at_ hold]

theorem debugTrace_ends {rbp last : ℕ} {rips : List ℕ} (at_ : c.At mem) (hold : t.Hold mem symbols)
    (frames : Frames mem rbp rips last) (ends : last = 0 ∨ ∃ rip ∈ rips, Stops symbols rip)
    (enough : rips.length < fuel) :
    ∃ lines, debugTrace c mem t fuel rbp = some lines ∧
      List.Forall₂ (Line mem symbols) (shown symbols rips) lines := by
  induction rips generalizing rbp fuel with
  | nil =>
    obtain rfl : last = 0 := ends.resolve_right (by simp)
    obtain rfl : rbp = 0 := frames
    obtain ⟨fuel, rfl⟩ : ∃ n, fuel = n + 1 := ⟨fuel - 1, by simp at enough; omega⟩
    exact ⟨[], rfl, .nil⟩
  | cons rip rips ih =>
    obtain ⟨frame, rfl, frames⟩ := frames
    obtain ⟨fuel, rfl⟩ : ∃ n, fuel = n + 1 := ⟨fuel - 1, by simp at enough; omega⟩
    have line : Line mem symbols (load mem (rbp + 8) 8) (_, _) :=
      ⟨rfl, debugTraceGetSymbol_spec at_ hold _⟩
    rw [debugTrace_succ at_ hold frame, shown]
    split
    · exact ⟨_, rfl, .cons line .nil⟩
    · next goes =>
      have later : last = 0 ∨ ∃ rip ∈ rips, Stops symbols rip := by simpa [goes] using ends
      obtain ⟨lines, run, all⟩ := ih frames later (by simpa using enough)
      rw [run]
      exact ⟨_, rfl, .cons line all⟩

/-- A trace that comes back to a frame goes on for ever. -/
theorem debugTrace_endless {rbp : ℕ} {rips : List ℕ} (at_ : c.At mem) (hold : t.Hold mem symbols)
    (frames : Frames mem rbp rips rbp) (some_ : rips ≠ []) (goes : ∀ rip ∈ rips, ¬Stops symbols rip)
    (fuel : ℕ) :
    debugTrace c mem t fuel rbp = none := by
  have walk : ∀ rips' first n, Frames mem first rips' rbp → (∀ rip ∈ rips', ¬Stops symbols rip) →
      (∀ k, k + rips'.length ≤ n → debugTrace c mem t k rbp = none) →
        debugTrace c mem t n first = none := by
    intro rips'
    induction rips' with
    | nil =>
      rintro first n rfl _ before
      exact before n (by simp)
    | cons rip rips' ih =>
      rintro first n ⟨frame, rfl, rest⟩ goes before
      obtain ⟨now, later⟩ := List.forall_mem_cons.1 goes
      cases n with
      | zero => rfl
      | succ n =>
        rw [debugTrace_succ at_ hold frame, if_neg now, ih _ n rest later fun k le =>
          before k (by simp; omega)]
        rfl
  induction fuel using Nat.strong_induction_on with
  | _ fuel before =>
    refine walk rips rbp fuel frames goes fun k le => before k ?_
    have := List.length_pos_iff.2 some_
    omega

/-- After `debug_init` on an image, a trace over saved frames shows each return address with
the name of the first function that covers it, up to a line that ends it; over frames in a
circle it does not return. -/
theorem debugTrace_image {rbp last : ℕ} {rips : List ℕ} {sym str : ElfSection} (at_ : c.At mem)
    (image : ImageAt mem header sections) (isSym : lastNamed symtabName sections = some sym)
    (isStr : lastNamed strtabName sections = some str) (symAddr : Word64.add header sym.offset ≠ 0)
    (strAddr : Word64.add header str.offset ≠ 0) (count : sym.size / 24 = symbols.length)
    (there : SymbolsAt mem (Word64.add header str.offset) (Word64.add header sym.offset) symbols)
    (frames : Frames mem rbp rips last) :
    (last = 0 ∨ (∃ rip ∈ rips, Stops symbols rip) → ∀ fuel > rips.length,
      ∃ lines, debugTrace c mem (debugInit c mem header t) fuel rbp = some lines ∧
        List.Forall₂ (Line mem symbols) (shown symbols rips) lines) ∧
      (last = rbp → rips ≠ [] → (∀ rip ∈ rips, ¬Stops symbols rip) → ∀ fuel,
        debugTrace c mem (debugInit c mem header t) fuel rbp = none) := by
  have hold : (debugInit c mem header t).Hold mem symbols := by
    rw [debugInit_eq at_ image, found, isSym, isStr]
    exact ⟨strAddr, symAddr, count, there⟩
  refine ⟨fun ends fuel enough => debugTrace_ends at_ hold frames ends enough, ?_⟩
  rintro rfl some_ goes fuel
  exact debugTrace_endless at_ hold frames some_ goes fuel

/-- An image with one function, and two frames. -/
def tracedMemory : Memory :=
  let m := store (fun _ => 0) 0x1028 64 8
  let m := store (store m 0x103C 2 2) 0x103E 1 2
  let m := store (store (store m 0x1044 2 4) 0x1058 192 8) 0x1060 24 8
  let m := store (store (store (store m 0x1080 8 4) 0x1084 3 4) 0x1098 216 8) 0x10A0 21 8
  let m := store (store (store (store m 0x10C0 16 4) 0x10C4 0x12 1) 0x10C8 0xFFFFFFFF80000100 8)
    0x10D0 0x10 8
  let m := write m 0x10D8 (symtabName ++ [0] ++ strtabName ++ [0] ++ mainName ++ [0])
  let m := write (write m 0x1200 (isrDispatchName ++ [0])) 0x1220 (unknownName ++ [0])
  store (store (store m 0x1300 0x1310 8) 0x1308 0xFFFFFFFF80000010 8) 0x1318 0xFFFFFFFF80000104 8

theorem debugTrace_image_main : ∃ lines,
    debugTrace ⟨0x10D8, 0x10E0, 0x10E8, 0x1200, 0x1220⟩ tracedMemory
      (debugInit ⟨0x10D8, 0x10E0, 0x10E8, 0x1200, 0x1220⟩ tracedMemory 0x1000 ⟨0, 0, 0, 0⟩) 3
        0x1300 = some lines ∧
    List.Forall₂ (Line tracedMemory [⟨mainName, 0x12, 0xFFFFFFFF80000100, 0x10⟩])
      [0xFFFFFFFF80000010, 0xFFFFFFFF80000104] lines := by
  have at_ : Constants.At ⟨0x10D8, 0x10E0, 0x10E8, 0x1200, 0x1220⟩ tracedMemory :=
    ⟨by decide +kernel, by decide +kernel, by decide +kernel, by decide +kernel, by decide +kernel⟩
  have image : ImageAt tracedMemory 0x1000 [⟨symtabName, 2, 192, 24⟩, ⟨strtabName, 3, 216, 21⟩] :=
    ⟨by decide +kernel, fun _ => by decide +kernel, by decide +kernel, by decide +kernel, by
      decide +kernel,
      fun _ => by decide +kernel, by decide +kernel, by decide +kernel, by decide +kernel, trivial⟩
  have there : SymbolsAt tracedMemory 0x10D8 0x10C0 [⟨mainName, 0x12, 0xFFFFFFFF80000100, 0x10⟩] :=
    ⟨by decide +kernel, by decide +kernel, by decide +kernel, by decide +kernel, trivial⟩
  have last : load tracedMemory (load tracedMemory 0x1300 8) 8 = 0 := by decide +kernel
  have frames : Frames tracedMemory 0x1300 [0xFFFFFFFF80000010, 0xFFFFFFFF80000104] 0 :=
    ⟨by decide, by decide +kernel, by decide +kernel, by decide +kernel, last⟩
  exact (debugTrace_image at_ image rfl rfl (by decide) (by decide) (by decide) there frames).1
    (.inl rfl) 3
    (by decide)

end Vineyard.Debug
