import Vineyard.Acpi.Madt

/-!
# The I/O APICs

`ioapic_init` and `ioapic_route` of `int/ioapic.c`.  The environment decides on the memory and the
address that each initialization gets and on the version register of each I/O APIC; the state keeps
`ioapic_list` in its order and every write of a register, newest first.
-/

namespace Vineyard

open Programs Programs.Prog

/-- `ioapic_t`; `val` is 16 bytes behind `reg`. -/
structure Ioapic where
  id : ℕ
  reg : ℕ
  irqBase : ℕ
  irqs : ℕ
  deriving DecidableEq

/-- The I/O APIC serves an interrupt. -/
def Ioapic.Serves (a : Ioapic) (irq : ℕ) : Prop := a.irqBase ≤ irq ∧ irq < a.irqBase + a.irqs

instance (a : Ioapic) (irq : ℕ) : Decidable (a.Serves irq) := inferInstanceAs (Decidable (_ ∧ _))

/-- The assertion of `ioapic_route`, in 64 bits -/
def Ioapic.Asserts (a : Ioapic) (source : ℕ) : Prop :=
  a.irqBase ≤ source ∧ source < Word64.add a.irqBase a.irqs

instance (a : Ioapic) (source : ℕ) : Decidable (a.Asserts source) :=
  inferInstanceAs (Decidable (_ ∧ _))

theorem Ioapic.asserts_iff {a : Ioapic} {source : ℕ} (small : a.irqBase + a.irqs < 2 ^ 64) :
    a.Asserts source ↔ a.Serves source := by
  rw [Ioapic.Asserts, Word64.add_eq small, Ioapic.Serves]

/-- `ioapic_write`: the register window, the register and its value. -/
structure IoapicWrite where
  reg : ℕ
  register : ℕ
  value : ℕ
  deriving DecidableEq

structure IoapicEnv where
  /-- Whether `malloc` returns memory at each call. -/
  memory : ℕ → Bool
  /-- What `mm_virtual_alloc` returns after that many calls of `malloc`. -/
  mmio : ℕ → ℕ
  /-- The version register of the I/O APIC at each physical address. -/
  version : ℕ → ℕ

structure IoapicState where
  list : List Ioapic
  /-- The number of calls of `malloc` so far. -/
  mallocs : ℕ
  writes : List IoapicWrite
  deriving DecidableEq

def IoapicState.start : IoapicState := ⟨[], 0, []⟩

abbrev IoapicM := Prog Fault IoapicState

/-- What the sanitizer that the kernel is built with makes of a null pointer. -/
def nullPointer : Fault := .panic "%s null pointer of type %s\n"

def IoapicM.malloc (env : IoapicEnv) : IoapicM Bool := do
  let s ← get
  modify fun s => { s with mallocs := s.mallocs + 1 }
  return env.memory s.mallocs

/-- `list_append_data` -/
def listAppendData (env : IoapicEnv) (a : Ioapic) : IoapicM Unit := do
  let node ← IoapicM.malloc env
  if node then modify fun s => { s with list := s.list ++ [a] }
  else fail nullPointer

def ioapicInit (env : IoapicEnv) (id addr irqBase : ℕ) : IoapicM Unit := do
  let ioapic ← IoapicM.malloc env
  if ioapic then do
    let s ← get
    listAppendData env
      { id := id
        reg := Word64.add (env.mmio s.mallocs) (addr &&& 0xFFF)
        irqBase := irqBase
        irqs := (env.version addr >>> 16 &&& 0xFF) + 1 }
  else return ()

def ioapicWrite (a : Ioapic) (register value : ℕ) : IoapicM Unit :=
  modify fun s => { s with writes := ⟨a.reg, register, value⟩ :: s.writes }

def ioapicRoute (source flags target : ℕ) : IoapicM Unit := do
  let s ← get
  match s.list with
  | [] => fail nullPointer
  | a :: _ =>
    if a.Asserts source then do
      let redtblEntry := target &&& 0xFF ||| flags
      ioapicWrite a ((0x10 + source <<< 1 + 1) % 2 ^ 32) (redtblEntry >>> 32 &&& 0xFFFFFFFF)
      ioapicWrite a ((0x10 + source <<< 1) % 2 ^ 32) (redtblEntry &&& 0xFFFFFFFF)
    else fail (.assertion
      "ioapic && ioapic->irq_base <= from && ioapic->irq_base + ioapic->irqs > from")

/-- A call of the parser; `pic_init` has nothing to do with the I/O APICs. -/
def madtCall (env : IoapicEnv) : MadtCall → IoapicM Unit
  | .picInit => return ()
  | .ioapicInit id addr irqBase => ioapicInit env id addr irqBase
  | .ioapicRoute source flags target => ioapicRoute source flags target

/-- The calls of the parser, up to one that stops the kernel. -/
def replay (env : IoapicEnv) (calls : List MadtCall) : IoapicM Unit := forEach calls (madtCall env)

/-! ## Runs -/

variable {env : IoapicEnv} {s : IoapicState} {a : Ioapic} {rest : List Ioapic}
  {source flags target : ℕ}

/-- The low word of a redirection entry. -/
def redtblLow (flags target : ℕ) : ℕ := (target &&& 0xFF ||| flags) &&& 0xFFFFFFFF

/-- The high word. -/
def redtblHigh (flags target : ℕ) : ℕ := (target &&& 0xFF ||| flags) >>> 32 &&& 0xFFFFFFFF

/-- Both registers of the entry of the source are written. -/
theorem ioapicRoute_run (first : s.list = a :: rest) (asserts : a.Asserts source) :
    (ioapicRoute source flags target).run s = (.ok (), { s with writes :=
      ⟨a.reg, (0x10 + source <<< 1) % 2 ^ 32, redtblLow flags target⟩ ::
        ⟨a.reg, (0x10 + source <<< 1 + 1) % 2 ^ 32, redtblHigh flags target⟩ :: s.writes }) := by
  unfold ioapicRoute
  rw [run_bind_of_ok (run_get s), first]
  dsimp only
  rw [if_pos asserts, ← first]
  rfl

/-- The assertion of `ioapic_route` -/
theorem ioapicRoute_error (first : s.list = a :: rest) (outside : ¬ a.Asserts source) :
    (ioapicRoute source flags target).run s = (.error (.assertion
      "ioapic && ioapic->irq_base <= from && ioapic->irq_base + ioapic->irqs > from"), s) := by
  unfold ioapicRoute
  rw [run_bind_of_ok (run_get s), first]
  dsimp only
  rw [if_neg outside]
  rfl

theorem replay_append (env : IoapicEnv) (calls more : List MadtCall) :
    replay env (calls ++ more) = (replay env calls >>= fun _ => replay env more) :=
  forEach_append calls more (madtCall env)

/-- The registers of the entry of an interrupt. -/
theorem redtbl_register (small : source < 256) : (0x10 + source <<< 1) % 2 ^ 32 = 0x10 + 2 * source ∧
    (0x10 + source <<< 1 + 1) % 2 ^ 32 = 0x10 + 2 * source + 1 := by
  have double : source <<< 1 = 2 * source := by rw [Nat.shiftLeft_eq, Nat.pow_one, Nat.mul_comm]
  rw [double]
  omega

end Vineyard
