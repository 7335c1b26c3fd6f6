import Vineyard.Int.Gates

/-!
# Registered handlers

`kernel/int/isr.c` and the interrupt handlers of `kernel/driver/acpi/osl/interrupt.c`.  After any
registrations an interrupt through the descriptor table runs the handler that was registered last for
its vector, acknowledges it at the APIC if it is no exception, and resumes what it interrupted.
-/

namespace Vineyard.Isr

open Assembly Bytes Function

/-- What `isr_register` is given: a driver's function, or the `acpi_handler` of the ACPI layer. -/
inductive IsrHandler (H : Type) where
  | acpiHandler
  | driver (h : H)
deriving DecidableEq

/-- The calls that an interrupt makes. -/
inductive Event (H A X : Type) where
  /-- The message about an exception. -/
  | exception (type : String) (id error rip rsp : ℕ)
  /-- The message about the control registers. -/
  | controls
  | driver (h : H)
  /-- The ACPI layer's function with its context. -/
  | acpi (handler : A) (context : X)
  | apicAck
deriving DecidableEq

/-- The variables of `isr.c` and of the ACPI layer, and what has happened. -/
structure World (H A X : Type) where
  handlers : ℕ → Option (IsrHandler H)
  handler : Option A
  context : X
  events : List (Event H A X)

def exceptionType : List (Option String) :=
  [some "Divide-by-zero Error", some "Debug", some "Non-maskable Interrupt", some "Breakpoint",
    some "Overflow",
    some "Bound Range Exceeded", some "Invalid Opcode", some "Device Not Available",
    some "Double Fault",
    some "Coprocessor Segment Overrun", some "Invalid TSS", some "Segment Not Present",
    some "Stack-Segment Fault",
    some "General Protection Fault", some "Page Fault", none, some "x87 Floating-Point Exception",
    some "Alignment Check", some "Machine Check", some "SIMD Floating-Point Exception",
    some "Virtualization Exception", none, none, none, none, none, none, none, none, none,
    some "Security Exception"]

variable {H A X : Type}

namespace World

def isrRegister (w : World H A X) (n : ℕ) (addr : Option (IsrHandler H)) : World H A X :=
  if addr.isSome ∧ n < 0x100 then { w with handlers := update w.handlers n addr } else w

def isrUnregister (w : World H A X) (n : ℕ) : World H A X :=
  if n < 0x100 then { w with handlers := update w.handlers n none } else w

/-- The sum is one of 32-bit numbers. -/
def acpiOsInstallInterruptHandler (w : World H A X) (interrupt : ℕ) (hand : A) (ctx : X) :
    World H A X :=
  { w.isrRegister ((interrupt + 32) % 2 ^ 32) (some .acpiHandler) with
    handler := some hand
    context := ctx }

def acpiOsRemoveInterruptHandler (w : World H A X) (interrupt : ℕ) : World H A X :=
  w.isrUnregister ((interrupt + 32) % 2 ^ 32)

/-- A call of the ACPI layer or of a driver. -/
inductive Call (H A X : Type) where
  | isrRegister (n : ℕ) (addr : Option (IsrHandler H))
  | isrUnregister (n : ℕ)
  | acpiOsInstallInterruptHandler (interrupt : ℕ) (hand : A) (ctx : X)
  | acpiOsRemoveInterruptHandler (interrupt : ℕ)

def call (w : World H A X) : Call H A X → World H A X
  | .isrRegister n addr => w.isrRegister n addr
  | .isrUnregister n => w.isrUnregister n
  | .acpiOsInstallInterruptHandler interrupt hand ctx =>
    w.acpiOsInstallInterruptHandler interrupt hand ctx
  | .acpiOsRemoveInterruptHandler interrupt => w.acpiOsRemoveInterruptHandler interrupt

end World

section Code

variable (effect : Event H A X → Machine Reg (World H A X) → Machine Reg (World H A X))

/-- A call; `effect` is what it does to registers and memory. -/
def perform (e : Event H A X) (m : Machine Reg (World H A X)) : Machine Reg (World H A X) :=
  { effect e m with world := { m.world with events := m.world.events ++ [e] } }

/-- `acpi_handler` calls whatever the ACPI layer keeps. -/
def runHandler (m : Machine Reg (World H A X)) : IsrHandler H → Option (Machine Reg (World H A X))
  | .driver h => some (perform effect (.driver h) m)
  | .acpiHandler => m.world.handler.map fun hand => perform effect (.acpi hand m.world.context) m

/-- The messages of `isr_dispatch` about an exception; the fields `id`, `error`, `rip` and `rsp` lie
at 120, 128, 136 and 160.  A type that is `NULL` cannot be printed. -/
def printException (state : ℕ) (m : Machine Reg (World H A X)) : Option (Machine Reg (World H A X)) :=
  let id := load m.mem (state + 120) 8
  if id < 0x20 then
    (exceptionType[id]?).join.map fun type =>
      let m := perform effect
        (.exception type id (load m.mem (state + 128) 8) (load m.mem (state + 136) 8)
        (load m.mem (state + 160) 8)) m
      if id = 13 ∨ id = 14 then perform effect .controls m else m
  else some m

/-- `isr_dispatch`; without a handler it does not return. -/
def isrDispatch (m : Machine Reg (World H A X)) : Option (Machine Reg (World H A X)) := do
  let state := m.regs .rdi
  let m ← printException effect state m
  let h ← m.world.handlers (load m.mem (state + 120) 8)
  let m ← runHandler effect m h
  some (if 0x20 ≤ load m.mem (state + 120) 8 then perform effect .apicAck m else m)

/-- An interrupt with a vector: the gate, the handler at its address, `isr_dispatch`. -/
def raise (address : Stub → ℕ) (table : ℕ × ℕ) (c : Context (World H A X)) (vector : ℕ)
    (error : Option ℕ) :
    Option (Context (World H A X)) := do
  let g ← gate c.machine.mem table vector
  let stub ← (gates.map Prod.snd).find? (address · = g.offset)
  c.interrupt (fun _ => isrDispatch effect) stub error

end Code

/-! ## One interrupt -/

/-- The calls that are due before the handler of a vector. -/
def announce (s : CpuState) : Option (List (Event H A X)) :=
  if s.id < 0x20 then
    (exceptionType[s.id]?).join.map fun type =>
      .exception type s.id s.error s.rip s.rsp :: if s.id = 13 ∨ s.id = 14 then [.controls] else []
  else some []

/-- The call of the handler that is registered. -/
def World.handle (w : World H A X) (id : ℕ) : Option (Event H A X) :=
  (w.handlers id).bind fun h => match h with
    | .driver h => some (.driver h)
    | .acpiHandler => w.handler.map fun hand => .acpi hand w.context

def acknowledge (id : ℕ) : List (Event H A X) := if 0x20 ≤ id then [.apicAck] else []

/-- All the calls of an interrupt. -/
def World.calls (w : World H A X) (s : CpuState) : Option (List (Event H A X)) := do
  let before ← announce s
  let h ← w.handle s.id
  some (before ++ h :: acknowledge s.id)

section Dispatch

variable {effect : Event H A X → Machine Reg (World H A X) → Machine Reg (World H A X)}
  {m m' m'' : Machine Reg (World H A X)} {s : CpuState} {events events' : List (Event H A X)}

/-- What is called leaves the `cpu_state_t` on the stack alone. -/
def Keeps (effect : Event H A X → Machine Reg (World H A X) → Machine Reg (World H A X)) : Prop :=
  ∀ e m, (effect e m).sp = m.sp ∧ ∀ b, m.sp ≤ b → b < m.sp + 176 → (effect e m).mem b = m.mem b

/-- The second machine is the first after some calls. -/
def Calls (events : List (Event H A X)) (m m' : Machine Reg (World H A X)) : Prop :=
  m'.sp = m.sp ∧ (∀ b, m.sp ≤ b → b < m.sp + 176 → m'.mem b = m.mem b) ∧
    m'.world = { m.world with events := m.world.events ++ events }

theorem calls_nil : Calls [] m m := by
  refine ⟨rfl, fun _ _ _ => rfl, ?_⟩
  rw [List.append_nil]

theorem Calls.trans (h : Calls events m m') (h' : Calls events' m' m'') :
    Calls (events ++ events') m m'' := by
  obtain ⟨sp, mem, world⟩ := h
  obtain ⟨sp', mem', world'⟩ := h'
  rw [sp] at sp' mem'
  refine ⟨sp', fun b low high => (mem' b low high).trans (mem b low high), ?_⟩
  rw [world', world, List.append_assoc]

theorem calls_perform (keeps : Keeps effect) (e : Event H A X) : Calls [e] m (perform effect e m) :=
  ⟨(keeps e m).1, (keeps e m).2, rfl⟩

/-- A field of the `cpu_state_t`, before and after calls. -/
theorem Calls.load {i : ℕ} (h : Calls events m m') (inside : i + 8 ≤ 176) :
    Bytes.load m'.mem (m.sp + i) 8 = Bytes.load m.mem (m.sp + i) 8 :=
  load_congr fun j less => h.2.1 _ (by omega) (by omega)

theorem runHandler_calls (keeps : Keeps effect) {id : ℕ} {h : IsrHandler H}
    (known : m.world.handlers id = some h) :
    (runHandler effect m h = none ∧ m.world.handle id = none) ∨
      ∃ m' e, runHandler effect m h = some m' ∧ m.world.handle id = some e ∧ Calls [e] m m' := by
  rw [World.handle, known, Option.bind_some]
  cases h with
  | driver h => exact .inr ⟨_, _, rfl, rfl, calls_perform keeps _⟩
  | acpiHandler =>
    simp only [runHandler]
    cases m.world.handler with
    | none => exact .inl ⟨rfl, rfl⟩
    | some hand => exact .inr ⟨_, _, rfl, rfl, calls_perform keeps _⟩

theorem printException_calls (keeps : Keeps effect) (stack : WordsAt m.mem m.sp s.words) :
    (printException effect m.sp m = none ∧ (announce s : Option (List (Event H A X))) = none) ∨
      ∃ m' events, printException effect m.sp m = some m' ∧ announce s = some events ∧
        Calls events m m' := by
  obtain ⟨-, -, -, -, -, -, -, -, -, -, -, -, -, -, -, id, error, rip, -, -, rsp, -⟩ := stack
  simp only [printException, announce]
  rw [id, error, rip, rsp]
  split
  · cases (exceptionType[s.id]?).join with
    | none => exact .inl ⟨rfl, rfl⟩
    | some type =>
      refine .inr ⟨_, _, rfl, rfl, ?_⟩
      split
      · exact (calls_perform keeps _).trans (calls_perform keeps _)
      · exact calls_perform keeps _
  · exact .inr ⟨_, _, rfl, rfl, calls_nil⟩

/-- `isr_dispatch` makes the calls of the interrupt, or does not return if a call is missing. -/
theorem isrDispatch_calls (keeps : Keeps effect) (rdi : m.regs .rdi = m.sp)
    (stack : WordsAt m.mem m.sp s.words) :
    (isrDispatch effect m = none ∧ m.world.calls s = none) ∨
      ∃ m' events, isrDispatch effect m = some m' ∧ m.world.calls s = some events ∧
        Calls events m m' := by
  have id : load m.mem (m.sp + 120) 8 = s.id := by
    obtain ⟨-, -, -, -, -, -, -, -, -, -, -, -, -, -, -, id, -⟩ := stack
    exact id
  simp only [isrDispatch, World.calls, rdi]
  obtain ⟨stuck, missing⟩ | ⟨m₁, before, printed, announced, calls₁⟩ :=
    printException_calls keeps stack
  · exact .inl (by rw [stuck, missing]; exact ⟨rfl, rfl⟩)
  rw [printed, announced]
  simp only [Option.bind_eq_bind, Option.bind_some]
  rw [calls₁.load (by omega), id]
  have handle : m₁.world.handle s.id = m.world.handle s.id := by
    rw [calls₁.2.2]
    rfl
  cases known : m₁.world.handlers s.id with
  | none =>
    have missing : m.world.handle s.id = none := by
      rw [← handle, World.handle, known]
      rfl
    rw [missing]
    exact .inl ⟨rfl, rfl⟩
  | some h =>
    obtain ⟨stuck, missing⟩ | ⟨m₂, e, called, handled, calls₂⟩ := runHandler_calls keeps known
    · rw [Option.bind_some, stuck, ← handle, missing]
      exact .inl ⟨rfl, rfl⟩
    · have calls := calls₁.trans calls₂
      rw [Option.bind_some, called, ← handle, handled]
      simp only [Option.bind_some]
      rw [calls.load (by omega), id]
      refine .inr ⟨_, _, rfl, rfl, ?_⟩
      rw [acknowledge, ← List.singleton_append, ← List.append_assoc]
      split
      · exact calls.trans (calls_perform keeps _)
      · rw [List.append_nil]
        exact calls

/-- An interrupt through the table makes the calls that are due and resumes what it interrupted, or
does not return if a call is missing. -/
theorem raise_calls {address : Stub → ℕ} {table : ℕ × ℕ} {c : Context (World H A X)} {stub : Stub}
    {error : Option ℕ} (keeps : Keeps effect) (injective : Injective address)
    (installed : Gates c.machine.mem table address) (words : c.Words) (room : 192 ≤ c.machine.sp)
    (errorWord : ∀ e ∈ error, e < 2 ^ 64) (agree : error.isSome ↔ stub.TakesError) :
    (raise effect address table c stub.id error = none ∧
        c.machine.world.calls (c.state stub.id (error.getD 0)) = none) ∨
      ∃ c' events, raise effect address table c stub.id error = some c' ∧
        c.machine.world.calls (c.state stub.id (error.getD 0)) = some events ∧ c.Same c' ∧
        c'.machine.world = { c.machine.world with events := c.machine.world.events ++ events } := by
  have found : (gates.map Prod.snd).find? (address · = address stub) = some stub := by
    cases result : (gates.map Prod.snd).find? (address · = address stub) with
    | none =>
      have other := List.find?_eq_none.1 result stub (List.mem_map.2 ⟨_, mem_gates.2 rfl, rfl⟩)
      exact absurd (decide_eq_true rfl) other
    | some s =>
      have same : address s = address stub := by simpa using List.find?_some result
      rw [injective same]
  simp only [raise, (installed stub.id _).2 ⟨stub, rfl, rfl⟩, Option.bind_eq_bind, Option.bind_some]
  rw [found, Option.bind_some]
  obtain ⟨sp, regs, world, stack, -⟩ := Context.entered_spec stub error words room errorWord
  rw [Context.values_agree agree] at stack
  have rdi : (c.entered stub error).regs .rdi = (c.entered stub error).sp := by
    rw [regs, update_self]
  rw [← world]
  obtain ⟨stuck, missing⟩ | ⟨m, events, returned, calls, same, left, world'⟩ :=
    isrDispatch_calls keeps rdi stack
  · refine .inl ⟨?_, missing⟩
    rw [Context.interrupt_eq, stuck]
    rfl
  · have frame : WordsAt m.mem m.sp (c.state stub.id (error.getD 0)).words := by
      rw [same]
      exact stack.congr left
    exact .inr ⟨_, events, Context.interrupt_returns words room errorWord returned same frame, calls,
      Context.resume_same words _ _ m, world'⟩

end Dispatch

/-! ## Runs -/

/-- The calls that set the handler of a vector. -/
def World.Call.Sets (v : ℕ) : World.Call H A X → Prop
  | .isrRegister n addr => n = v ∧ addr.isSome
  | .isrUnregister n => n = v
  | .acpiOsInstallInterruptHandler interrupt _ _ => (interrupt + 32) % 2 ^ 32 = v
  | .acpiOsRemoveInterruptHandler interrupt => (interrupt + 32) % 2 ^ 32 = v

instance (v : ℕ) : (call : World.Call H A X) → Decidable (call.Sets v)
  | .isrRegister .. => inferInstanceAs (Decidable (_ ∧ _))
  | .isrUnregister _ => inferInstanceAs (Decidable (_ = _))
  | .acpiOsInstallInterruptHandler .. => inferInstanceAs (Decidable (_ = _))
  | .acpiOsRemoveInterruptHandler _ => inferInstanceAs (Decidable (_ = _))

/-- The handler that a call sets. -/
def World.Call.target : World.Call H A X → Option (IsrHandler H)
  | .isrRegister _ addr => addr
  | .isrUnregister _ => none
  | .acpiOsInstallInterruptHandler .. => some .acpiHandler
  | .acpiOsRemoveInterruptHandler _ => none

/-- The handler and the context that a call gives the ACPI layer. -/
def World.Call.given : World.Call H A X → Option (A × X)
  | .acpiOsInstallInterruptHandler _ hand ctx => some (hand, ctx)
  | _ => none

/-- The handler set last for a vector, with the latest call first. -/
def lastHandler (calls : List (World.Call H A X)) (v : ℕ) : Option (IsrHandler H) :=
  (calls.find? (·.Sets v)).bind World.Call.target

/-- The call that the handler set last makes, by the calls so far, the latest first.  An ACPI handler
is the one installed last, for whichever interrupt. -/
def lastCall (calls : List (World.Call H A X)) (v : ℕ) : Option (Event H A X) :=
  (lastHandler calls v).bind fun h => match h with
    | .driver h => some (.driver h)
    | .acpiHandler => (calls.findSome? World.Call.given).map fun given => .acpi given.1 given.2

/-- All the calls that are due. -/
def due (calls : List (World.Call H A X)) (s : CpuState) : Option (List (Event H A X)) := do
  let before ← announce s
  let e ← lastCall calls s.id
  some (before ++ e :: acknowledge s.id)

def World.start (context : X) : World H A X where
  handlers := fun _ => none
  handler := none
  context := context
  events := []

/-- Calls, the latest first, and interrupts between them. -/
inductive Run (effect : Event H A X → Machine Reg (World H A X) → Machine Reg (World H A X))
  (address : Stub → ℕ)
    (table : ℕ × ℕ) (context : X) : List (World.Call H A X) → World H A X → Prop
  | start : Run effect address table context [] (World.start context)
  | call {calls : List (World.Call H A X)} {w : World H A X} (call : World.Call H A X)
    (run : Run effect address table context calls w) :
      Run effect address table context (call :: calls) (w.call call)
  | interrupt {calls : List (World.Call H A X)} {w : World H A X}
    (run : Run effect address table context calls w) (c c' : Context (World H A X)) (stub : Stub)
      (error : Option ℕ) (world : c.machine.world = w) (installed : Gates c.machine.mem table address)
      (words : c.Words) (room : 192 ≤ c.machine.sp) (errorWord : ∀ e ∈ error, e < 2 ^ 64)
      (agree : error.isSome ↔ stub.TakesError)
        (done : raise effect address table c stub.id error = some c') :
      Run effect address table context calls c'.machine.world

section Call

variable (w : World H A X) (call : World.Call H A X)

theorem World.isrRegister_handlers (n : ℕ) (addr : Option (IsrHandler H)) {v : ℕ} (vector : v < 256) :
    (w.isrRegister n addr).handlers v = if n = v ∧ addr.isSome then addr else w.handlers v := by
  rw [isrRegister]
  by_cases set : n = v ∧ addr.isSome
  · rw [if_pos set, if_pos ⟨set.2, by omega⟩, ← set.1]
    exact update_self ..
  · rw [if_neg set]
    split
    · next registered => exact update_of_ne (fun same => set ⟨same.symm, registered.1⟩) ..
    · rfl

theorem World.isrUnregister_handlers (n : ℕ) {v : ℕ} (vector : v < 256) :
    (w.isrUnregister n).handlers v = if n = v then none else w.handlers v := by
  rw [isrUnregister]
  by_cases set : n = v
  · rw [if_pos set, if_pos (by omega), ← set]
    exact update_self ..
  · rw [if_neg set]
    split
    · exact update_of_ne (fun same => set same.symm) ..
    · rfl

theorem World.call_handlers {v : ℕ} (vector : v < 256) :
    (call.Sets v → (w.call call).handlers v = call.target) ∧
      (¬call.Sets v → (w.call call).handlers v = w.handlers v) := by
  cases call with
  | isrRegister n addr =>
    have handlers := isrRegister_handlers w n addr vector
    exact ⟨fun sets => handlers.trans (if_pos sets), fun other => handlers.trans (if_neg other)⟩
  | isrUnregister n =>
    have handlers := isrUnregister_handlers w n vector
    exact ⟨fun sets => handlers.trans (if_pos sets), fun other => handlers.trans (if_neg other)⟩
  | acpiOsInstallInterruptHandler interrupt hand ctx =>
    have handlers := isrRegister_handlers w ((interrupt + 32) % 2 ^ 32) (some .acpiHandler) vector
    exact ⟨fun sets => handlers.trans (if_pos ⟨sets, rfl⟩), fun other =>
      handlers.trans (if_neg (other ·.1))⟩
  | acpiOsRemoveInterruptHandler interrupt =>
    have handlers := isrUnregister_handlers w ((interrupt + 32) % 2 ^ 32) vector
    exact ⟨fun sets => handlers.trans (if_pos sets), fun other => handlers.trans (if_neg other)⟩

/-- Only an installation gives the ACPI layer a handler. -/
theorem World.call_given : (w.call call).handler = (call.given.map Prod.fst).or w.handler ∧
    (w.call call).context = (call.given.map Prod.snd).getD w.context := by
  cases call with
  | isrRegister n addr =>
    simp only [World.call, isrRegister]
    split <;> exact ⟨rfl, rfl⟩
  | isrUnregister n =>
    simp only [World.call, isrUnregister]
    split <;> exact ⟨rfl, rfl⟩
  | acpiOsInstallInterruptHandler interrupt hand ctx => exact ⟨rfl, rfl⟩
  | acpiOsRemoveInterruptHandler interrupt =>
    simp only [World.call, acpiOsRemoveInterruptHandler, isrUnregister]
    split <;> exact ⟨rfl, rfl⟩

end Call

section Run

variable {effect : Event H A X → Machine Reg (World H A X) → Machine Reg (World H A X)}
  {address : Stub → ℕ}
  {table : ℕ × ℕ} {context : X} {calls : List (World.Call H A X)} {w : World H A X}

/-- What a run leaves in the variables. -/
theorem Run.variables (run : Run effect address table context calls w) (keeps : Keeps effect)
    (injective : Injective address) :
    (∀ v < 256, w.handlers v = lastHandler calls v) ∧
      w.handler = (calls.findSome? World.Call.given).map Prod.fst ∧
      ∀ given, calls.findSome? World.Call.given = some given → w.context = given.2 := by
  induction run with
  | start => exact ⟨fun _ _ => rfl, rfl, nofun⟩
  | call call run ih =>
    next calls w =>
    obtain ⟨handlers, handler, context⟩ := ih
    obtain ⟨handler', context'⟩ := w.call_given call
    refine ⟨fun v vector => ?_, ?_, ?_⟩
    · obtain ⟨sets, other⟩ := w.call_handlers call vector
      rw [lastHandler, List.find?_cons]
      by_cases set : call.Sets v
      · rw [sets set, decide_eq_true set]
        rfl
      · rw [other set, decide_eq_false set]
        exact handlers v vector
    · rw [handler', List.findSome?_cons, handler]
      cases call.given <;> rfl
    · rw [context', List.findSome?_cons]
      cases call.given with
      | none => exact context
      | some given =>
        rintro _ ⟨⟩
        rfl
  | interrupt run c c' stub error world installed words room errorWord agree done ih =>
    obtain ⟨stuck, -⟩ | ⟨c'', events, done', -, -, world'⟩ :=
      raise_calls keeps injective installed words room errorWord agree
    · cases stuck.symm.trans done
    · cases done'.symm.trans done
      rw [world', world]
      exact ih

/-- After any calls and interrupts, an interrupt that the table has a gate for runs the
handler set last for its vector and resumes what it interrupted, or does not return if there
is no handler or no text. -/
theorem Run.interrupts {c : Context (World H A X)} (stub : Stub) (error : Option ℕ)
    (run : Run effect address table context calls c.machine.world) (keeps : Keeps effect)
    (injective : Injective address) (installed : Gates c.machine.mem table address) (words : c.Words)
    (room : 192 ≤ c.machine.sp) (errorWord : ∀ e ∈ error, e < 2 ^ 64)
    (agree : error.isSome ↔ stub.TakesError) :
    (due calls (c.state stub.id (error.getD 0)) = none ∧
      raise effect address table c stub.id error = none) ∨
      ∃ c' events, due calls (c.state stub.id (error.getD 0)) = some events ∧
        raise effect address table c stub.id error = some c' ∧ c.Same c' ∧
        c'.machine.world.events = c.machine.world.events ++ events := by
  obtain ⟨handlers, handler, context⟩ := run.variables keeps injective
  have same : due calls (c.state stub.id (error.getD 0)) = c.machine.world.calls
    (c.state stub.id (error.getD 0)) := by
    have id : (c.state stub.id (error.getD 0)).id = stub.id := rfl
    have handle : c.machine.world.handle stub.id = lastCall calls stub.id := by
      rw [World.handle, lastCall, handlers _ stub.id_lt, handler]
      cases given : calls.findSome? World.Call.given with
      | none => rfl
      | some last =>
        rw [context last given]
        rfl
    rw [due, World.calls, id, handle]
  rw [same]
  obtain ⟨stuck, missing⟩ | ⟨c', events, done, calls, resumed, world⟩ :=
    raise_calls keeps injective installed words room errorWord agree
  · exact .inl ⟨missing, stuck⟩
  · exact .inr ⟨c', events, calls, done, resumed, by rw [world]⟩

end Run

/-- Two ACPI handlers have been installed, and the first interrupt comes. -/
def installedTwice : Context (World Unit ℕ ℕ) where
  machine := {
    regs := fun _ => 0
    sp := 0x200008
    mem := idtInit (fun _ => 0) 0x8000 0x9000 fun s => 0x100000 + 16 * s.id
    world := ((World.start 0).call (.acpiOsInstallInterruptHandler 9 1 1)).call
      (.acpiOsInstallInterruptHandler 10 2 2) }
  rip := 0x100000
  cs := 0x08
  rflags := 0x202
  ss := 0x10

theorem Run.interrupts_second :
    ∃ c', raise (fun _ m => m) (fun s => 0x100000 + 16 * s.id)
      (0x8000, 16 * 256 - 1) installedTwice 41 none = some c' ∧
      installedTwice.Same c' ∧ c'.machine.world.events = [.acpi 2 2, .apicAck] := by
  have run : Run (fun _ m => m) (fun s => 0x100000 + 16 * s.id) (0x8000, 16 * 256 - 1) 0
      [.acpiOsInstallInterruptHandler 10 2 2, .acpiOsInstallInterruptHandler 9 1 1]
        installedTwice.machine.world :=
    .call _ (.call _ .start)
  have injective : Injective fun s : Stub => 0x100000 + 16 * s.id := fun s s' same =>
    Stub.id_injective (by simpa using same)
  have beside : 0x9000 + 10 ≤ 0x8000 ∨ 0x8000 + 16 * 256 ≤ 0x9000 := by omega
  have addresses (s : Stub) : 0x100000 + 16 * s.id < 2 ^ 64 := by
    have := s.id_lt
    omega
  have installed : Gates (idtInit (fun _ => 0) 0x8000 0x9000 fun s => 0x100000 + 16 * s.id)
    (0x8000, 16 * 256 - 1)
      fun s => 0x100000 + 16 * s.id := gates_idtInit beside addresses
  have words : installedTwice.Words :=
    ⟨fun _ => Nat.two_pow_pos 64, by decide, by decide, by decide, by decide, by decide⟩
  have calls : due [.acpiOsInstallInterruptHandler 10 2 2, .acpiOsInstallInterruptHandler 9 1 1]
      (installedTwice.state 41 0) = some [(.acpi 2 2 : Event Unit ℕ ℕ), .apicAck] := rfl
  obtain ⟨missing, -⟩ | ⟨c', events, found, done, same, world⟩ :=
    run.interrupts (.isrHandleIrq 9) none (fun _ _ => ⟨rfl, fun _ _ _ => rfl⟩) injective
      installed words (by decide) (by simp) (by decide)
  · cases missing.symm.trans calls
  · obtain rfl : [.acpi 2 2, .apicAck] = events := Option.some.inj (calls.symm.trans found)
    exact ⟨c', done, same, world⟩

end Vineyard.Isr
