import Vineyard.Lib.Assembly

/-!
# Entering and leaving an interrupt

The handlers of `kernel/int/isr.s` on a processor that interrupts the kernel: what `isr_dispatch` is
given, and what runs on when it returns.  A context is resumed as the frame on the stack then says, and
as it was if the frame is left alone, provided the handler pushes a dummy error code exactly when the
processor pushes none.
-/

namespace Vineyard.Isr

open Assembly Bytes Function

inductive Reg where
  | rax | rbx | rcx | rdx | rsi | rdi | rbp | r8 | r9 | r10 | r11 | r12 | r13 | r14 | r15
deriving DecidableEq, Repr

/-- The functions that `isr.s` calls. -/
inductive Extern where
  | isrDispatch

abbrev Code := List (Instr Reg Extern)

/-- `cpu_state_t` of `include/int/isr.h`. -/
structure CpuState where
  rax : ℕ
  rbx : ℕ
  rcx : ℕ
  rdx : ℕ
  rsi : ℕ
  rdi : ℕ
  rbp : ℕ
  r8 : ℕ
  r9 : ℕ
  r10 : ℕ
  r11 : ℕ
  r12 : ℕ
  r13 : ℕ
  r14 : ℕ
  r15 : ℕ
  id : ℕ
  error : ℕ
  rip : ℕ
  cs : ℕ
  rflags : ℕ
  rsp : ℕ
  ss : ℕ
deriving DecidableEq

namespace CpuState

def registers (s : CpuState) : Reg → ℕ
  | .rax => s.rax
  | .rbx => s.rbx
  | .rcx => s.rcx
  | .rdx => s.rdx
  | .rsi => s.rsi
  | .rdi => s.rdi
  | .rbp => s.rbp
  | .r8 => s.r8
  | .r9 => s.r9
  | .r10 => s.r10
  | .r11 => s.r11
  | .r12 => s.r12
  | .r13 => s.r13
  | .r14 => s.r14
  | .r15 => s.r15

/-- The structure in memory; it is packed, and every field is a word. -/
def words (s : CpuState) : List ℕ :=
  [s.rax, s.rbx, s.rcx, s.rdx, s.rsi, s.rdi, s.rbp, s.r8, s.r9, s.r10, s.r11, s.r12, s.r13,
    s.r14, s.r15, s.id, s.error, s.rip, s.cs, s.rflags, s.rsp, s.ss]

end CpuState

/-! ## `isr.s` -/

/-- The entry points of `isr.s`. -/
inductive Stub where
  | isrHandle (n : Fin 32)
  | isrHandleIrq (n : Fin 24)
  | isrHandleLvtTimer
  | isrHandleLvtError
  | isrHandleSpurious
deriving DecidableEq

/-- The pushes in front of `jmp isr_dispatch_setup`. -/
def Stub.pushes : Stub → Code
  | isrHandle n =>
    if (n : ℕ) ∈ [8, 10, 11, 12, 13, 14, 17] then [.pushImm n] else [.pushImm 0, .pushImm n]
  | isrHandleIrq n => [.pushImm 0, .pushImm (n + 32)]
  | isrHandleLvtTimer => [.pushImm 0, .pushImm 0xFD]
  | isrHandleLvtError => [.pushImm 0, .pushImm 0xFE]
  | isrHandleSpurious => [.pushImm 0, .pushImm 0xFF]

/-- The registers in the order in which they are popped. -/
def popped : List Reg :=
  [.rax, .rbx, .rcx, .rdx, .rsi, .rdi, .rbp, .r8, .r9, .r10, .r11, .r12, .r13, .r14, .r15]

def pushed : List Reg :=
  [.r15, .r14, .r13, .r12, .r11, .r10, .r9, .r8, .rbp, .rdi, .rsi, .rdx, .rcx, .rbx, .rax]

/-- Up to `iretq`. -/
def isrDispatchSetup : Code :=
  pushed.map .push ++ ([.flags, .movSp .rdi, .call .isrDispatch] ++ (popped.map .pop ++ [.addSp 16]))

/-! ## The processor -/

/-- What an interrupt interrupts. -/
structure Context (W : Type) where
  machine : Machine Reg W
  rip : ℕ
  cs : ℕ
  rflags : ℕ
  ss : ℕ

variable {W : Type}

namespace Context

/-- The stack pointer aligned to 16 bytes. -/
def aligned (c : Context W) : Machine Reg W := { c.machine with sp := c.machine.sp / 16 * 16 }

/-- An interrupt through a gate without a stack of its own: on the aligned stack the processor pushes
where it was and, for some exceptions, an error code. -/
def deliver (c : Context W) (error : Option ℕ) : Machine Reg W :=
  c.aligned.pushAll ([c.ss, c.machine.sp, c.rflags, c.cs, c.rip] ++ error.toList)

end Context

def iretq (m : Machine Reg W) : Context W where
  machine := { m with sp := load m.mem (m.sp + 24) 8 }
  rip := load m.mem m.sp 8
  cs := load m.mem (m.sp + 8) 8 % 2 ^ 16
  rflags := load m.mem (m.sp + 16) 8
  ss := load m.mem (m.sp + 32) 8 % 2 ^ 16

/-- An interrupt from delivery to `iretq`, with `functions` for what is called. -/
def Context.interrupt (c : Context W) (functions : Extern → Machine Reg W → Option (Machine Reg W))
    (stub : Stub) (error : Option ℕ) : Option (Context W) :=
  (run functions (stub.pushes ++ isrDispatchSetup) (c.deliver error)).map iretq

/-! ## What is pushed -/

namespace Stub

/-- The number that the handler pushes. -/
def id : Stub → ℕ
  | isrHandle n => n
  | isrHandleIrq n => n + 32
  | isrHandleLvtTimer => 0xFD
  | isrHandleLvtError => 0xFE
  | isrHandleSpurious => 0xFF

/-- The handler relies on the processor to push an error code. -/
def TakesError (stub : Stub) : Prop := stub.id ∈ [8, 10, 11, 12, 13, 14, 17]

instance (stub : Stub) : Decidable stub.TakesError :=
  inferInstanceAs (Decidable (stub.id ∈ [8, 10, 11, 12, 13, 14, 17]))

theorem id_lt (stub : Stub) : stub.id < 256 := by
  cases stub <;> simp only [id] <;> omega

theorem pushes_eq (stub : Stub) :
    stub.pushes = (if stub.TakesError then [stub.id] else [0, stub.id]).map .pushImm := by
  cases stub with
  | isrHandle n =>
    rw [pushes, apply_ite (List.map Instr.pushImm)]
    rfl
  | isrHandleIrq n =>
    have other : ¬(isrHandleIrq n).TakesError := by
      simp [TakesError, id]
    rw [if_neg other]
    rfl
  | isrHandleLvtTimer | isrHandleLvtError | isrHandleSpurious => rfl

end Stub

namespace Context

/-- Every register holds a word. -/
structure Words (c : Context W) : Prop where
  regs : ∀ r, c.machine.regs r < 2 ^ 64
  sp : c.machine.sp < 2 ^ 64
  rip : c.rip < 2 ^ 64
  cs : c.cs < 2 ^ 16
  rflags : c.rflags < 2 ^ 64
  ss : c.ss < 2 ^ 16

/-- The state that `isr_dispatch` is meant to be given. -/
def state (c : Context W) (id error : ℕ) : CpuState :=
  let r := c.machine.regs
  ⟨r .rax, r .rbx, r .rcx, r .rdx, r .rsi, r .rdi, r .rbp, r .r8, r .r9, r .r10, r .r11,
    r .r12, r .r13, r .r14, r .r15, id, error, c.rip, c.cs, c.rflags, c.machine.sp, c.ss⟩

/-- Everything the interrupt pushes, the first value first. -/
def values (c : Context W) (stub : Stub) (error : Option ℕ) : List ℕ :=
  [c.ss, c.machine.sp, c.rflags, c.cs, c.rip] ++ error.toList ++
    (if stub.TakesError then [stub.id] else [0, stub.id]) ++ pushed.map c.machine.regs

/-- The machine when `isr_dispatch` is called. -/
def entered (c : Context W) (stub : Stub) (error : Option ℕ) : Machine Reg W :=
  let m := c.aligned.pushAll (c.values stub error)
  { m with regs := update m.regs .rdi m.sp }

end Context

/-- The context that a state describes, over the memory and the world of a machine. -/
def CpuState.resume (s : CpuState) (m : Machine Reg W) : Context W where
  machine := { regs := s.registers, sp := s.rsp, mem := m.mem, world := m.world }
  rip := s.rip
  cs := s.cs % 2 ^ 16
  rflags := s.rflags
  ss := s.ss % 2 ^ 16

section Entry

variable {c : Context W} {stub : Stub} {error : Option ℕ}
  {functions : Extern → Machine Reg W → Option (Machine Reg W)}

theorem run_pushImms {m : Machine Reg W} (values : List ℕ) :
    run functions (values.map .pushImm) m = some (m.pushAll values) := by
  induction values generalizing m with
  | nil => rfl
  | cons v values ih =>
    rw [List.map_cons, run_cons, Instr.run, Option.bind_some, ih, Machine.pushAll_cons]

theorem pushAll_append {m : Machine Reg W} (values values' : List ℕ) :
    m.pushAll (values ++ values') = (m.pushAll values).pushAll values' :=
  List.foldl_append

@[simp] theorem pushAll_regs {m : Machine Reg W} (values : List ℕ) :
    (m.pushAll values).regs = m.regs := by
  induction values generalizing m with
  | nil => rfl
  | cons v values ih => rw [Machine.pushAll_cons, ih, Machine.push_regs]

/-- The pushes, the call, and the rest. -/
theorem Context.interrupt_eq : c.interrupt functions stub error =
    ((functions .isrDispatch (c.entered stub error)).bind
      (run functions (popped.map .pop ++ [.addSp 16]))).map
      iretq := by
  have values : ((c.deliver error).pushAll
    (if stub.TakesError then [stub.id] else [0, stub.id])).pushAll
      (pushed.map c.machine.regs) = c.aligned.pushAll (c.values stub error) := by
    rw [deliver, ← pushAll_append, ← pushAll_append, Context.values,
      List.append_assoc _ _ (pushed.map _)]
  have regs : ((c.deliver error).pushAll (if stub.TakesError then [stub.id] else [0, stub.id])).regs =
      c.machine.regs := by
    rw [pushAll_regs, deliver, pushAll_regs]
    rfl
  have call : run functions [.flags, .movSp .rdi, .call .isrDispatch]
    (c.aligned.pushAll (c.values stub error)) =
      functions .isrDispatch (c.entered stub error) := by
    simp only [run_cons, Instr.run, Option.bind_some]
    exact Option.bind_fun_some _
  rw [interrupt, isrDispatchSetup, Stub.pushes_eq, run_append, run_pushImms,
    Option.bind_some, run_append, run_pushes, Option.bind_some, regs, values, run_append, call]

/-- The stack that `isr_dispatch` is called with: what was pushed, last value lowest. -/
theorem Context.entered_spec (stub : Stub) (error : Option ℕ) (words : c.Words)
    (room : 192 ≤ c.machine.sp) (errorWord : ∀ e ∈ error, e < 2 ^ 64) :
    let m := c.entered stub error
    m.sp = c.aligned.sp - 8 * (c.values stub error).length ∧
      m.regs = update c.machine.regs .rdi m.sp ∧ m.world = c.machine.world ∧
      WordsAt m.mem m.sp (c.values stub error).reverse ∧
      ∀ b, b < m.sp ∨ c.aligned.sp ≤ b → m.mem b = c.machine.mem b := by
  have aligned : c.aligned.sp = c.machine.sp / 16 * 16 := rfl
  have length : (c.values stub error).length ≤ 23 := by
    rw [values]
    cases error <;> split <;> simp [pushed]
  have small : ∀ w ∈ c.values stub error, w < 2 ^ 64 := by
    have := stub.id_lt
    have := words.cs
    have := words.ss
    simp only [values, List.mem_append, List.mem_map]
    rintro w (((frame | isError) | isId) | ⟨r, _, rfl⟩)
    · simp only [List.mem_cons, List.not_mem_nil, or_false] at frame
      obtain rfl | rfl | rfl | rfl | rfl := frame
      · omega
      · exact words.sp
      · exact words.rflags
      · omega
      · exact words.rip
    · exact errorWord w (by simpa using isError)
    · split at isId <;> simp only [List.mem_cons, List.not_mem_nil, or_false] at isId <;> omega
    · exact words.regs r
  have := words.sp
  obtain ⟨regs, sp, stack, above⟩ :=
    @Machine.pushAll_spec _ _ [] c.aligned (c.values stub error) (by omega) (by omega)
    small trivial
  rw [List.append_nil] at stack
  refine ⟨sp, ?_, Machine.pushAll_world, stack, fun b off => above b (by rw [← sp]; exact off)⟩
  simp only [entered, pushAll_regs]
  rfl

/-- From the return of `isr_dispatch` on, with a state on the stack. -/
theorem run_return {m : Machine Reg W} {s : CpuState} (stack : WordsAt m.mem m.sp s.words)
    (word : m.sp + 176 < 2 ^ 64) :
    (run functions (popped.map .pop ++ [.addSp 16]) m).map iretq = some (s.resume m) := by
  have split : s.words = popped.map s.registers ++ [s.id, s.error, s.rip, s.cs, s.rflags, s.rsp,
    s.ss] := rfl
  rw [split, wordsAt_append] at stack
  obtain ⟨saved, _, _, rip, cs, rflags, rsp, ss, _⟩ := stack
  obtain ⟨values, _, sp, mem⟩ :=
    @Machine.popAll_spec _ _ _ _ m popped (by decide) (by simp) (by simp [popped]; omega) saved
  have regs : (m.popAll popped).regs = s.registers := by
    funext r
    exact List.map_inj_left.1 values r (by cases r <;> decide)
  have back : ((m.popAll popped).sp + 16) % 2 ^ 64 = m.sp + 136 := by
    rw [sp, show popped.length = 15 from rfl]
    omega
  rw [run_append, run_pops, Option.bind_some, run_cons, Instr.run, Option.bind_some, back]
  simp only [run, List.foldlM_nil, Option.pure_def, Option.map_some, iretq, mem, regs,
    Machine.popAll_world]
  simp only [List.length_map, show popped.length = 15 from rfl] at rip cs rflags rsp ss
  rw [CpuState.resume, ← rip, ← cs, ← rflags, ← rsp, ← ss]

end Entry

/-! ## Interrupts -/

section Interrupt

variable {c : Context W} {stub : Stub} {error : Option ℕ}

/-- The values pushed are a `cpu_state_t` if there is one error code. -/
theorem Context.values_agree (agree : error.isSome ↔ stub.TakesError) :
    (c.values stub error).reverse = (c.state stub.id (error.getD 0)).words := by
  rw [values]
  cases error with
  | none =>
    rw [if_neg (by simpa using agree)]
    rfl
  | some e =>
    rw [if_pos (by simpa using agree)]
    rfl

/-- A return with a state on the stack. -/
theorem Context.interrupt_returns {functions : Extern → Machine Reg W → Option (Machine Reg W)}
    {m : Machine Reg W} {s : CpuState} (words : c.Words) (room : 192 ≤ c.machine.sp)
    (errorWord : ∀ e ∈ error, e < 2 ^ 64)
    (returned : functions .isrDispatch (c.entered stub error) = some m)
    (sp : m.sp = (c.entered stub error).sp) (stack : WordsAt m.mem m.sp s.words) :
    c.interrupt functions stub error = some (s.resume m) := by
  obtain ⟨entered, -⟩ := entered_spec stub error words room errorWord
  have length : 21 ≤ (c.values stub error).length := by
    rw [values]
    cases error <;> split <;> simp [pushed]
  have := words.sp
  have : c.aligned.sp = c.machine.sp / 16 * 16 := rfl
  rw [interrupt_eq, returned, Option.bind_some, run_return stack (by omega)]

/-- `isr_dispatch` is given the interrupted context in a `cpu_state_t` on an aligned stack, and
runs with its registers and its memory.  When it returns, the context runs on that the
`cpu_state_t` then describes. -/
theorem Context.interrupt_dispatch (words : c.Words) (room : 192 ≤ c.machine.sp)
    (errorWord : ∀ e ∈ error, e < 2 ^ 64) (agree : error.isSome ↔ stub.TakesError) :
    ∃ m : Machine Reg W, m.sp = c.machine.sp / 16 * 16 - 176 ∧
      m.regs = update c.machine.regs .rdi m.sp ∧
      m.world = c.machine.world ∧ WordsAt m.mem m.sp (c.state stub.id (error.getD 0)).words ∧
      (∀ b, b < m.sp ∨ c.machine.sp / 16 * 16 ≤ b → m.mem b = c.machine.mem b) ∧
      ∀ functions : Extern → Machine Reg W → Option (Machine Reg W),
        (functions .isrDispatch m = none → c.interrupt functions stub error = none) ∧
        ∀ m' (s : CpuState), functions .isrDispatch m = some m' → m'.sp = m.sp →
          WordsAt m'.mem m'.sp s.words →
          c.interrupt functions stub error = some (s.resume m') := by
  obtain ⟨sp, regs, world, stack, above⟩ := entered_spec stub error words room errorWord
  have length : (c.values stub error).length = 22 := by
    rw [← List.length_reverse, values_agree agree]
    rfl
  rw [length] at sp
  rw [values_agree agree] at stack
  refine ⟨c.entered stub error, sp, regs, world, stack, above, fun functions => ⟨fun lost => ?_, ?_⟩⟩
  · rw [interrupt_eq, lost]
    rfl
  · intro m' s returned same left
    exact interrupt_returns words room errorWord returned same left

/-- The handler returns and leaves what it was given on the stack. -/
def Returning (functions : Extern → Machine Reg W → Option (Machine Reg W)) : Prop :=
  ∀ m, ∃ m', functions .isrDispatch m = some m' ∧ m'.sp = m.sp ∧
    ∀ b, m.sp ≤ b → b < m.sp + 176 → m'.mem b = m.mem b

/-- The registers of a context. -/
def Context.Same (c c' : Context W) : Prop :=
  c'.machine.regs = c.machine.regs ∧ c'.machine.sp = c.machine.sp ∧ c'.rip = c.rip ∧ c'.cs = c.cs ∧
    c'.rflags = c.rflags ∧ c'.ss = c.ss

variable {functions : Extern → Machine Reg W → Option (Machine Reg W)}

/-- With a handler that leaves the stack alone, what is on it is resumed. -/
theorem Context.interrupt_leaves {s : CpuState} (error : Option ℕ) (words : c.Words)
    (room : 192 ≤ c.machine.sp) (errorWord : ∀ e ∈ error, e < 2 ^ 64) (leaves : Returning functions)
    (stack : WordsAt (c.entered stub error).mem (c.entered stub error).sp s.words) :
    ∃ m, c.interrupt functions stub error = some (s.resume m) := by
  obtain ⟨m, returned, sp, left⟩ := leaves (c.entered stub error)
  refine ⟨m, interrupt_returns words room errorWord returned sp ?_⟩
  rw [sp]
  exact stack.congr left

/-- The registers of the state that `isr_dispatch` is given. -/
theorem Context.resume_same (words : c.Words) (id error : ℕ) (m : Machine Reg W) :
    c.Same ((c.state id error).resume m) := by
  refine ⟨?_, rfl, rfl, Nat.mod_eq_of_lt words.cs, rfl, Nat.mod_eq_of_lt words.ss⟩
  funext r
  cases r <;> rfl

/-- No error code and no dummy: one word is missing, and those the processor pushed are taken for an
error code and what is to be resumed. -/
theorem Context.interrupt_missing (words : c.Words) (room : 192 ≤ c.machine.sp)
    (leaves : Returning functions) (takes : stub.TakesError) :
    ∃ c', c.interrupt functions stub none = some c' ∧ c'.rip = c.cs ∧ c'.cs = c.rflags % 2 ^ 16 := by
  obtain ⟨sp, -, -, stack, -⟩ := entered_spec stub none words room nofun
  have values : (c.values stub none).reverse =
      popped.map c.machine.regs ++ [stub.id, c.rip, c.cs, c.rflags, c.machine.sp, c.ss] := by
    rw [values, if_pos takes]
    rfl
  let top := load (c.entered stub none).mem ((c.entered stub none).sp + 168) 8
  have frame : WordsAt (c.entered stub none).mem (c.entered stub none).sp
      { c.state stub.id c.rip with
        rip := c.cs, cs := c.rflags, rflags := c.machine.sp, rsp := c.ss, ss :=
          top : CpuState }.words := by
    rw [values] at stack
    have last : WordsAt (c.entered stub none).mem ((c.entered stub none).sp + 168) [top] :=
      ⟨rfl, trivial⟩
    exact wordsAt_append.2 ⟨stack, last⟩
  obtain ⟨m, resumed⟩ := interrupt_leaves none words room nofun leaves frame
  exact ⟨_, resumed, rfl, rfl⟩

/-- An error code and a dummy: one word too many, and the error code is taken for the instruction
pointer. -/
theorem Context.interrupt_extra {e : ℕ} (words : c.Words) (room : 192 ≤ c.machine.sp)
    (leaves : Returning functions) (errorWord : e < 2 ^ 64) (dummy : ¬stub.TakesError) :
    ∃ c', c.interrupt functions stub (some e) = some c' ∧ c'.rip = e ∧ c'.rflags = c.cs := by
  obtain ⟨-, -, -, stack, -⟩ := entered_spec stub (some e) words room (by simpa using errorWord)
  have values : (c.values stub (some e)).reverse =
      { c.state stub.id 0 with
        rip := e, cs := c.rip, rflags := c.cs, rsp := c.rflags, ss := c.machine.sp :
          CpuState }.words ++ [c.ss] := by
    rw [values, if_neg dummy]
    rfl
  rw [values] at stack
  obtain ⟨m, resumed⟩ :=
    interrupt_leaves _ words room (by simpa using errorWord) leaves (wordsAt_append.1 stack).1
  exact ⟨_, resumed, rfl, rfl⟩

/-- A kernel context is resumed as it was interrupted if and only if the handler relies on an error
code from the processor exactly when there is one. -/
theorem Context.interrupt_resumes_iff (words : c.Words) (room : 192 ≤ c.machine.sp)
    (errorWord : ∀ e ∈ error, e < 2 ^ 64) (kernel : c.cs = 0x08) (flags : c.rflags / 2 % 2 = 1)
    (leaves : Returning functions) :
    (∃ c', c.interrupt functions stub error = some c' ∧ c.Same c') ↔
      (error.isSome ↔ stub.TakesError) := by
  constructor
  · rintro ⟨c', resumed, -, -, -, cs, rflags, -⟩
    by_cases takes : stub.TakesError <;> cases error with
    | none => ?_
    | some e => ?_
    · obtain ⟨c'', resumed', -, cs'⟩ := interrupt_missing words room leaves takes
      cases resumed.symm.trans resumed'
      omega
    · simpa using takes
    · simpa using takes
    · obtain ⟨c'', resumed', -, rflags'⟩ := interrupt_extra words room leaves (errorWord e rfl) takes
      cases resumed.symm.trans resumed'
      omega
  · intro agree
    obtain ⟨-, -, -, stack, -⟩ := entered_spec stub error words room errorWord
    rw [values_agree agree] at stack
    obtain ⟨m, resumed⟩ := interrupt_leaves _ words room errorWord leaves stack
    exact ⟨_, resumed, resume_same words _ _ m⟩

end Interrupt

/-- The kernel at an instruction at 1 MiB. -/
def interrupted : Context Unit where
  machine := { regs := fun _ => 0, sp := 0x200008, mem := fun _ => 0, world := () }
  rip := 0x100000
  cs := 0x08
  rflags := 0x202
  ss := 0x10

theorem interrupted_words : interrupted.Words :=
  ⟨fun _ => Nat.two_pow_pos 64, by decide, by decide, by decide, by decide, by decide⟩

theorem Context.interrupt_dispatch_page_fault :
    ∃ m : Machine Reg Unit, m.sp = 0x200000 - 176 ∧
      WordsAt m.mem m.sp (interrupted.state 14 2).words ∧
      ∀ functions : Extern → Machine Reg Unit → Option (Machine Reg Unit),
        functions .isrDispatch m = none → interrupted.interrupt functions (.isrHandle 14)
          (some 2) = none := by
  obtain ⟨m, sp, -, -, stack, -, rest⟩ := @Context.interrupt_dispatch _ interrupted (.isrHandle 14)
    (some 2) interrupted_words (by decide) (by simp) (by decide)
  exact ⟨m, sp, stack, fun functions => (rest functions).1⟩

theorem Context.interrupt_resumes_iff_page_fault :
    (∃ c', interrupted.interrupt (fun _ m => some m) (.isrHandle 14) (some 2) = some c' ∧
      interrupted.Same c') ↔
      ((some 2).isSome ↔ (Stub.isrHandle 14).TakesError) :=
  Context.interrupt_resumes_iff (c := interrupted) interrupted_words (by decide) (by simp) rfl rfl
    fun m => ⟨m, rfl, rfl, fun _ _ _ => rfl⟩

end Vineyard.Isr
