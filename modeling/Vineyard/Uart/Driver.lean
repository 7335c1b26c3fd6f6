import Mathlib.Data.List.TakeWhile
import Vineyard.Stdio.Output

/-!
# The serial line

`driver/uart/uart.c` on a transmitter that takes a byte after any number of polls of its status.
A byte that is put waits in the FIFO until then; `uart_init` clears the FIFO.  Every byte reaches
the line in order, unless it still waits when the FIFO is cleared, or the divisor latch is open,
which `uart_init` closes.
-/

namespace Vineyard.Uart

/-- The registers of `UART0`, by their offsets. -/
inductive Port where
  /-- `THR`, or `DLL` if the divisor latch is open. -/
  | data
  /-- `IER`, or `DLH` if the divisor latch is open. -/
  | interrupts
  | fcr
  | lcr
  | mcr
deriving DecidableEq

structure Device where
  ier : UInt8
  fcr : UInt8
  lcr : UInt8
  mcr : UInt8
  dll : UInt8
  dlh : UInt8
  /-- The byte in the FIFO, and for how many reads of the line status after the next one it stays
  there. -/
  waiting : Option (UInt8 × ℕ)
  /-- What was sent. -/
  line : List UInt8
  /-- What was in the FIFO when it was cleared. -/
  cleared : List UInt8
  /-- What was written to a full transmitter. -/
  lost : List UInt8

namespace Device

/-- The divisor latch is open. -/
def Latch (d : Device) : Prop := d.lcr &&& 0x80 ≠ 0

instance (d : Device) : Decidable d.Latch := inferInstanceAs (Decidable (_ ≠ _))

/-- What waits in the FIFO. -/
def held (d : Device) : List UInt8 := (d.waiting.map Prod.fst).toList

/-- How many bytes were taken before. -/
def count (d : Device) : ℕ := d.line.length + d.held.length + d.cleared.length

/-- The FIFO is cleared. -/
def clear (d : Device) : Device := { d with waiting := none, cleared := d.cleared ++ d.held }

/-- What waits is sent. -/
def drain (d : Device) : Device := { d with waiting := none, line := d.line ++ d.held }

end Device

/-- The `n`th byte waits for `delay n` reads of the line status. -/
abbrev Delay := ℕ → ℕ

/-- A byte for the empty transmitter. -/
def Device.accept (delay : Delay) (c : UInt8) (d : Device) : Device :=
  match delay d.count with
  | 0 => { d with line := d.line ++ [c] }
  | n + 1 => { d with waiting := some (c, n) }

/-- Without the write to port 0x80 that follows.  Bit 2 of `FCR` clears the FIFO of the transmitter. -/
def outb (delay : Delay) (port : Port) (value : UInt8) (d : Device) : Device :=
  match port with
  | .data =>
    if d.Latch then { d with dll := value }
    else if d.waiting.isNone then d.accept delay value
    else { d with lost := d.lost ++ [value] }
  | .interrupts => if d.Latch then { d with dlh := value } else { d with ier := value }
  | .fcr => if value &&& 0x04 ≠ 0 then { d.clear with fcr := value } else { d with fcr := value }
  | .lcr => { d with lcr := value }
  | .mcr => { d with mcr := value }

/-- The line status; bits 5 and 6 are set if nothing waits. -/
def inbLsr (d : Device) : UInt8 × Device :=
  match d.waiting with
  | none => (0x60, d)
  | some (_, 0) => (0, d.drain)
  | some (c, n + 1) => (0, { d with waiting := some (c, n) })

/-! ## The driver -/

def uartInit (delay : Delay) (d : Device) : Device :=
  let d := outb delay .interrupts 0x00 d
  let d := outb delay .lcr 0x80 d
  let d := outb delay .data 0x01 d
  let d := outb delay .interrupts 0x00 d
  let d := outb delay .lcr 0x03 d
  let d := outb delay .fcr 0xC7 d
  outb delay .mcr 0x0B d

def uartTransmitEmpty (d : Device) : Bool × Device :=
  let (status, d) := inbLsr d
  (status &&& 0x20 ≠ 0, d)

/-- The reads of the line status that find something waiting. -/
def Device.polls (d : Device) : ℕ :=
  match d.waiting with
  | none => 0
  | some (_, n) => n + 1

theorem uartTransmitEmpty_empty {d : Device} (empty : d.waiting = none) :
    uartTransmitEmpty d = (true, d) := by
  unfold uartTransmitEmpty inbLsr
  rw [empty]
  rfl

theorem uartTransmitEmpty_last {d : Device} {c : UInt8} (last : d.waiting = some (c, 0)) :
    uartTransmitEmpty d = (false, d.drain) := by
  unfold uartTransmitEmpty inbLsr
  rw [last]
  rfl

theorem uartTransmitEmpty_full {d : Device} {c : UInt8} {n : ℕ} (full : d.waiting = some (c, n + 1)) :
    uartTransmitEmpty d = (false, { d with waiting := some (c, n) }) := by
  unfold uartTransmitEmpty inbLsr
  rw [full]
  rfl

/-- Each read of the status that finds something waiting is one less to go. -/
theorem uartTransmitEmpty_polls {d : Device} (full : ¬ (uartTransmitEmpty d).1 = true) :
    (uartTransmitEmpty d).2.polls < d.polls := by
  cases waits : d.waiting with
  | none =>
    rw [uartTransmitEmpty_empty waits] at full
    exact absurd rfl full
  | some byte =>
    obtain ⟨c, n⟩ := byte
    cases n with
    | zero =>
      rw [uartTransmitEmpty_last waits, Device.polls, Device.polls, waits]
      exact Nat.zero_lt_one
    | succ n =>
      rw [uartTransmitEmpty_full waits, Device.polls, Device.polls, waits]
      exact Nat.lt_succ_self _

/-- The loop ends because the transmitter empties. -/
def uartPutc (delay : Delay) (c : UInt8) (d : Device) : Device :=
  if _empty : (uartTransmitEmpty d).1 then outb delay .data c (uartTransmitEmpty d).2
  else uartPutc delay c (uartTransmitEmpty d).2
termination_by d.polls
decreasing_by exact uartTransmitEmpty_polls _empty

/-- `callback`: it stops at a zero byte, and counts what it has put. -/
def callbackLoop (delay : Delay) : List UInt8 → ℕ → Device → ℕ × Device
  | [], i, d => (i, d)
  | c :: string, i, d => if c = 0 then (i, d) else callbackLoop delay string (i + 1)
    (uartPutc delay c d)

def uartCallback (delay : Delay) : PrintfCallback Device :=
  fun d string => callbackLoop delay string 0 d

def uartPrintf (delay : Delay) (format : List Byte) (args : List VaArg) (d : Device) :
    Except PrintfStop (ℤ × Device) :=
  vcbprintf d (some (uartCallback delay)) (some format) args

/-! ## Bytes -/

section Bytes

variable (delay : Delay) (d : Device) (c : UInt8)

theorem drain_of_empty {d : Device} (empty : d.waiting = none) : d.drain = d := by
  obtain ⟨ier, fcr, lcr, mcr, dll, dlh, waiting, line, cleared, lost⟩ := d
  obtain rfl := empty
  simp [Device.drain, Device.held]

theorem uartPutc_wait : uartPutc delay c d = outb delay .data c d.drain := by
  induction polls : d.polls generalizing d with
  | zero =>
    have empty : d.waiting = none := by
      unfold Device.polls at polls
      split at polls
      · assumption
      · cases polls
    rw [uartPutc, uartTransmitEmpty_empty empty, drain_of_empty empty]
    rfl
  | succ n ih =>
    obtain ⟨c', waits⟩ : ∃ c', d.waiting = some (c', n) := by
      unfold Device.polls at polls
      split at polls
      · cases polls
      · next waits => exact ⟨_, Nat.succ.inj polls ▸ waits⟩
    rw [uartPutc]
    cases n with
    | zero =>
      rw [uartTransmitEmpty_last waits]
      exact (ih d.drain rfl).trans (by rw [drain_of_empty rfl])
    | succ n =>
      rw [uartTransmitEmpty_full waits]
      refine (ih { d with waiting := some (c', n) } rfl).trans ?_
      simp [Device.drain, Device.held, waits]

/-- A byte is sent once what waits is sent. -/
theorem uartPutc_sent (shut : ¬d.Latch) : uartPutc delay c d = d.drain.accept delay c := by
  rw [uartPutc_wait, outb]
  exact (if_neg shut).trans (if_pos rfl)

/-- With the divisor latch open the byte changes the divisor. -/
theorem uartPutc_latch (opened : d.Latch) : uartPutc delay c d = { d.drain with dll := c } := by
  rw [uartPutc_wait, outb]
  exact if_pos opened

theorem outb_interrupts : outb delay .interrupts 0 d = { d with
    ier := if d.Latch then d.ier else 0, dlh := if d.Latch then 0 else d.dlh } := by
  rw [outb]
  split <;> rfl

/-- The divisor is set through the open latch. -/
theorem outb_divisor (opened : d.Latch) :
    outb delay .interrupts 0 (outb delay .data 1 d) = { d with dll := 1, dlh := 0 } := by
  have still : ({ d with dll := 1 } : Device).Latch := opened
  rw [show outb delay .data 1 d = { d with dll := 1 } from if_pos opened, outb_interrupts,
    if_pos still, if_pos still]

/-- The interrupts stay as they are if the latch is open when they are to be disabled. -/
theorem uartInit_eq : uartInit delay d = { d.clear with
    ier := if d.Latch then d.ier else 0
    lcr := 0x03
    dll := 0x01
    dlh := 0
    fcr := 0xC7
    mcr := 0x0B } := by
  have opened : (outb delay .lcr 0x80 (outb delay .interrupts 0 d)).Latch := by
    show (0x80 : UInt8) &&& 0x80 ≠ 0
    decide
  rw [uartInit, outb_divisor _ _ opened, outb_interrupts]
  rfl

/-- A byte changes the FIFO and the line only. -/
theorem accept_shape :
    ∃ waiting line, d.accept delay c = { d with waiting := waiting, line := line } := by
  unfold Device.accept
  split
  · exact ⟨_, _, rfl⟩
  · exact ⟨_, _, rfl⟩

/-- A byte that is put waits, or is sent at once. -/
theorem uartPutc_taken (shut : ¬d.Latch) :
    (uartPutc delay c d).line = d.line ++ d.held ++ (if delay d.count = 0 then [c] else []) ∧
      (uartPutc delay c d).held = (if delay d.count = 0 then [] else [c]) ∧
      (uartPutc delay c d).cleared = d.cleared := by
  have count : d.drain.count = d.count := by simp [Device.count, Device.drain, Device.held]
  rw [uartPutc_sent delay d c shut, Device.accept, count]
  cases delay d.count with
  | zero => exact ⟨rfl, rfl, rfl⟩
  | succ n =>
    rw [if_neg (Nat.succ_ne_zero n), if_neg (Nat.succ_ne_zero n), List.append_nil]
    exact ⟨rfl, rfl, rfl⟩

end Bytes

/-! ## Calls -/

inductive Call where
  | init
  | putc (c : UInt8)
deriving DecidableEq

def call (delay : Delay) (d : Device) : Call → Device
  | .init => uartInit delay d
  | .putc c => uartPutc delay c d

/-- The bytes that are put while the divisor latch is shut. -/
def sent : Bool → List Call → List UInt8
  | _, [] => []
  | _, .init :: cs => sent false cs
  | true, .putc _ :: cs => sent true cs
  | false, .putc c :: cs => c :: sent false cs

/-- What reaches the line of a byte that waits and of what is put behind it: a byte that waits is gone
when the FIFO is cleared.  Before it were `n` bytes. -/
def arriving (delay : Delay) : ℕ → List UInt8 → Bool → List Call → List UInt8
  | _, held, _, [] => held
  | n, _, _, .init :: cs => arriving delay n [] false cs
  | n, held, true, .putc _ :: cs => held ++ arriving delay n [] true cs
  | n, held, false, .putc c :: cs =>
    if delay n = 0 then held ++ c :: arriving delay (n + 1) [] false cs
    else held ++ arriving delay (n + 1) [c] false cs

theorem count_putc (c : UInt8) (cs : List Call) : (Call.putc c :: cs).count .init = cs.count .init :=
  List.count_cons_of_ne (fun same => by cases same)

/-- Each call of `uart_init` loses one byte at most, and the others arrive in order. -/
theorem arriving_sublist (delay : Delay) (cs : List Call) : ∀ n held latch, held.length ≤ 1 →
    (arriving delay n held latch cs).Sublist (held ++ sent latch cs) ∧
      (held ++ sent latch cs).length ≤ (arriving delay n held latch cs).length + cs.count .init := by
  induction cs with
  | nil =>
    intro n held latch _
    cases latch <;> simp [arriving, sent]
  | cons c cs ih =>
    intro n held latch short
    cases c with
    | init =>
      obtain ⟨inside, most⟩ := ih n [] false (Nat.zero_le 1)
      rw [arriving, sent, List.count_cons_self]
      rw [List.nil_append] at inside most
      refine ⟨inside.trans (List.sublist_append_right _ _), ?_⟩
      rw [List.length_append]
      omega
    | putc c =>
      rw [count_putc]
      cases latch with
      | true =>
        obtain ⟨inside, most⟩ := ih n [] true (Nat.zero_le 1)
        rw [arriving, sent, List.length_append, List.length_append]
        rw [List.nil_append] at inside most
        exact ⟨inside.append_left held, by omega⟩
      | false =>
        rw [arriving, sent]
        split_ifs
        · obtain ⟨inside, most⟩ := ih (n + 1) [] false (Nat.zero_le 1)
          rw [List.nil_append] at inside most
          refine ⟨(inside.cons_cons c).append_left held, ?_⟩
          simp only [List.length_append, List.length_cons]
          omega
        · obtain ⟨inside, most⟩ := ih (n + 1) [c] false (Nat.le_refl 1)
          refine ⟨inside.append_left held, ?_⟩
          simp only [List.length_append, List.length_cons, List.length_nil] at most ⊢
          omega

/-- The settings of `uart_init`: 8 bits, no parity, the divisor 1. -/
def Device.Programmed (d : Device) : Prop :=
  d.lcr = 0x03 ∧ d.dll = 0x01 ∧ d.dlh = 0 ∧ d.fcr = 0xC7 ∧ d.mcr = 0x0B

section Calls

variable {delay : Delay} {d : Device}

theorem uartInit_programmed (delay : Delay) (d : Device) : (uartInit delay d).Programmed := by
  rw [uartInit_eq]
  exact ⟨rfl, rfl, rfl, rfl, rfl⟩

/-- A byte that is put leaves the settings as they are. -/
theorem uartPutc_settings (delay : Delay) (c : UInt8) (shut : ¬d.Latch) :
    ((uartPutc delay c d).Programmed ↔ d.Programmed) ∧ (uartPutc delay c d).lcr = d.lcr ∧
      (uartPutc delay c d).ier = d.ier ∧ (uartPutc delay c d).lost = d.lost := by
  obtain ⟨waiting, line, shape⟩ := accept_shape delay d.drain c
  rw [uartPutc_sent delay d c shut, shape]
  exact ⟨Iff.rfl, rfl, rfl, rfl⟩

/-- **What is put reaches the line** as far as it does not wait when the FIFO is cleared, and nothing
is written to a full transmitter. -/
theorem calls_stream (delay : Delay) (cs : List Call) : ∀ d : Device,
    (cs.foldl (call delay) d).line ++ (cs.foldl (call delay) d).held =
        d.line ++ arriving delay d.count d.held (decide d.Latch) cs ∧
      (cs.foldl (call delay) d).lost = d.lost := by
  induction cs with
  | nil => exact fun d => ⟨rfl, rfl⟩
  | cons c cs ih =>
    intro d
    rw [List.foldl_cons]
    cases c with
    | init =>
      obtain ⟨line, lost⟩ := ih (uartInit delay d)
      have shut : ¬(uartInit delay d).Latch := by
        rw [Device.Latch, (uartInit_programmed delay d).1]
        decide
      have count : (uartInit delay d).count = d.count := by
        rw [uartInit_eq]
        simp only [Device.count, Device.held, Device.clear, List.length_append, Option.map_none,
          Option.toList_none, List.length_nil]
        omega
      rw [decide_eq_false shut, count] at line
      rw [call, line, lost, arriving, uartInit_eq]
      exact ⟨rfl, rfl⟩
    | putc c =>
      obtain ⟨line, lost⟩ := ih (uartPutc delay c d)
      rw [call, line, lost]
      by_cases latch : d.Latch
      · have next := uartPutc_latch delay d c latch
        have latch' : (uartPutc delay c d).Latch := next ▸ latch
        have count : (uartPutc delay c d).count = d.count := by
          rw [next]
          simp [Device.count, Device.drain, Device.held]
        rw [decide_eq_true latch, decide_eq_true latch', count, next, arriving, ← List.append_assoc]
        exact ⟨rfl, rfl⟩
      · obtain ⟨sentNow, held, cleared⟩ := uartPutc_taken delay d c latch
        obtain ⟨-, lcr, -, same⟩ := uartPutc_settings delay c latch
        have latch' : ¬(uartPutc delay c d).Latch := by
          rw [Device.Latch, lcr]
          exact latch
        have count : (uartPutc delay c d).count = d.count + 1 := by
          rw [Device.count, sentNow, held, cleared, Device.count]
          split_ifs <;> simp only [List.length_append, List.length_cons, List.length_nil] <;> omega
        rw [decide_eq_false latch, decide_eq_false latch', count, sentNow, held, arriving]
        refine ⟨?_, same⟩
        split_ifs <;> simp

/-- Once the line is programmed it stays so. -/
theorem calls_programmed (delay : Delay) (cs : List Call) : ∀ d : Device, d.Programmed →
    (cs.foldl (call delay) d).Programmed ∧
      (cs.foldl (call delay) d).ier = if .init ∈ cs then 0 else d.ier := by
  induction cs with
  | nil => exact fun d programmed => ⟨programmed, rfl⟩
  | cons c cs ih =>
    intro d programmed
    have shut : ¬d.Latch := by
      rw [Device.Latch, programmed.1]
      decide
    rw [List.foldl_cons]
    cases c with
    | init =>
      obtain ⟨programmed', ier⟩ := ih (uartInit delay d) (uartInit_programmed delay d)
      refine ⟨programmed', ?_⟩
      rw [call, ier, uartInit_eq, if_pos List.mem_cons_self]
      dsimp only
      rw [if_neg shut, ite_self]
    | putc c =>
      obtain ⟨settings, -, same, -⟩ := uartPutc_settings delay c shut
      obtain ⟨programmed', ier⟩ := ih (uartPutc delay c d) (settings.mpr programmed)
      refine ⟨programmed', ?_⟩
      rw [call, ier, same]
      simp

/-- The first `uart_init` leaves the interrupts enabled if it finds the latch open. -/
theorem calls_settings (delay : Delay) (cs : List Call) : ∀ d : Device, .init ∈ cs →
    (cs.foldl (call delay) d).Programmed ∧ ¬(cs.foldl (call delay) d).Latch ∧
      (cs.foldl (call delay) d).ier = if d.Latch ∧ cs.count .init = 1 then d.ier else 0 := by
  induction cs with
  | nil => exact fun d => nofun
  | cons c cs ih =>
    intro d inside
    rw [List.foldl_cons]
    cases c with
    | init =>
      obtain ⟨programmed, ier⟩ := calls_programmed delay cs _ (uartInit_programmed delay d)
      rw [call]
      refine ⟨programmed, ?_, ier.trans ?_⟩
      · rw [Device.Latch, programmed.1]
        decide
      · rw [uartInit_eq, List.count_cons_self]
        by_cases again : Call.init ∈ cs
        · have := List.count_pos_iff.2 again
          rw [if_pos again, if_neg (by omega)]
        · rw [if_neg again, List.count_eq_zero_of_not_mem again]
          simp
    | putc c =>
      obtain ⟨settings, shut, ier⟩ := ih (uartPutc delay c d) (by simpa using inside)
      rw [call, count_putc]
      refine ⟨settings, shut, ier.trans ?_⟩
      by_cases latch : d.Latch
      · have next := uartPutc_latch delay d c latch
        have latch' : (uartPutc delay c d).Latch := next ▸ latch
        have same : (uartPutc delay c d).ier = d.ier := by
          rw [next]
          rfl
        simp only [latch, latch', same]
      · obtain ⟨-, lcr, -, -⟩ := uartPutc_settings delay c latch
        have latch' : ¬(uartPutc delay c d).Latch := by
          rw [Device.Latch, lcr]
          exact latch
        simp only [latch, latch', false_and, if_false]

theorem held_length (d : Device) : d.held.length ≤ 1 := by
  unfold Device.held
  cases d.waiting <;> simp

/-- **The serial line, in any sequence of calls, on a transmitter of any speed.**  Nothing is written
to a full transmitter.  What is put reaches the line in order, or still waits: all of it without a
call of `uart_init`, and with each such call all but the byte that waits then, as its FIFO is cleared,
and what was put before while the divisor latch was open.  The first `uart_init` leaves the interrupts
enabled if it finds the latch open. -/
theorem calls_spec (delay : Delay) (d : Device) (cs : List Call) :
    (cs.foldl (call delay) d).line ++ (cs.foldl (call delay) d).held =
        d.line ++ arriving delay d.count d.held (decide d.Latch) cs ∧
      (arriving delay d.count d.held (decide d.Latch) cs).Sublist
        (d.held ++ sent (decide d.Latch) cs) ∧
      (d.held ++ sent (decide d.Latch) cs).length ≤
        (arriving delay d.count d.held (decide d.Latch) cs).length + cs.count .init ∧
      (cs.foldl (call delay) d).lost = d.lost ∧
      (.init ∈ cs → (cs.foldl (call delay) d).Programmed ∧ ¬(cs.foldl (call delay) d).Latch ∧
        (cs.foldl (call delay) d).ier = if d.Latch ∧ cs.count .init = 1 then d.ier else 0) := by
  obtain ⟨line, lost⟩ := calls_stream delay cs d
  obtain ⟨inside, most⟩ := arriving_sublist delay cs d.count d.held (decide d.Latch) (held_length d)
  exact ⟨line, inside, most, lost, calls_settings delay cs d⟩

/-- A line that is busy with what was sent before. -/
def busyLine : Device where
  ier := 0
  fcr := 0xC7
  lcr := 0x03
  mcr := 0x0B
  dll := 1
  dlh := 0
  waiting := some (0x21, 4)
  line := []
  cleared := []
  lost := []

/-- Of two bytes that are put before the FIFO is cleared the second is gone. -/
example : arriving (fun _ => 3) 1 [0x21] false [.putc 0x61, .putc 0x62, .init, .putc 0x63] =
    [0x21, 0x61, 0x63] := rfl

end Calls

/-! ## `uart_printf` -/

section Printf

variable {delay : Delay} {d : Device}

/-- What was sent or waits. -/
def Device.stream (d : Device) : List UInt8 := d.line ++ d.held

theorem uartPutc_stream (delay : Delay) (c : UInt8) (shut : ¬d.Latch) :
    (uartPutc delay c d).stream = d.stream ++ [c] ∧ (uartPutc delay c d).lost = d.lost ∧
      (uartPutc delay c d).cleared = d.cleared ∧ ¬(uartPutc delay c d).Latch := by
  obtain ⟨line, held, cleared⟩ := uartPutc_taken delay d c shut
  obtain ⟨-, lcr, -, lost⟩ := uartPutc_settings delay c shut
  refine ⟨?_, lost, cleared, ?_⟩
  · rw [Device.stream, line, held, Device.stream]
    split_ifs <;> simp
  · rw [Device.Latch, lcr]
    exact shut

theorem callbackLoop_eq (delay : Delay) (string : List UInt8) (i : ℕ) (shut : ¬d.Latch) :
    ∃ d', callbackLoop delay string i d = (i + (string.takeWhile (· ≠ 0)).length, d') ∧ ¬d'.Latch ∧
      d'.stream = d.stream ++ string.takeWhile (· ≠ 0) ∧ d'.lost = d.lost ∧
        d'.cleared = d.cleared := by
  induction string generalizing d i with
  | nil => exact ⟨d, rfl, shut, (List.append_nil _).symm, rfl, rfl⟩
  | cons c string ih =>
    rw [callbackLoop]
    by_cases stop : c = 0
    · rw [if_pos stop, List.takeWhile_cons_of_neg (by simpa using stop)]
      exact ⟨d, rfl, shut, (List.append_nil _).symm, rfl, rfl⟩
    · obtain ⟨put, same, kept, shut₁⟩ := uartPutc_stream delay c shut
      obtain ⟨d', run, shut', stream, lost, cleared⟩ := ih (i + 1) shut₁
      rw [if_neg stop, List.takeWhile_cons_of_pos (by simpa using stop)]
      refine ⟨d', ?_, shut', ?_, lost.trans same, cleared.trans kept⟩
      · rw [run, List.length_cons]
        congr 1
        omega
      · rw [stream, put, List.append_assoc, List.singleton_append]

/-- The chunks are sent until a zero byte, which ends the call. -/
theorem feed_uartCallback (delay : Delay) (chunks : List (List UInt8)) (shut : ¬d.Latch) :
    ∃ d', feed (uartCallback delay) d chunks = (decide (0 ∉ chunks.flatten), d') ∧
      d'.stream = d.stream ++ chunks.flatten.takeWhile (· ≠ 0) ∧ d'.lost = d.lost ∧
      d'.cleared = d.cleared := by
  induction chunks generalizing d with
  | nil => exact ⟨d, rfl, (List.append_nil _).symm, rfl, rfl⟩
  | cons chunk chunks ih =>
    obtain ⟨d₁, run, shut', stream, lost, cleared⟩ := callbackLoop_eq delay chunk 0 shut
    rw [feed_cons, uartCallback, run, Nat.zero_add, List.flatten_cons, List.takeWhile_append]
    by_cases taken : (chunk.takeWhile (· ≠ 0)).length = chunk.length
    · have whole : chunk.takeWhile (· ≠ 0) = chunk := (List.takeWhile_prefix _).eq_of_length taken
      have plain : 0 ∉ chunk := fun zero => by simpa using List.takeWhile_eq_self_iff.1 whole 0 zero
      obtain ⟨d', rest, stream', lost', cleared'⟩ := ih shut'
      rw [if_neg (not_not.2 taken), if_pos taken]
      refine ⟨d', rest.trans ?_, ?_, lost'.trans lost, cleared'.trans cleared⟩
      · simp [plain]
      · rw [stream', stream, whole, List.append_assoc]
    · have zero : 0 ∈ chunk := by
        by_contra plain
        refine taken (congrArg List.length (List.takeWhile_eq_self_iff.2 fun c inside => ?_))
        simpa using fun same : c = 0 => plain (same ▸ inside)
      rw [if_pos taken, if_neg taken]
      exact ⟨d₁, by simp [zero], stream, lost, cleared⟩

end Printf

end Vineyard.Uart
