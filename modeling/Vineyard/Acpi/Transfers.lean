import Vineyard.Acpi.Ec

/-!
# Transfers with the embedded controller

Whatever the delays of the controller are, the driver writes to a port only while the input buffer is
empty and reads the data port only while the output buffer is full, and a transfer moves the registers
it names.  Between two accesses of the driver that matter the controller runs until nothing is left for
it to do; the poll that follows ends in that state exactly.
-/

namespace Vineyard.Ec

open Bytes Programs Programs.Prog

/-- The controller always goes on. -/
def Fair (delay : Schedule) : Prop := ∀ t, ∃ u, t ≤ u ∧ 0 < delay u

/-- No write while `IBF` was set and no read of the data port while `OBF` was clear. -/
def Proper (uses : List PortUse) : Prop := ∀ use ∈ uses, use = .write false ∨ use = .read true

/-- Nothing is left for the controller to do. -/
def Quiet (c : Controller) : Prop := c.step = c

theorem Quiet.iterate {c : Controller} (quiet : Quiet c) (n : ℕ) : Controller.step^[n] c = c :=
  Function.iterate_fixed quiet n

/-- From `c` the program returns `a` with the controller at `c'`, and uses the ports properly. -/
def Ends {α : Type} (m : ℕ → EcM α) (c : Controller) (a : α) (c' : Controller) : Prop :=
  ∀ s : State, s.controller = c → Proper s.uses →
    ∃ t, Settles m s a t ∧ t.controller = c' ∧ Proper t.uses

section Rules

variable {α β : Type} {c c' c'' : Controller} {a : α} {b : β}

theorem Ends.pure : Ends (fun _ => (pure a : EcM α)) c a c :=
  fun s here proper => ⟨s, Settles.of_run rfl, here, proper⟩

theorem Ends.bind {m : ℕ → EcM α} {f : ℕ → α → EcM β} (first : Ends m c a c')
    (second : Ends (fun n => f n a) c' b c'') : Ends (fun n => m n >>= f n) c b c'' := by
  intro s here proper
  rcases first s here proper with ⟨t, settles, there, proper'⟩
  rcases second t there proper' with ⟨u, settles', last, proper''⟩
  exact ⟨u, settles.bind settles', last, proper''⟩

end Rules

/-! ## Accesses -/

section Accesses

variable {delay : Schedule} {c : Controller}

theorem Proper.append {uses : List PortUse} (proper : Proper uses) {use : PortUse}
    (good : use = .write false ∨ use = .read true) : Proper (uses ++ [use]) := by
  intro other mem
  rcases List.mem_append.mp mem with earlier | last
  · exact proper other earlier
  · rw [List.mem_singleton.mp last]
    exact good

/-- A write to an empty input buffer fills it. -/
theorem Ends.write (quiet : Quiet c) (empty : c.input = none) (input : Input) :
    Ends (fun _ => writePort delay input) c () { c with input := some input } := by
  intro s here proper
  subst here
  refine ⟨{ s with controller := { s.controller with input := some input }, time := s.time + 1,
                   uses := s.uses ++ [.write false] }, Settles.of_run ?_, rfl,
                   proper.append (.inl rfl)⟩
  unfold writePort elapse
  rw [run_bind_of_ok (run_modify _ _), run_modify, quiet.iterate]
  unfold Controller.ibf
  dsimp only
  rw [empty]
  rfl

/-- A read of a full output buffer empties it. -/
theorem Ends.readData (quiet : Quiet c) {byte : UInt8} (full : c.output = some byte) :
    Ends (fun _ => acpiEcReadData delay) c byte { c with output := none } := by
  intro s here proper
  subst here
  refine ⟨{ s with controller := { s.controller with output := none }, time := s.time + 1,
                   uses := s.uses ++ [.read true] }, Settles.of_run ?_, rfl, proper.append (.inr rfl)⟩
  unfold acpiEcReadData elapse
  rw [run_bind_of_ok (run_modify _ _), run_bind_of_ok (run_get _), run_bind_of_ok (run_modify _ _),
    run_pure, quiet.iterate]
  unfold Controller.obf
  dsimp only
  rw [full]
  rfl

/-- What the status register says about an event. -/
theorem reached_status (event : Event) (c : Controller) :
    event.reached c.status = match event with
      | .inputBufferEmpty => !c.ibf
      | .outputBufferFull => c.obf := by
  unfold Event.reached Controller.status
  cases event <;> cases c.obf <;> cases c.ibf <;> cases c.burst <;> decide

theorem pollRound_run (delay : Schedule) (event : Event) (n : ℕ) (s : State) :
    (acpiEcPollEvent delay event (n + 1)).run s =
      if event.reached (Controller.step^[delay s.time] s.controller).status then
        (.ok (), { s with controller := Controller.step^[delay s.time] s.controller, time := s.time + 1 })
      else (acpiEcPollEvent delay event n).run
        { s with controller := Controller.step^[delay s.time] s.controller, time := s.time + 1 } := by
  have status : (acpiEcReadCommand delay).run s =
      (.ok (Controller.step^[delay s.time] s.controller).status,
        { s with controller := Controller.step^[delay s.time] s.controller, time := s.time + 1 }) :=
          rfl
  rw [acpiEcPollEvent, run_bind_of_ok status]
  split <;> rfl

/-- The event is reached after `k` steps and not before, and then nothing is left to do. -/
structure Awaits (event : Event) (k : ℕ) (c c' : Controller) : Prop where
  last : Controller.step^[k] c = c'
  quiet : Quiet c'
  reached : event.reached c'.status = true
  before : ∀ i < k, event.reached (Controller.step^[i] c).status = false

theorem Awaits.done {event : Event} {k d : ℕ} {c c' : Controller} (awaits : Awaits event k c c')
    (enough : k ≤ d) : Controller.step^[d] c = c' := by
  rw [← Nat.sub_add_cancel enough, Function.iterate_add_apply, awaits.last]
  exact awaits.quiet.iterate _

theorem Awaits.elapse {event : Event} {k d : ℕ} {c c' : Controller} (awaits : Awaits event k c c')
    (early : d ≤ k) : Awaits event (k - d) (Controller.step^[d] c) c' where
  last := by
    rw [← Function.iterate_add_apply, Nat.sub_add_cancel early]
    exact awaits.last
  quiet := awaits.quiet
  reached := awaits.reached
  before := by
    intro i less
    rw [← Function.iterate_add_apply]
    exact awaits.before (i + d) (by omega)

/-- A round of the poll ends it or leaves fewer steps to wait for. -/
theorem poll_round {event : Event} {c' : Controller} {k : ℕ} {s : State}
    (awaits : Awaits event k s.controller c')
    (later : delay s.time < k → ∃ time, Settles (fun n => acpiEcPollEvent delay event n)
      { s with controller := Controller.step^[delay s.time] s.controller, time := s.time + 1 } ()
      { s with controller := c', time := time }) :
    ∃ time, Settles (fun n => acpiEcPollEvent delay event n) s ()
      { s with controller := c', time := time } := by
  by_cases enough : k ≤ delay s.time
  · refine ⟨s.time + 1, .stop fun n => ?_⟩
    rw [pollRound_run, awaits.done enough, if_pos awaits.reached]
  · rcases later (by omega) with ⟨time, settles⟩
    refine ⟨time, settles.round fun n => ?_⟩
    rw [pollRound_run, awaits.before _ (by omega), if_neg Bool.false_ne_true]

/-- The poll ends when the controller has nothing left to do. -/
theorem poll_settles (fair : Fair delay) {event : Event} {c' : Controller} {k : ℕ} {s : State}
    (awaits : Awaits event k s.controller c') :
    ∃ time, Settles (fun n => acpiEcPollEvent delay event n) s ()
      { s with controller := c', time := time } := by
  induction k using Nat.strong_induction_on generalizing s with
  | _ k ih =>
    -- the rounds until the controller takes a step
    rcases fair s.time with ⟨u, le, positive⟩
    rcases Nat.exists_eq_add_of_le le with ⟨gap, rfl⟩
    induction gap generalizing s with
    | zero =>
      refine poll_round awaits fun early => ?_
      exact ih (k - delay s.time) (by
        rw [Nat.add_zero] at positive
        omega) (awaits.elapse early.le)
    | succ gap ihGap =>
      refine poll_round awaits fun early => ?_
      rcases Nat.eq_zero_or_pos (delay s.time) with none | some
      · have same := awaits.elapse early.le
        rw [none, Nat.sub_zero] at same
        rw [none]
        exact ihGap same (by omega) (by
          show 0 < delay (s.time + 1 + gap)
          rwa [Nat.add_assoc, Nat.add_comm 1 gap])
      · exact ih (k - delay s.time) (by omega) (awaits.elapse early.le)

theorem Ends.poll (fair : Fair delay) {event : Event} {k : ℕ} {c' : Controller}
    (awaits : Awaits event k c c') : Ends (fun n => acpiEcPollEvent delay event n) c () c' := by
  intro s here proper
  subst here
  rcases poll_settles fair awaits with ⟨time, settles⟩
  exact ⟨_, settles, rfl, proper⟩

end Accesses

/-! ## Commands -/

/-- A controller with empty buffers and nothing to put out. -/
def resting (registers : UInt8 → UInt8) (mode : Mode) (burst : Bool) : Controller :=
  ⟨registers, none, none, none, mode, burst⟩

theorem eq_resting {c : Controller} (input : c.input = none) (output : c.output = none)
    (pending : c.pending = none) : c = resting c.registers c.mode c.burst := by
  rcases c with ⟨registers, _, _, _, mode, burst⟩
  dsimp only at input output pending
  subst input output pending
  rfl

section Commands

variable {delay : Schedule} {registers : UInt8 → UInt8} {mode : Mode} {burst : Bool}

theorem quiet_resting : Quiet (resting registers mode burst) := rfl

/-- The controller takes the byte in its input buffer, and no more. -/
theorem awaits_input {c c' : Controller} (full : c.ibf = true) (taken : c.step = c')
    (quiet : Quiet c') (empty : c'.ibf = false) : Awaits .inputBufferEmpty 1 c c' where
  last := taken
  quiet := quiet
  reached := by rw [reached_status, empty]; rfl
  before := by
    intro i less
    rw [show i = 0 by omega, reached_status]
    show (!c.ibf) = false
    rw [full]
    rfl

/-- The controller takes a byte and puts one out. -/
theorem awaits_output {c c' : Controller} (empty : c.obf = false) (taken : c.step.obf = false)
    (put : c.step.step = c') (quiet : Quiet c') (full : c'.obf = true) :
    Awaits .outputBufferFull 2 c c' where
  last := put
  quiet := quiet
  reached := by rw [reached_status, full]
  before := by
    intro i less
    rcases (by omega : i = 0 ∨ i = 1) with rfl | rfl
    · rw [reached_status]
      exact empty
    · rw [reached_status]
      exact taken

/-- A command is written to an empty input buffer, and its event awaited. -/
theorem Ends.command (fair : Fair delay) {command : UInt8} {event : Event} {k : ℕ} {c' : Controller}
    (steps : ∀ n, acpiEcCommand delay command n =
      (acpiEcPollEvent delay .inputBufferEmpty n >>= fun _ =>
      writePort delay (.command command) >>= fun _ => acpiEcPollEvent delay event n))
    (awaits : Awaits event k { resting registers mode burst with input := some (.command command) }
      c') :
    Ends (fun n => acpiEcCommand delay command n) (resting registers mode burst) () c' := by
  have clear : Awaits .inputBufferEmpty 0 (resting registers mode burst)
    (resting registers mode burst) :=
    ⟨rfl, quiet_resting, by rw [reached_status]; rfl, fun i less => absurd less (Nat.not_lt_zero i)⟩
  have written : Ends (fun _ => writePort delay (.command command)) (resting registers mode burst) ()
      { resting registers mode burst with input := some (.command command) } :=
    Ends.write quiet_resting rfl (.command command)
  have unfolded : (fun n => acpiEcCommand delay command n) = fun n =>
      acpiEcPollEvent delay .inputBufferEmpty n >>= fun _ =>
        writePort delay (.command command) >>= fun _ => acpiEcPollEvent delay event n := funext steps
  rw [unfolded]
  refine Ends.bind (Ends.poll fair clear) ?_
  exact Ends.bind written (Ends.poll fair awaits)

theorem acpiEcBurstEnable_ends (fair : Fair delay) :
    Ends (fun n => acpiEcBurstEnable delay n) (resting registers mode burst) ()
      (resting registers .idle true) := by
  have command : Ends (fun n => acpiEcCommand delay 0x82 n) (resting registers mode burst) ()
      ⟨registers, none, some 0x90, none, .idle, true⟩ :=
    Ends.command fair (fun _ => rfl) (awaits_output rfl rfl rfl rfl rfl)
  have answer : Ends (fun _ => acpiEcReadData delay) ⟨registers, none, some 0x90, none,
    .idle, true⟩ 0x90
      (resting registers .idle true) :=
    Ends.readData (c := ⟨registers, none, some 0x90, none, .idle, true⟩) rfl rfl
  unfold acpiEcBurstEnable
  refine Ends.bind command ?_
  exact Ends.bind answer Ends.pure

theorem acpiEcBurstDisable_ends (fair : Fair delay) :
    Ends (fun n => acpiEcBurstDisable delay n) (resting registers mode burst) ()
      (resting registers .idle false) :=
  Ends.command fair (fun _ => rfl) (awaits_input rfl rfl rfl rfl)

/-- One byte is read from its register. -/
theorem acpiEcRead1_ends (fair : Fair delay) (addr : UInt8) :
    Ends (fun n => acpiEcRead1 delay addr n) (resting registers mode burst) (registers addr)
      (resting registers .idle burst) := by
  have command : Ends (fun n => acpiEcCommand delay 0x80 n) (resting registers mode burst) ()
      (resting registers .readAddress burst) :=
    Ends.command fair (fun _ => rfl) (awaits_input rfl rfl rfl rfl)
  have address : Ends (fun _ => acpiEcWriteData delay addr) (resting registers .readAddress burst) ()
      ⟨registers, some (.data addr), none, none, .readAddress, burst⟩ :=
    Ends.write quiet_resting rfl (.data addr)
  have produced : Ends (fun n => acpiEcPollEvent delay .outputBufferFull n)
      ⟨registers, some (.data addr), none, none, .readAddress, burst⟩ ()
      ⟨registers, none, some (registers addr), none, .idle, burst⟩ :=
    Ends.poll fair (awaits_output rfl rfl rfl rfl rfl)
  have taken : Ends (fun _ => acpiEcReadData delay)
      ⟨registers, none, some (registers addr), none, .idle, burst⟩ (registers addr)
      (resting registers .idle burst) :=
    Ends.readData (c := ⟨registers, none, some (registers addr), none, .idle, burst⟩) rfl rfl
  unfold acpiEcRead1
  refine Ends.bind command ?_
  refine Ends.bind address ?_
  exact Ends.bind produced taken

/-- One byte is written to its register. -/
theorem acpiEcWrite1_ends (fair : Fair delay) (addr val : UInt8) :
    Ends (fun n => acpiEcWrite1 delay addr val n) (resting registers mode burst) ()
      (resting (Function.update registers addr val) .idle burst) := by
  have command : Ends (fun n => acpiEcCommand delay 0x81 n) (resting registers mode burst) ()
      (resting registers .writeAddress burst) :=
    Ends.command fair (fun _ => rfl) (awaits_input rfl rfl rfl rfl)
  have address : Ends (fun _ => acpiEcWriteData delay addr) (resting registers .writeAddress burst) ()
      ⟨registers, some (.data addr), none, none, .writeAddress, burst⟩ :=
    Ends.write quiet_resting rfl (.data addr)
  have addressed : Ends (fun n => acpiEcPollEvent delay .inputBufferEmpty n)
      ⟨registers, some (.data addr), none, none, .writeAddress, burst⟩ ()
      (resting registers (.writeValue addr) burst) := Ends.poll fair (awaits_input rfl rfl rfl rfl)
  have value : Ends (fun _ => acpiEcWriteData delay val)
    (resting registers (.writeValue addr) burst) ()
      ⟨registers, some (.data val), none, none, .writeValue addr, burst⟩ :=
    Ends.write quiet_resting rfl (.data val)
  have stored : Ends (fun n => acpiEcPollEvent delay .inputBufferEmpty n)
      ⟨registers, some (.data val), none, none, .writeValue addr, burst⟩ ()
      (resting (Function.update registers addr val) .idle burst) :=
    Ends.poll fair (awaits_input rfl rfl rfl rfl)
  unfold acpiEcWrite1
  refine Ends.bind command ?_
  refine Ends.bind address ?_
  refine Ends.bind addressed ?_
  exact Ends.bind value stored

end Commands

/-! ## Requests -/

/-- The first `len` bytes are the registers from `a` on. -/
def readBytes (registers : UInt8 → UInt8) (a len : ℕ) (buf : Memory) : Memory := fun i =>
  if i < len then registers (UInt8.ofNat (a + i)) else buf i

/-- The `len` registers from `a` on are the first bytes of the buffer. -/
def writeBytes (registers : UInt8 → UInt8) (a len : ℕ) (buf : Memory) : UInt8 → UInt8 := fun r =>
  if a ≤ r.toNat ∧ r.toNat < a + len then buf (r.toNat - a) else registers r

/-- A request that the handler accepts, with its address among the registers. -/
structure Accepted (request : Request) : Prop where
  function : request.function = acpiRead ∨ request.function = acpiWrite
  address_lt : request.address < 0x100
  bits_lt : request.bits < 2 ^ 32
  whole : request.bits % 8 = 0
  inside : request.address + request.bits / 8 ≤ 0xFF
  value : request.value.isSome

/-- What a request means: the answer, and the registers after it. -/
def serve (registers : UInt8 → UInt8) (request : Request) :
    (AcpiStatus × Option Memory) × (UInt8 → UInt8) :=
  let len := request.bits / 8
  if request.function = acpiRead then
    ((.ok, request.value.map (readBytes registers request.address len)), registers)
  else
    ((.ok, request.value),
      writeBytes registers request.address len (request.value.getD fun _ => 0))

/-- What a sequence of requests means. -/
def serveAll (registers : UInt8 → UInt8) :
    List Request → List (AcpiStatus × Option Memory) × (UInt8 → UInt8)
  | [] => ([], registers)
  | request :: rest =>
    let (answer, registers) := serve registers request
    let (answers, registers) := serveAll registers rest
    (answer :: answers, registers)

section Requests

variable {delay : Schedule} {registers : UInt8 → UInt8} {mode : Mode} {burst : Bool}

theorem ofNat_and_255 (x : ℕ) : UInt8.ofNat (x &&& 0xFF) = UInt8.ofNat x := by
  apply UInt8.toNat_inj.mp
  have low : x &&& 0xFF = x % 2 ^ 8 := Nat.and_two_pow_sub_one_eq_mod x 8
  rw [low]
  simp

/-- The loop over the bytes of a read. -/
theorem readLoop_ends (fair : Fair delay) (addr : UInt8) (left reg : ℕ) (buf : Memory) :
    Ends (fun n => readLoop delay addr n reg left buf) (resting registers .idle burst)
      (fun i => if reg ≤ i ∧ i < reg + left then registers (UInt8.ofNat (addr.toNat + i)) else buf i)
      (resting registers .idle burst) := by
  induction left generalizing reg buf with
  | zero =>
    have same : (fun i => if reg ≤ i ∧ i < reg + 0 then registers (UInt8.ofNat (addr.toNat + i))
        else buf i) = buf := by
      funext i
      exact if_neg (by omega)
    rw [same]
    exact Ends.pure
  | succ left ih =>
    have byte := @acpiEcRead1_ends delay registers .idle burst fair
      (UInt8.ofNat ((addr.toNat + reg) &&& 0xFF))
    have rest := ih (reg + 1)
      (Function.update buf reg (registers (UInt8.ofNat ((addr.toNat + reg) &&& 0xFF))))
    have same : (fun i => if reg ≤ i ∧ i < reg + (left + 1) then
        registers (UInt8.ofNat (addr.toNat + i)) else buf i) =
        fun i => if reg + 1 ≤ i ∧ i < reg + 1 + left then registers (UInt8.ofNat (addr.toNat + i))
          else Function.update buf reg (registers (UInt8.ofNat ((addr.toNat + reg) &&& 0xFF))) i := by
      funext i
      by_cases here : i = reg
      · rw [here, if_pos (by omega), if_neg (by omega), Function.update_self, ofNat_and_255]
      · rw [Function.update_of_ne here]
        by_cases later : reg + 1 ≤ i ∧ i < reg + 1 + left
        · rw [if_pos later, if_pos (by omega)]
        · rw [if_neg later, if_neg (by omega)]
    rw [same]
    exact Ends.bind byte rest

/-- The loop over the bytes of a write. -/
theorem writeLoop_ends (fair : Fair delay) (addr : UInt8) (buf : Memory) (left reg : ℕ)
    (inside : addr.toNat + reg + left ≤ 0x100) :
    Ends (fun n => writeLoop delay addr buf n reg left) (resting registers .idle burst) ()
      (resting (fun r => if addr.toNat + reg ≤ r.toNat ∧ r.toNat < addr.toNat + reg + left then
        buf (r.toNat - addr.toNat) else registers r) .idle burst) := by
  induction left generalizing reg registers with
  | zero =>
    have same : (fun r : UInt8 => if addr.toNat + reg ≤ r.toNat ∧ r.toNat < addr.toNat + reg + 0 then
        buf (r.toNat - addr.toNat) else registers r) = registers := by
      funext r
      exact if_neg (by omega)
    rw [same]
    exact Ends.pure
  | succ left ih =>
    have byte := @acpiEcWrite1_ends delay registers .idle burst fair
      (UInt8.ofNat ((addr.toNat + reg) &&& 0xFF)) (buf reg)
    rw [ofNat_and_255] at byte
    have rest := @ih (Function.update registers (UInt8.ofNat (addr.toNat + reg)) (buf reg)) (reg + 1)
      (by omega)
    have place : (UInt8.ofNat (addr.toNat + reg)).toNat = addr.toNat + reg :=
      UInt8.toNat_ofNat_of_lt' (show addr.toNat + reg < 256 by omega)
    have same : (fun r : UInt8 => if addr.toNat + reg ≤ r.toNat ∧
        r.toNat < addr.toNat + reg + (left + 1) then buf (r.toNat - addr.toNat) else registers r) =
        fun r => if addr.toNat + (reg + 1) ≤ r.toNat ∧ r.toNat < addr.toNat + (reg + 1) + left then
          buf (r.toNat - addr.toNat)
          else Function.update registers (UInt8.ofNat (addr.toNat + reg)) (buf reg) r := by
      funext r
      by_cases here : r = UInt8.ofNat (addr.toNat + reg)
      · rw [here, Function.update_self, place, if_pos (by omega), if_neg (by omega),
          Nat.add_sub_cancel_left]
      · have other : r.toNat ≠ addr.toNat + reg := by
          intro same
          exact here (UInt8.toNat_inj.mp (same.trans place.symm))
        rw [Function.update_of_ne here]
        by_cases later : addr.toNat + (reg + 1) ≤ r.toNat ∧ r.toNat < addr.toNat + (reg + 1) + left
        · rw [if_pos later, if_pos (by omega)]
        · rw [if_neg later, if_neg (by omega)]
    rw [same]
    unfold writeLoop
    rw [ofNat_and_255]
    exact Ends.bind byte rest

theorem acpiEcRead_ends (fair : Fair delay) (addr : UInt8) (len : ℕ) (buf : Memory) :
    Ends (fun n => acpiEcRead delay addr len buf n) (resting registers mode burst)
      (readBytes registers addr.toNat len buf) (resting registers .idle false) := by
  have bytes := @readLoop_ends delay registers true fair addr len 0 buf
  have same : (fun i => if 0 ≤ i ∧ i < 0 + len then registers (UInt8.ofNat (addr.toNat + i))
      else buf i) = readBytes registers addr.toNat len buf := by
    funext i
    unfold readBytes
    simp only [Nat.zero_le, true_and, Nat.zero_add]
  rw [same] at bytes
  unfold acpiEcRead
  refine Ends.bind (acpiEcBurstEnable_ends fair) ?_
  refine Ends.bind bytes ?_
  exact Ends.bind (acpiEcBurstDisable_ends fair) Ends.pure

theorem acpiEcWrite_ends (fair : Fair delay) (addr : UInt8) (len : ℕ) (buf : Memory)
    (inside : addr.toNat + len ≤ 0x100) :
    Ends (fun n => acpiEcWrite delay addr len buf n) (resting registers mode burst) ()
      (resting (writeBytes registers addr.toNat len buf) .idle false) := by
  have bytes := @writeLoop_ends delay registers true fair addr buf len 0 inside
  unfold acpiEcWrite
  refine Ends.bind (acpiEcBurstEnable_ends fair) ?_
  exact Ends.bind bytes (acpiEcBurstDisable_ends fair)

/-- An accepted request passes the three tests. -/
theorem acpiEcHandler_accepted {function address bits : ℕ} {buf : Memory}
    (accepted : Accepted ⟨function, address, bits, some buf⟩) (n : ℕ) :
    acpiEcHandler delay ⟨function, address, bits, some buf⟩ n =
      if function = acpiRead then do
        let buf ← acpiEcRead delay (UInt8.ofNat (address &&& 0xFF)) (bits / 8) buf n
        return (.ok, some buf)
      else do
        acpiEcWrite delay (UInt8.ofNat (address &&& 0xFF)) (bits / 8) buf n
        return (.ok, some buf) := by
  rcases accepted with ⟨function_ok, address_lt, bits_lt, whole, inside, _⟩
  dsimp only at *
  have good : ¬(function ≠ acpiRead ∧ function ≠ acpiWrite) := by
    rintro ⟨notRead, notWrite⟩
    exact function_ok.elim notRead notWrite
  have len : bits >>> 3 = bits / 8 := Nat.shiftRight_eq_div_pow bits 3
  have sum : Word64.add address (bits >>> 3) = address + bits / 8 := by
    rw [len]
    exact Word64.add_eq (by omega)
  unfold acpiEcHandler
  dsimp only
  rw [if_neg good, sum, len, if_neg (by omega), if_neg (by omega)]

/-- An accepted request is answered as its meaning says, and leaves the buffers empty. -/
theorem acpiEcHandler_ends (fair : Fair delay) {request : Request} (accepted : Accepted request) :
    Ends (fun n => acpiEcHandler delay request n) (resting registers mode burst)
      (serve registers request).1 (resting (serve registers request).2 .idle false) := by
  rcases request with ⟨function, address, bits, value⟩
  rcases Option.isSome_iff_exists.mp accepted.value with ⟨buf, rfl⟩
  have inside : address + bits / 8 ≤ 0xFF := accepted.inside
  have place : (UInt8.ofNat (address &&& 0xFF)).toNat = address := by
    rw [ofNat_and_255]
    exact UInt8.toNat_ofNat_of_lt' accepted.address_lt
  unfold serve
  dsimp only
  by_cases read : function = acpiRead
  · have program : (fun n => acpiEcHandler delay ⟨function, address, bits, some buf⟩ n) = fun n => do
        let buf ← acpiEcRead delay (UInt8.ofNat (address &&& 0xFF)) (bits / 8) buf n
        return (.ok, some buf) := by
      funext n
      rw [acpiEcHandler_accepted accepted, if_pos read]
    have moved := @acpiEcRead_ends delay registers mode burst fair (UInt8.ofNat (address &&& 0xFF))
      (bits / 8) buf
    rw [place] at moved
    rw [program, if_pos read]
    exact Ends.bind moved Ends.pure
  · have program : (fun n => acpiEcHandler delay ⟨function, address, bits, some buf⟩ n) = fun n => do
        acpiEcWrite delay (UInt8.ofNat (address &&& 0xFF)) (bits / 8) buf n
        return (.ok, some buf) := by
      funext n
      rw [acpiEcHandler_accepted accepted, if_neg read]
    have moved := @acpiEcWrite_ends delay registers mode burst fair (UInt8.ofNat (address &&& 0xFF))
      (bits / 8) buf (by
        rw [place]
        omega)
    rw [place] at moved
    rw [program, if_neg read]
    exact Ends.bind moved Ends.pure

/-- Every other request at one of the registers is refused without an access to a port. -/
theorem acpiEcHandler_refuses {request : Request} (address_lt : request.address < 0x100)
    (bits_lt : request.bits < 2 ^ 32) (refused : ¬Accepted request) (n : ℕ) :
    ∃ status, status ≠ .ok ∧ acpiEcHandler delay request n = pure (status, request.value) := by
  rcases request with ⟨function, address, bits, value⟩
  dsimp only at address_lt bits_lt
  have sum : Word64.add address (bits >>> 3) = address + bits / 8 := by
    rw [Nat.shiftRight_eq_div_pow bits 3]
    exact Word64.add_eq (by omega)
  unfold acpiEcHandler
  dsimp only
  rw [sum]
  by_cases unknown : function ≠ acpiRead ∧ function ≠ acpiWrite
  · rw [if_pos unknown]
    exact ⟨.badParameter, by decide, rfl⟩
  rw [if_neg unknown]
  by_cases outside : address + bits / 8 > 0xFF
  · rw [if_pos outside]
    exact ⟨.badAddress, by decide, rfl⟩
  rw [if_neg outside]
  cases value with
  | none => exact ⟨.badParameter, by decide, rfl⟩
  | some buf =>
    by_cases whole : bits % 8 = 0
    · have accepted : Accepted ⟨function, address, bits, some buf⟩ :=
        ⟨by tauto, address_lt, bits_lt, whole, by dsimp only; omega, rfl⟩
      exact absurd accepted refused
    · dsimp only
      rw [if_pos whole]
      exact ⟨.badParameter, by decide, rfl⟩

theorem handleAll_ends (fair : Fair delay) {requests : List Request}
    (accepted : ∀ request ∈ requests, Accepted request) :
    ∃ mode' burst', Ends (fun n => handleAll delay requests n) (resting registers mode burst)
      (serveAll registers requests).1 (resting (serveAll registers requests).2 mode' burst') := by
  induction requests generalizing registers mode burst with
  | nil => exact ⟨mode, burst, Ends.pure⟩
  | cons request rest ih =>
    have here := @acpiEcHandler_ends delay registers mode burst fair request
      (accepted request List.mem_cons_self)
    rcases @ih (serve registers request).2 .idle false
      (fun other mem => accepted other (List.mem_cons_of_mem request mem)) with ⟨mode', burst', later⟩
    refine ⟨mode', burst', ?_⟩
    refine Ends.bind here ?_
    exact Ends.bind later Ends.pure

end Requests

/-- For every finite delay of the controller at every access and every sequence of accepted requests
the ports are used properly, the requests are answered as their meaning says, the registers are those
of their meaning, and both buffers are empty again.  The sequence may end after any request, so the
buffers are empty after each. -/
theorem handleAll_transfers (delay : Schedule) (fair : Fair delay) (s : State)
    (input : s.controller.input = none) (output : s.controller.output = none)
    (pending : s.controller.pending = none) (uses : s.uses = []) (requests : List Request)
    (accepted : ∀ request ∈ requests, Accepted request) :
    ∃ t enough, (∀ n, enough ≤ n → (handleAll delay requests n).run s =
        (.ok (serveAll s.controller.registers requests).1, t)) ∧
      t.controller.registers = (serveAll s.controller.registers requests).2 ∧
      t.controller.ibf = false ∧ t.controller.obf = false ∧ Proper t.uses := by
  have rest := eq_resting input output pending
  have proper : Proper s.uses := by
    rw [uses]
    intro use mem
    exact absurd mem List.not_mem_nil
  rcases handleAll_ends fair accepted with ⟨mode', burst', ends⟩
  rcases ends s rest proper with ⟨t, ⟨enough, settles⟩, there, proper'⟩
  refine ⟨t, enough, settles, ?_, ?_, ?_, proper'⟩
  · rw [there]
    rfl
  · rw [there]
    rfl
  · rw [there]
    rfl

/-- A request to write two registers and one to read them back, with a controller that takes one step
before every third access. -/
theorem handleAll_transfers_slow :
    ∃ t enough, (∀ n, enough ≤ n →
      (handleAll (fun time => if time % 3 = 0 then 1 else 0)
        [⟨acpiWrite, 0x10, 16, some fun i => UInt8.ofNat (i + 7)⟩,
          ⟨acpiRead, 0x10, 16, some fun _ => 0⟩] n).run
        ⟨⟨fun _ => 0, none, none, none, .idle, false⟩, 0, []⟩ =
        (.ok (serveAll (fun _ => 0) [⟨acpiWrite, 0x10, 16, some fun i => UInt8.ofNat (i + 7)⟩,
          ⟨acpiRead, 0x10, 16, some fun _ => 0⟩]).1, t)) ∧
      t.controller.registers = (serveAll (fun _ => 0)
        [⟨acpiWrite, 0x10, 16, some fun i => UInt8.ofNat (i + 7)⟩,
          ⟨acpiRead, 0x10, 16, some fun _ => 0⟩]).2 ∧
      t.controller.ibf = false ∧ t.controller.obf = false ∧ Proper t.uses := by
  refine handleAll_transfers _ ?_ _ rfl rfl rfl rfl _ ?_
  · intro t
    refine ⟨3 * t, by omega, ?_⟩
    show 0 < if 3 * t % 3 = 0 then 1 else 0
    rw [Nat.mul_mod_right]
    decide
  · intro request mem
    rcases List.mem_cons.mp mem with rfl | mem
    · exact ⟨.inr rfl, by decide, by decide, by decide, by decide, rfl⟩
    · rw [List.mem_singleton.mp mem]
      exact ⟨.inl rfl, by decide, by decide, by decide, by decide, rfl⟩

end Vineyard.Ec
