import Vineyard.Acpi.Transfers

/-!
# The address space of the embedded controller

The handler adds the length of a request to its address in 64 bits and takes the request when the sum
is at most 0xFF.  A request whose last register is 0xFF is refused, and one whose sum wraps around is
taken.
-/

namespace Vineyard.Ec

open Bytes Programs Programs.Prog

namespace Request

/-- The end of the registers of a request, without wrap-around. -/
def stop (request : Request) : ℕ := request.address + request.bits / 8

/-- The request asks for whole registers to be moved, in one of the two directions. -/
def Sound (request : Request) : Prop :=
  (request.function = acpiRead ∨ request.function = acpiWrite) ∧ request.value.isSome ∧
    request.bits % 8 = 0

instance (request : Request) : Decidable request.Sound := inferInstanceAs (Decidable (_ ∧ _))

/-- All registers of the request are in the address space, 0x00 to 0xFF. -/
def Valid (request : Request) : Prop := request.Sound ∧ request.stop ≤ 0x100

instance (request : Request) : Decidable request.Valid := inferInstanceAs (Decidable (_ ∧ _))

/-- The request passes the tests of the handler. -/
def Taken (request : Request) : Prop :=
  request.Sound ∧ Word64.add request.address (request.bits >>> 3) ≤ 0xFF

end Request

/-- A request is answered with `AE_OK` after accesses to the ports if it is valid, and with an error
and without an access if it is not. -/
def Answers (delay : Schedule) (s : State) (request : Request) : Prop :=
  if request.Valid then ∃ value t, Settles (acpiEcHandler delay request) s (.ok, value) t ∧
    s.time < t.time
  else ∃ status value, status ≠ .ok ∧ Settles (acpiEcHandler delay request) s (status, value) s

section Accesses

variable {delay : Schedule} {time : ℕ}

/-- No access is taken back. -/
abbrev Later {α : Type} (time : ℕ) (m : EcM α) : Prop := Keeps (fun s => time ≤ s.time) m

/-- The program begins with an access. -/
abbrev Accesses {α : Type} (time : ℕ) (m : EcM α) : Prop :=
  Triple (fun s => time ≤ s.time) m (fun _ s => time + 1 ≤ s.time) fun s => time + 1 ≤ s.time

theorem Accesses.bind {α β : Type} {m : EcM α} {f : α → EcM β} (first : Accesses time m)
    (rest : ∀ a, Later (time + 1) (f a)) : Accesses time (m >>= f) := Triple.bind first rest

theorem Accesses.later {α : Type} {m : EcM α} (accesses : Accesses time m) : Later time m := by
  constructor
  intro s le
  have ends := accesses.ends s le
  cases outcome : m.run s with
  | mk result t =>
    rw [outcome] at ends
    cases result <;> exact Nat.le_of_succ_le ends

theorem later_pure {α : Type} (a : α) : Later time (pure a : EcM α) := Triple.pure fun _ le => le

theorem elapse_accesses : Accesses time (elapse delay) := Triple.modify fun _ le =>
      Nat.succ_le_succ le

theorem readCommand_accesses : Accesses time (acpiEcReadCommand delay) :=
  elapse_accesses.bind fun _ => Triple.get_bind fun _ le => Triple.pure fun _ same => same ▸ le

theorem readData_accesses : Accesses time (acpiEcReadData delay) :=
  elapse_accesses.bind fun _ => Triple.get_bind fun _ le =>
    Triple.modify_bind (M := fun s => time + 1 ≤ s.time) (fun _ same => same ▸ le) (later_pure _)

theorem writePort_accesses (input : Input) : Accesses time (writePort delay input) :=
  elapse_accesses.bind fun _ => Triple.modify fun _ le => le

theorem poll_later (event : Event) (n : ℕ) : Later time (acpiEcPollEvent delay event n) := by
  induction n with
  | zero => exact Triple.fail fun _ le => le
  | succ n ih =>
    exact readCommand_accesses.later.bind fun _ => Triple.ite (fun _ => later_pure _) fun _ => ih

theorem poll_accesses (event : Event) (n : ℕ) : Accesses time (acpiEcPollEvent delay event (n + 1)) :=
  readCommand_accesses.bind fun _ => Triple.ite (fun _ => later_pure _) fun _ => poll_later event n

theorem command_later (command : UInt8) (n : ℕ) : Later time (acpiEcCommand delay command n) := by
  have rest (event : Event) : Later time (acpiEcPollEvent delay .inputBufferEmpty n >>= fun _ =>
      acpiEcWriteCommand delay command >>= fun _ => acpiEcPollEvent delay event n) :=
    (poll_later _ n).bind fun _ => (writePort_accesses _).later.bind fun _ => poll_later event n
  unfold acpiEcCommand
  refine Triple.ite (fun _ => rest _) fun _ => Triple.ite (fun _ => rest _) fun _ => ?_
  exact Keeps.bind (Triple.fail fun _ le => le) rest

theorem burstEnable_accesses (n : ℕ) : Accesses time (acpiEcBurstEnable delay (n + 1)) := by
  have command : Accesses time (acpiEcCommand delay 0x82 (n + 1)) :=
    (poll_accesses _ n).bind fun _ => (writePort_accesses _).later.bind fun _ => poll_later _ (n + 1)
  refine command.bind fun _ => readData_accesses.later.bind fun _ => ?_
  exact Triple.ite (fun _ => Triple.fail fun _ le => le) fun _ => later_pure _

theorem readLoop_later (addr : UInt8) (n left reg : ℕ) (buf : Memory) :
    Later time (readLoop delay addr n reg left buf) := by
  have byte (addr : UInt8) : Later time (acpiEcRead1 delay addr n) :=
    (command_later _ n).bind fun _ => (writePort_accesses _).later.bind fun _ =>
      (poll_later _ n).bind fun _ => readData_accesses.later
  induction left generalizing reg buf with
  | zero => exact later_pure _
  | succ left ih => exact (byte _).bind fun _ => ih _ _

theorem writeLoop_later (addr : UInt8) (buf : Memory) (n left reg : ℕ) :
    Later time (writeLoop delay addr buf n reg left) := by
  have byte (addr val : UInt8) : Later time (acpiEcWrite1 delay addr val n) :=
    (command_later _ n).bind fun _ => (writePort_accesses _).later.bind fun _ =>
      (poll_later _ n).bind fun _ => (writePort_accesses _).later.bind fun _ => poll_later _ n
  induction left generalizing reg with
  | zero => exact later_pure _
  | succ left ih => exact (byte _ _).bind fun _ => ih _

theorem read_accesses (addr : UInt8) (len : ℕ) (buf : Memory) (n : ℕ) :
    Accesses time (acpiEcRead delay addr len buf (n + 1)) :=
  (burstEnable_accesses n).bind fun _ => (readLoop_later _ _ _ _ _).bind fun _ =>
    (command_later _ _).bind fun _ => later_pure _

theorem write_accesses (addr : UInt8) (len : ℕ) (buf : Memory) (n : ℕ) :
    Accesses time (acpiEcWrite delay addr len buf (n + 1)) :=
  (burstEnable_accesses n).bind fun _ => (writeLoop_later _ _ _ _ _).bind fun _ => command_later _ _

end Accesses

section Handler

variable {delay : Schedule} {request : Request}

/-- The tests of the handler, in its order. -/
theorem acpiEcHandler_refused (delay : Schedule) (refused : ¬ request.Taken) :
    ∃ status, status ≠ .ok ∧ ∀ n, acpiEcHandler delay request n = pure (status, request.value) := by
  rcases request with ⟨function, address, bits, value⟩
  unfold acpiEcHandler
  dsimp only
  by_cases unknown : function ≠ acpiRead ∧ function ≠ acpiWrite
  · exact ⟨.badParameter, by decide, fun n => by rw [if_pos unknown]⟩
  by_cases outside : Word64.add address (bits >>> 3) > 0xFF
  · exact ⟨.badAddress, by decide, fun n => by rw [if_neg unknown, if_pos outside]⟩
  refine ⟨.badParameter, by decide, fun n => ?_⟩
  rw [if_neg unknown, if_neg outside]
  cases value with
  | none => rfl
  | some buf =>
    have odd : bits % 8 ≠ 0 := fun whole =>
      refused ⟨⟨by tauto, rfl, whole⟩, Nat.le_of_not_lt outside⟩
    dsimp only
    rw [if_pos odd]

/-- A request that passes the tests is answered with `AE_OK` after an access, if at all. -/
theorem acpiEcHandler_taken (delay : Schedule) (taken : request.Taken) (time n : ℕ) :
    Triple (fun s => time ≤ s.time)
    (acpiEcHandler delay request (n + 1)) (fun answer s => answer.1 = .ok ∧ time + 1 ≤ s.time)
    fun s => time + 1 ≤ s.time := by
  rcases request with ⟨function, address, bits, value⟩
  rcases taken with ⟨⟨known, some, whole⟩, inside⟩
  rcases Option.isSome_iff_exists.1 some with ⟨buf, rfl⟩
  dsimp only at known whole inside
  have known : ¬ (function ≠ acpiRead ∧ function ≠ acpiWrite) := by tauto
  unfold acpiEcHandler
  dsimp only
  rw [if_neg known, if_neg (Nat.not_lt.2 inside), if_neg (not_not.2 whole)]
  refine Triple.ite (fun _ => ?_) fun _ => ?_
  · exact Triple.bind (read_accesses _ _ _ n) fun _ => Triple.pure fun _ le => ⟨rfl, le⟩
  · exact Triple.bind (write_accesses _ _ _ n) fun _ => Triple.pure fun _ le => ⟨rfl, le⟩

/-- What a request that passes the tests settles with. -/
theorem settles_of_taken (taken : request.Taken) {s t : State} {answer : AcpiStatus × Option Memory}
    (settles : Settles (acpiEcHandler delay request) s answer t) :
    answer.1 = .ok ∧ s.time < t.time := by
  rcases settles with ⟨enough, settles⟩
  have ends := (acpiEcHandler_taken delay taken s.time enough).ends s le_rfl
  rw [settles (enough + 1) (Nat.le_succ enough)] at ends
  exact ends

theorem settles_of_refused (delay : Schedule) (refused : ¬ request.Taken) (s : State) :
    ∃ status value, status ≠ .ok ∧ Settles (acpiEcHandler delay request) s (status, value) s := by
  rcases acpiEcHandler_refused delay refused with ⟨status, error, same⟩
  refine ⟨status, request.value, error, 0, fun n _ => ?_⟩
  rw [same n, run_pure]

/-- A valid request that passes the tests is one of those that the transfers are about. -/
theorem accepted_of_taken (taken : request.Taken) (valid : request.Valid)
    (bits_lt : request.bits < 2 ^ 32) : Accepted request := by
  have len : request.bits >>> 3 = request.bits / 8 := Nat.shiftRight_eq_div_pow _ 3
  have stop : request.address + request.bits / 8 ≤ 0x100 := valid.2
  have inside := taken.2
  rw [len, Word64.add_eq (by omega)] at inside
  exact ⟨taken.1.1, by omega, bits_lt, taken.1.2.2, inside, taken.1.2.1⟩

end Handler

/-- The controller has nothing in its buffers. -/
def Rests (s : State) : Prop :=
  s.controller.input = none ∧ s.controller.output = none ∧ s.controller.pending = none ∧ s.uses = []

theorem answers_iff {delay : Schedule} (fair : Fair delay) {s : State} (rests : Rests s)
    {request : Request} (bits_lt : request.bits < 2 ^ 32) : Answers delay s request ↔
      (request.Valid ↔ request.Taken) := by
  unfold Answers
  by_cases valid : request.Valid
  · rw [if_pos valid]
    simp only [valid, true_iff]
    constructor
    · rintro ⟨value, t, settles, _⟩
      by_contra refused
      rcases settles_of_refused delay refused s with ⟨status, value', error, pure⟩
      exact error (Prod.mk.inj (pure.unique settles).1).1
    · intro taken
      have accepted := accepted_of_taken taken valid bits_lt
      have proper : Proper s.uses := by simp [Proper, rests.2.2.2]
      rcases acpiEcHandler_ends fair accepted s (eq_resting rests.1 rests.2.1 rests.2.2.1) proper with
        ⟨t, settles, _⟩
      have good := settles_of_taken taken settles
      refine ⟨(serve s.controller.registers request).1.2, t, ?_, good.2⟩
      rw [← good.1]
      exact settles
  · rw [if_neg valid]
    simp only [valid, false_iff]
    constructor
    · rintro ⟨status, value, error, settles⟩ taken
      exact error (settles_of_taken taken settles).1
    · exact fun refused => settles_of_refused delay refused s

/-- The handler takes the requests inside the address space and no others, but for those that end right
behind register 0xFF and those whose end wraps around into the address space. -/
theorem valid_iff_taken {request : Request} (address_lt : request.address < 2 ^ 64)
    (bits_lt : request.bits < 2 ^ 32) : (request.Valid ↔ request.Taken) ↔
      (request.Sound → request.stop ≠ 0x100 ∧
        ¬ (2 ^ 64 ≤ request.stop ∧ request.stop < 2 ^ 64 + 0x100)) := by
  have len : request.bits >>> 3 = request.bits / 8 := Nat.shiftRight_eq_div_pow _ 3
  unfold Request.Valid Request.Taken Request.stop Word64.add
  rw [len]
  by_cases sound : request.Sound
  · simp only [sound, true_and, true_implies]
    omega
  · simp [sound]

/-- A request is answered as the address space 0x00 to 0xFF asks for exactly when it is malformed
anyway, or ends neither behind register 0xFF nor, wrapped around, in the address space. -/
theorem acpiEcHandler_answers_iff (delay : Schedule) (fair : Fair delay) (s : State) (rests : Rests s)
    (request : Request) (address_lt : request.address < 2 ^ 64) (bits_lt : request.bits < 2 ^ 32) :
    Answers delay s request ↔
      (request.Sound → request.stop ≠ 0x100 ∧
        ¬ (2 ^ 64 ≤ request.stop ∧ request.stop < 2 ^ 64 + 0x100)) :=
  (answers_iff fair rests bits_lt).trans (valid_iff_taken address_lt bits_lt)

/-- A controller with nothing to do, before the first access. -/
def idleState : State := ⟨⟨fun _ => 0, none, none, none, .idle, false⟩, 0, []⟩

theorem fair_one : Fair fun _ => 1 := fun t => ⟨t, le_rfl, Nat.one_pos⟩

theorem acpiEcHandler_answers_last_word :
    Answers (fun _ => 1) idleState ⟨acpiRead, 0xFC, 16, some fun _ => 0⟩ ↔
    ((⟨acpiRead, 0xFC, 16, some fun _ => 0⟩ : Request).Sound →
      (⟨acpiRead, 0xFC, 16, some fun _ => 0⟩ : Request).stop ≠ 0x100 ∧
      ¬ (2 ^ 64 ≤ (⟨acpiRead, 0xFC, 16, some fun _ => 0⟩ : Request).stop ∧
        (⟨acpiRead, 0xFC, 16, some fun _ => 0⟩ : Request).stop < 2 ^ 64 + 0x100)) :=
  acpiEcHandler_answers_iff _ fair_one idleState ⟨rfl, rfl, rfl, rfl⟩ _ (by decide) (by decide)

/-- The last register cannot be read, and a request at the end of the 64-bit addresses is taken. -/
theorem acpiEcHandler_last_register :
    ¬ Answers (fun _ => 1) idleState ⟨acpiRead, 0xFF, 8, some fun _ => 0⟩ ∧
      ¬ Answers (fun _ => 1) idleState ⟨acpiRead, 2 ^ 64 - 1, 8, some fun _ => 0⟩ := by
  have rests : Rests idleState := ⟨rfl, rfl, rfl, rfl⟩
  rw [answers_iff fair_one rests (by decide), answers_iff fair_one rests (by decide),
    valid_iff_taken (by decide) (by decide), valid_iff_taken (by decide) (by decide)]
  decide

end Vineyard.Ec
