import Vineyard.Stdio.Integers

/-!
# `vasprintf`

The output is collected in a buffer that grows with `realloc`.  The halved length is never enough, so
every growth is to exactly what is needed, and there is always room for the terminator that is written
at the end.
-/

namespace Vineyard

open Programs Programs.Prog

/-- `malloc` and `realloc` as far as they succeed: blocks of the size asked for, and the old contents
where both sizes have them. -/
structure Allocator where
  malloc : ℕ → List Byte
  realloc : List Byte → ℕ → List Byte
  malloc_length : ∀ n, (malloc n).length = n
  realloc_length : ∀ buf n, (realloc buf n).length = n
  realloc_take : ∀ buf n, (realloc buf n).take (min buf.length n) = buf.take (min buf.length n)

/-- `struct vasprintf_state` -/
structure VasprintfState where
  buf : List Byte
  len : ℕ
  used : ℕ
  /-- The indices that were written, each with the size of the buffer. -/
  writes : List (ℕ × ℕ)
  deriving DecidableEq

namespace VasprintfState

def write (state : VasprintfState) (index : ℕ) (c : Byte) : VasprintfState :=
  { state with
    buf := state.buf.set index c
    writes := state.writes ++ [(index, state.buf.length)] }

/-- `memcpy(state->buf + index, string, length)` -/
def memcpy (state : VasprintfState) (index : ℕ) : List Byte → VasprintfState
  | [] => state
  | c :: string => (state.write index c).memcpy (index + 1) string

/-- `realloc` when there is not enough room. -/
def grow (alloc : Allocator) (state : VasprintfState) (lenNeeded : ℕ) : VasprintfState :=
  if state.len < lenNeeded then
    let lenNew := state.len >>> 1
    let lenNew := if lenNew < lenNeeded then lenNeeded else lenNew
    { state with buf := alloc.realloc state.buf lenNew, len := lenNew }
  else state

/-- Before the first call. -/
def start (alloc : Allocator) : VasprintfState := ⟨alloc.malloc 1024, 1024, 0, []⟩

end VasprintfState

def vasprintfCallback (alloc : Allocator) : PrintfCallback VasprintfState := fun state string =>
  let lenNeeded := (state.used + string.length + 1) % 2 ^ 64
  let state := state.grow alloc lenNeeded
  let state := state.memcpy state.used string
  (string.length, { state with used := (state.used + string.length) % 2 ^ 64 })

/-- Returns the value and the state, whose buffer is `*strp`. -/
def vasprintf (alloc : Allocator) (format : Option (List Byte)) (args : List VaArg) :
    Except PrintfStop (ℤ × VasprintfState) :=
  match vcbprintf (.start alloc) (some (vasprintfCallback alloc)) format args with
  | .ok (ret, state) => .ok (ret, state.write state.used 0)
  | .error stop => .error stop

/-! ## The buffer -/

/-- The state holds the output so far, has room for a terminator, and was only written inside. -/
structure Collects (out : List Byte) (state : VasprintfState) : Prop where
  used_eq : state.used = out.length
  buf_length : state.buf.length = state.len
  room : state.used < state.len
  kept : state.buf.take state.used = out
  inside : ∀ w ∈ state.writes, w.1 < w.2

variable {alloc : Allocator} {out : List Byte} {state : VasprintfState}

theorem Collects.start (alloc : Allocator) : Collects [] (.start alloc) where
  used_eq := rfl
  buf_length := alloc.malloc_length 1024
  room := by
    show 0 < 1024
    omega
  kept := List.take_zero
  inside := fun _ mem => by cases mem

variable (alloc) in
/-- A growth gives what is needed and keeps what is there. -/
theorem Collects.grow (collects : Collects out state) (lenNeeded : ℕ) :
    Collects out (state.grow alloc lenNeeded) ∧ lenNeeded ≤ (state.grow alloc lenNeeded).len := by
  unfold VasprintfState.grow
  split_ifs with short
  · have half : state.len >>> 1 < lenNeeded := by
      rw [Nat.shiftRight_eq_div_pow]
      omega
    dsimp only
    rw [if_pos half]
    have size := collects.buf_length
    have room := collects.room
    have same := alloc.realloc_take state.buf lenNeeded
    rw [Nat.min_eq_left (by omega)] at same
    refine ⟨⟨collects.used_eq, alloc.realloc_length _ _, ?_, ?_, collects.inside⟩, Nat.le_refl _⟩
    · exact Nat.lt_trans room short
    · have cut := congrArg (List.take state.used) same
      rw [List.take_take, List.take_take, Nat.min_eq_left (by omega)] at cut
      exact cut.trans collects.kept
  · exact ⟨collects, Nat.le_of_not_lt short⟩

theorem write_take (state : VasprintfState) {index : ℕ} (c : Byte) (lt : index < state.buf.length) :
    (state.write index c).buf.take (index + 1) = state.buf.take index ++ [c] := by
  show (state.buf.set index c).take (index + 1) = _
  rw [List.take_add_one, List.take_set_of_le (Nat.le_refl _), List.getElem?_set_self lt]
  rfl

theorem write_inside (state : VasprintfState) {index : ℕ} (c : Byte) (lt : index < state.buf.length)
    (inside : ∀ w ∈ state.writes, w.1 < w.2) : ∀ w ∈ (state.write index c).writes, w.1 < w.2 := by
  intro w mem
  rcases List.mem_append.mp mem with earlier | now
  · exact inside w earlier
  · obtain rfl := List.mem_singleton.mp now
    exact lt

/-- What a copy into the buffer does. -/
theorem memcpy_spec (string : List Byte) : ∀ (state : VasprintfState) (index : ℕ),
    index + string.length ≤ state.buf.length →
      (state.memcpy index string).buf.take (index + string.length) = state.buf.take index ++ string ∧
      (state.memcpy index string).buf.length = state.buf.length ∧
      (state.memcpy index string).len = state.len ∧
      (state.memcpy index string).used = state.used ∧
      ((∀ w ∈ state.writes, w.1 < w.2) → ∀ w ∈ (state.memcpy index string).writes, w.1 < w.2) := by
  induction string with
  | nil =>
    intro state index fits
    exact ⟨(List.append_nil _).symm, rfl, rfl, rfl, fun inside => inside⟩
  | cons c string ih =>
    intro state index fits
    rw [List.length_cons] at fits ⊢
    have written : (state.write index c).buf.length = state.buf.length := List.length_set
    obtain ⟨taken, size, len, used, inside⟩ := ih (state.write index c) (index + 1) (by omega)
    rw [VasprintfState.memcpy]
    have lt : index < state.buf.length := by omega
    refine ⟨?_, size.trans written, len, used, fun old => inside (write_inside state c lt old)⟩
    rw [← Nat.add_assoc, Nat.add_right_comm, taken, write_take state c lt, List.append_assoc]
    rfl

/-- A callback adds its chunk. -/
theorem Collects.callback (collects : Collects out state) {string : List Byte}
    (small : (out ++ string).length < 2 ^ 63) :
    Collects (out ++ string) (vasprintfCallback alloc state string).2 := by
  rw [List.length_append] at small
  have used := collects.used_eq
  have needed : (state.used + string.length + 1) % 2 ^ 64 = state.used + string.length + 1 :=
    Nat.mod_eq_of_lt (by omega)
  have total : (state.used + string.length) % 2 ^ 64 = state.used + string.length :=
    Nat.mod_eq_of_lt (by omega)
  obtain ⟨grown, enough⟩ := collects.grow alloc (state.used + string.length + 1)
  have usedSame : (state.grow alloc (state.used + string.length + 1)).used = state.used :=
    grown.used_eq.trans used.symm
  obtain ⟨taken, size, len, used', inside⟩ := memcpy_spec string
    (state.grow alloc (state.used + string.length + 1)) state.used (by rw [grown.buf_length]; omega)
  have kept := grown.kept
  rw [usedSame] at kept
  unfold vasprintfCallback
  dsimp only
  rw [needed, usedSame]
  constructor
  · show (_ + _) % 2 ^ 64 = _
    rw [used', usedSame, total, List.length_append, used]
  · show List.length _ = _
    rw [size, len, grown.buf_length]
  · show (_ + _) % 2 ^ 64 < _
    rw [used', usedSame, total, len]
    omega
  · show List.take ((_ + _) % 2 ^ 64) _ = _
    rw [used', usedSame, total, taken, kept]
  · exact inside grown.inside

theorem accepts_vasprintf (alloc : Allocator) : Accepts (vasprintfCallback alloc) := fun _ _ => rfl

variable (alloc) in
/-- However the output is cut into chunks, it is collected. -/
theorem Collects.calls (chunks : List (List Byte)) : ∀ {out : List Byte} {state : VasprintfState},
    Collects out state → (out ++ chunks.flatten).length < 2 ^ 63 →
      Collects (out ++ chunks.flatten)
        (chunks.foldl (fun state chunk => (vasprintfCallback alloc state chunk).2) state) := by
  induction chunks with
  | nil =>
    intro out state collects _
    rwa [List.flatten_nil, List.append_nil]
  | cons chunk chunks ih =>
    intro out state collects small
    rw [List.flatten_cons, ← List.append_assoc] at small ⊢
    refine ih (collects.callback ?_) small
    rw [List.length_append] at small
    omega

/-- The state behind some calls. -/
def vasprintfState (alloc : Allocator) (chunks : List (List Byte)) : VasprintfState :=
  chunks.foldl (fun state chunk => (vasprintfCallback alloc state chunk).2) (.start alloc)

theorem vasprintfState_collects (alloc : Allocator) (chunks : List (List Byte))
    (small : chunks.flatten.length < 2 ^ 63) :
    Collects chunks.flatten (vasprintfState alloc chunks) := by
  have collects := (Collects.start alloc).calls alloc chunks
  rw [List.nil_append] at collects
  exact collects small

/-! ## The whole output -/

/-- **`vasprintf` collects the whole output.**  It returns with the output and a terminator in the
buffer, every write was inside the buffer, and behind every call there was room for one byte more. -/
theorem vasprintf_collects (alloc : Allocator) (format : List Byte) (args left : List VaArg)
    (out : List Byte) (given : delivers format args = .ok (out, left)) (small : out.length < 2 ^ 63) :
    ∃ n state, vasprintf alloc (some format) args = .ok (n, state) ∧
      state.buf.take (out.length + 1) = out ++ [0] ∧
      (∀ w ∈ state.writes, w.1 < w.2) ∧
      ((callsMade (vasprintfCallback alloc) (.start alloc) format args).map Prod.fst).flatten = out ∧
      ∀ before, before <+:
          (callsMade (vasprintfCallback alloc) (.start alloc) format args).map Prod.fst →
        (vasprintfState alloc before).used < (vasprintfState alloc before).len := by
  obtain ⟨ends, rfl⟩ := scan_of_delivers given
  have calls : (callsMade (vasprintfCallback alloc) (.start alloc) format args).map Prod.fst =
      (scan format args).chunks := by
    rw [callsMade_eq, (accepts_vasprintf alloc).handed]
  rw [calls]
  have collects := vasprintfState_collects alloc (scan format args).chunks small
  have returned := vcbprintf_accepted
    ((accepts_vasprintf alloc).feed (scan format args).chunks (.start alloc))
  rw [ends] at returned
  have room := collects.room
  rw [← collects.buf_length] at room
  have run : vasprintf alloc (some format) args =
      .ok ((scan format args).returns, (vasprintfState alloc (scan format args).chunks).write
        (vasprintfState alloc (scan format args).chunks).used 0) := by
    rw [vasprintf, returned]
    rfl
  refine ⟨_, _, run, ?_, write_inside _ 0 room collects.inside, rfl, ?_⟩
  · have last := write_take _ 0 room
    rw [collects.kept, collects.used_eq] at last
    rw [← last, ← collects.used_eq]
  · rintro before ⟨later, whole⟩
    refine (vasprintfState_collects alloc before ?_).room
    rw [← whole, List.flatten_append, List.length_append] at small
    omega

/-- Zeros behind the old contents. -/
def zeroAllocator : Allocator where
  malloc n := List.replicate n 0
  realloc buf n := buf.take n ++ List.replicate (n - buf.length) 0
  malloc_length n := List.length_replicate
  realloc_length buf n := by
    rw [List.length_append, List.length_take, List.length_replicate]
    omega
  realloc_take buf n := by
    rw [List.take_append_of_le_length (by rw [List.length_take]; omega), List.take_take,
      Nat.min_comm buf.length n, Nat.min_eq_left (Nat.min_le_left _ _)]

/-- `%u` with 42 -/
theorem vasprintf_collects_number :
    ∃ n state, vasprintf zeroAllocator (some ("%u".toList.map ascii)) [.int 42] = .ok (n, state) ∧
      state.buf.take (("42".toList.map ascii).length + 1) = "42".toList.map ascii ++ [0] ∧
      (∀ w ∈ state.writes, w.1 < w.2) ∧
      ((callsMade (vasprintfCallback zeroAllocator) (.start zeroAllocator) ("%u".toList.map ascii)
        [.int 42]).map Prod.fst).flatten = "42".toList.map ascii ∧
      ∀ before, before <+: (callsMade (vasprintfCallback zeroAllocator) (.start zeroAllocator)
          ("%u".toList.map ascii) [.int 42]).map Prod.fst →
        (vasprintfState zeroAllocator before).used < (vasprintfState zeroAllocator before).len :=
  vasprintf_collects zeroAllocator ("%u".toList.map ascii) [.int 42] [] ("42".toList.map ascii)
    (by decide +kernel) (by decide)

end Vineyard
