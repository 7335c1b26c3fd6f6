import Mathlib.Data.List.Nodup
import Mathlib.Logic.Function.Basic
import Vineyard.Lib.Bytes

/-!
# Code that saves registers on a stack

Straight-line code on a machine with 64-bit registers, a stack pointer and byte memory.  The stack
grows downwards; `WordsAt mem a ws` says that the words `ws` lie at `a` and above.  Registers that are
pushed and popped in the opposite order have their values again, as long as the stack has room and the
words in between are left alone.
-/

namespace Assembly

open Bytes Function

/-- The registers `R` besides the stack pointer, memory, and a world that only functions change. -/
structure Machine (R W : Type) where
  regs : R → ℕ
  sp : ℕ
  mem : Memory
  world : W

/-- Instructions; `L` names the functions that are called. -/
inductive Instr (R L : Type) where
  | push (r : R)
  | pushImm (value : ℕ)
  | pop (r : R)
  /-- The stack pointer is copied to a register. -/
  | movSp (r : R)
  | addSp (n : ℕ)
  | call (f : L)
  /-- An instruction that changes only flags. -/
  | flags

variable {R L W : Type} {mem mem' : Memory} {a v : ℕ} {ws us : List ℕ}

/-- The stack pointer a word lower. -/
def down (sp : ℕ) : ℕ := (sp + (2 ^ 64 - 8)) % 2 ^ 64

theorem down_eq {sp : ℕ} (room : 8 ≤ sp) (word : sp < 2 ^ 64) : down sp = sp - 8 := by
  unfold down
  omega

namespace Machine

def push (m : Machine R W) (value : ℕ) : Machine R W :=
  { m with sp := down m.sp, mem := store m.mem (down m.sp) value 8 }

def pop [DecidableEq R] (m : Machine R W) (r : R) : Machine R W :=
  { m with regs := update m.regs r (load m.mem m.sp 8), sp := (m.sp + 8) % 2 ^ 64 }

/-- Pushes values, the first one first. -/
def pushAll (m : Machine R W) (values : List ℕ) : Machine R W := values.foldl push m

def popAll [DecidableEq R] (m : Machine R W) (rs : List R) : Machine R W := rs.foldl pop m

end Machine

/-- One instruction; a function that is called gets the machine as it is and may not return. -/
def Instr.run [DecidableEq R] (functions : L → Machine R W → Option (Machine R W)) :
    Instr R L → Machine R W → Option (Machine R W)
  | push r, m => some (m.push (m.regs r))
  | pushImm value, m => some (m.push value)
  | pop r, m => some (m.pop r)
  | movSp r, m => some { m with regs := update m.regs r m.sp }
  | addSp n, m => some { m with sp := (m.sp + n) % 2 ^ 64 }
  | call f, m => functions f m
  | flags, m => some m

/-- The instructions of a list, one after the other. -/
def run [DecidableEq R] (functions : L → Machine R W → Option (Machine R W)) (code : List (Instr R L))
    (m : Machine R W) : Option (Machine R W) :=
  code.foldlM (fun m i => i.run functions m) m

/-! ## Words in memory -/

/-- The words lie at `a` and above. -/
def WordsAt (mem : Memory) : ℕ → List ℕ → Prop
  | _, [] => True
  | a, w :: ws => load mem a 8 = w ∧ WordsAt mem (a + 8) ws

theorem WordsAt.congr (h : WordsAt mem a ws)
    (same : ∀ b, a ≤ b → b < a + 8 * ws.length → mem' b = mem b) :
    WordsAt mem' a ws := by
  induction ws generalizing a with
  | nil => trivial
  | cons w ws ih =>
    rw [List.length_cons] at same
    obtain ⟨first, rest⟩ := h
    refine ⟨?_, ih rest fun b low high => same b (by omega) (by omega)⟩
    rw [← first]
    exact load_congr fun i less => same _ (by omega) (by omega)

theorem wordsAt_append : WordsAt mem a (ws ++ us) ↔ WordsAt mem a ws ∧
      WordsAt mem (a + 8 * ws.length) us := by
  induction ws generalizing a with
  | nil => simp [WordsAt]
  | cons w ws ih =>
    rw [List.cons_append, WordsAt, WordsAt, ih, List.length_cons, and_assoc,
      show a + 8 * (ws.length + 1) = a + 8 + 8 * ws.length by omega]

/-! ## Pushing -/

section Push

variable {m : Machine R W}

@[simp] theorem Machine.push_regs : (m.push v).regs = m.regs := by
  unfold push
  rfl

theorem Machine.pushAll_cons {values : List ℕ} :
    m.pushAll (v :: values) = (m.push v).pushAll values := by
  rw [pushAll, List.foldl_cons, pushAll]

theorem Machine.push_sp (room : 8 ≤ m.sp) (word : m.sp < 2 ^ 64) : (m.push v).sp = m.sp - 8 :=
  down_eq room word

theorem Machine.push_mem (room : 8 ≤ m.sp) (word : m.sp < 2 ^ 64) :
    (m.push v).mem = store m.mem (m.sp - 8) v 8 := by
  rw [push, down_eq room word]

/-- Memory at and above the stack pointer is left alone. -/
theorem Machine.push_above {b : ℕ} (room : 8 ≤ m.sp) (word : m.sp < 2 ^ 64)
    (off : b < m.sp - 8 ∨ m.sp ≤ b) : (m.push v).mem b = m.mem b := by
  rw [push_mem room word]
  exact store_outside (by omega)

theorem Machine.pushAll_world {values : List ℕ} : (m.pushAll values).world = m.world := by
  induction values generalizing m with
  | nil => rfl
  | cons v values ih =>
    rw [pushAll_cons, ih]
    unfold push
    rfl

/-- After pushing values the stack holds them, the last one lowest. -/
theorem Machine.pushAll_spec {values : List ℕ} (room : 8 * values.length ≤ m.sp)
    (word : m.sp < 2 ^ 64) (small : ∀ w ∈ values, w < 2 ^ 64) (h : WordsAt m.mem m.sp ws) :
    (m.pushAll values).regs = m.regs ∧ (m.pushAll values).sp = m.sp - 8 * values.length ∧
      WordsAt (m.pushAll values).mem (m.pushAll values).sp (values.reverse ++ ws) ∧
      ∀ b, b < m.sp - 8 * values.length ∨ m.sp ≤ b → (m.pushAll values).mem b = m.mem b := by
  induction values generalizing m ws with
  | nil => exact ⟨rfl, rfl, h, fun _ _ => rfl⟩
  | cons w values ih =>
    rw [List.length_cons] at room ⊢
    obtain ⟨smallW, small⟩ := List.forall_mem_cons.1 small
    have sp := push_sp (v := w) (m := m) (by omega) word
    have top : load (m.push w).mem (m.push w).sp 8 = w := by
      rw [push_mem (by omega) word, sp]
      exact load_store (by simpa using smallW)
    have below : WordsAt (m.push w).mem (m.push w).sp (w :: ws) := by
      refine ⟨top, ?_⟩
      rw [sp, show m.sp - 8 + 8 = m.sp by omega]
      exact h.congr fun b low _ => push_above (by omega) word (.inr low)
    obtain ⟨regs, sp', words, above⟩ := ih (m := m.push w) (by omega) (by omega) small below
    rw [sp] at sp' above
    rw [pushAll_cons]
    refine ⟨regs.trans push_regs, by omega, ?_, fun b off => ?_⟩
    · rwa [List.reverse_cons, List.append_assoc]
    · rw [above b (by omega), push_above (by omega) word (by omega)]

end Push

/-! ## Popping -/

section Pop

variable [DecidableEq R] {m : Machine R W}

theorem Machine.popAll_cons {r : R} {rs : List R} : m.popAll (r :: rs) = (m.pop r).popAll rs := rfl

@[simp] theorem Machine.pop_mem {r : R} : (m.pop r).mem = m.mem := rfl

@[simp] theorem Machine.pop_regs {r q : R} :
    (m.pop r).regs q = if q = r then load m.mem m.sp 8 else m.regs q :=
  update_apply ..

theorem Machine.pop_sp {r : R} (word : m.sp + 8 < 2 ^ 64) : (m.pop r).sp = m.sp + 8 :=
  Nat.mod_eq_of_lt word

theorem Machine.popAll_world {rs : List R} : (m.popAll rs).world = m.world := by
  induction rs generalizing m with
  | nil => rfl
  | cons r rs ih =>
    rw [popAll_cons, ih]
    rfl

theorem Machine.popAll_spec {rs : List R} (nodup : rs.Nodup) (length : ws.length = rs.length)
    (word : m.sp + 8 * rs.length < 2 ^ 64) (h : WordsAt m.mem m.sp ws) :
    rs.map (m.popAll rs).regs = ws ∧ (∀ r, r ∉ rs → (m.popAll rs).regs r = m.regs r) ∧
      (m.popAll rs).sp = m.sp + 8 * rs.length ∧ (m.popAll rs).mem = m.mem := by
  induction rs generalizing m ws with
  | nil =>
    obtain rfl := List.eq_nil_of_length_eq_zero length
    exact ⟨rfl, fun _ _ => rfl, rfl, rfl⟩
  | cons r rs ih =>
    obtain ⟨fresh, nodup⟩ := List.nodup_cons.1 nodup
    obtain _ | ⟨w, ws⟩ := ws
    · cases length
    rw [List.length_cons] at word ⊢
    obtain ⟨first, rest⟩ := h
    have sp : (m.pop r).sp = m.sp + 8 := pop_sp (by omega)
    obtain ⟨values, other, sp', mem⟩ := ih (m := m.pop r) nodup (by simpa using length) (by omega)
      (sp.symm ▸ rest)
    rw [popAll_cons]
    refine ⟨?_, fun q out => ?_, by omega, mem.trans pop_mem⟩
    · rw [List.map_cons, values, other r fresh, pop_regs, if_pos rfl, first]
    · rw [List.mem_cons, not_or] at out
      rw [other q out.2, pop_regs, if_neg out.1]

end Pop

/-! ## Code -/

section Code

variable [DecidableEq R] (functions : L → Machine R W → Option (Machine R W)) {m : Machine R W}

theorem run_append (code code' : List (Instr R L)) :
    run functions (code ++ code') m = (run functions code m).bind (run functions code') :=
  List.foldlM_append

theorem run_cons (i : Instr R L) (code : List (Instr R L)) :
    run functions (i :: code) m = (i.run functions m).bind (run functions code) := rfl

/-- Registers pushed one after the other. -/
theorem run_pushes (rs : List R) :
    run functions (rs.map .push) m = some (m.pushAll (rs.map m.regs)) := by
  induction rs generalizing m with
  | nil => rfl
  | cons r rs ih =>
    rw [List.map_cons, run_cons, Instr.run, Option.bind_some, ih, Machine.push_regs, List.map_cons,
      Machine.pushAll_cons]

theorem run_pops (rs : List R) : run functions (rs.map .pop) m = some (m.popAll rs) := by
  induction rs generalizing m with
  | nil => rfl
  | cons r rs ih =>
    rw [List.map_cons, run_cons, Instr.run, Option.bind_some, ih, Machine.popAll_cons]

end Code

end Assembly
