import Vineyard.Lib.Words
import Vineyard.Lib.Fallible

/-!
# Pages, page-table entries and the ways a kernel function can stop

The constants are those of `mm/page.h`, `mm/virtual.h`, `mm/physical.h` and `mm/slab.h`.  Words of
the machine are natural numbers; sums and differences that can leave the 64-bit range are reduced
explicitly (`Word64.add`, `Word64.sub`).
-/

namespace Vineyard

/-- What ends a kernel function other than its return. -/
inductive Fault where
  | panic (message : String)
  | assertion (expression : String)
  /-- The MMU finds no translation for the address. -/
  | pageFault (address : ℕ)
  /-- An array is indexed outside its bounds. -/
  | outOfBounds (index : ℕ)
  /-- A loop or a recursion passes the bound below which it has to repeat a state. -/
  | endless
  deriving DecidableEq, Repr

namespace Word64

def add (a b : ℕ) : ℕ := (a + b) % 2 ^ 64

def sub (a b : ℕ) : ℕ := (a + (2 ^ 64 - b % 2 ^ 64)) % 2 ^ 64

theorem add_eq {a b : ℕ} (fits : a + b < 2 ^ 64) : add a b = a + b := Nat.mod_eq_of_lt fits

theorem sub_eq {a b : ℕ} (le : b ≤ a) (fits : a - b < 2 ^ 64) : sub a b = a - b := by
  rw [sub]
  omega

end Word64

namespace Word32

def add (a b : ℕ) : ℕ := (a + b) % 2 ^ 32

def sub (a b : ℕ) : ℕ := (a + (2 ^ 32 - b % 2 ^ 32)) % 2 ^ 32

def mul (a b : ℕ) : ℕ := a * b % 2 ^ 32

theorem add_eq {a b : ℕ} (fits : a + b < 2 ^ 32) : add a b = a + b := Nat.mod_eq_of_lt fits

theorem sub_eq {a b : ℕ} (le : b ≤ a) (fits : a < 2 ^ 32) : sub a b = a - b := by
  rw [sub]
  omega

theorem mul_eq {a b : ℕ} (fits : a * b < 2 ^ 32) : mul a b = a * b := Nat.mod_eq_of_lt fits

end Word32

/-- `PAGE_PRESENT` -/
def pagePresent : ℕ := 0x01
/-- `PAGE_WRITE` -/
def pageWrite : ℕ := 0x02
/-- `PAGE_NX` -/
def pageNx : ℕ := 0x8000000000000000

/-- The bits of a page-table entry that hold a physical page address. -/
def frameMask : ℕ := 0x000FFFFFFFFFF000
/-- The other bits of a page-table entry. -/
def flagsMask : ℕ := 0xFFF0000000000FFF

/-- The address of a physical page: page-aligned, and within the bits an entry can hold. -/
structure PhysPage (a : ℕ) : Prop where
  aligned : a % 0x1000 = 0
  bounded : a < 2 ^ 52

instance (a : ℕ) : Decidable (PhysPage a) :=
  decidable_of_iff (a % 0x1000 = 0 ∧ a < 2 ^ 52) ⟨fun h => ⟨h.1, h.2⟩, fun h => ⟨h.1, h.2⟩⟩

theorem and_0xFFF {x : ℕ} (aligned : x % 0x1000 = 0) : x &&& 0xFFF = 0 := by
  rw [show (0xFFF : ℕ) = 2 ^ 12 - 1 from rfl, Nat.and_two_pow_sub_one_eq_mod]
  exact aligned

theorem and_frameMask (x : ℕ) : x &&& frameMask = x % 2 ^ 52 / 2 ^ 12 * 2 ^ 12 :=
  Words.and_field x 12 52 (by decide)

theorem PhysPage.and_frameMask {a : ℕ} (h : PhysPage a) : a &&& frameMask = a := by
  rw [Vineyard.and_frameMask]
  have := h.aligned
  have := h.bounded
  omega

theorem flagsMask_frameMask : flagsMask &&& frameMask = 0 := by decide

/-- An entry made of a page address and flags gives the page address back. -/
theorem PhysPage.or_flags {a : ℕ} (h : PhysPage a) {flags : ℕ}
    (inside : flags &&& flagsMask = flags) :
    (a ||| flags) &&& frameMask = a := by
  rw [Words.or_and_of_disjoint (Words.and_eq_zero_of_inside inside flagsMask_frameMask),
    h.and_frameMask]

/-- It gives the flags back as well. -/
theorem PhysPage.or_flags_flags {a : ℕ} (h : PhysPage a) {flags : ℕ}
    (inside : flags &&& flagsMask = flags) : (a ||| flags) &&& flagsMask = flags := by
  rw [Nat.or_comm, Words.or_and_of_disjoint (Words.and_eq_zero_of_inside h.and_frameMask
    (Nat.and_comm _ _ ▸ flagsMask_frameMask)), inside]

theorem present_of_or (x : ℕ) : (x ||| pagePresent ||| pageWrite) &&& pagePresent ≠ 0 := by
  rw [Nat.or_assoc, Nat.and_or_distrib_right]
  intro zero
  exact absurd (Nat.or_eq_zero_iff.1 zero).2 (by decide)

/-- The entry the kernel writes for a page table or a stack frame. -/
theorem PhysPage.or_present_write {a : ℕ} (h : PhysPage a) :
    (a ||| pagePresent ||| pageWrite) &&& frameMask = a := by
  rw [Nat.or_assoc]
  exact h.or_flags (by decide)

end Vineyard
