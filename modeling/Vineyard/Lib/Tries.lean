import Mathlib.Data.List.Basic
import Mathlib.Data.List.Nodup
import Mathlib.Data.Nat.Bitwise
import Mathlib.Tactic.Common

/-!
# Tries of numbers

A binary trie whose nodes have numbers as keys.  Below a node the next bit of the key decides, but a
node may lie as high as there is room: its own bits are not all on its path.  Nodes with one key share
a place: one of them is the top, the others are kept in a list.

`Within key t w p`: the keys of `t` are those with `key / 2 ^ w = p`, so `w` bits are left below its
root.
-/

namespace Tries

open List

inductive Trie (α : Type) where
  | leaf
  | node (top : α) (same : List α) (left right : Trie α)

namespace Trie

variable {α : Type}

def isLeaf : Trie α → Bool
  | leaf => true
  | node .. => false

theorem isLeaf_iff {t : Trie α} : t.isLeaf ↔ t = leaf := by cases t <;> simp [isLeaf]

def nodes : Trie α → List α
  | leaf => []
  | node a same l r => a :: (same ++ (l.nodes ++ r.nodes))

def Within (key : α → ℕ) : Trie α → ℕ → ℕ → Prop
  | leaf, _, _ => True
  | node a same l r, 0, p => key a = p ∧ (∀ s ∈ same, key s = key a) ∧ l = leaf ∧ r = leaf
  | node a same l r, w + 1, p => key a / 2 ^ (w + 1) = p ∧ (∀ s ∈ same, key s = key a) ∧
    l.Within key w (2 * p) ∧ r.Within key w (2 * p + 1)

section Keys

variable {key : α → ℕ} {t l r : Trie α} {a x : α} {same : List α} {w p : ℕ}

theorem Within.top (within : (node a same l r).Within key w p) : key a / 2 ^ w = p := by
  cases w with
  | zero => exact (Nat.div_one _).trans within.1
  | succ w => exact within.1

theorem Within.ring (within : (node a same l r).Within key w p) : ∀ s ∈ same, key s = key a := by
  cases w <;> exact within.2.1

theorem half {k w p : ℕ} (inside : k / 2 ^ (w + 1) = p) : k / 2 ^ w = 2 * p + k / 2 ^ w % 2 := by
  rw [Nat.pow_succ, ← Nat.div_div_eq_div_mul] at inside
  omega

/-- The keys of a side have the bit of the side. -/
theorem Within.side (within : (node a same l r).Within key (w + 1) p) (b : Bool) :
    (cond b r l).Within key w (2 * p + b.toNat) := by
  cases b
  · exact within.2.2.1
  · exact within.2.2.2

theorem Within.nodes (within : t.Within key w p) : ∀ x ∈ t.nodes, key x / 2 ^ w = p := by
  induction t generalizing w p with
  | leaf => simp [Trie.nodes]
  | node a same l r left right =>
    intro x inside
    obtain rfl | ring | below := by simpa [Trie.nodes] using inside
    · exact within.top
    · rw [within.ring x ring]
      exact within.top
    · cases w with
      | zero =>
        obtain ⟨-, -, rfl, rfl⟩ := within
        simp [Trie.nodes] at below
      | succ w =>
        rw [Nat.pow_succ, ← Nat.div_div_eq_div_mul]
        obtain inside | inside := below
        · rw [left within.2.2.1 x inside]
          omega
        · rw [right within.2.2.2 x inside]
          omega

theorem Within.congr {key' : α → ℕ} (within : t.Within key w p)
    (agree : ∀ x ∈ t.nodes, key' x = key x) :
    t.Within key' w p := by
  induction t generalizing w p with
  | leaf => trivial
  | node a same l r left right =>
    simp only [Trie.nodes, mem_cons, mem_append] at agree
    have top := agree a (.inl rfl)
    have ring : ∀ s ∈ same, key' s = key' a := fun s inside => by
      rw [agree s (.inr (.inl inside)), top]
      exact within.ring s inside
    cases w with
    | zero => exact ⟨top.trans within.1, ring, within.2.2⟩
    | succ w =>
      refine ⟨top ▸ within.1, ring, ?_, ?_⟩
      · exact left within.2.2.1 fun x inside => agree x (.inr (.inr (.inl inside)))
      · exact right within.2.2.2 fun x inside => agree x (.inr (.inr (.inr inside)))

/-! ## Insertion -/

variable (key) in
/-- `w` bits are left to decide. -/
def insert (x : α) : Trie α → ℕ → Trie α
  | leaf, _ => node x [] leaf leaf
  | node a same l r, w =>
    if key a = key x then node a (x :: same) l r
    else if key x / 2 ^ (w - 1) % 2 = 0 then node a same (l.insert x (w - 1)) r
    else node a same l (r.insert x (w - 1))

/-- A new key goes to the side of its next bit. -/
theorem insert_of_ne (differ : key a ≠ key x) : (node a same l r).insert key x (w + 1) =
    node a same (cond ((key x).testBit w) l ((cond ((key x).testBit w) r l).insert key x w))
      (cond ((key x).testBit w) ((cond ((key x).testBit w) r l).insert key x w) r) := by
  rw [insert, if_neg differ, Nat.add_sub_cancel, Nat.testBit_eq_decide_div_mod_eq]
  obtain zero | one := Nat.mod_two_eq_zero_or_one (key x / 2 ^ w)
  · simp [zero]
  · simp [one]

theorem nodes_insert : ((t.insert key x w).nodes).Perm (x :: t.nodes) := by
  classical
  refine perm_iff_count.2 fun z => ?_
  induction t generalizing w with
  | leaf => rfl
  | node a same l r left right =>
    have below := @left (w - 1)
    have above := @right (w - 1)
    rw [insert]
    split
    · simp only [Trie.nodes, count_cons, count_append]
      omega
    · split
      · simp only [Trie.nodes, count_cons, count_append] at below ⊢
        omega
      · simp only [Trie.nodes, count_cons, count_append] at above ⊢
        omega

theorem within_single (inside : key x / 2 ^ w = p) : (node x [] leaf leaf).Within key w p := by
  cases w with
  | zero => exact ⟨(Nat.div_one _).symm.trans inside, by simp, rfl, rfl⟩
  | succ w => exact ⟨inside, by simp, trivial, trivial⟩

theorem Within.insert (within : t.Within key w p) (inside : key x / 2 ^ w = p) :
    (t.insert key x w).Within key w p := by
  induction t generalizing w p with
  | leaf => exact within_single inside
  | node a same l r left right =>
    rw [Trie.insert]
    split
    · next equal =>
      cases w with
      | zero => exact ⟨within.1, forall_mem_cons.2 ⟨equal.symm, within.2.1⟩, within.2.2⟩
      | succ w => exact ⟨within.1, forall_mem_cons.2 ⟨equal.symm, within.2.1⟩, within.2.2⟩
    · next differ =>
      cases w with
      | zero => exact absurd (within.1.trans (inside.symm.trans (Nat.div_one _))) differ
      | succ w =>
        have bit := half inside
        obtain ⟨top, ring, below, above⟩ := within
        rw [Nat.add_sub_cancel]
        split
        · next zero => exact ⟨top, ring, left below (by omega), above⟩
        · next one => exact ⟨top, ring, below, right above (by omega)⟩

/-! ## Removal -/

/-- A lowest node with its list, on the way that prefers the right side, and the trie without it. -/
def deep : Trie α → Option ((α × List α) × Trie α)
  | leaf => none
  | node a same l r =>
    match r.deep with
    | some (q, r') => some (q, node a same l r')
    | none =>
      match l.deep with
      | some (q, l') => some (q, node a same l' r)
      | none => some ((a, same), leaf)

theorem deep_eq_none : t.deep = none ↔ t = leaf := by
  cases t with
  | leaf => simp [deep]
  | node a same l r =>
    rw [deep]
    split
    · simp
    · split <;> simp

theorem deep_leaves : (node a same leaf leaf).deep = some ((a, same), leaf) := rfl

/-- The way down prefers the right side. -/
theorem deep_side {b : Bool} {q : α × List α} {s : Trie α} (found : (cond b r l).deep = some (q, s))
    (first : b = false → r = leaf) :
    (node a same l r).deep = some (q, node a same (cond b l s) (cond b s r)) := by
  rw [deep]
  cases b with
  | false =>
    rw [first rfl, deep, show l.deep = _ from found]
    rfl
  | true =>
    rw [show r.deep = _ from found]
    rfl

theorem nodes_deep {b : α} {bs : List α} {t' : Trie α} (found : t.deep = some ((b, bs), t')) :
    t.nodes.Perm (b :: (bs ++ t'.nodes)) := by
  classical
  induction t generalizing t' with
  | leaf => simp [deep] at found
  | node a same l r left right =>
    rw [deep] at found
    refine perm_iff_count.2 fun z => ?_
    split at found
    · next q r' deeper =>
      obtain ⟨rfl, rfl⟩ : q = (b, bs) ∧ node a same l r' = t' := by simpa using found
      have moved := (right deeper).count_eq z
      simp only [Trie.nodes, count_cons, count_append] at moved ⊢
      omega
    · split at found
      · next onlyLeft q l' deeper =>
        obtain ⟨rfl, rfl⟩ : q = (b, bs) ∧ node a same l' r = t' := by simpa using found
        have moved := (left deeper).count_eq z
        simp only [Trie.nodes, count_cons, count_append] at moved ⊢
        omega
      · next rightEmpty _ leftEmpty =>
        obtain ⟨⟨rfl, rfl⟩, rfl⟩ : (a = b ∧ same = bs) ∧ leaf = t' := by simpa using found
        rw [deep_eq_none.1 rightEmpty, deep_eq_none.1 leftEmpty]
        simp [Trie.nodes]

theorem Within.deep {b : α} {bs : List α} {t' : Trie α} (within : t.Within key w p)
    (found : t.deep = some ((b, bs), t')) :
    t'.Within key w p ∧ key b / 2 ^ w = p ∧ ∀ s ∈ bs, key s = key b := by
  induction t generalizing t' w p with
  | leaf => simp [Trie.deep] at found
  | node a same l r left right =>
    rw [Trie.deep] at found
    split at found
    · next q r' deeper =>
      obtain ⟨rfl, rfl⟩ : q = (b, bs) ∧ node a same l r' = t' := by simpa using found
      cases w with
      | zero => simp [within.2.2.2, Trie.deep] at deeper
      | succ w =>
        obtain ⟨top, ring, below, above⟩ := within
        obtain ⟨above', inside, equal⟩ := right above deeper
        refine ⟨⟨top, ring, below, above'⟩, ?_, equal⟩
        rw [Nat.pow_succ, ← Nat.div_div_eq_div_mul, inside]
        omega
    · split at found
      · next onlyLeft q l' deeper =>
        obtain ⟨rfl, rfl⟩ : q = (b, bs) ∧ node a same l' r = t' := by simpa using found
        cases w with
        | zero => simp [within.2.2.1, Trie.deep] at deeper
        | succ w =>
          obtain ⟨top, ring, below, above⟩ := within
          obtain ⟨below', inside, equal⟩ := left below deeper
          refine ⟨⟨top, ring, below', above⟩, ?_, equal⟩
          rw [Nat.pow_succ, ← Nat.div_div_eq_div_mul, inside]
          omega
      · obtain ⟨⟨rfl, rfl⟩, rfl⟩ : (a = b ∧ same = bs) ∧ leaf = t' := by simpa using found
        exact ⟨trivial, within.top, within.ring⟩

/-- The sides of a node that goes, under a node from below. -/
def collapse (l r : Trie α) : Trie α :=
  match r.deep with
  | some ((b, bs), r') => node b bs l r'
  | none =>
    match l.deep with
    | some ((b, bs), l') => node b bs l' r
    | none => leaf

theorem collapse_side {bs : List α} {s : Trie α} {c : Bool} {y : α}
    (found : (cond c r l).deep = some ((y, bs), s)) (first : c = false → r = leaf) :
    collapse l r = node y bs (cond c l s) (cond c s r) := by
  rw [collapse]
  cases c with
  | false =>
    rw [first rfl, deep, show l.deep = _ from found]
    rfl
  | true =>
    rw [show r.deep = _ from found]
    rfl

theorem nodes_collapse : (collapse l r).nodes.Perm (l.nodes ++ r.nodes) := by
  classical
  refine perm_iff_count.2 fun z => ?_
  rw [collapse]
  split
  · next b bs r' deeper =>
    have moved := (nodes_deep deeper).count_eq z
    simp only [Trie.nodes, count_cons, count_append] at moved ⊢
    omega
  · next rightEmpty =>
    rw [deep_eq_none.1 rightEmpty]
    split
    · next b bs l' deeper =>
      have moved := (nodes_deep deeper).count_eq z
      simp only [Trie.nodes, count_cons, count_append, count_nil] at moved ⊢
      omega
    · next leftEmpty => simp [deep_eq_none.1 leftEmpty, Trie.nodes]

theorem Within.collapse (below : l.Within key w (2 * p)) (above : r.Within key w (2 * p + 1)) :
    (collapse l r).Within key (w + 1) p := by
  rw [Trie.collapse]
  split
  · next b bs r' deeper =>
    obtain ⟨above', inside, equal⟩ := above.deep deeper
    refine ⟨?_, equal, below, above'⟩
    rw [Nat.pow_succ, ← Nat.div_div_eq_div_mul, inside]
    omega
  · split
    · next b bs l' deeper =>
      obtain ⟨below', inside, equal⟩ := below.deep deeper
      refine ⟨?_, equal, below', above⟩
      rw [Nat.pow_succ, ← Nat.div_div_eq_div_mul, inside]
      omega
    · trivial

/-- What takes the place of a top that goes: the last of its list, or a node from below. -/
def successor (same : List α) (l r : Trie α) : Trie α :=
  match same.getLast? with
  | some b => node b same.dropLast l r
  | none => collapse l r

theorem successor_concat (same : List α) (b : α) : successor (same ++ [b]) l r = node b same l r := by
  simp [successor]

theorem successor_nil : successor [] l r = collapse l r := rfl

theorem nodes_successor : (successor same l r).nodes.Perm (same ++ (l.nodes ++ r.nodes)) := by
  obtain rfl | ⟨same, b, rfl⟩ := eq_nil_or_concat same
  · exact nodes_collapse
  · rw [concat_eq_append, successor_concat, append_assoc]
    exact perm_middle.symm

theorem Within.successor (within : (node a same l r).Within key w p) :
    (successor same l r).Within key w p := by
  obtain rfl | ⟨same, b, rfl⟩ := eq_nil_or_concat same
  · cases w with
    | zero =>
      obtain ⟨-, -, rfl, rfl⟩ := within
      trivial
    | succ w => exact within.2.2.1.collapse within.2.2.2
  · rw [concat_eq_append] at within ⊢
    rw [successor_concat]
    have last := within.ring b (by simp)
    have others : ∀ s ∈ same, key s = key b :=
      fun s inside => (within.ring s (by simp [inside])).trans last.symm
    cases w with
    | zero => exact ⟨last.trans within.1, others, within.2.2⟩
    | succ w => exact ⟨last ▸ within.1, others, within.2.2⟩

/-! ## The smallest key from a bound on -/

/-- The tops on the way down that prefers the left side. -/
def leftmost : Trie α → List α
  | leaf => []
  | node a _ l r => a :: if l.isLeaf then r.leftmost else l.leftmost

theorem leftmost_subset : ∀ x ∈ t.leftmost, x ∈ t.nodes := by
  induction t with
  | leaf => simp [leftmost]
  | node a same l r left right =>
    intro x inside
    rw [leftmost] at inside
    obtain rfl | inside := mem_cons.1 inside
    · simp [Trie.nodes]
    · split at inside
      · simp [Trie.nodes, right x inside]
      · simp [Trie.nodes, left x inside]

/-- A smallest key lies on the way to the left. -/
theorem Within.leftmost (within : t.Within key w p) : ∀ x ∈ t.nodes, ∃ y ∈ t.leftmost,
      key y ≤ key x := by
  induction t generalizing w p with
  | leaf => simp [Trie.nodes]
  | node a same l r left right =>
    intro x inside
    rw [Trie.leftmost]
    simp only [Trie.nodes, mem_cons, mem_append] at inside
    obtain rfl | ring | inside := inside
    · exact ⟨x, mem_cons_self, le_rfl⟩
    · exact ⟨a, mem_cons_self, (within.ring x ring).ge⟩
    · cases w with
      | zero =>
        obtain ⟨-, -, rfl, rfl⟩ := within
        simp [Trie.nodes] at inside
      | succ w =>
        obtain ⟨-, -, below, above⟩ := within
        obtain inside | inside := inside
        · obtain ⟨y, found, le⟩ := left below x inside
          have some : l.isLeaf ≠ true := fun isLeaf => by
            rw [isLeaf_iff.1 isLeaf] at inside
            simp [Trie.nodes] at inside
          rw [if_neg some]
          exact ⟨y, mem_cons_of_mem a found, le⟩
        · split
          · obtain ⟨y, found, le⟩ := right above x inside
            exact ⟨y, mem_cons_of_mem a found, le⟩
          · next some =>
            -- every key on the left is smaller than one on the right
            obtain ⟨b, bs, ll, lr, rfl⟩ : ∃ b bs ll lr, l = node b bs ll lr := by
              cases l with
              | leaf => exact absurd rfl some
              | node b bs ll lr => exact ⟨b, bs, ll, lr, rfl⟩
            have low := below.nodes b (by simp [Trie.nodes])
            have high := above.nodes x inside
            refine ⟨b, mem_cons_of_mem a (by simp [Trie.leftmost]), ?_⟩
            have less : key b / 2 ^ w < key x / 2 ^ w := by omega
            exact (Nat.lt_of_div_lt_div less).le

/-- The tops on the way of the key `k`, and the last side on the right of the way, at first `rest`. -/
def search (k : ℕ) : Trie α → ℕ → Trie α → List α × Trie α
  | leaf, _, rest => ([], rest)
  | node a _ l r, w, rest =>
    if k / 2 ^ (w - 1) % 2 = 0 then
      let (as, t) := l.search k (w - 1) (if r.isLeaf then rest else r)
      (a :: as, t)
    else
      let (as, t) := r.search k (w - 1) rest
      (a :: as, t)

theorem search_zero {k : ℕ} {rest : Trie α} :
    (node a same leaf leaf).search k 0 rest = ([a], rest) := by
  rw [search]
  split <;> rfl

theorem search_left {k : ℕ} {rest : Trie α} (zero : k.testBit w = false) :
    (node a same l r).search k (w + 1) rest =
    (a :: (l.search k w (if r.isLeaf then rest else r)).1,
      (l.search k w (if r.isLeaf then rest else r)).2) := by
  rw [Nat.testBit_eq_decide_div_mod_eq, decide_eq_false_iff_not] at zero
  rw [search, Nat.add_sub_cancel, if_pos (by omega)]

theorem search_right {k : ℕ} {rest : Trie α} (one : k.testBit w = true) :
    (node a same l r).search k (w + 1) rest =
    (a :: (r.search k w rest).1, (r.search k w rest).2) := by
  rw [Nat.testBit_eq_decide_div_mod_eq, decide_eq_true_iff] at one
  rw [search, Nat.add_sub_cancel, if_neg (by omega)]

/-- The last side on the right of the way has greater keys. -/
theorem Within.search_behind {k : ℕ} {rest : Trie α} (within : t.Within key w p)
    (inside : k / 2 ^ w = p) (behind : ∀ x ∈ rest.nodes, k < key x) :
    ∀ x ∈ (t.search k w rest).2.nodes, k < key x := by
  induction t generalizing w p rest with
  | leaf => exact behind
  | node a same l r left right =>
    cases w with
    | zero =>
      obtain ⟨-, -, rfl, rfl⟩ := within
      rwa [search_zero]
    | succ w =>
      obtain ⟨-, -, below, above⟩ := within
      have bit := half inside
      cases side : k.testBit w with
      | false =>
        have zero : k / 2 ^ w % 2 = 0 := by
          rw [Nat.testBit_eq_decide_div_mod_eq, decide_eq_false_iff_not] at side
          omega
        rw [search_left side]
        refine left below (by omega) fun x there => ?_
        split at there
        · exact behind x there
        · have high := above.nodes x there
          exact Nat.lt_of_div_lt_div (by omega : k / 2 ^ w < key x / 2 ^ w)
      | true =>
        have one : k / 2 ^ w % 2 = 1 := by
          rwa [Nat.testBit_eq_decide_div_mod_eq, decide_eq_true_iff] at side
        rw [search_right side]
        exact right above (by omega) behind

/-- A side on the right is the last one from now on. -/
theorem behind_half {w p : ℕ} {rest : Trie α} (behind : ∀ x ∈ rest.nodes, p < key x / 2 ^ (w + 1)) :
    ∀ x ∈ rest.nodes, 2 * p + 1 < key x / 2 ^ w := by
  intro x inside
  have above := behind x inside
  rw [Nat.pow_succ, ← Nat.div_div_eq_div_mul] at above
  omega

/-- The way of `k` and the way to the left behind it have the smallest key that is not below `k`. -/
theorem Within.search {k w' p' : ℕ} {rest : Trie α} (within : t.Within key w p)
    (inside : k / 2 ^ w = p) (restWithin : rest.Within key w' p')
    (behind : ∀ x ∈ rest.nodes, p < key x / 2 ^ w) :
    ∀ x ∈ t.nodes ++ rest.nodes, k ≤ key x → ∃ y ∈ (t.search k w rest).1 ++
      (t.search k w rest).2.leftmost,
      k ≤ key y ∧ key y ≤ key x := by
  induction t generalizing w p w' p' rest with
  | leaf =>
    intro x found _
    obtain ⟨y, there, smaller⟩ := restWithin.leftmost x found
    have above := behind y (leftmost_subset y there)
    rw [← inside] at above
    exact ⟨y, there, (Nat.lt_of_div_lt_div above).le, smaller⟩
  | node a same l r left right =>
    intro x found le
    have onTop : key x = key a → ∃ y ∈ ((node a same l r).search k w rest).1 ++
        ((node a same l r).search k w rest).2.leftmost, k ≤ key y ∧ key y ≤ key x := fun equal => by
      refine ⟨a, mem_append_left _ ?_, equal ▸ le, equal.ge⟩
      rw [Trie.search]
      split <;> exact mem_cons_self
    have ring := within.ring
    simp only [Trie.nodes, mem_cons, mem_append] at found
    cases w with
    | zero =>
      obtain ⟨-, -, rfl, rfl⟩ := within
      obtain (rfl | equal | none | none) | found := found
      · exact onTop rfl
      · exact onTop (ring x equal)
      · simp [Trie.nodes] at none
      · simp [Trie.nodes] at none
      · obtain ⟨y, there, smaller⟩ := restWithin.leftmost x found
        have above := behind y (leftmost_subset y there)
        rw [← inside] at above
        rw [search_zero]
        exact ⟨y, mem_cons_of_mem a there, (Nat.lt_of_div_lt_div above).le, smaller⟩
    | succ w =>
      obtain ⟨-, -, below, above⟩ := within
      have bit := half inside
      have deeper := behind_half behind
      by_cases zero : k / 2 ^ w % 2 = 0
      · -- the way goes left, and what is on the right is behind it
        have way : k / 2 ^ w = 2 * p := by omega
        obtain ⟨last, eq⟩ : ∃ last, last = if r.isLeaf then rest else r := ⟨_, rfl⟩
        have result : (node a same l r).search k (w + 1) rest =
          (a :: (l.search k w last).1, (l.search k w last).2) := by
          rw [Trie.search, Nat.add_sub_cancel, if_pos zero, eq]
        have lastWithin : ∃ w' p', last.Within key w' p' := by
          rw [eq]
          split
          · exact ⟨_, _, restWithin⟩
          · exact ⟨_, _, above⟩
        have lastBehind : ∀ x ∈ last.nodes, 2 * p < key x / 2 ^ w := by
          rw [eq]
          split
          · exact fun x there => Nat.lt_of_succ_lt (deeper x there)
          · exact fun x there => by rw [above.nodes x there]; omega
        obtain ⟨w'', p'', lastWithin⟩ := lastWithin
        have further : ∀ z ∈ l.nodes ++ last.nodes, k ≤ key z → key z ≤ key x →
          ∃ y ∈ (a :: (l.search k w last).1) ++
            (l.search k w last).2.leftmost, k ≤ key y ∧ key y ≤ key x :=
              fun z there bound smaller => by
          obtain ⟨y, known, low, high⟩ := left below way lastWithin lastBehind z there bound
          exact ⟨y, mem_cons_of_mem a known, low, high.trans smaller⟩
        rw [result] at onTop ⊢
        obtain (rfl | equal | found | found) | found := found
        · exact onTop rfl
        · exact onTop (ring x equal)
        · exact further x (mem_append_left _ found) le le_rfl
        · refine further x (mem_append_right _ ?_) le le_rfl
          have some : r.isLeaf ≠ true :=
            fun isLeaf => by simp [isLeaf_iff.1 isLeaf, Trie.nodes] at found
          rwa [eq, if_neg some]
        · by_cases empty : r.isLeaf = true
          · refine further x (mem_append_right _ ?_) le le_rfl
            rwa [eq, if_pos empty]
          · obtain ⟨b, bs, rl, rr, rfl⟩ : ∃ b bs rl rr, r = node b bs rl rr := by
              cases r with
              | leaf => exact absurd rfl empty
              | node b bs rl rr => exact ⟨b, bs, rl, rr, rfl⟩
            have top := above.top
            have less : k / 2 ^ w < key b / 2 ^ w := by omega
            have more : key b / 2 ^ w < key x / 2 ^ w := top ▸ deeper x found
            refine further b (mem_append_right _ ?_) (Nat.lt_of_div_lt_div less).le
              (Nat.lt_of_div_lt_div more).le
            rw [eq, if_neg empty]
            exact mem_cons_self
      · have way : k / 2 ^ w = 2 * p + 1 := by omega
        have result : (node a same l r).search k (w + 1) rest =
          (a :: (r.search k w rest).1, (r.search k w rest).2) := by
          rw [Trie.search, Nat.add_sub_cancel, if_neg zero]
        rw [result] at onTop ⊢
        have further : ∀ z ∈ r.nodes ++ rest.nodes, k ≤ key z → ∃ y ∈ (a :: (r.search k w rest).1) ++
            (r.search k w rest).2.leftmost, k ≤ key y ∧ key y ≤ key z := fun z there bound => by
          obtain ⟨y, known, low, high⟩ := right above way restWithin deeper z there bound
          exact ⟨y, mem_cons_of_mem a known, low, high⟩
        obtain (rfl | equal | found | found) | found := found
        · exact onTop rfl
        · exact onTop (ring x equal)
        · have low := below.nodes x found
          have high : k / 2 ^ w ≤ key x / 2 ^ w := Nat.div_le_div_right le
          omega
        · exact further x (mem_append_left _ found) le
        · exact further x (mem_append_right _ found) le

variable [DecidableEq α]

def erase (x : α) : Trie α → Trie α
  | leaf => leaf
  | node a same l r =>
    if a = x then successor same l r
    else if x ∈ same then node a (same.erase x) l r
    else node a same (l.erase x) (r.erase x)

theorem erase_of_not_mem (outside : x ∉ t.nodes) : t.erase x = t := by
  induction t with
  | leaf => rfl
  | node a same l r left right =>
    simp only [Trie.nodes, mem_cons, mem_append, not_or] at outside
    rw [erase, if_neg (Ne.symm outside.1), if_neg outside.2.1, left outside.2.2.1,
      right outside.2.2.2]

/-- A node of one side goes. -/
theorem erase_side {b : Bool} (other : a ≠ x) (notRing : x ∉ same)
    (outside : x ∉ (cond b l r).nodes) :
    (node a same l r).erase x =
      node a same (cond b l ((cond b r l).erase x)) (cond b ((cond b r l).erase x) r) := by
  rw [erase, if_neg other, if_neg notRing]
  cases b
  · rw [erase_of_not_mem (show x ∉ r.nodes from outside)]
    rfl
  · rw [erase_of_not_mem (show x ∉ l.nodes from outside)]
    rfl

theorem nodes_erase (inside : x ∈ t.nodes) (nodup : t.nodes.Nodup) :
    t.nodes.Perm (x :: (t.erase x).nodes) := by
  refine perm_iff_count.2 fun z => ?_
  induction t with
  | leaf => simp [Trie.nodes] at inside
  | node a same l r left right =>
    rw [erase]
    split
    · next top =>
      have replaced : (successor same l r).nodes.Perm (same ++ (l.nodes ++ r.nodes)) :=
        nodes_successor
      have moved := replaced.count_eq z
      simp only [Trie.nodes, count_cons, count_append, top] at moved ⊢
      omega
    · next other =>
      split
      · next ring =>
        have moved := (perm_cons_erase ring).count_eq z
        simp only [Trie.nodes, count_cons, count_append] at moved ⊢
        omega
      · next notRing =>
        simp only [Trie.nodes, mem_cons, mem_append] at inside
        simp only [Trie.nodes, nodup_cons, nodup_append] at nodup
        obtain ⟨-, -, ⟨nodupL, nodupR, apart⟩, -⟩ := nodup
        obtain equal | ring | below | above := inside
        · exact absurd equal.symm other
        · exact absurd ring notRing
        · rw [erase_of_not_mem fun above => apart x below x above rfl]
          have moved := left below nodupL
          simp only [Trie.nodes, count_cons, count_append] at moved ⊢
          omega
        · rw [erase_of_not_mem fun below => apart x below x above rfl]
          have moved := right above nodupR
          simp only [Trie.nodes, count_cons, count_append] at moved ⊢
          omega

theorem Within.erase (within : t.Within key w p) : (t.erase x).Within key w p := by
  induction t generalizing w p with
  | leaf => trivial
  | node a same l r left right =>
    rw [Trie.erase]
    split
    · exact within.successor
    · split
      · have ring : ∀ s ∈ same.erase x, key s = key a :=
          fun s inside => within.ring s (mem_of_mem_erase inside)
        cases w with
        | zero => exact ⟨within.1, ring, within.2.2⟩
        | succ w => exact ⟨within.1, ring, within.2.2⟩
      · cases w with
        | zero =>
          obtain ⟨top, ring, rfl, rfl⟩ := within
          exact ⟨top, ring, rfl, rfl⟩
        | succ w => exact ⟨within.1, within.2.1, left within.2.2.1, right within.2.2.2⟩

end Keys

end Trie

end Tries
