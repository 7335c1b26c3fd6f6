import Vineyard.Heap.Bins
import Vineyard.Lib.Rings
import Vineyard.Lib.Tries

/-!
# The bins of large chunks

A bin of large chunks is a trie of their sizes: chunks of one size are a ring, one of them a node of
the trie.  The parent of the others is null, that of the root is the bin.
-/

namespace Vineyard.Heap

open Function Rings Tries Trie

/-! ## Tries in memory -/

/-- The links of a chunk are the same in two states. -/
structure Same (m m' : Malloc) (q : ℕ) : Prop where
  fd : m'.fd q = m.fd q
  bk : m'.bk q = m.bk q
  child : m'.child q = m.child q
  parent : m'.parent q = m.parent q

/-- Only links of chunks differ in two states. -/
def Relinked (m m' : Malloc) : Prop :=
  m' = { m with fd := m'.fd, bk := m'.bk, child := m'.child, parent := m'.parent }

/-- The chunks of one size: `a` is in the trie, the others are in its ring only. -/
structure Group (m : Malloc) (a : ℕ) (same : List ℕ) : Prop where
  some : a ≠ 0
  ring : Ring m.fd m.bk a same
  parent : ∀ s ∈ same, m.parent s = 0
  child : ∀ s ∈ same, ∀ b, m.child s b = 0

/-- The trie at `p`, whose parent is `q`. -/
def Rep (m : Malloc) : Trie ℕ → ℕ → ℕ → Prop
  | leaf, p, _ => p = 0
  | node a same l r, p, q => p = a ∧ m.parent a = q ∧ Group m a same ∧
    Rep m l (m.child a false) a ∧ Rep m r (m.child a true) a

section Links

variable {m m' m'' : Malloc} {t l r s : Trie ℕ} {same : List ℕ} {a p q v x : ℕ} {b : Bool}

theorem Same.refl (m : Malloc) (q : ℕ) : Same m m q := ⟨rfl, rfl, rfl, rfl⟩

theorem Same.trans (left : Same m m' q) (right : Same m' m'' q) : Same m m'' q :=
  ⟨right.fd.trans left.fd, right.bk.trans left.bk, right.child.trans left.child,
    right.parent.trans left.parent⟩

theorem same_setFd (other : q ≠ p) : Same m (m.setFd p v) q := ⟨update_of_ne other .., rfl, rfl, rfl⟩

theorem same_setBk (other : q ≠ p) : Same m (m.setBk p v) q := ⟨rfl, update_of_ne other .., rfl, rfl⟩

theorem same_setChild (other : q ≠ p) : Same m (m.setChild p b v) q :=
  ⟨rfl, rfl, update_of_ne other .., rfl⟩

theorem same_setParent (other : q ≠ p) : Same m (m.setParent p v) q :=
  ⟨rfl, rfl, rfl, update_of_ne other ..⟩

theorem Relinked.refl (m : Malloc) : Relinked m m := rfl

theorem Relinked.trans (left : Relinked m m') (right : Relinked m' m'') : Relinked m m'' := by
  rw [Relinked] at *
  rw [right, left]

theorem Relinked.okAddress (linked : Relinked m m') : m'.okAddress a ↔ m.okAddress a := by
  rw [Malloc.okAddress, linked]
  rfl

/-- The place of the node in the trie does not matter to its group. -/
theorem Group.congr (group : Group m a same) (forth : m'.fd a = m.fd a) (back : m'.bk a = m.bk a)
    (agree : ∀ y ∈ same, Same m m' y) : Group m' a same := by
  refine ⟨group.some, group.ring.congr ?_ ?_, fun s inside => ?_, fun s inside => ?_⟩
  · exact List.forall_mem_cons.2 ⟨forth, fun y inside => (agree y inside).fd⟩
  · exact List.forall_mem_cons.2 ⟨back, fun y inside => (agree y inside).bk⟩
  · rw [(agree s inside).parent]
    exact group.parent s inside
  · rw [(agree s inside).child]
    exact group.child s inside

theorem Group.keep (group : Group m a same) (agree : ∀ y ∈ a :: same, Same m m' y) :
    Group m' a same :=
  group.congr (agree a List.mem_cons_self).fd (agree a List.mem_cons_self).bk fun y inside =>
    agree y (List.mem_cons_of_mem a inside)

theorem Group.setChild (group : Group m a same) (outside : p ∉ same) :
    Group (m.setChild p b v) a same :=
  group.congr rfl rfl fun _ inside => same_setChild (ne_of_mem_of_not_mem inside outside)

theorem Rep.congr (rep : Rep m t p q) (agree : ∀ y ∈ t.nodes, Same m m' y) : Rep m' t p q := by
  induction t generalizing p q with
  | leaf => exact rep
  | node a same l r left right =>
    simp only [Trie.nodes, List.mem_cons, List.mem_append] at agree
    obtain ⟨rfl, parent, group, below, above⟩ := rep
    have here := agree p (.inl rfl)
    refine ⟨rfl, here.parent.trans parent, group.keep fun y inside => agree y ?_, ?_, ?_⟩
    · exact (List.mem_cons.1 inside).imp_right .inl
    · rw [here.child]
      exact left below fun y inside => agree y (.inr (.inr (.inl inside)))
    · rw [here.child]
      exact right above fun y inside => agree y (.inr (.inr (.inr inside)))

theorem Rep.eq_zero_iff (rep : Rep m t p q) : p = 0 ↔ t = leaf := by
  cases t with
  | leaf => exact ⟨fun _ => rfl, fun _ => rep⟩
  | node a same l r =>
    obtain ⟨rfl, -, group, -⟩ := rep
    simpa using group.some

theorem Rep.mem (rep : Rep m t p q) (some : p ≠ 0) : p ∈ t.nodes := by
  cases t with
  | leaf => exact absurd rep some
  | node a same l r => exact rep.1 ▸ List.mem_cons_self

theorem Rep.side (rep : Rep m (node a same l r) p q) (b : Bool) :
    Rep m (cond b r l) (m.child a b) a := by
  cases b
  · exact rep.2.2.2.1
  · exact rep.2.2.2.2

theorem Rep.other (rep : Rep m (node a same l r) p q) (b : Bool) :
    Rep m (cond b l r) (m.child a !b) a := by
  cases b
  · exact rep.2.2.2.2
  · exact rep.2.2.2.1

/-- A node with one side replaced. -/
theorem rep_of_side (parent : m.parent a = q) (group : Group m a same) (new : Rep m s (m.child a b) a)
    (other : Rep m (cond b l r) (m.child a !b) a) :
    Rep m (node a same (cond b l s) (cond b s r)) a q := by
  cases b
  · exact ⟨rfl, parent, group, new, other⟩
  · exact ⟨rfl, parent, group, other, new⟩

/-- The nodes of a trie are apart. -/
theorem nodup_side (nodup : (node a same l r).nodes.Nodup) (b : Bool) : (cond b r l).nodes.Nodup ∧
    (∀ y ∈ (cond b r l).nodes, y ∉ a :: same) ∧ ∀ y ∈ (cond b r l).nodes, y ∉ (cond b l r).nodes := by
  have parts : (a :: same ++ (l.nodes ++ r.nodes)).Nodup := nodup
  obtain ⟨-, sides, apart⟩ := List.nodup_append.1 parts
  obtain ⟨left, right, between⟩ := List.nodup_append.1 sides
  cases b
  · exact ⟨left, fun y inside inside' => apart y inside' y (List.mem_append_left _ inside) rfl,
      fun y inside inside' => between y inside y inside' rfl⟩
  · exact ⟨right, fun y inside inside' => apart y inside' y (List.mem_append_right _ inside) rfl,
      fun y inside inside' => between y inside' y inside rfl⟩

theorem other_apart (nodup : (node a same l r).nodes.Nodup) (b : Bool) : ∀ y ∈ (cond b l r).nodes,
      y ∉ a :: same := by
  cases b
  · exact (nodup_side nodup true).2.1
  · exact (nodup_side nodup false).2.1

theorem mem_side {y : ℕ} (inside : y ∈ (cond b r l).nodes) : y ∈ (node a same l r).nodes := by
  simp only [Trie.nodes, List.mem_cons, List.mem_append]
  cases b
  · exact .inr (.inr (.inl inside))
  · exact .inr (.inr (.inr inside))

theorem mem_other {y : ℕ} (inside : y ∈ (cond b l r).nodes) : y ∈ (node a same l r).nodes := by
  cases b
  · exact mem_side (b := true) inside
  · exact mem_side (b := false) inside

theorem mem_group {y : ℕ} (inside : y ∈ a :: same) : y ∈ (node a same l r).nodes :=
  List.mem_append_left _ inside

end Links

/-! ## Insertion -/

/-- The next bit of a size of which `w + 1` bits are left. -/
theorem topBit_shift {s w : ℕ} (less : w < 64) :
    Malloc.topBit (s <<< (64 - (w + 1)) % 2 ^ 64) = s.testBit w := by
  have bit (k : ℕ) : Malloc.topBit k = k.testBit 63 := by
    rw [Malloc.topBit, Nat.testBit_eq_decide_div_mod_eq, Nat.and_one_is_mod,
      Nat.shiftRight_eq_div_pow]
  have place : 64 - (w + 1) ≤ 63 := by omega
  have left : 63 - (64 - (w + 1)) = w := by omega
  rw [bit, Nat.testBit_mod_two_pow, Nat.testBit_shiftLeft, left]
  simp

theorem shift_shift {s w : ℕ} (less : w < 64) :
    (s <<< (64 - (w + 1)) % 2 ^ 64) <<< 1 % 2 ^ 64 = s <<< (64 - w) % 2 ^ 64 := by
  have place : 64 - w = 64 - (w + 1) + 1 := by omega
  rw [place, Nat.shiftLeft_eq _ 1, Nat.mod_mul_mod, ← Nat.shiftLeft_eq, Nat.shiftLeft_add]

section Insert

variable {func : String} {m : Malloc} {t l r : Trie ℕ} {same : List ℕ} {a p q x w h n : ℕ}

/-- The new chunk joins the ring of the chunks of its size. -/
theorem Group.insert (group : Group m a same) (fresh : x ∉ a :: same)
    (childless : ∀ b, m.child x b = 0) :
    Group (((((m.setFd a x).setBk (m.fd a) x).setFd x (m.fd a)).setBk x a).setParent x 0) a
      (x :: same) := by
  have other : a ≠ x := fun eq => fresh (eq ▸ List.mem_cons_self)
  have first : m.fd a ≠ x := by
    rw [group.ring.next_eq]
    rintro rfl
    cases same with
    | nil => exact other rfl
    | cons c same => exact fresh (by simp)
  refine ⟨group.some, group.ring.insert fresh ?_ ?_ ?_ ?_ ?_ ?_, ?_, ?_⟩
  · exact update_self ..
  · exact update_self ..
  · exact (update_of_ne other ..).trans (update_self ..)
  · exact (update_of_ne first ..).trans (update_self ..)
  · exact fun y notA notX => (update_of_ne notX ..).trans (update_of_ne notA ..)
  · exact fun y notF notX => (update_of_ne notX ..).trans (update_of_ne notF ..)
  · intro s inside
    obtain rfl | inside := List.mem_cons.1 inside
    · exact update_self ..
    · rw [Malloc.setParent_parent,
        update_of_ne (ne_of_mem_of_not_mem (List.mem_cons_of_mem a inside) fresh)]
      exact group.parent s inside
  · intro s inside
    obtain rfl | inside := List.mem_cons.1 inside
    · exact childless
    · exact group.child s inside

/-- A state after the new chunk has joined the ring of the node. -/
def joined (m : Malloc) (x a : ℕ) : Malloc :=
  ((((m.setFd a x).setBk (m.fd a) x).setFd x (m.fd a)).setBk x a).setParent x 0

/-- A state after the new chunk has become a child of the node. -/
def hung (m : Malloc) (x a : ℕ) (b : Bool) : Malloc :=
  (((m.setChild a b x).setParent x a).setFd x x).setBk x x

theorem Rep.join (rep : Rep m (node a same l r) p q) (nodup : (node a same l r).nodes.Nodup)
    (fresh : x ∉ (node a same l r).nodes) (childless : ∀ b, m.child x b = 0) :
    Rep (joined m x a) (node a (x :: same) l r) p q ∧ ∀ y, y ∉ x :: a :: same →
      Same m (joined m x a) y := by
  obtain ⟨rfl, parent, group, -, -⟩ := id rep
  have notGroup : x ∉ p :: same := fun there => fresh (mem_group there)
  have first : m.fd p ∈ p :: same := by
    rw [group.ring.next_eq]
    cases same <;> simp
  have kept : ∀ y, y ∉ x :: p :: same → Same m (joined m x p) y := by
    intro y outside
    have notX : y ≠ x := List.ne_of_not_mem_cons outside
    have notGroup' : y ∉ p :: same := List.not_mem_of_not_mem_cons outside
    have notP : y ≠ p := List.ne_of_not_mem_cons notGroup'
    have notF : y ≠ m.fd p := fun eq => notGroup' (eq ▸ first)
    exact ((((same_setFd notP).trans (same_setBk notF)).trans (same_setFd notX)).trans
      (same_setBk notX)).trans
      (same_setParent notX)
  have sides : ∀ b, ∀ y ∈ (cond b r l).nodes, y ∉ x :: p :: same := by
    intro b y there
    rw [List.mem_cons, not_or]
    exact ⟨ne_of_mem_of_not_mem (mem_side there) fresh, (nodup_side nodup b).2.1 y there⟩
  refine ⟨⟨rfl, ?_, group.insert notGroup childless, ?_, ?_⟩, kept⟩
  · exact (update_of_ne (List.ne_of_not_mem_cons notGroup).symm ..).trans parent
  · exact (rep.side false).congr fun y there => kept y (sides false y there)
  · exact (rep.side true).congr fun y there => kept y (sides true y there)

theorem Rep.hang (rep : Rep m (node a same l r) p q) (nodup : (node a same l r).nodes.Nodup)
    (fresh : x ∉ (node a same l r).nodes) (notNull : x ≠ 0) (childless : ∀ b, m.child x b = 0)
    (b : Bool) :
    Rep (hung m x a b) (node a same (cond b l (node x [] leaf leaf))
      (cond b (node x [] leaf leaf) r)) p q ∧
      ∀ y, y ∉ [x, a] → Same m (hung m x a b) y := by
  obtain ⟨rfl, parent, group, -, -⟩ := id rep
  have notGroup : x ∉ p :: same := fun there => fresh (mem_group there)
  have notP : p ≠ x := ne_of_mem_of_not_mem List.mem_cons_self notGroup
  obtain ⟨m', eq⟩ : ∃ m', m' = ((m.setParent x p).setFd x x).setBk x x := ⟨_, rfl⟩
  have hung : hung m x p b = m'.setChild p b x := by
    rw [eq]
    rfl
  have frame : ∀ y, y ≠ x → Same m m' y := fun y other =>
    eq ▸ ((same_setParent other).trans (same_setFd other)).trans (same_setBk other)
  have new : Rep (m'.setChild p b x) (node x [] leaf leaf) x p := by
    have childless' : ∀ c, (m'.setChild p b x).child x c = 0 := by
      intro c
      rw [show (m'.setChild p b x).child x = m'.child x from update_of_ne notP.symm .., eq]
      exact childless c
    have forth : m'.fd x = x := eq ▸ update_self ..
    have back : m'.bk x = x := eq ▸ update_self ..
    have above : m'.parent x = p := eq ▸ update_self ..
    exact ⟨rfl, above, ⟨notNull, ring_nil forth back, by simp, by simp⟩, childless' false,
      childless' true⟩
  rw [hung]
  refine ⟨rep_of_side ?_ ?_ ?_ ?_, ?_⟩
  · exact (frame p notP).parent.trans parent
  · refine (group.keep fun y there => frame y ?_).setChild (List.nodup_cons.1 group.ring.nodup).1
    exact ne_of_mem_of_not_mem there notGroup
  · rwa [show (m'.setChild p b x).child p b = x by simp]
  · rw [show (m'.setChild p b x).child p (!b) = m.child p (!b) by simp [(frame p notP).child]]
    have kept : ∀ y ∈ (cond b l r).nodes, Same m (m'.setChild p b x) y := fun y there =>
      (frame y (ne_of_mem_of_not_mem (mem_other there) fresh)).trans
        (same_setChild (List.ne_of_not_mem_cons (other_apart nodup b y there)))
    exact (rep.other b).congr kept
  · intro y outside
    simp only [List.mem_cons, List.not_mem_nil, or_false, not_or] at outside
    exact (frame y outside.1).trans (same_setChild outside.2)

variable (func) in
theorem insertLoop_rep (rep : Rep m t p q) (some : t ≠ leaf) (within : t.Within m.chunksize w h)
    (inside : m.chunksize x / 2 ^ w = h) (nodup : t.nodes.Nodup) (fresh : x ∉ t.nodes)
    (notNull : x ≠ 0) (ok : ∀ a ∈ t.nodes, m.okAddress a) (childless : ∀ b, m.child x b = 0)
    (bits : w ≤ 64) (enough : w < n) : ∃ m',
      Malloc.insertLoop func x (m.chunksize x) m p (m.chunksize x <<< (64 - w) % 2 ^ 64) n = .ok m' ∧
      Relinked m m' ∧ Rep m' (t.insert m.chunksize x w) p q ∧ ∀ y, y ∉ x :: t.nodes →
        Same m m' y := by
  induction t generalizing w h p q n with
  | leaf => exact absurd rfl some
  | node a same l r left right =>
    obtain ⟨n, rfl⟩ := Nat.exists_eq_succ_of_ne_zero (Nat.ne_zero_of_lt enough)
    obtain ⟨rfl, parent, group, -, -⟩ := id rep
    have okTop := ok p List.mem_cons_self
    have notGroup : x ∉ p :: same := fun there => fresh (mem_group there)
    rw [Malloc.insertLoop]
    by_cases equal : m.chunksize p = m.chunksize x
    · have okFirst : m.okAddress (m.fd p) := by
        apply ok _ (mem_group _)
        rw [group.ring.next_eq]
        cases same <;> simp
      obtain ⟨new, frame⟩ := rep.join nodup fresh childless
      rw [if_neg (not_not.2 equal)]
      dsimp only
      rw [if_pos ⟨okTop, okFirst⟩, Trie.insert, if_pos equal]
      refine ⟨_, rfl, rfl, new, fun y outside => frame y fun there => outside ?_⟩
      exact (List.mem_cons.1 there).elim (· ▸ List.mem_cons_self) fun there =>
        List.mem_cons_of_mem x (mem_group there)
    · cases w with
      | zero => exact absurd (within.1.trans (inside.symm.trans (Nat.div_one _))) equal
      | succ w =>
        obtain ⟨b, bit⟩ : ∃ b, b = (m.chunksize x).testBit w := ⟨_, rfl⟩
        have side := rep.side b
        rw [if_pos equal]
        dsimp only
        rw [topBit_shift (by omega), shift_shift (by omega), Trie.insert_of_ne equal, ← bit]
        by_cases empty : m.child p b = 0
        · have okChild : m.okAddress (Malloc.childAddr p b) :=
            okTop.trans (by simp only [Malloc.childAddr]; omega)
          obtain ⟨new, frame⟩ := rep.hang nodup fresh notNull childless b
          rw [if_neg (not_not.2 empty), if_pos okChild, side.eq_zero_iff.1 empty]
          refine ⟨_, rfl, rfl, new, fun y outside => frame y fun there => outside ?_⟩
          rw [List.mem_cons, List.mem_singleton] at there
          exact there.elim (· ▸ List.mem_cons_self) (· ▸ List.mem_cons_of_mem x List.mem_cons_self)
        · obtain ⟨sideNodup, apart, between⟩ := nodup_side nodup b
          have deeper : ∃ m', Malloc.insertLoop func x (m.chunksize x) m (m.child p b)
              (m.chunksize x <<< (64 - w) % 2 ^ 64) n = .ok m' ∧ Relinked m m' ∧
              Rep m' ((cond b r l).insert m.chunksize x w) (m.child p b) p ∧
              ∀ y, y ∉ x :: (cond b r l).nodes → Same m m' y := by
            have some : cond b r l ≠ leaf := fun leaf => empty (side.eq_zero_iff.2 leaf)
            have fresh' : x ∉ (cond b r l).nodes := fun there => fresh (mem_side there)
            have ok' : ∀ y ∈ (cond b r l).nodes, m.okAddress y := fun y there => ok y (mem_side there)
            have value : m.chunksize x / 2 ^ w = 2 * h + b.toNat := by
              rw [bit, Nat.toNat_testBit]
              exact half inside
            have below := within.side b
            cases b
            · exact left side some below value sideNodup fresh' ok' (by omega) (by omega)
            · exact right side some below value sideNodup fresh' ok' (by omega) (by omega)
          obtain ⟨m', run, linked, new, frame⟩ := deeper
          have keptGroup : ∀ y ∈ p :: same, Same m m' y := by
            intro y there
            apply frame
            rw [List.mem_cons, not_or]
            exact ⟨ne_of_mem_of_not_mem there notGroup, fun side => apart y side there⟩
          have keptOther : ∀ y ∈ (cond b l r).nodes, Same m m' y := by
            intro y there
            apply frame
            rw [List.mem_cons, not_or]
            exact ⟨ne_of_mem_of_not_mem (mem_other there) fresh, fun side => between y side there⟩
          have keptTop := keptGroup p List.mem_cons_self
          rw [if_pos empty]
          refine ⟨m', run, linked,
            rep_of_side (keptTop.parent.trans parent) (group.keep keptGroup) ?_ ?_, ?_⟩
          · rwa [keptTop.child]
          · rw [keptTop.child]
            exact (rep.other b).congr keptOther
          · intro y outside
            apply frame
            rw [List.mem_cons, not_or] at outside ⊢
            exact outside.imp_right fun outside side => outside (mem_side side)

end Insert

/-! ## Removal -/

section Unlink

variable {func : String} {m : Malloc} {t l r s : Trie ℕ} {same : List ℕ}
  {a b p q x w h n : ℕ} {c : Bool}

/-- A state after the chunk has left its ring. -/
def spliced (m : Malloc) (x : ℕ) : Malloc := (m.setBk (m.fd x) (m.bk x)).setFd (m.bk x) (m.fd x)

theorem same_spliced (ring : Ring m.fd m.bk a same) (inside : x ∈ same) {y : ℕ}
    (outside : y ∉ a :: same) :
    Same m (spliced m x) y := by
  obtain ⟨before, behind, rfl⟩ := List.append_of_mem inside
  have near : ∀ z ∈ a :: (before ++ behind), y ≠ z := by
    rintro z there rfl
    exact outside ((List.mem_cons.1 there).elim (· ▸ List.mem_cons_self) fun there =>
      List.mem_cons_of_mem a
      ((List.mem_append.1 there).elim (List.mem_append_left _) fun there =>
        List.mem_append_right _ (List.mem_cons_of_mem x there)))
  exact (same_setBk (near _ ring.next_mem)).trans (same_setFd (near _ ring.prev_mem))

variable (func) in
/-- A chunk with others of its size leaves their ring. -/
theorem takeReplacement_ring (ring : Ring m.fd m.bk a same) (inside : x ∈ same)
    (ok : ∀ y ∈ a :: same, m.okAddress y) :
    m.takeReplacement func x = .ok (m.bk x, spliced m x) ∧
      Ring (spliced m x).fd (spliced m x).bk a (same.erase x) := by
  obtain ⟨before, behind, rfl⟩ := List.append_of_mem inside
  have apart := (List.nodup_append.1 (List.nodup_cons.1 ring.nodup).2)
  have erased : (before ++ x :: behind).erase x = before ++ behind := by
    rw [List.erase_append_right _ fun there => apart.2.2 x there x List.mem_cons_self rfl,
      List.erase_cons_head]
  have kept : ∀ y ∈ before ++ behind, y ∈ before ++ x :: behind := erased ▸ fun y =>
    List.mem_of_mem_erase
  have others : x ∉ a :: (before ++ behind) := by
    have moved : (a :: (before ++ x :: behind)).Perm (x :: a :: (before ++ behind)) :=
      (List.perm_middle.cons a).trans (List.Perm.swap x a _)
    exact (List.nodup_cons.1 (moved.nodup_iff.1 ring.nodup)).1
  constructor
  · have some : m.bk x ≠ x := ne_of_mem_of_not_mem ring.prev_mem others
    have okFirst : m.okAddress (m.fd x) :=
      ok _ ((List.mem_cons.1 ring.next_mem).elim (· ▸ List.mem_cons_self)
      fun there => List.mem_cons_of_mem a (kept _ there))
    rw [Malloc.takeReplacement, if_pos some]
    dsimp only
    rw [if_pos ⟨okFirst, ring.prev_next, ring.next_prev⟩]
    rfl
  · rw [erased]
    apply ring.remove (update_self ..) (update_self ..)
    · exact fun y other _ => update_of_ne other ..
    · exact fun y other _ => update_of_ne other ..

/-- The chunk `p` is ready to take the place of `x` as the root of a trie. -/
def Waiting (m : Malloc) (x p : ℕ) : Trie ℕ → Prop
  | leaf => p = 0
  | node a same l r => p = a ∧ Group m a same ∧ (∀ b, m.child a b = 0) ∧ Rep m l (m.child x false) x ∧
    Rep m r (m.child x true) x

/-- The loop of `unlink_large_chunk` finds a lowest node. -/
theorem descend_rep (rep : Rep m t p q) (within : t.Within m.chunksize w h) (some : p ≠ 0)
    (nodup : t.nodes.Nodup) (rp : ℕ × Bool) (enough : w < n) : ∃ b same t' rp',
      t.deep = .some ((b, same), t') ∧
      m.descend p rp n = .ok (b, rp') ∧ Group m b same ∧ (∀ c, m.child b c = 0) ∧
      ((rp' = rp ∧ t' = leaf) ∨ (rp'.1 ∈ t'.nodes ∧ Rep (m.setChild rp'.1 rp'.2 0) t' p q)) := by
  induction t generalizing w h p q n rp with
  | leaf => exact absurd rep some
  | node a same l r left right =>
    obtain ⟨n, rfl⟩ := Nat.exists_eq_succ_of_ne_zero (Nat.ne_zero_of_lt enough)
    obtain ⟨rfl, parent, group, -, -⟩ := id rep
    by_cases last : ∀ c, m.child p c = 0
    · have below : r = leaf := (rep.side true).eq_zero_iff.1 (last true)
      have above : l = leaf := (rep.side false).eq_zero_iff.1 (last false)
      rw [below, above, Malloc.descend, if_neg (not_not.2 (last true)),
        if_neg (not_not.2 (last false))]
      exact ⟨p, same, leaf, rp, deep_leaves, rfl, group, last, .inl ⟨rfl, rfl⟩⟩
    · -- the side that the loop takes
      obtain ⟨c, child, first⟩ : ∃ c, m.child p c ≠ 0 ∧ (c = false → m.child p true = 0) := by
        by_cases right : m.child p true = 0
        · obtain ⟨c, child⟩ := not_forall.1 last
          exact ⟨c, child, fun _ => right⟩
        · exact ⟨true, right, by simp⟩
      have step : m.descend p rp (n + 1) = m.descend (m.child p c) (p, c) n := by
        rw [Malloc.descend]
        cases c with
        | false => rw [if_neg (not_not.2 (first rfl)), if_pos child]
        | true => rw [if_pos child]
      have firstLeaf : c = false → r = leaf := fun eq => (rep.side true).eq_zero_iff.1 (first eq)
      obtain ⟨sideNodup, apart, between⟩ := nodup_side nodup c
      have side := rep.side c
      cases w with
      | zero =>
        obtain ⟨-, -, rfl, rfl⟩ := within
        exact absurd (side.eq_zero_iff.2 (by cases c <;> rfl)) child
      | succ w =>
        have deeper : ∃ b same' s rp', (cond c r l).deep = .some ((b, same'), s) ∧
            m.descend (m.child p c) (p, c) n = .ok (b, rp') ∧ Group m b same' ∧
              (∀ c, m.child b c = 0) ∧
            ((rp' = (p, c) ∧ s = leaf) ∨
              (rp'.1 ∈ s.nodes ∧ Rep (m.setChild rp'.1 rp'.2 0) s (m.child p c) p)) := by
          have below := within.side c
          cases c
          · exact left side below child sideNodup _ (by omega)
          · exact right side below child sideNodup _ (by omega)
        obtain ⟨b, same', s, rp', deep, run, lowest, childless, back⟩ := deeper
        refine ⟨b, same', _, rp', deep_side deep firstLeaf, step.trans run, lowest,
          childless, .inr ?_⟩
        obtain ⟨rfl, rfl⟩ | ⟨inside, new⟩ := back
        · refine ⟨List.mem_cons_self,
            rep_of_side parent (group.setChild (List.nodup_cons.1 group.ring.nodup).1) ?_ ?_⟩
          · show (m.setChild p c 0).child p c = 0
            simp
          · rw [show (m.setChild p c 0).child p (!c) = m.child p (!c) by simp]
            exact (rep.other c).congr fun y there =>
              same_setChild (List.ne_of_not_mem_cons (other_apart nodup c y there))
        · have inSide : rp'.1 ∈ (cond c r l).nodes :=
            (nodes_deep deep).mem_iff.2 (List.mem_cons_of_mem b (List.mem_append_right same' inside))
          have notTop : p ≠ rp'.1 := (List.ne_of_not_mem_cons (apart _ inSide)).symm
          have kept : m.child p = (m.setChild rp'.1 rp'.2 0).child p := (update_of_ne notTop ..).symm
          refine ⟨mem_side (b := c) (by cases c <;> exact inside),
            rep_of_side parent (group.setChild ?_) ?_ ?_⟩
          · exact List.not_mem_of_not_mem_cons (apart _ inSide)
          · rwa [← kept]
          · rw [← kept]
            exact (rep.other c).congr fun y there => same_setChild fun eq =>
              between _ inSide (eq ▸ there)

theorem waiting_of_side (group : Group m b same) (childless : ∀ d, m.child b d = 0)
    (new : Rep m s (m.child x c) x) (other : Rep m (cond c l r) (m.child x !c) x) :
    Waiting m x b (node b same (cond c l s) (cond c s r)) := by
  cases c
  · exact ⟨rfl, group, childless, new, other⟩
  · exact ⟨rfl, group, childless, other, new⟩

variable (func) in
/-- The last chunk of the ring takes the place of the top. -/
theorem takeReplacement_concat (rep : Rep m (node x (same ++ [b]) l r) p q)
    (nodup : (node x (same ++ [b]) l r).nodes.Nodup)
    (ok : ∀ y ∈ (node x (same ++ [b]) l r).nodes, m.okAddress y) (notNull : b ≠ 0) :
    m.takeReplacement func x = .ok (b, spliced m x) ∧ Waiting (spliced m x) x b (node b same l r) ∧
      ∀ y, y ∉ (node x (same ++ [b]) l r).nodes → Same m (spliced m x) y := by
  obtain ⟨rfl, -, group, -, -⟩ := id rep
  have inGroup : ∀ y ∈ b :: p :: same, y ∈ p :: (same ++ [b]) := fun y there =>
    (List.perm_append_singleton b (p :: same)).mem_iff.2 there
  have last : m.bk p = b := by rw [group.ring.prev_eq, List.getLastD_concat]
  obtain ⟨run, ring⟩ := takeReplacement_ring func group.ring.rotate List.mem_cons_self
    fun y there => ok y (mem_group (inGroup y there))
  rw [List.erase_cons_head] at ring
  have frame : ∀ y, y ∉ p :: (same ++ [b]) → Same m (spliced m p) y := fun y outside =>
    same_spliced group.ring.rotate List.mem_cons_self fun there => outside (inGroup y there)
  have kept : ∀ c, Rep (spliced m p) (cond c r l) ((spliced m p).child p c) p := fun c =>
    (rep.side c).congr fun y there => frame y ((nodup_side nodup c).2.1 y there)
  have inRing : ∀ y ∈ b :: same, y ∈ same ++ [b] := fun y there =>
    (List.perm_append_singleton b same).mem_iff.2 there
  refine ⟨last ▸ run, ⟨rfl, ⟨notNull, ring, fun y there => ?_, fun y there => ?_⟩, ?_,
    kept false, kept true⟩, fun y outside => ?_⟩
  · exact group.parent y (inRing y (List.mem_cons_of_mem b there))
  · exact group.child y (inRing y (List.mem_cons_of_mem b there))
  · exact group.child b (inRing b List.mem_cons_self)
  · exact frame y fun there => outside (mem_group there)

/-- A lowest chunk takes the place of a top that is alone. -/
theorem takeReplacement_alone (rep : Rep m (node x [] l r) p q)
    (within : (node x [] l r).Within m.chunksize w h) (nodup : (node x [] l r).nodes.Nodup)
    (ok : ∀ y ∈ (node x [] l r).nodes, m.okAddress y) (bits : w ≤ 64) : ∃ y m₁,
      m.takeReplacement func x = .ok (y, m₁) ∧ Relinked m m₁ ∧ Waiting m₁ x y (collapse l r) ∧
      ∀ z, z ∉ (node x [] l r).nodes → Same m m₁ z := by
  obtain ⟨rfl, -, group, -, -⟩ := id rep
  have alone : m.bk p = p := group.ring.prev_eq
  obtain ⟨c, side, first⟩ : ∃ c, c = decide (m.child p true ≠ 0) ∧ (c = false → r = leaf) := by
    refine ⟨_, rfl, fun eq => (rep.side true).eq_zero_iff.1 ?_⟩
    simpa using eq
  rw [Malloc.takeReplacement, if_neg (not_not.2 alone), ← side]
  dsimp only
  by_cases empty : m.child p c = 0
  · have right : r = leaf := by
      cases c with
      | false => exact first rfl
      | true => exact (rep.side true).eq_zero_iff.1 empty
    have left : l = leaf := by
      cases c with
      | false => exact (rep.side false).eq_zero_iff.1 empty
      | true => simp [empty] at side
    rw [if_neg (not_not.2 empty), left, right]
    exact ⟨0, m, rfl, Relinked.refl m, rfl, fun z _ => Same.refl m z⟩
  · obtain ⟨sideNodup, apart, between⟩ := nodup_side nodup c
    have inSide : ∃ w h, w ≤ 64 ∧ (cond c r l).Within m.chunksize w h := by
      cases w with
      | zero =>
        obtain ⟨-, -, rfl, rfl⟩ := within
        exact ⟨0, 0, by omega, by cases c <;> trivial⟩
      | succ w => exact ⟨w, _, by omega, within.side c⟩
    obtain ⟨w', h', bits', below⟩ := inSide
    have enough : w' < Malloc.rounds := by
      rw [Malloc.rounds]
      omega
    obtain ⟨b, bs, s, rp, deep, run, lowest, childless, back⟩ :=
      descend_rep (rep.side c) below empty sideNodup (p, c) enough
    have moved := nodes_deep deep
    have parts := moved.nodup_iff.1 sideNodup
    have rest : ∀ y ∈ s.nodes, y ∉ b :: bs := fun y there there' =>
      (List.nodup_append.1 (show (b :: bs ++ s.nodes).Nodup from parts)).2.2 y there' y there rfl
    have notTop : p ∉ b :: (bs ++ s.nodes) := fun there =>
      apart p (moved.mem_iff.2 there) List.mem_cons_self
    have link : rp.1 = p ∨ rp.1 ∈ s.nodes := back.imp (fun back => by rw [back.1]) And.left
    have outside : rp.1 ∉ b :: bs := by
      obtain eq | there := link
      · rw [eq]
        exact fun there => notTop (List.mem_append_left s.nodes there)
      · exact rest _ there
    have inside : rp.1 ∈ (node p [] l r).nodes := by
      obtain eq | there := link
      · exact eq ▸ List.mem_cons_self
      · exact mem_side (b := c) (moved.mem_iff.2 (List.mem_append_right (b :: bs) there))
    have kept : rp.1 ∈ s.nodes → (m.setChild rp.1 rp.2 0).child p = m.child p := fun there =>
      update_of_ne (ne_of_mem_of_not_mem (List.mem_append_right (b :: bs) there) notTop).symm ..
    have okChild : m.okAddress (Malloc.childAddr rp.1 rp.2) :=
      (ok _ inside).trans (by simp only [Malloc.childAddr]; omega)
    rw [if_pos empty, run, collapse_side deep first]
    refine ⟨b, m.setChild rp.1 rp.2 0, if_pos okChild, rfl,
      waiting_of_side (lowest.setChild ?_) ?_ ?_ ?_, ?_⟩
    · exact List.not_mem_of_not_mem_cons outside
    · intro d
      rw [show (m.setChild rp.1 rp.2 0).child b =
        m.child b from update_of_ne (List.ne_of_not_mem_cons outside).symm ..]
      exact childless d
    · obtain ⟨rfl, rfl⟩ | ⟨there, new⟩ := back
      · show (m.setChild p c 0).child p c = 0
        simp
      · rwa [kept there]
    · have other : (m.setChild rp.1 rp.2 0).child p (!c) = m.child p (!c) := by
        obtain ⟨rfl, -⟩ | ⟨there, -⟩ := back
        · simp
        · rw [kept there]
      rw [other]
      refine (rep.other c).congr fun y there => same_setChild ?_
      rintro rfl
      obtain eq | there' := link
      · exact other_apart nodup c _ there (eq ▸ List.mem_cons_self)
      · exact between _ (moved.mem_iff.2 (List.mem_append_right (b :: bs) there')) there
    · exact fun z outside => same_setChild fun eq => outside (eq ▸ inside)

/-- A root with another parent. -/
theorem Rep.setParent (rep : Rep m t p q) (some : p ≠ 0) (nodup : t.nodes.Nodup) :
    Rep (m.setParent p x) t p x := by
  cases t with
  | leaf => exact absurd rep some
  | node a same l r =>
    obtain ⟨rfl, -, group, -, -⟩ := id rep
    have sides : ∀ c, Rep (m.setParent p x) (cond c r l) (m.child p c) p := fun c =>
      (rep.side c).congr fun y there =>
        same_setParent (List.ne_of_not_mem_cons ((nodup_side nodup c).2.1 y there))
    refine ⟨rfl, update_self .., group.congr rfl rfl fun y there => same_setParent ?_,
      sides false, sides true⟩
    exact ne_of_mem_of_not_mem there (List.nodup_cons.1 group.ring.nodup).1

variable (func) in
theorem adoptChild_rep (rep : Rep m t (m.child x c) x) (nodup : t.nodes.Nodup) (outside : b ∉ t.nodes)
    (empty : m.child b c = 0) (ok : ∀ y ∈ t.nodes, m.okAddress y) :
    ∃ m', m.adoptChild func x b c = .ok m' ∧
      Relinked m m' ∧ Rep m' t (m'.child b c) b ∧ (∀ y, y ∉ b :: t.nodes → Same m m' y) ∧
      m'.fd b = m.fd b ∧ m'.bk b = m.bk b ∧ m'.parent b = m.parent b ∧
        m'.child b (!c) = m.child b (!c) := by
  rw [Malloc.adoptChild]
  by_cases null : m.child x c = 0
  · rw [if_neg (not_not.2 null)]
    refine ⟨m, rfl, Relinked.refl m, ?_, fun y _ => Same.refl m y, rfl, rfl, rfl, rfl⟩
    rw [rep.eq_zero_iff.1 null, empty]
    rfl
  · have there := rep.mem null
    have other : b ≠ m.child x c := ne_of_mem_of_not_mem there outside |>.symm
    rw [if_pos null, if_pos (ok _ there)]
    refine ⟨_, rfl, rfl, ?_, fun y outside' => ?_, rfl, rfl, ?_, ?_⟩
    · have link : (m.setChild b c (m.child x c)).child b c = m.child x c := by simp
      rw [Malloc.setParent_child, link]
      have moved : Rep (m.setChild b c (m.child x c)) t (m.child x c) x :=
        rep.congr fun y there => same_setChild (ne_of_mem_of_not_mem there outside)
      exact moved.setParent null nodup
    · rw [List.mem_cons, not_or] at outside'
      exact (same_setChild outside'.1).trans
        (same_setParent (ne_of_mem_of_not_mem there outside'.2).symm)
    · exact update_of_ne other ..
    · simp

variable (func) in
/-- The chunk that waits becomes the root of the trie. -/
theorem Waiting.adopt (waiting : Waiting m x b t) (nodup : t.nodes.Nodup) (outside : x ∉ t.nodes)
    (ok : ∀ y ∈ t.nodes, m.okAddress y) (q : ℕ) : ∃ m', m.replaceAbove func x b q = .ok m' ∧
      Relinked m m' ∧ Rep m' t b q ∧ ∀ y, y ∉ t.nodes → Same m m' y := by
  cases t with
  | leaf => exact ⟨m, if_neg (not_not.2 waiting), Relinked.refl m, waiting, fun y _ => Same.refl m y⟩
  | node a same l r =>
    obtain ⟨rfl, group, childless, left, right⟩ := waiting
    obtain ⟨leftNodup, leftApart, between⟩ := nodup_side nodup false
    obtain ⟨rightNodup, rightApart, -⟩ := nodup_side nodup true
    have inLeft : ∀ y ∈ l.nodes, y ∈ (node b same l r).nodes := fun y => mem_side (b := false)
    have inRight : ∀ y ∈ r.nodes, y ∈ (node b same l r).nodes := fun y => mem_side (b := true)
    have left₀ : Rep (m.setParent b q) l ((m.setParent b q).child x false) x :=
      left.congr fun y there => same_setParent (List.ne_of_not_mem_cons (leftApart y there))
    obtain ⟨m₁, run₁, linked₁, rep₁, frame₁, forth₁, back₁, parent₁, child₁⟩ :=
      adoptChild_rep func left₀ leftNodup
      (fun there => leftApart b there List.mem_cons_self) (childless false) fun y there =>
        ok y (inLeft y there)
    have notB : x ≠ b := fun eq => outside (eq ▸ List.mem_cons_self)
    have outLeft : x ∉ b :: l.nodes := by
      rw [List.mem_cons, not_or]
      exact ⟨notB, fun there => outside (inLeft x there)⟩
    have right₁ : Rep m₁ r (m₁.child x true) x := by
      rw [(frame₁ x outLeft).child]
      refine right.congr fun y there => (same_setParent ?_).trans (frame₁ y ?_)
      · exact List.ne_of_not_mem_cons (rightApart y there)
      · rw [List.mem_cons, not_or]
        exact ⟨List.ne_of_not_mem_cons (rightApart y there), fun there' => between y there' there⟩
    obtain ⟨m₂, run₂, linked₂, rep₂, frame₂, forth₂, back₂, parent₂, child₂⟩ :=
      adoptChild_rep func right₁ rightNodup
      (fun there => rightApart b there List.mem_cons_self)
        (child₁.trans (childless true)) fun y there =>
        linked₁.okAddress.2 (ok y (inRight y there))
    have both : ∀ y, y ∉ b :: l.nodes → y ∉ b :: r.nodes → Same m m₂ y := fun y notLeft notRight =>
      ((same_setParent (List.ne_of_not_mem_cons notLeft)).trans (frame₁ y notLeft)).trans
        (frame₂ y notRight)
    have linked₀ : Relinked m (m.setParent b q) := rfl
    have run : m.replaceAbove func x b q = .ok m₂ := by
      rw [Malloc.replaceAbove, if_pos group.some, if_pos (ok b List.mem_cons_self)]
      dsimp only
      rw [run₁]
      exact run₂
    refine ⟨m₂, run, (linked₀.trans linked₁).trans linked₂,
      ⟨rfl, ?_, group.congr ?_ ?_ ?_, ?_, rep₂⟩, ?_⟩
    · rw [parent₂, parent₁]
      exact update_self ..
    · exact forth₂.trans forth₁
    · exact back₂.trans back₁
    · intro y there
      have notB' : y ≠ b := ne_of_mem_of_not_mem there (List.nodup_cons.1 group.ring.nodup).1
      have sides : ∀ c, y ∉ (cond c r l).nodes := fun c there' =>
        (nodup_side nodup c).2.1 y there' (List.mem_cons_of_mem b there)
      apply both
      · exact List.not_mem_cons_of_ne_of_not_mem notB' (sides false)
      · exact List.not_mem_cons_of_ne_of_not_mem notB' (sides true)
    · rw [show m₂.child b false = m₁.child b false from child₂]
      refine rep₁.congr fun y there =>
        frame₂ y (List.not_mem_cons_of_ne_of_not_mem ?_ (between y there))
      exact List.ne_of_not_mem_cons (leftApart y there)
    · intro y outside'
      have notB' : y ≠ b := fun eq => outside' (eq ▸ List.mem_cons_self)
      apply both
      · exact List.not_mem_cons_of_ne_of_not_mem notB' fun there => outside' (inLeft y there)
      · exact List.not_mem_cons_of_ne_of_not_mem notB' fun there => outside' (inRight y there)

theorem Waiting.keep {m' : Malloc} (waiting : Waiting m x b t) (agree : ∀ y ∈ t.nodes, Same m m' y)
    (child : m'.child x = m.child x) : Waiting m' x b t := by
  cases t with
  | leaf => exact waiting
  | node a same l r =>
    obtain ⟨rfl, group, childless, left, right⟩ := waiting
    refine ⟨rfl, group.keep fun y there => agree y (mem_group there), ?_, ?_, ?_⟩
    · rw [(agree b List.mem_cons_self).child]
      exact childless
    · rw [child]
      exact left.congr fun y there => agree y (mem_side (b := false) there)
    · rw [child]
      exact right.congr fun y there => agree y (mem_side (b := true) there)

variable (func) in
/-- `unlink_large_chunk`, of a chunk that is in a ring only. -/
theorem unlink_ring (rep : Rep m (node a same l r) p q) (inside : x ∈ same)
    (nodup : (node a same l r).nodes.Nodup) (ok : ∀ y ∈ (node a same l r).nodes, m.okAddress y) :
    m.unlinkLargeChunk func x = .ok (spliced m x) ∧
      Rep (spliced m x) (node a (same.erase x) l r) p q ∧
      ∀ y, y ∉ (node a same l r).nodes → Same m (spliced m x) y := by
  obtain ⟨rfl, parent, group, -, -⟩ := id rep
  obtain ⟨run, ring⟩ := takeReplacement_ring func group.ring inside fun y there =>
    ok y (mem_group there)
  have sides : ∀ c, Rep (spliced m x) (cond c r l) (m.child p c) p := fun c =>
    (rep.side c).congr fun y there =>
      same_spliced group.ring inside ((nodup_side nodup c).2.1 y there)
  refine ⟨?_, ⟨rfl, parent, ⟨group.some, ring, fun y there => ?_, fun y there => ?_⟩, sides false,
    sides true⟩,
    fun y outside => same_spliced group.ring inside fun there => outside (mem_group there)⟩
  · rw [Malloc.unlinkLargeChunk, run, group.parent x inside]
    rfl
  · exact group.parent y (List.mem_of_mem_erase there)
  · exact group.child y (List.mem_of_mem_erase there)

variable (func) in
/-- What takes the place of the root of a trie. -/
theorem takeReplacement_top (rep : Rep m (node x same l r) p q)
    (within : (node x same l r).Within m.chunksize w h) (nodup : (node x same l r).nodes.Nodup)
    (ok : ∀ y ∈ (node x same l r).nodes, m.okAddress y) (null : 0 ∉ (node x same l r).nodes)
    (bits : w ≤ 64) :
    ∃ y m₁, m.takeReplacement func x = .ok (y, m₁) ∧ Relinked m m₁ ∧
      Waiting m₁ x y (successor same l r) ∧
      ∀ z, z ∉ (node x same l r).nodes → Same m m₁ z := by
  obtain rfl | ⟨others, b, rfl⟩ := List.eq_nil_or_concat same
  · rw [successor_nil]
    exact takeReplacement_alone rep within nodup ok bits
  · rw [List.concat_eq_append] at *
    have notNull : b ≠ 0 := by
      rintro rfl
      exact null (mem_group (List.mem_cons_of_mem x (by simp)))
    obtain ⟨run, waiting, frame⟩ := takeReplacement_concat func rep nodup ok notNull
    rw [successor_concat]
    exact ⟨b, _, run, rfl, waiting, frame⟩

/-- The nodes of what takes the place of the root. -/
theorem mem_successor {y : ℕ} (there : y ∈ (successor same l r).nodes) :
    y ∈ (node x same l r).nodes :=
  List.mem_cons_of_mem x (nodes_successor.mem_iff.1 there)

theorem successor_apart (nodup : (node x same l r).nodes.Nodup) :
    (successor same l r).nodes.Nodup ∧ x ∉ (successor same l r).nodes := by
  obtain ⟨outside, rest⟩ := List.nodup_cons.1 nodup
  exact ⟨nodes_successor.nodup_iff.2 rest, fun there => outside (nodes_successor.mem_iff.1 there)⟩

/-- A changed side below a node that is left alone but for its link to the side. -/
theorem Rep.graft {m' : Malloc} {d : Bool} (rep : Rep m (node a same l r) p q)
    (nodup : (node a same l r).nodes.Nodup) (new : Rep m' s (m'.child a d) a)
    (forth : m'.fd a = m.fd a) (back : m'.bk a = m.bk a) (parent : m'.parent a = m.parent a)
    (child : m'.child a (!d) = m.child a (!d))
    (frame : ∀ y, y ≠ a → y ∉ (cond d r l).nodes → Same m m' y) :
    Rep m' (node a same (cond d l s) (cond d s r)) p q := by
  obtain ⟨rfl, parent', group, -, -⟩ := id rep
  obtain ⟨-, apart, between⟩ := nodup_side nodup d
  have keptGroup : ∀ y ∈ same, Same m m' y := fun y there =>
    frame y (ne_of_mem_of_not_mem there (List.nodup_cons.1 group.ring.nodup).1) fun side =>
      apart y side (List.mem_cons_of_mem p there)
  refine rep_of_side (parent.trans parent') (group.congr forth back keptGroup) new ?_
  rw [child]
  exact (rep.other d).congr fun y there =>
    frame y (List.ne_of_not_mem_cons (other_apart nodup d y there)) fun side => between y side there

variable (func) in
/-- `unlink_large_chunk`, of the root of one side of a node. -/
theorem unlink_side {d : Bool} {same' : List ℕ} {l' r' : Trie ℕ} (rep : Rep m (node a same l r) p q)
    (side : cond d r l = node x same' l' r') (within : (cond d r l).Within m.chunksize w h)
    (bits : w ≤ 64) (nodup : (node a same l r).nodes.Nodup)
    (ok : ∀ y ∈ (node a same l r).nodes, m.okAddress y) (null : 0 ∉ (node a same l r).nodes)
    (notRoot : x ≠ m.treebins (m.index x)) : ∃ m',
      m.unlinkLargeChunk func x = .ok m' ∧ Relinked m m' ∧
      Rep m' (node a same (cond d l (successor same' l' r')) (cond d (successor same' l' r') r)) p q ∧
      ∀ y, y ∉ (node a same l r).nodes → Same m m' y := by
  obtain ⟨rfl, -, group, -, -⟩ := id rep
  obtain ⟨sideNodup, apart, between⟩ := nodup_side nodup d
  have inSide : ∀ y ∈ (node x same' l' r').nodes, y ∈ (cond d r l).nodes :=
    fun y there => side ▸ there
  have below : Rep m (node x same' l' r') (m.child p d) p := side ▸ rep.side d
  obtain ⟨link, above, -, -, -⟩ := id below
  obtain ⟨b, m₁, run₁, linked₁, waiting, frame₁⟩ := takeReplacement_top func below (side ▸ within)
    (side ▸ sideNodup) (fun y there => ok y (mem_side (inSide y there)))
      (fun there => null (mem_side (inSide 0 there))) bits
  obtain ⟨newNodup, outside⟩ := successor_apart (side ▸ sideNodup)
  have inNew : ∀ y ∈ (successor same' l' r').nodes, y ∈ (cond d r l).nodes := fun y there =>
    inSide y (mem_successor there)
  have notX : p ≠ x := fun eq => apart x (inSide x List.mem_cons_self) (eq ▸ List.mem_cons_self)
  have same₁ : Same m m₁ p := frame₁ p fun there => apart p (inSide p there) List.mem_cons_self
  -- the field below the parent that leads to `x`
  have field : (if m₁.child p false = x then m₁.setChild p false b else m₁.setChild p true b) =
    m₁.setChild p d b := by
    rw [same₁.child]
    cases d with
    | false => rw [if_pos link]
    | true =>
      rw [if_neg]
      intro eq
      have there : x ∈ l.nodes := eq ▸ (rep.side false).mem (fun zero => null (mem_side (inSide 0 (by
        rw [← zero, eq]
        exact List.mem_cons_self))))
      exact between x (inSide x List.mem_cons_self) there
  have waiting' : Waiting (m₁.setChild p d b) x b (successor same' l' r') :=
    waiting.keep (fun y there => same_setChild fun eq =>
      apart p (eq ▸ inNew y there) List.mem_cons_self)
      (update_of_ne notX.symm ..)
  obtain ⟨m₂, run₂, linked₂, new, frame₂⟩ := waiting'.adopt func newNodup outside
    (fun y there => linked₁.okAddress.2 (ok y (mem_side (inNew y there)))) p
  have same₂ : Same (m₁.setChild p d b) m₂ p := frame₂ p fun there =>
    apart p (inNew p there) List.mem_cons_self
  have run : m.unlinkLargeChunk func x = .ok m₂ := by
    have index : m₁.index x = m.index x := by rw [linked₁]
    have bins : m₁.treebins = m.treebins := by rw [linked₁]
    have okParent : m₁.okAddress p := linked₁.okAddress.2 (ok p List.mem_cons_self)
    have place : m₁.replaceBelow func x b p = .ok (m₁.setChild p d b) := by
      rw [Malloc.replaceBelow]
      dsimp only
      rw [index, bins, if_neg notRoot, if_pos okParent, field]
      rfl
    rw [Malloc.unlinkLargeChunk, run₁, above]
    show (if p ≠ 0 then _ else _) = _
    rw [if_pos group.some]
    show (m₁.replaceBelow func x b p >>= fun m => m.replaceAbove func x b p) = _
    rw [place]
    exact run₂
  have linked₀ : Relinked m₁ (m₁.setChild p d b) := rfl
  refine ⟨m₂, run, (linked₁.trans linked₀).trans linked₂, rep.graft nodup ?_ ?_ ?_ ?_ ?_ ?_, ?_⟩
  · rwa [same₂.child, show (m₁.setChild p d b).child p d = b by simp]
  · rw [same₂.fd]
    exact same₁.fd
  · rw [same₂.bk]
    exact same₁.bk
  · rw [same₂.parent]
    exact same₁.parent
  · rw [same₂.child, ← same₁.child]
    simp
  · exact fun y other outside =>
      ((frame₁ y fun there => outside (inSide y there)).trans (same_setChild other)).trans
      (frame₂ y fun there => outside (inNew y there))
  · intro y outside
    have other : y ≠ p := fun eq => outside (eq ▸ List.mem_cons_self)
    exact ((frame₁ y fun there => outside (mem_side (inSide y there))).trans
      (same_setChild other)).trans
      (frame₂ y fun there => outside (mem_side (inNew y there)))

variable (func) in
/-- `unlink_large_chunk`, of a chunk that is not the root of its bin. -/
theorem unlink_below (rep : Rep m t p q) (within : t.Within m.chunksize w h) (bits : w ≤ 64)
    (nodup : t.nodes.Nodup) (ok : ∀ y ∈ t.nodes, m.okAddress y) (null : 0 ∉ t.nodes)
    (inside : x ∈ t.nodes) (notTop : x ≠ p) (notRoot : x ≠ m.treebins (m.index x)) :
    ∃ m', m.unlinkLargeChunk func x = .ok m' ∧ Relinked m m' ∧
      Rep m' (t.erase x) p q ∧ ∀ y, y ∉ t.nodes → Same m m' y := by
  induction t generalizing w h p q with
  | leaf => exact absurd inside List.not_mem_nil
  | node a same l r left right =>
    obtain ⟨rfl, -, group, -, -⟩ := id rep
    by_cases ring : x ∈ same
    · obtain ⟨run, new, frame⟩ := unlink_ring func rep ring nodup ok
      refine ⟨_, run, rfl, ?_, frame⟩
      rwa [erase, if_neg (Ne.symm notTop), if_pos ring]
    · obtain ⟨d, there⟩ : ∃ d, x ∈ (cond d r l).nodes := by
        simp only [Trie.nodes, List.mem_cons, List.mem_append] at inside
        obtain eq | there | there | there := inside
        · exact absurd eq notTop
        · exact absurd there ring
        · exact ⟨false, there⟩
        · exact ⟨true, there⟩
      obtain ⟨sideNodup, apart, between⟩ := nodup_side nodup d
      rw [erase_side (Ne.symm notTop) ring (between x there)]
      cases w with
      | zero =>
        obtain ⟨-, -, rfl, rfl⟩ := within
        cases d <;> exact absurd there List.not_mem_nil
      | succ w =>
        have below := within.side d
        by_cases root : x = m.child p d
        · obtain ⟨same', l', r', side⟩ : ∃ same' l' r', cond d r l = node x same' l' r' := by
            have rep' := rep.side d
            generalize cond d r l = t at rep' there
            cases t with
            | leaf => exact absurd there List.not_mem_nil
            | node y same' l' r' => exact ⟨same', l', r', by rw [root, rep'.1]⟩
          obtain ⟨m', run, linked, new, frame⟩ :=
            unlink_side func rep side below (by omega) nodup ok null notRoot
          refine ⟨m', run, linked, ?_, frame⟩
          rwa [side, erase, if_pos rfl]
        · have ok' : ∀ y ∈ (cond d r l).nodes, m.okAddress y := fun y there => ok y (mem_side there)
          have null' : 0 ∉ (cond d r l).nodes := fun there => null (mem_side there)
          obtain ⟨m', run, linked, new, frame⟩ : ∃ m', m.unlinkLargeChunk func x = .ok m' ∧
            Relinked m m' ∧
              Rep m' ((cond d r l).erase x) (m.child p d) p ∧ ∀ y, y ∉ (cond d r l).nodes →
                Same m m' y := by
            cases d
            · exact left (rep.side false) below (by omega) sideNodup ok' null' there root
            · exact right (rep.side true) below (by omega) sideNodup ok' null' there root
          have kept : Same m m' p := frame p fun there => apart p there List.mem_cons_self
          refine ⟨m', run, linked, rep.graft nodup ?_ kept.fd kept.bk kept.parent ?_ fun y _ =>
            frame y, ?_⟩
          · rwa [kept.child]
          · rw [kept.child]
          · exact fun y outside => frame y fun there => outside (mem_side there)

variable (func) in
/-- `unlink_large_chunk`, of the root of its bin. -/
theorem unlink_root (rep : Rep m t x q) (within : t.Within m.chunksize w h) (bits : w ≤ 64)
    (nodup : t.nodes.Nodup) (ok : ∀ y ∈ t.nodes, m.okAddress y) (null : 0 ∉ t.nodes) (some : x ≠ 0)
    (some' : q ≠ 0) (root : x = m.treebins (m.index x)) : ∃ m' b, m.unlinkLargeChunk func x = .ok m' ∧
      Relinked { m with
        treebins := update m.treebins (m.index x) b
        treemap :=
          if b = 0 then m.treemap &&& (2 ^ 32 - 1 - idx2bit (m.index x)) else m.treemap } m' ∧
      Rep m' (t.erase x) b q ∧ ∀ y, y ∉ t.nodes → Same m m' y := by
  cases t with
  | leaf => exact absurd rep some
  | node a same l r =>
    obtain ⟨rfl, above, group, -, -⟩ := id rep
    obtain ⟨b, m₁, run₁, linked₁, waiting, frame₁⟩ :=
      takeReplacement_top func rep within nodup ok null bits
    obtain ⟨newNodup, outside⟩ := successor_apart nodup
    obtain ⟨m₀, eq⟩ : ∃ m₀, m₀ = (if b = 0 then (m₁.setTreebin (m.index x) b).clearTreemap (m.index x)
        else m₁.setTreebin (m.index x) b) := ⟨_, rfl⟩
    have fields : m₀ = { m₁ with
        treebins := update m₁.treebins (m.index x) b
        treemap :=
          if b = 0 then m₁.treemap &&& (2 ^ 32 - 1 - idx2bit (m.index x)) else m₁.treemap } := by
      rw [eq]
      split <;> rfl
    have kept : ∀ y, Same m₁ m₀ y := fun y => by
      rw [fields]
      exact ⟨rfl, rfl, rfl, rfl⟩
    have okNew : ∀ y ∈ (successor same l r).nodes, m₀.okAddress y := fun y there => by
      rw [fields]
      exact linked₁.okAddress.2 (ok y (mem_successor there))
    obtain ⟨m₂, run₂, linked₂, new, frame₂⟩ :=
      (waiting.keep (fun y _ => kept y) (kept x).child).adopt func
      newNodup outside okNew q
    have run : m.unlinkLargeChunk func x = .ok m₂ := by
      have index : m₁.index x = m.index x := by rw [linked₁]
      have bins : m₁.treebins = m.treebins := by rw [linked₁]
      have place : m₁.replaceBelow func x b q = .ok m₀ := by
        rw [Malloc.replaceBelow]
        dsimp only
        rw [index, bins, if_pos root, eq]
        rfl
      rw [Malloc.unlinkLargeChunk, run₁, above]
      show (if q ≠ 0 then _ else _) = _
      rw [if_pos some']
      show (m₁.replaceBelow func x b q >>= fun m => m.replaceAbove func x b q) = _
      rw [place]
      exact run₂
    refine ⟨m₂, b, run, ?_, ?_, fun y outside' => ?_⟩
    · rw [Relinked, linked₂, fields, linked₁]
    · rwa [erase, if_pos rfl]
    · exact ((frame₁ y outside').trans (kept y)).trans
        (frame₂ y fun there => outside' (mem_successor there))

end Unlink

end Vineyard.Heap
