import Mathlib.Data.List.Nodup

/-!
# Forests listed in preorder

A place `a` holds the items `items a`, and an item may lead to one further place.  `preorder` lists the
items of a place, each followed by what lies below it.  In a forest no two items lead to the same place
and every item leads down, so the listing has each item under the place once.
-/

namespace Preorder

variable {α β : Type}

/-- The items at and under a place, down to a depth. -/
def preorder (items : α → List β) (below : β → Option α) : ℕ → α → List β
  | 0, _ => []
  | n + 1, a => (items a).flatMap fun x =>
      x :: (below x).elim [] (preorder items below n)

/-- The item `y` lies at the place `a` or under it. -/
inductive Under (items : α → List β) (below : β → Option α) : α → β → Prop where
  | here {a : α} {y : β} (mem : y ∈ items a) : Under items below a y
  | deeper {a c : α} {x y : β} (mem : x ∈ items a) (leads : below x = some c)
      (under : Under items below c y) : Under items below a y

/-- Each item has one place, no place is led to twice, and an item leads to a place of lower rank. -/
structure Forest (items : α → List β) (below : β → Option α) (home : β → α) (rank : α → ℕ) :
    Prop where
  nodup : ∀ a, (items a).Nodup
  home_eq : ∀ {a x}, x ∈ items a → home x = a
  lower : ∀ {a x c}, x ∈ items a → below x = some c → rank c < rank a
  unique : ∀ {a b x y c}, x ∈ items a → y ∈ items b → below x = some c → below y = some c → x = y

variable {items : α → List β} {below : β → Option α} {home : β → α} {rank : α → ℕ}

theorem Under.mem_home (forest : Forest items below home rank) {a : α} {y : β}
    (under : Under items below a y) : y ∈ items (home y) := by
  induction under with
  | here mem =>
    rw [forest.home_eq mem]
    exact mem
  | deeper _ _ _ ih => exact ih

/-- What an item leads to lies under every place that the item lies under. -/
theorem Under.extend {a c : α} {x y : β} (under : Under items below a x) (leads : below x = some c)
    (mem : y ∈ items c) : Under items below a y := by
  induction under with
  | here first => exact .deeper first leads (.here mem)
  | deeper first leads' _ ih => exact .deeper first leads' (ih leads)

theorem Under.rank_le (forest : Forest items below home rank) {a : α} {y : β}
    (under : Under items below a y) : rank (home y) ≤ rank a := by
  induction under with
  | here mem => exact Nat.le_of_eq (congrArg rank (forest.home_eq mem))
  | deeper mem leads _ ih => exact Nat.le_trans ih (Nat.le_of_lt (forest.lower mem leads))

/-- The place of an item under `a` is `a` itself or is led to from under `a`. -/
theorem Under.home_or (forest : Forest items below home rank) {a : α} {y : β}
    (under : Under items below a y) :
    home y = a ∨ ∃ z, Under items below a z ∧ below z = some (home y) := by
  induction under with
  | here mem => exact .inl (forest.home_eq mem)
  | deeper mem leads _ ih =>
    rcases ih with same | ⟨z, under, leads'⟩
    · rw [same]
      exact .inr ⟨_, .here mem, leads⟩
    · exact .inr ⟨z, .deeper mem leads under, leads'⟩

/-- Two places with an item in common under them are the same, or one is led to from the other. -/
theorem Under.comparable (forest : Forest items below home rank) {a b : α} {y : β}
    (left : Under items below a y) (right : Under items below b y) :
    a = b ∨ (∃ z, Under items below a z ∧ below z = some b) ∨
      ∃ z, Under items below b z ∧ below z = some a := by
  induction left with
  | @here a y mem =>
    have place : home y = a := forest.home_eq mem
    rcases right.home_or forest with same | led
    · exact .inl (place.symm.trans same)
    · rw [place] at led
      exact .inr (.inr led)
  | @deeper a c x y mem leads _ ih =>
    rcases ih right with rfl | ⟨z, under, leads'⟩ | ⟨z, under, leads'⟩
    · exact .inr (.inl ⟨x, .here mem, leads⟩)
    · exact .inr (.inl ⟨z, .deeper mem leads under, leads'⟩)
    · -- the item that leads to `c` is `x`, so `x` lies under both places
      have same : z = x := forest.unique (under.mem_home forest) mem leads' leads
      subst same
      rcases under.home_or forest with same | led
      · exact .inl ((forest.home_eq mem).symm.trans same)
      · rw [forest.home_eq mem] at led
        exact .inr (.inr led)

theorem mem_preorder (forest : Forest items below home rank) {n : ℕ} {a : α} {y : β}
    (deep : rank a < n) : y ∈ preorder items below n a ↔ Under items below a y := by
  induction n generalizing a with
  | zero => omega
  | succ n ih =>
    rw [preorder, List.mem_flatMap]
    constructor
    · rintro ⟨x, mem, listed⟩
      rcases List.mem_cons.mp listed with rfl | listed
      · exact .here mem
      · cases leads : below x with
        | none => simp [leads] at listed
        | some c =>
          rw [leads] at listed
          have lower := forest.lower mem leads
          exact .deeper mem leads ((ih (by omega)).mp listed)
    · intro under
      cases under with
      | here mem => exact ⟨y, mem, List.mem_cons_self⟩
      | @deeper _ c x _ mem leads under =>
        have lower := forest.lower mem leads
        refine ⟨x, mem, List.mem_cons_of_mem x ?_⟩
        rw [leads]
        exact (ih (by omega)).mpr under

/-- What two items of a place lead to has nothing in common. -/
theorem Forest.disjoint_below (forest : Forest items below home rank) {a b c : α} {x x' y : β}
    (mem : x ∈ items a) (mem' : x' ∈ items a) (leads : below x = some b) (leads' : below x' = some c)
    (left : Under items below b y) (right : Under items below c y) : x = x' := by
  have lower := forest.lower mem leads
  have lower' := forest.lower mem' leads'
  rcases left.comparable forest right with rfl | ⟨z, under, led⟩ | ⟨z, under, led⟩
  · exact forest.unique mem mem' leads leads'
  · have same : z = x' := forest.unique (under.mem_home forest) mem' led leads'
    have deeper := under.rank_le forest
    rw [same, forest.home_eq mem'] at deeper
    omega
  · have same : z = x := forest.unique (under.mem_home forest) mem led leads
    have deeper := under.rank_le forest
    rw [same, forest.home_eq mem] at deeper
    omega

theorem nodup_preorder (forest : Forest items below home rank) {n : ℕ} {a : α} (deep : rank a < n) :
    (preorder items below n a).Nodup := by
  induction n generalizing a with
  | zero => omega
  | succ n ih =>
    -- an item of `a` is not below any item of `a`
    have apart : ∀ {x y}, x ∈ items a → y ∈ items a →
        x ∉ (below y).elim [] (preorder items below n) := by
      intro x y memx memy listed
      cases leads : below y with
      | none => simp [leads] at listed
      | some c =>
        rw [leads] at listed
        have lower := forest.lower memy leads
        have deeper := ((mem_preorder forest (by omega)).mp listed).rank_le forest
        rw [forest.home_eq memx] at deeper
        omega
    rw [preorder, List.nodup_flatMap]
    refine ⟨fun x mem => List.nodup_cons.mpr ⟨apart mem mem, ?_⟩, ?_⟩
    · cases leads : below x with
      | none => exact List.nodup_nil
      | some c =>
        have lower := forest.lower mem leads
        exact ih (by omega)
    · refine (forest.nodup a).imp_of_mem ?_
      intro x x' mem mem' different y listed listed'
      rcases List.mem_cons.mp listed with rfl | listed
      · rcases List.mem_cons.mp listed' with same | listed'
        · exact different same
        · exact apart mem mem' listed'
      · rcases List.mem_cons.mp listed' with rfl | listed'
        · exact apart mem' mem listed
        · cases leads : below x with
          | none => simp [leads] at listed
          | some b =>
            cases leads' : below x' with
            | none => simp [leads'] at listed'
            | some c =>
              rw [leads] at listed
              rw [leads'] at listed'
              have lower := forest.lower mem leads
              have lower' := forest.lower mem' leads'
              exact different (forest.disjoint_below mem mem' leads leads'
                ((mem_preorder forest (by omega)).mp listed)
                ((mem_preorder forest (by omega)).mp listed'))

end Preorder
