import Vineyard.Physical.Conservation

/-!
# How many calls are sure to return

A layout that holds `2 * k` pages, frames included, serves `k` calls of `mm_physical_get`: a call gives
out one page and leaves at most one frame behind.  The exception is a stack in physical page `0`, below
which the allocator does not look.  That page becomes a stack only if it is the last page that fits on
another one (`Layout.ZeroFirst` excludes it).
-/

namespace Vineyard

variable {A B : Layout}

namespace Layout

/-- The pages that the layout holds, the frames of its stacks included. -/
def reserve (A : Layout) : ℕ := A.frames.length + A.pages.length

/-- Page `0` is no stack, and on a stack it can only be the oldest page. -/
structure ZeroFirst (A : Layout) : Prop where
  frames : 0 ∉ A.frames
  pages : ∀ t ∈ A, 0 ∉ t.2.tail

theorem zeroFirst_root {f : ℕ} (ne : f ≠ 0) : ZeroFirst [(f, [])] :=
  ⟨by simpa using ne.symm, by simp⟩

/-- The frames that a call leaves behind. -/
theorem Ok.get_lost {p : ℕ} (ok : A.Ok) (h : A.get = some (p, B)) :
    ∃ lost, A.frames = lost ++ B.frames ∧ lost.length ≤ 1 := by
  rcases ok.get_cases h with ⟨f, ps, rest, rfl, rfl⟩ | ⟨f, g, qs, rest, -, rfl, rfl⟩
  · exact ⟨[], rfl, Nat.zero_le 1⟩
  · exact ⟨[f], rfl, le_rfl⟩

theorem Ok.getMany_lost {n : ℕ} {as : List ℕ} (ok : A.Ok) (h : A.getMany n = some (as, B)) :
    ∃ lost, A.frames = lost ++ B.frames ∧ lost.length ≤ n := by
  induction n generalizing A as with
  | zero =>
    obtain ⟨rfl, rfl⟩ := by simpa [Layout.getMany] using h
    exact ⟨[], rfl, le_rfl⟩
  | succ n ih =>
    obtain ⟨p, C, bs, get, more, rfl⟩ := getMany_succ h
    obtain ⟨lost, frames, few⟩ := ok.get_lost get
    obtain ⟨lost', frames', few'⟩ := ih (ok.get get) more
    refine ⟨lost ++ lost', by rw [frames, frames', List.append_assoc], ?_⟩
    rw [List.length_append]
    omega

theorem getMany_length {n : ℕ} {as : List ℕ} (h : A.getMany n = some (as, B)) : as.length = n := by
  induction n generalizing A as with
  | zero =>
    obtain ⟨rfl, rfl⟩ := by simpa [Layout.getMany] using h
    rfl
  | succ n ih =>
    obtain ⟨p, C, bs, get, more, rfl⟩ := getMany_succ h
    rw [List.length_cons, ih more]

/-- Calls that fail after others fail all the same. -/
theorem getMany_none_add {n k : ℕ} {as : List ℕ} (h : A.getMany n = some (as, B))
    (fails : B.getMany k = none) : A.getMany (n + k) = none := by
  induction n generalizing A as with
  | zero =>
    obtain ⟨rfl, rfl⟩ := by simpa [Layout.getMany] using h
    rwa [Nat.zero_add]
  | succ n ih =>
    obtain ⟨p, C, bs, get, more, rfl⟩ := getMany_succ h
    rw [Nat.add_right_comm]
    simp [Layout.getMany, get, ih more]

/-- Nothing is lost but frames: what is taken, kept and left behind is what was there. -/
theorem Ok.getMany_perm {n : ℕ} {as : List ℕ} (ok : A.Ok) (h : A.getMany n = some (as, B)) :
    ∃ lost, (B.frames ++ B.pages ++ as ++ lost).Perm (A.frames ++ A.pages) ∧ lost.length ≤ n := by
  obtain ⟨lost, frames, few⟩ := ok.getMany_lost h
  have pages := List.perm_iff_count.1 (ok.getMany h).2.1
  refine ⟨lost, ?_, few⟩
  rw [frames, List.perm_iff_count]
  intro x
  have := pages x
  simp only [List.count_append] at this ⊢
  omega

theorem Ok.reserve_getMany {n : ℕ} {as : List ℕ} (ok : A.Ok) (h : A.getMany n = some (as, B)) :
    A.reserve ≤ B.reserve + 2 * n := by
  obtain ⟨lost, perm, few⟩ := ok.getMany_perm h
  have length := perm.length_eq
  have taken := getMany_length h
  simp only [List.length_append] at length
  rw [reserve, reserve]
  omega

/-! ### Page `0` -/

theorem tail_subset (ps qs : List ℕ) : ps.tail ⊆ (ps ++ qs).tail := by
  cases ps <;> simp

theorem ZeroFirst.get {p : ℕ} (zero : A.ZeroFirst) (ok : A.Ok) (h : A.get = some (p, B)) :
    B.ZeroFirst := by
  refine ⟨fun mem => zero.frames ((ok.get_frames h).subset mem), ?_⟩
  rcases ok.get_cases h with ⟨f, ps, rest, rfl, rfl⟩ | ⟨f, g, qs, rest, -, rfl, rfl⟩
  · have top := zero.pages (f, ps ++ [p]) (by simp)
    have below := fun t ht => zero.pages t (List.mem_cons_of_mem _ ht)
    refine List.forall_mem_cons.2 ⟨fun mem => top ?_, below⟩
    exact tail_subset ps [p] mem
  · have top := zero.pages (g, qs ++ [p]) (by simp)
    have below := fun t ht => zero.pages t (List.mem_cons_of_mem _ (List.mem_cons_of_mem _ ht))
    refine List.forall_mem_cons.2 ⟨fun mem => top ?_, below⟩
    exact tail_subset qs [p] mem

theorem ZeroFirst.getMany {n : ℕ} {as : List ℕ} (zero : A.ZeroFirst) (ok : A.Ok)
    (h : A.getMany n = some (as, B)) : B.ZeroFirst := by
  induction n generalizing A as with
  | zero =>
    obtain ⟨rfl, rfl⟩ := by simpa [Layout.getMany] using h
    exact zero
  | succ n ih =>
    obtain ⟨p, C, bs, get, more, rfl⟩ := getMany_succ h
    exact ih (zero.get ok get) (ok.get get) more

/-- The first page ever marked free may be page `0`. -/
theorem ZeroFirst.markFree {a : ℕ} (zero : A.ZeroFirst) (ok : A.Ok) (h : A.markFree a = some B)
    (first : a = 0 → A.pages = []) : B.ZeroFirst := by
  rcases ok.markFree_cases h with ⟨f, ps, rest, -, rfl, rfl⟩ | ⟨f, ps, p, rest, full, rfl, rfl⟩
  · refine ⟨zero.frames,
      List.forall_mem_cons.2 ⟨?_, fun t ht => zero.pages t (List.mem_cons_of_mem _ ht)⟩⟩
    cases ps with
    | nil => simp
    | cons q ps =>
      have top := zero.pages (f, q :: ps) (by simp)
      have ne : a ≠ 0 := by simpa using first
      simpa [ne.symm] using top
  · -- The page that becomes a stack is not the oldest of its 509 pages.
    have top := zero.pages (f, ps ++ [p]) (by simp)
    have some : ps ≠ [] := by
      rintro rfl
      simp [stackSize] at full
    rw [List.tail_append_of_ne_nil some] at top
    have ne : p ≠ 0 := fun e => top (by simp [e])
    refine ⟨?_, List.forall_mem_cons.2 ⟨by simp, List.forall_mem_cons.2 ⟨fun mem => top ?_, ?_⟩⟩⟩
    · rw [frames_cons, List.mem_cons, not_or]
      exact ⟨ne.symm, zero.frames⟩
    · exact List.mem_append_left _ mem
    · exact fun t ht => zero.pages t (List.mem_cons_of_mem _ ht)

/-! ### Calls that return -/

/-- A layout of two pages or more records one of them. -/
theorem Ok.pages_ne_nil (ok : A.Ok) (enough : 2 ≤ A.reserve) : A.pages ≠ [] := by
  intro none
  rw [reserve, none, List.length_nil] at enough
  obtain _ | ⟨⟨f, ps⟩, rest⟩ := A
  · simp at enough
  · obtain ⟨_, rfl⟩ := ok.pages_eq_nil_iff.1 none
    simp at enough

theorem Ok.get_isSome (ok : A.Ok) (zero : A.ZeroFirst) (enough : 2 ≤ A.reserve) :
    ∃ p B, A.get = some (p, B) := by
  obtain _ | ⟨⟨f, ps⟩, rest⟩ := A
  · simp [reserve] at enough
  cases get : Layout.get ((f, ps) :: rest) with
  | some r => exact ⟨r.1, r.2, rfl⟩
  | none =>
    obtain ⟨rfl, below⟩ := ok.get_eq_none_iff.1 get
    have some := ok.pages_ne_nil enough
    rw [ne_eq, ok.pages_eq_nil_iff] at some
    obtain _ | ⟨⟨g, qs⟩, rest⟩ := rest
    · exact absurd ⟨rfl, rfl⟩ some
    · obtain rfl : g = 0 := below (g, qs) rfl
      exact absurd (by simp) zero.frames

theorem Ok.getMany_isSome {n : ℕ} (ok : A.Ok) (zero : A.ZeroFirst) (enough : 2 * n ≤ A.reserve) :
    ∃ as B, A.getMany n = some (as, B) := by
  induction n generalizing A with
  | zero => exact ⟨[], A, rfl⟩
  | succ n ih =>
    obtain ⟨p, C, get⟩ := ok.get_isSome zero (by omega)
    have one : A.getMany 1 = some ([p], C) := by simp [Layout.getMany, get]
    have left := ok.reserve_getMany one
    obtain ⟨as, B, more⟩ := ih (ok.get get) (zero.get ok get) (by omega)
    exact ⟨p :: as, B, by simp [Layout.getMany, get, more]⟩

end Layout

/-- The code fails to give out `n` pages only if the layout does. -/
theorem Pmm.Holds.getMany_error {s : Pmm} {n : ℕ} {e : Fault} (h : s.Holds A)
    (fails : getMany n s = .error e) : A.getMany n = none ∧ e = outOfMemory := by
  induction n generalizing s A with
  | zero => cases fails
  | succ n ih =>
    rw [getMany] at fails
    cases get : A.get with
    | none =>
      rw [mmPhysicalGet_panics h get] at fails
      exact ⟨by simp [Layout.getMany, get], (Except.error.inj fails).symm⟩
    | some r =>
      obtain ⟨p, C⟩ := r
      obtain ⟨s', run, holds, _⟩ := mmPhysicalGet_refines h get
      rw [run, Fallible.ok_bind] at fails
      cases more : getMany n s' with
      | ok r =>
        simp only [more, Fallible.ok_bind] at fails
        cases fails
      | error e' =>
        simp only [more] at fails
        obtain rfl : e' = e := Except.error.inj fails
        obtain ⟨none, isOut⟩ := ih holds more
        exact ⟨by simp [Layout.getMany, get, none], isOut⟩

end Vineyard
