import Vineyard.Physical.Runs

/-!
# When the allocator reports that memory is out

Every page that was marked free has been returned, has become a stack frame or is recorded
(`Book.count`).  So the pages marked free are all gone exactly when no stack records one.
`mm_physical_get` tests instead for an empty stack whose `prev` is `0`, which is also what a stack
looks like that was put on top of a stack in physical page `0`.
-/

namespace Vineyard

namespace Layout

/-- Every stack but the first records pages. -/
theorem Ok.pages_eq_nil_iff {f : ℕ} {ps : List ℕ} {rest : Layout} (ok : Ok ((f, ps) :: rest)) :
    pages ((f, ps) :: rest) = [] ↔ ps = [] ∧ rest = [] := by
  constructor
  · intro h
    obtain ⟨rfl, below⟩ := List.append_eq_nil_iff.1 h
    refine ⟨rfl, ?_⟩
    obtain _ | ⟨⟨g, qs⟩, rest⟩ := rest
    · rfl
    · obtain ⟨rfl, _⟩ := List.append_eq_nil_iff.1 below
      have full : ([] : List ℕ).length = stackSize - 1 := ok.below (g, []) (by simp)
      simp [stackSize] at full
  · rintro ⟨rfl, rfl⟩
    rfl

theorem Ok.get_eq_none_iff {f : ℕ} {ps : List ℕ} {rest : Layout} (ok : Ok ((f, ps) :: rest)) :
    Layout.get ((f, ps) :: rest) = none ↔ ps = [] ∧ ∀ t ∈ rest.head?, t.1 = 0 := by
  rcases List.eq_nil_or_concat ps with rfl | ⟨ps, p, rfl⟩
  · obtain _ | ⟨⟨g, qs⟩, rest⟩ := rest
    · simp [Layout.get]
    · have full : qs.length = stackSize - 1 := ok.below (g, qs) (by simp)
      rcases List.eq_nil_or_concat qs with rfl | ⟨qs, q, rfl⟩
      · simp [stackSize] at full
      · rw [List.concat_eq_append, get_empty, get_append]
        simp
  · simp [List.concat_eq_append, get_append]

end Layout

theorem Pmm.Holds.get_error_iff {s : Pmm} {A : Layout} (h : s.Holds A) :
    mmPhysicalGet s = .error outOfMemory ↔ A.get = none := by
  refine ⟨fun panics => ?_, mmPhysicalGet_panics h⟩
  cases get : A.get with
  | none => rfl
  | some result =>
    obtain ⟨s', run, _⟩ := mmPhysicalGet_refines h get
    rw [run] at panics
    cases panics

/-- The pages marked free so far are all returned or in use as frames exactly when no stack records
a page; and `mm_physical_get` panics exactly then, unless the stack in use is empty and the stack
below it is in physical page `0`. -/
theorem PmmRun.outOfMemory_iff {es : List PmmEvent} {s : Pmm} (run : PmmRun es s) :
    (es.countP PmmEvent.isMarked = es.countP PmmEvent.isGot + es.countP PmmEvent.isFramed ↔
      s.recorded = []) ∧
    ((mmPhysicalGet s = .error outOfMemory ↔
        es.countP PmmEvent.isMarked = es.countP PmmEvent.isGot + es.countP PmmEvent.isFramed) ↔
      (0 < s.stack.used ∨ s.current = s.root ∨ s.stack.prev ≠ 0)) := by
  obtain ⟨A, holds, book⟩ := run.inv
  have counts : es.countP PmmEvent.isMarked =
      es.countP PmmEvent.isGot + es.countP PmmEvent.isFramed ↔ A.pages = [] := by
    rw [← List.length_eq_zero_iff, book.count]
    omega
  rw [holds.recorded, holds.get_error_iff, counts]
  refine ⟨Iff.rfl, ?_⟩
  obtain _ | ⟨⟨f, ps⟩, rest⟩ := A
  · exact absurd rfl holds.ne_nil
  rw [holds.ok.pages_eq_nil_iff, holds.ok.get_eq_none_iff, holds.stack_used, Pmm.stack,
    holds.current_eq]
  obtain rfl | nonempty := eq_or_ne ps []
  · obtain _ | ⟨⟨g, qs⟩, rest⟩ := rest
    · obtain ⟨isRoot, _⟩ := Linked.prev_last holds.linked
      simp [isRoot]
    · have notRoot : f ≠ s.root := by
        cases holds.linked with
        | cons ne _ _ _ => exact ne
      simp [holds.linked.prev_head, notRoot]
  · simp [nonempty, List.length_pos_iff]

/-- When the three pages that were marked free are all taken, the allocator is out of memory. -/
theorem PmmRun.outOfMemory_three : ∃ es s,
    PmmRun (.got (0x1000 * 1) :: .got (0x1000 * 2) :: .got (0x1000 * 3) :: es) s ∧
      mmPhysicalGet s = .error outOfMemory := by
  have bound : ∀ n ∈ [1, 2, 3], n < 0x10000 := by decide
  obtain ⟨s, A, _, marks, holds, _, runs⟩ := markFreeAll_refines pmmAt256M_holds (pagesOf [1, 2, 3])
    (pagesOf_nodup (by decide) bound) (pagesOf_page bound)
  obtain ⟨es, run⟩ := runs _ pmmAt256M_run
  rw [Layout.markAll_room _ _ _ _ (by decide)] at marks
  obtain rfl := Option.some.inj marks
  obtain ⟨s₁, first, holds₁, _⟩ := mmPhysicalGet_refines holds
    (Layout.get_append _ (0x1000 * 3) [0x1000 * 1, 0x1000 * 2] _)
  obtain ⟨s₂, second, holds₂, _⟩ := mmPhysicalGet_refines holds₁
    (Layout.get_append _ (0x1000 * 2) [0x1000 * 1] _)
  obtain ⟨s₃, third, holds₃, _⟩ :=
    mmPhysicalGet_refines holds₂ (Layout.get_append _ (0x1000 * 1) [] _)
  have run₃ := ((run.get first).get second).get third
  have spec := PmmRun.outOfMemory_iff run₃
  have root : s₃.current = s₃.root := holds₃.current_eq.trans (Linked.prev_last holds₃.linked).1
  exact ⟨es, s₃, run₃, (spec.2.2 (.inr (.inl root))).2 (spec.1.2 holds₃.recorded)⟩

/-! ## A stack in physical page 0 -/

/-- Pages `1` to `508` and page `0` fill the root stack; page `509` makes page `0` a stack, which is
full with page `1017`; page `1018` makes page `1017` a stack on top of it. -/
def pageZeroOrder : List ℕ :=
  List.range' 1 508 ++ 0 :: (509 :: (List.range' 510 507 ++ 1017 :: [1018]))

theorem pageZeroOrder_nodup : pageZeroOrder.Nodup := by
  simp only [pageZeroOrder, List.nodup_append, List.nodup_cons, List.mem_cons, List.mem_append,
    List.mem_range'_1, List.not_mem_nil, List.nodup_nil, or_false]
  refine ⟨List.nodup_range', ⟨by omega, by omega, List.nodup_range', by simp, ?_⟩, ?_⟩ <;>
    intros <;> omega

theorem pageZeroOrder_bound : ∀ n ∈ pageZeroOrder, n < 0x10000 := by
  intro n hn
  simp only [pageZeroOrder, List.mem_append, List.mem_cons, List.mem_range'_1, List.not_mem_nil,
    or_false] at hn
  omega

/-- Filling two stacks one after the other. -/
theorem Layout.markAll_two (root z a q b : ℕ) (ps qs : List ℕ) (hp : ps.length + 1 = stackSize)
    (hq : qs.length + 2 = stackSize) :
    markAll (ps ++ z :: (a :: (qs ++ q :: [b]))) [(root, [])] =
      some [(q, [b]), (z, a :: qs), (root, ps)] := by
  rw [show ps ++ z :: (a :: (qs ++ q :: [b])) = (ps ++ [z]) ++ (a :: (qs ++ q :: [b])) by simp,
    markAll_append, markAll_room _ _ _ _ (by simp; omega), Option.bind_some, List.nil_append,
    markAll_full _ _ _ _ _ _ hp,
    show qs ++ q :: [b] = (qs ++ [q]) ++ [b] by simp, markAll_append,
    markAll_room _ _ _ _ (by simp; omega), Option.bind_some,
    show [a] ++ (qs ++ [q]) = (a :: qs) ++ [q] by simp,
    markAll_full _ _ _ _ _ _ (by simp; omega), markAll_nil]

/-- The stacks after marking `pageZeroOrder`. -/
theorem pageZeroOrder_markAll :
    Layout.markAll (pagesOf pageZeroOrder) [(0x10000000, [])] =
      some [(0x1000 * 1017, [0x1000 * 1018]), (0, 0x1000 * 509 :: pagesOf (List.range' 510 507)),
        (0x10000000, pagesOf (List.range' 1 508))] := by
  have split : pagesOf pageZeroOrder = pagesOf (List.range' 1 508) ++ 0 :: (0x1000 * 509 ::
      (pagesOf (List.range' 510 507) ++ 0x1000 * 1017 :: [0x1000 * 1018])) := by
    simp [pageZeroOrder, pagesOf]
  rw [split, Layout.markAll_two _ _ _ _ _ _ _ (by simp [stackSize, pagesOf])
    (by simp [stackSize, pagesOf])]

/-- Taking the one page of the topmost stack leaves 1016 recorded pages that the allocator cannot
reach: it panics although not all pages marked free are gone. -/
theorem outOfMemory_pageZero : ∃ es s, PmmRun es s ∧ mmPhysicalGet s = .error outOfMemory ∧
    es.countP PmmEvent.isMarked ≠ es.countP PmmEvent.isGot + es.countP PmmEvent.isFramed ∧
    s.recorded.length = 1016 := by
  obtain ⟨s₁, B, _, marks, holds, _, runs⟩ := markFreeAll_refines pmmAt256M_holds
    (pagesOf pageZeroOrder) (pagesOf_nodup pageZeroOrder_nodup pageZeroOrder_bound)
    (pagesOf_page pageZeroOrder_bound)
  obtain ⟨es, run⟩ := runs _ pmmAt256M_run
  obtain rfl := Option.some.inj (pageZeroOrder_markAll.symm.trans marks)
  obtain ⟨s₂, get, holds₂, _⟩ := mmPhysicalGet_refines holds
    (Layout.get_append _ (0x1000 * 1018) [] _)
  have run₂ := run.get get
  obtain ⟨C, holds', book⟩ := run₂.inv
  have recorded : s₂.recorded.length = 1016 := by
    rw [holds₂.recorded]
    simp [pagesOf_length]
  refine ⟨_, s₂, run₂, mmPhysicalGet_panics holds₂ rfl, ?_, recorded⟩
  have := book.count
  rw [← holds'.recorded, recorded] at this
  omega

end Vineyard
