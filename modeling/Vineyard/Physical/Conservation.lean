import Mathlib.Data.List.Induction
import Vineyard.Physical.Exhaustion

/-!
# Taking pages and giving them back

`getMany n` takes `n` pages; `Obtainable s n` says that `n` is the number of pages that
`mm_physical_get` returns before it panics.  Taking pages and giving them back conserves that number
and keeps every stack frame in use exactly as long as the pages come from one stack: when
`mm_physical_get` goes down to the stack below, the frame it leaves is recorded nowhere.
-/

namespace Vineyard

/-- Take `n` pages, in the order in which they are returned. -/
def getMany : ℕ → Pmm → Except Fault (List ℕ × Pmm)
  | 0, s => .ok ([], s)
  | n + 1, s => do
      let (a, s) ← mmPhysicalGet s
      let (as, s) ← getMany n s
      return (a :: as, s)

theorem getMany_add {s s₁ : Pmm} {n : ℕ} {as : List ℕ} (call : getMany n s = .ok (as, s₁)) (k : ℕ) :
    getMany (n + k) s = (getMany k s₁).map fun r => (as ++ r.1, r.2) := by
  induction n generalizing s as with
  | zero =>
    injection call with call
    injection call with first second
    subst first second
    rw [Nat.zero_add]
    cases getMany k s <;> rfl
  | succ n ih =>
    rw [getMany] at call
    obtain ⟨⟨p, s'⟩, get, call⟩ := Fallible.bind_eq_ok.1 call
    obtain ⟨⟨bs, s''⟩, rest, call⟩ := Fallible.bind_eq_ok.1 call
    injection call with call
    injection call with first second
    subst first second
    rw [Nat.add_right_comm, getMany, get]
    simp only [Fallible.ok_bind, ih rest]
    cases getMany k s'' <;> rfl

/-- `mm_physical_get` returns `n` pages from `s` on, and then panics. -/
def Obtainable (s : Pmm) (n : ℕ) : Prop :=
  ∃ as s', getMany n s = .ok (as, s') ∧ mmPhysicalGet s' = .error outOfMemory

/-- Taking `n` pages and giving them back, in any order, leaves as many pages obtainable as before,
and a frame that was left behind meanwhile is in use again, as a frame or as a page. -/
def Conserves (s : Pmm) (n : ℕ) : Prop :=
  ∀ as s₁, getMany n s = .ok (as, s₁) → ∀ bs, bs.Perm as →
    ∃ s₂, markFreeAll bs s₁ = .ok s₂ ∧ (∀ N, Obtainable s N ↔ Obtainable s₂ N) ∧
      ∀ f ∈ s.stackFrames, f ∉ s₁.stackFrames → f ∈ s₂.stackFrames ∨ f ∈ s₂.recorded

/-! ## Taking pages from a layout -/

namespace Layout

/-- Take `n` pages from a layout. -/
def getMany : ℕ → Layout → Option (List ℕ × Layout)
  | 0, A => some ([], A)
  | n + 1, A => do
      let (a, A) ← A.get
      let (as, A) ← getMany n A
      return (a :: as, A)

theorem getMany_succ {n : ℕ} {A B : Layout} {as : List ℕ} (h : getMany (n + 1) A = some (as, B)) :
    ∃ p C bs, A.get = some (p, C) ∧ getMany n C = some (bs, B) ∧ as = p :: bs := by
  simp only [getMany, Option.bind_eq_bind, Option.bind_eq_some_iff, Option.pure_def,
    Option.some.injEq] at h
  obtain ⟨⟨p, C⟩, get, ⟨bs, D⟩, rest, e⟩ := h
  obtain ⟨rfl, rfl⟩ := by simpa using e
  exact ⟨p, C, bs, get, rest, rfl⟩

theorem Ok.getMany {n : ℕ} {A B : Layout} {as : List ℕ} (ok : A.Ok)
    (h : getMany n A = some (as, B)) :
    B.Ok ∧ A.pages.Perm (as ++ B.pages) ∧ B.frames <:+ A.frames := by
  induction n generalizing A as with
  | zero =>
    obtain ⟨rfl, rfl⟩ := by simpa [Layout.getMany] using h
    exact ⟨ok, List.Perm.refl _, List.suffix_rfl⟩
  | succ n ih =>
    obtain ⟨p, C, bs, get, rest, rfl⟩ := getMany_succ h
    obtain ⟨ok', pages, frames⟩ := ih (ok.get get) rest
    exact ⟨ok', (ok.get_pages get).trans (pages.cons p), frames.trans (ok.get_frames get)⟩

/-- More pages than the stack in use records leave its frame behind. -/
theorem Ok.getMany_leaves {n f : ℕ} {ps as : List ℕ} {rest B : Layout} (ok : Ok ((f, ps) :: rest))
    (h : Layout.getMany n ((f, ps) :: rest) = some (as, B)) (more : ps.length < n) :
    B.frames <:+ frames rest := by
  induction n generalizing ps as with
  | zero => simp at more
  | succ n ih =>
    obtain ⟨p, C, bs, get, more', rfl⟩ := getMany_succ h
    rcases ok.get_cases get with ⟨f, ps, rest, e, rfl⟩ | ⟨f, g, qs, rest, -, e, rfl⟩
    · obtain ⟨⟨rfl, rfl⟩, rfl⟩ := by simpa using e
      refine ih (ok.get get) more' ?_
      simpa using more
    · obtain ⟨⟨rfl, rfl⟩, rfl⟩ := by simpa using e
      exact ((ok.get get).getMany more').2.2

/-- Pages taken from the stack in use alone. -/
theorem getMany_top (f : ℕ) (ps qs : List ℕ) (rest : Layout) :
    getMany qs.length ((f, ps ++ qs) :: rest) = some (qs.reverse, (f, ps) :: rest) := by
  induction qs using List.reverseRecOn with
  | nil => simp [getMany]
  | append_singleton qs q ih =>
    rw [List.length_append, List.length_singleton, getMany, ← List.append_assoc, get_append]
    simp [ih]

/-- The number of pages in reach: those above a stack in page `0`. -/
def supply : Layout → ℕ
  | [] => 0
  | (_, ps) :: rest =>
      ps.length + match rest.head? with
        | none => 0
        | some (g, _) => if g = 0 then 0 else supply rest

theorem supply_cons (f : ℕ) (ps : List ℕ) (rest : Layout) :
    supply ((f, ps) :: rest) = ps.length + match rest.head? with
      | none => 0
      | some (g, _) => if g = 0 then 0 else supply rest := rfl

theorem Ok.supply_get {A B : Layout} {p : ℕ} (ok : A.Ok) (h : A.get = some (p, B)) :
    supply A = supply B + 1 := by
  rcases ok.get_cases h with ⟨f, ps, rest, rfl, rfl⟩ | ⟨f, g, qs, rest, zero, rfl, rfl⟩
  · simp only [supply_cons, List.length_append, List.length_singleton]
    omega
  · rw [supply_cons f]
    simp only [List.head?_cons, if_neg zero, supply_cons g, List.length_append,
      List.length_singleton, List.length_nil]
    omega

theorem Ok.supply_eq_zero {A : Layout} (ok : A.Ok) (h : A.get = none) : supply A = 0 := by
  obtain _ | ⟨⟨f, ps⟩, rest⟩ := A
  · rfl
  · obtain ⟨rfl, zero⟩ := ok.get_eq_none_iff.1 h
    rw [supply_cons]
    cases head : rest.head? with
    | none => rfl
    | some t => simp [zero t head]

end Layout

/-! ## The code takes the same pages -/

theorem Pmm.Holds.of_getMany {s s' : Pmm} {A : Layout} {n : ℕ} {as : List ℕ} (h : s.Holds A)
    (call : getMany n s = .ok (as, s')) : ∃ B, A.getMany n = some (as, B) ∧ s'.Holds B := by
  induction n generalizing s A as with
  | zero =>
    obtain ⟨rfl, rfl⟩ := by simpa [getMany] using call
    exact ⟨A, rfl, h⟩
  | succ n ih =>
    obtain ⟨⟨p, t⟩, get, call⟩ := Fallible.bind_eq_ok.1 call
    obtain ⟨⟨bs, u⟩, rest, call⟩ := Fallible.bind_eq_ok.1 call
    obtain ⟨rfl, rfl⟩ := by simpa using call
    obtain ⟨C, get', holds⟩ := h.of_get get
    obtain ⟨B, rest', holds'⟩ := ih holds rest
    exact ⟨B, by simp [Layout.getMany, get', rest'], holds'⟩

theorem getMany_refines {s : Pmm} {A B : Layout} {n : ℕ} {as : List ℕ} (h : s.Holds A)
    (get : A.getMany n = some (as, B)) : ∃ s', getMany n s = .ok (as, s') ∧ s'.Holds B := by
  induction n generalizing s A as with
  | zero =>
    obtain ⟨rfl, rfl⟩ := by simpa [Layout.getMany] using get
    exact ⟨s, rfl, h⟩
  | succ n ih =>
    obtain ⟨p, C, bs, get', rest, rfl⟩ := Layout.getMany_succ get
    obtain ⟨t, run, holds, _⟩ := mmPhysicalGet_refines h get'
    obtain ⟨s', runs, holds'⟩ := ih holds rest
    exact ⟨s', by simp [getMany, run, runs], holds'⟩

/-- The number of obtainable pages is the supply of the layout. -/
theorem Pmm.Holds.obtainable_iff {s : Pmm} {A : Layout} (h : s.Holds A) (n : ℕ) :
    Obtainable s n ↔ n = A.supply := by
  constructor
  · rintro ⟨as, s', gets, panics⟩
    induction n generalizing s A as with
    | zero =>
      obtain ⟨rfl, rfl⟩ := by simpa [getMany] using gets
      exact (h.ok.supply_eq_zero (h.get_error_iff.1 panics)).symm
    | succ n ih =>
      obtain ⟨⟨p, t⟩, get, gets⟩ := Fallible.bind_eq_ok.1 gets
      obtain ⟨⟨bs, u⟩, rest, gets⟩ := Fallible.bind_eq_ok.1 gets
      obtain ⟨rfl, rfl⟩ := by simpa using gets
      obtain ⟨C, get', holds⟩ := h.of_get get
      rw [h.ok.supply_get get', ← ih holds bs rest]
  · rintro rfl
    generalize e : A.supply = n
    induction n generalizing s A with
    | zero =>
      refine ⟨[], s, rfl, h.get_error_iff.2 ?_⟩
      cases get : A.get with
      | none => rfl
      | some result =>
        have := h.ok.supply_get get
        omega
    | succ n ih =>
      cases get : A.get with
      | none =>
        have := h.ok.supply_eq_zero get
        omega
      | some result =>
        obtain ⟨p, B⟩ := result
        obtain ⟨t, run, holds, _⟩ := mmPhysicalGet_refines h get
        have step := h.ok.supply_get get
        obtain ⟨as, s', runs, panics⟩ := ih holds (by omega)
        exact ⟨p :: as, s', by simp [getMany, run, runs], panics⟩

theorem getMany_of_le {s s' : Pmm} {n m : ℕ} {as : List ℕ} (call : getMany n s = .ok (as, s'))
    (le : m ≤ n) : ∃ bs t, getMany m s = .ok (bs, t) := by
  induction m generalizing n s s' as with
  | zero => exact ⟨[], s, rfl⟩
  | succ m ih =>
    obtain ⟨n, rfl⟩ : ∃ k, n = k + 1 := ⟨n - 1, by omega⟩
    obtain ⟨⟨p, t⟩, get, call⟩ := Fallible.bind_eq_ok.1 call
    obtain ⟨⟨cs, u⟩, rest, _⟩ := Fallible.bind_eq_ok.1 call
    obtain ⟨bs, v, runs⟩ := ih rest (Nat.le_of_succ_le_succ le)
    exact ⟨p :: bs, v, by simp [getMany, get, runs]⟩

/-! ## What is conserved -/

section

variable {s s₁ : Pmm} {n f : ℕ} {ps as bs : List ℕ} {rest B : Layout}

/-- The pages taken can be given back. -/
theorem markFreeAll_taken (holds : s.Holds ((f, ps) :: rest)) (holds₁ : s₁.Holds B)
    (gets : Layout.getMany n ((f, ps) :: rest) = some (as, B)) (perm : bs.Perm as) :
    ∃ s₂ C, markFreeAll bs s₁ = .ok s₂ ∧ B.markAll bs = some C ∧ s₂.Holds C ∧
      (C.frames ++ C.pages).Perm (bs ++ (B.frames ++ B.pages)) := by
  obtain ⟨_, pages, frames⟩ := holds.ok.getMany gets
  obtain ⟨framesNodup, pagesNodup, apart⟩ := List.nodup_append.1 holds.ok.nodup
  have nodup : (bs ++ (B.frames ++ B.pages)).Nodup := by
    have moved : (bs ++ (B.frames ++ B.pages)).Perm (B.frames ++ (as ++ B.pages)) := by
      refine (perm.append_right _).trans ?_
      rw [← List.append_assoc, ← List.append_assoc]
      exact List.perm_append_comm.append_right _
    rw [moved.nodup_iff, List.nodup_append]
    refine ⟨framesNodup.sublist frames.sublist, pages.nodup_iff.1 pagesNodup, fun x hx y hy => ?_⟩
    exact apart x (frames.subset hx) y (pages.mem_iff.2 hy)
  have physical : ∀ b ∈ bs, PhysPage b := fun b hb =>
    holds.ok.phys b (List.mem_append_right _ (pages.mem_iff.2
      (List.mem_append_left _ (perm.mem_iff.1 hb))))
  obtain ⟨s₂, C, calls, marks, holds₂, perm', _⟩ := markFreeAll_refines holds₁ bs nodup physical
  exact ⟨s₂, C, calls, marks, holds₂, perm'⟩

/-- Within one stack the pages go back where they came from. -/
theorem conserves_of_le (holds : s.Holds ((f, ps) :: rest)) (le : n ≤ ps.length) :
    Conserves s n := by
  intro as s₁ call bs perm
  obtain ⟨B, gets, holds₁⟩ := holds.of_getMany call
  have top := Layout.getMany_top f (ps.take (ps.length - n)) (ps.drop (ps.length - n)) rest
  have length : (ps.drop (ps.length - n)).length = n := by
    rw [List.length_drop]
    omega
  rw [List.take_append_drop, length, gets] at top
  obtain ⟨rfl, rfl⟩ := by simpa using top
  obtain ⟨s₂, C, calls, marks, holds₂, _⟩ := markFreeAll_taken holds holds₁ gets perm
  have size : bs.length = n := by rw [perm.length_eq, List.length_reverse, length]
  have full : ps.length ≤ stackSize := holds.ok.top (f, ps) (by simp)
  rw [Layout.markAll_room _ _ _ _ (by rw [List.length_take]; omega)] at marks
  obtain rfl := Option.some.inj marks
  refine ⟨s₂, calls, fun N => ?_, fun g hg left => ?_⟩
  · rw [holds.obtainable_iff, holds₂.obtainable_iff, Layout.supply_cons, Layout.supply_cons]
    have : (ps.take (ps.length - n) ++ bs).length = ps.length := by
      rw [List.length_append, List.length_take, size]
      omega
    rw [this]
  · rw [holds.stackFrames] at hg
    rw [holds₁.stackFrames] at left
    exact absurd hg left

/-- A frame left behind is lost. -/
theorem not_conserves_of_lt (holds : s.Holds ((f, ps) :: rest)) (lt : ps.length < n)
    (call : getMany n s = .ok (as, s₁)) : ¬ Conserves s n := by
  intro conserves
  obtain ⟨s₂, calls, _, available⟩ := conserves as s₁ call as (List.Perm.refl _)
  obtain ⟨B, gets, holds₁⟩ := holds.of_getMany call
  obtain ⟨s₃, C, calls', _, holds₂, perm⟩ := markFreeAll_taken holds holds₁ gets (List.Perm.refl _)
  obtain rfl := Except.ok.inj (calls'.symm.trans calls)
  obtain ⟨_, pages, _⟩ := holds.ok.getMany gets
  obtain ⟨framesNodup, _, apart⟩ := List.nodup_append.1 holds.ok.nodup
  have left : f ∉ B.frames := fun h =>
    (List.nodup_cons.1 framesNodup).1 ((holds.ok.getMany_leaves gets lt).subset h)
  have gone : f ∉ as ++ B.pages := fun h => apart f (by simp) f (pages.mem_iff.2 h) rfl
  have := available f (by rw [holds.stackFrames]; simp) (by rwa [holds₁.stackFrames])
  rw [holds₂.stackFrames, holds₂.recorded, ← List.mem_append, perm.mem_iff] at this
  simp only [List.mem_append] at this gone
  tauto

end

/-- Taking `n` of the obtainable pages and giving them back conserves the allocator exactly if the
stack in use records that many. -/
theorem PmmRun.conserves_iff {es : List PmmEvent} {s : Pmm} {n N : ℕ} (run : PmmRun es s)
    (obtainable : Obtainable s N) (le : n ≤ N) : Conserves s n ↔ n ≤ s.stack.used := by
  obtain ⟨A, holds, _⟩ := run.inv
  obtain _ | ⟨⟨f, ps⟩, rest⟩ := A
  · exact absurd rfl holds.ne_nil
  rw [holds.stack_used]
  refine ⟨fun conserves => ?_, conserves_of_le holds⟩
  obtain ⟨_, _, calls, _⟩ := obtainable
  obtain ⟨as, s₁, call⟩ := getMany_of_le calls le
  by_contra lt
  exact not_conserves_of_lt holds (Nat.lt_of_not_le lt) call conserves

/-- With 510 pages obtainable and two of them on the stack in use, two can be taken and given back. -/
theorem PmmRun.conserves_two : ∃ es s, PmmRun es s ∧ Obtainable s 510 ∧ Conserves s 2 := by
  obtain ⟨es, s, run, holds⟩ := pmmAt256M_overflow
  have obtainable : Obtainable s 510 := by
    rw [holds.obtainable_iff]
    simp [Layout.supply, pagesOf_length]
  have used : 2 ≤ s.stack.used := by rw [holds.stack_used, List.length_cons, List.length_singleton]
  exact ⟨es, s, run, obtainable, (PmmRun.conserves_iff run obtainable (by decide)).2 used⟩

/-! ## A page is lost -/

namespace Layout

variable (root a b c d : ℕ) (ps : List ℕ) (length : ps.length + 2 = stackSize)

theorem getMany_overflow (nonzero : root ≠ 0) :
    getMany 3 [(b, [c, d]), (root, ps ++ [a])] = some ([d, c, a], [(root, ps)]) := by
  have first : get [(b, [c, d]), (root, ps ++ [a])] = some (d, [(b, [c]), (root, ps ++ [a])]) :=
    get_append b d [c] _
  have second : get [(b, [c]), (root, ps ++ [a])] = some (c, [(b, []), (root, ps ++ [a])]) :=
    get_append b c [] _
  have third : get [(b, []), (root, ps ++ [a])] = some (a, [(root, ps)]) := by
    rw [get_empty, if_neg nonzero, get_append]
  simp [getMany, first, second, third]

include length in
theorem markAll_giveBack : markAll [d, c, a] [(root, ps)] = some [(c, [a]), (root, ps ++ [d])] := by
  rw [show [d, c, a] = [d, c] ++ [a] from rfl, markAll_append,
    markAll_room _ _ _ _ (by simp; omega), Option.bind_some,
    show ps ++ [d, c] = (ps ++ [d]) ++ [c] by simp, markAll_full _ _ _ _ _ _ (by simp; omega)]
  rfl

end Layout

/-- From the state with 510 obtainable pages that `overflowOrder` leaves, taking three pages and
giving them back leaves 509. -/
theorem getMany_loses_page : ∃ es s as s₁ s₂, PmmRun es s ∧ Obtainable s 510 ∧
    getMany 3 s = .ok (as, s₁) ∧ markFreeAll as s₁ = .ok s₂ ∧ Obtainable s₂ 509 ∧
    ¬ Obtainable s₂ 510 := by
  obtain ⟨es, s, run, holds⟩ := pmmAt256M_overflow
  have length : (pagesOf (List.range' 1 507)).length + 2 = stackSize := by
    simp [pagesOf_length, stackSize]
  have gets := Layout.getMany_overflow 0x10000000 (0x1000 * 508) (0x1000 * 509)
    (0x1000 * 510) (0x1000 * 511) (pagesOf (List.range' 1 507)) (by decide)
  obtain ⟨s₁, call, holds₁⟩ := getMany_refines holds gets
  obtain ⟨s₂, C, calls, marks', holds₂, _⟩ :=
    markFreeAll_taken holds holds₁ gets (List.Perm.refl _)
  rw [Layout.markAll_giveBack _ _ _ _ _ length] at marks'
  obtain rfl := Option.some.inj marks'
  refine ⟨es, s, _, s₁, s₂, run, ?_, call, calls, ?_, ?_⟩
  · rw [holds.obtainable_iff]
    simp [Layout.supply, pagesOf_length]
  · rw [holds₂.obtainable_iff]
    simp [Layout.supply, pagesOf_length]
  · rw [holds₂.obtainable_iff]
    simp [Layout.supply, pagesOf_length]

end Vineyard
