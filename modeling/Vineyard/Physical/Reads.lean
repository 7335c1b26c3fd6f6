import Mathlib.Data.Set.Basic
import Vineyard.Physical.Conservation

/-!
# What `mm_physical_get` reads and writes

A call reads the window entry 511 and the stacks from the one in use downwards, and it writes the
stack it ends on.  So states that agree on these give the same pages.
-/

namespace Vineyard

open Function

namespace Pmm

/-- The stacks that `mm_physical_get` can come to. -/
inductive Visits (s : Pmm) : ℕ → Prop where
  | current : Visits s s.current
  | prev {f : ℕ} (above : Visits s f) (more : (s.frame f).prev ≠ 0) :
      Visits s (((s.frame f).prev ||| pagePresent ||| pageWrite) &&& frameMask)

/-- The states agree on the window entry and on a set of stacks. -/
structure AgreeOn (F : Set ℕ) (s u : Pmm) : Prop where
  window : u.pml1 511 = s.pml1 511
  frame : ∀ f ∈ F, u.frame f = s.frame f

/-- What calls that return have changed. -/
structure Got (s s' : Pmm) : Prop where
  root : s'.root = s.root
  pml1 : ∀ i, i ≠ 511 → s'.pml1 i = s.pml1 i
  present : s.pml1 511 &&& pagePresent ≠ 0 → s'.pml1 511 &&& pagePresent ≠ 0
  current : s.Visits s'.current
  frame : ∀ f, ¬ s.Visits f → s'.frame f = s.frame f
  prev : ∀ f, (s'.frame f).prev = (s.frame f).prev

variable {s s' u : Pmm} {F : Set ℕ}

theorem current_nextStack (addr : ℕ) (s : Pmm) :
    (mmPhysicalNextStack addr s).current = (addr ||| pagePresent ||| pageWrite) &&& frameMask := by
  simp [current, mmPhysicalNextStack]

/-- From the next stack on there are no stacks but those below the one in use. -/
theorem Visits.of_nextStack {f : ℕ} (more : s.stack.prev ≠ 0)
    (h : (mmPhysicalNextStack s.stack.prev s).Visits f) : s.Visits f := by
  induction h with
  | current =>
    rw [current_nextStack]
    exact Visits.current.prev more
  | prev _ more ih => exact ih.prev more

theorem Got.refl (s : Pmm) : Got s s :=
  ⟨rfl, fun _ _ => rfl, id, .current, fun _ _ => rfl, fun _ => rfl⟩

theorem Got.visits (h : Got s s') {f : ℕ} (visits : s'.Visits f) : s.Visits f := by
  induction visits with
  | current => exact h.current
  | prev _ more ih =>
    rw [h.prev] at more ⊢
    exact ih.prev more

theorem Got.trans {s'' : Pmm} (h : Got s s') (h' : Got s' s'') : Got s s'' := by
  refine ⟨h'.root.trans h.root, fun i hi => (h'.pml1 i hi).trans (h.pml1 i hi),
    fun here => h'.present (h.present here), h.visits h'.current, fun f hf => ?_, fun f =>
      (h'.prev f).trans (h.prev f)⟩
  rw [h'.frame f fun visits => hf (h.visits visits), h.frame f hf]

theorem Got.setStack {st : PhysicalStack} (prev : st.prev = s.stack.prev) :
    Got s (s.setStack st) := by
  refine ⟨rfl, fun _ _ => rfl, id, .current, fun f hf => update_of_ne ?_ _ _, fun f => ?_⟩
  · rintro rfl
    exact hf .current
  · by_cases here : f = s.current
    · subst here
      rw [show (s.setStack st).frame s.current = st from update_self _ _ _]
      exact prev
    · rw [show (s.setStack st).frame f = s.frame f from update_of_ne here _ _]

theorem Got.nextStack (more : s.stack.prev ≠ 0) : Got s (mmPhysicalNextStack s.stack.prev s) := by
  refine ⟨rfl, fun i hi => update_of_ne hi _ _, fun _ => ?_, ?_, fun _ _ => rfl, fun _ => rfl⟩
  · simpa [mmPhysicalNextStack] using present_of_or s.stack.prev
  · exact Visits.of_nextStack more .current

/-- Both states have the same stacks to read. -/
theorem AgreeOn.visits (h : AgreeOn F s u) (reads : ∀ f, s.Visits f → f ∈ F) {f : ℕ}
    (visits : u.Visits f) : s.Visits f := by
  induction visits with
  | current =>
    rw [Pmm.current, h.window]
    exact .current
  | prev _ more ih =>
    rw [h.frame _ (reads _ ih)] at more ⊢
    exact ih.prev more

theorem AgreeOn.current (h : AgreeOn F s u) : u.current = s.current := by
  rw [Pmm.current, Pmm.current, h.window]

theorem AgreeOn.stack (h : AgreeOn F s u) (reads : ∀ f, s.Visits f → f ∈ F) : u.stack = s.stack := by
  rw [Pmm.stack, Pmm.stack, h.current]
  exact h.frame _ (reads _ .current)

theorem AgreeOn.setStack (h : AgreeOn F s u) (st : PhysicalStack) :
    AgreeOn F (s.setStack st) (u.setStack st) := by
  refine ⟨h.window, fun f hf => ?_⟩
  simp only [Pmm.setStack, h.current, update_apply, h.frame f hf]

theorem AgreeOn.nextStack (h : AgreeOn F s u) (addr : ℕ) :
    AgreeOn F (mmPhysicalNextStack addr s) (mmPhysicalNextStack addr u) :=
  ⟨by simp [mmPhysicalNextStack], h.frame⟩

end Pmm

open Pmm

theorem PhysicalStack.write_prev {st st' : PhysicalStack} {i value : ℕ}
    (written : st.write i value = .ok st') : st'.prev = st.prev := by
  rw [PhysicalStack.write] at written
  split_ifs at written
  injection written with written
  subst written
  rfl

theorem mmPhysicalGetRec_got {fuel p : ℕ} {s s' : Pmm}
    (call : mmPhysicalGetRec fuel s = .ok (p, s')) : Got s s' := by
  induction fuel generalizing s with
  | zero => cases call
  | succ fuel ih =>
    rw [mmPhysicalGetRec] at call
    split_ifs at call with pages more
    · obtain ⟨ret, _, call⟩ := Fallible.bind_eq_ok.1 call
      obtain ⟨st, written, call⟩ := Fallible.bind_eq_ok.1 call
      injection call with call
      injection call with _ call
      subst call
      have prev := PhysicalStack.write_prev written
      exact Got.setStack prev
    · exact (Got.nextStack more).trans (ih call)

/-- States that agree on what is read give the same page, or the same fault. -/
theorem mmPhysicalGetRec_agree (fuel : ℕ) {s u : Pmm} {F : Set ℕ} (reads : ∀ f, s.Visits f → f ∈ F)
    (agree : AgreeOn F s u) :
    match mmPhysicalGetRec fuel s with
    | .ok (p, s') => ∃ u', mmPhysicalGetRec fuel u = .ok (p, u') ∧ AgreeOn F s' u'
    | .error e => mmPhysicalGetRec fuel u = .error e := by
  induction fuel generalizing s u with
  | zero => rfl
  | succ fuel ih =>
    rw [mmPhysicalGetRec, mmPhysicalGetRec, agree.stack reads]
    by_cases pages : s.stack.used > 0
    · rw [if_pos pages, if_pos pages]
      cases read : s.stack.read (s.stack.used - 1) with
      | error e => rfl
      | ok ret =>
        cases written : s.stack.write (s.stack.used - 1) 0 with
        | error e => rfl
        | ok st => exact ⟨_, rfl, agree.setStack _⟩
    · rw [if_neg pages, if_neg pages]
      by_cases more : s.stack.prev ≠ 0
      · rw [if_pos more, if_pos more]
        exact ih (fun f hf => reads f (Visits.of_nextStack more hf)) (agree.nextStack _)
      · rw [if_neg more, if_neg more]

theorem getMany_got {n : ℕ} {s s' : Pmm} {ps : List ℕ} (call : getMany n s = .ok (ps, s')) :
    Got s s' := by
  induction n generalizing s ps with
  | zero =>
    obtain ⟨rfl, rfl⟩ := by simpa [getMany] using call
    exact Got.refl s
  | succ n ih =>
    rw [getMany] at call
    obtain ⟨⟨p, s₁⟩, get, call⟩ := Fallible.bind_eq_ok.1 call
    obtain ⟨⟨qs, s₂⟩, gets, call⟩ := Fallible.bind_eq_ok.1 call
    injection call with call
    injection call with _ call
    subst call
    exact (mmPhysicalGetRec_got get).trans (ih gets)

theorem getMany_agree {n : ℕ} {s u : Pmm} {F : Set ℕ} (reads : ∀ f, s.Visits f → f ∈ F)
    (agree : AgreeOn F s u) :
    match getMany n s with
    | .ok (ps, s') => ∃ u', getMany n u = .ok (ps, u') ∧ AgreeOn F s' u'
    | .error e => getMany n u = .error e := by
  induction n generalizing s u with
  | zero => exact ⟨u, rfl, agree⟩
  | succ n ih =>
    have first := mmPhysicalGetRec_agree (2 ^ 40 + 1) reads agree
    rw [getMany, getMany, mmPhysicalGet, mmPhysicalGet]
    cases get : mmPhysicalGetRec (2 ^ 40 + 1) s with
    | error e =>
      rw [get] at first
      rw [first]
      rfl
    | ok r =>
      obtain ⟨p, s₁⟩ := r
      rw [get] at first
      obtain ⟨u₁, get', agree₁⟩ := first
      have more := ih (fun f hf => reads f ((mmPhysicalGetRec_got get).visits hf)) agree₁
      rw [get']
      simp only [Fallible.ok_bind]
      cases gets : getMany n s₁ with
      | error e =>
        rw [gets] at more
        rw [more]
        rfl
      | ok r =>
        obtain ⟨qs, s₂⟩ := r
        rw [gets] at more
        obtain ⟨u₂, gets', agree₂⟩ := more
        exact ⟨u₂, by rw [gets']; rfl, agree₂⟩

/-! ## The stacks of a layout -/

theorem Linked.prev_mem {frame : ℕ → PhysicalStack} {root : ℕ} {A : Layout} (h : Linked frame root A)
    {f : ℕ} (mem : f ∈ A.frames) (more : (frame f).prev ≠ 0) : (frame f).prev ∈ A.frames := by
  induction h with
  | root _ prev =>
    obtain rfl : f = root := by simpa using mem
    exact absurd prev more
  | cons _ _ prev _ ih =>
    rcases List.mem_cons.1 mem with rfl | mem
    · rw [prev]
      simp
    · exact List.mem_cons_of_mem _ (ih mem)

theorem Pmm.Holds.current_mem {s : Pmm} {A : Layout} (h : s.Holds A) : s.current ∈ A.frames := by
  obtain ⟨t, head, e⟩ := Option.map_eq_some_iff.1 h.current
  rw [← e]
  exact List.mem_map_of_mem (List.mem_of_mem_head? head)

/-- `mm_physical_get` reads only frames of the layout. -/
theorem Pmm.Holds.visits {s : Pmm} {A : Layout} (h : s.Holds A) {f : ℕ} (visits : s.Visits f) :
    f ∈ A.frames := by
  induction visits with
  | current => exact h.current_mem
  | prev _ more ih =>
    have mem := h.linked.prev_mem ih more
    rwa [(h.ok.phys _ (List.mem_append_left _ mem)).or_present_write]

/-- The window entry and the frames of the layout say all about it. -/
theorem Pmm.Holds.agree {s u : Pmm} {A : Layout} {F : Set ℕ} (h : s.Holds A) (agree : AgreeOn F s u)
    (root : u.root = s.root) (inside : ∀ f ∈ A.frames, f ∈ F) : u.Holds A := by
  refine ⟨?_, ?_, h.ok⟩
  · rw [root]
    refine h.linked.congr fun f hf => ?_
    rw [agree.frame f (inside f hf)]
    exact ⟨rfl, rfl⟩
  · rw [agree.current]
    exact h.current

/-! ## What `mm_physical_mark_free` writes -/

theorem Pmm.push_writes {s s' : Pmm} {a : ℕ} (call : s.push a = .ok s') :
    s'.pml1 = s.pml1 ∧ ∀ x, x ≠ s.current → s'.frame x = s.frame x := by
  rw [Pmm.push] at call
  obtain ⟨st, _, call⟩ := Fallible.bind_eq_ok.1 call
  injection call with call
  subst call
  exact ⟨rfl, fun x ne => update_of_ne ne _ _⟩

theorem Pmm.stackUp_writes (s : Pmm) {p : ℕ} (page : PhysPage p) :
    (s.stackUp p).current = p ∧ (s.stackUp p).pml1 511 &&& pagePresent ≠ 0 ∧
    ∀ x, x ≠ p → x ≠ s.current → (s.stackUp p).frame x = s.frame x := by
  have entry : (s.stackUp p).pml1 511 = p ||| pagePresent ||| pageWrite := by
    simp [Pmm.stackUp, mmPhysicalCreateStack, mmPhysicalNextStack, Pmm.setStack, Pmm.stack,
      Pmm.current]
  refine ⟨?_, ?_, fun x ne other => ?_⟩
  · rw [Pmm.current, entry, page.or_present_write]
  · rw [entry]
    exact present_of_or p
  · rw [Pmm.current] at other
    simp [Pmm.stackUp, mmPhysicalNextStack, Pmm.setStack, mmPhysicalCreateStack, Pmm.current,
      page.or_present_write, update_of_ne other, update_of_ne ne]

/-- Only pages of the layout are written, and the stack stays mapped. -/
theorem Pmm.Holds.markFree_writes {s s' : Pmm} {A : Layout} {a : ℕ} (h : s.Holds A)
    (present : s.pml1 511 &&& pagePresent ≠ 0) (call : mmPhysicalMarkFree a s = .ok s') :
    s'.pml1 511 &&& pagePresent ≠ 0 ∧ ∀ x, x ∉ A.frames ++ A.pages → s'.frame x = s.frame x := by
  rw [mmPhysicalMarkFree] at call
  split_ifs at call with room
  · obtain ⟨entries, frames⟩ := Pmm.push_writes call
    refine ⟨entries ▸ present, fun x hx => frames x fun e => hx ?_⟩
    exact e ▸ List.mem_append_left _ h.current_mem
  · obtain ⟨⟨p, s₁⟩, get, call⟩ := Fallible.bind_eq_ok.1 call
    obtain ⟨B, getA, holds⟩ := h.of_get get
    have got := mmPhysicalGetRec_got get
    have mem : p ∈ A.pages := (h.ok.get_pages getA).mem_iff.2 (by simp)
    obtain ⟨current, present', frames⟩ :=
      s₁.stackUp_writes (h.ok.phys p (List.mem_append_right _ mem))
    obtain ⟨entries, frames'⟩ := Pmm.push_writes call
    refine ⟨entries ▸ present', fun x hx => ?_⟩
    have notFrame : x ∉ A.frames := fun hx' => hx (List.mem_append_left _ hx')
    have ne : x ≠ p := fun e => hx (e ▸ List.mem_append_right _ mem)
    rw [frames' x (by rwa [current]), frames x ne, got.frame x fun visits =>
      notFrame (h.visits visits)]
    exact fun e => notFrame (h.visits (e ▸ got.current))

end Vineyard
